import MaeroOS.Ext2.ExtentLayout

/-!
# Rebuilding an extent tree

`x4_rebuild` puts a sorted list of extents into the old tree blocks, takes the blocks that are
missing and frees those that are left over (`rebuild_spec`). With as many tree blocks as the extents
need there is nothing to take, and it cannot fail (`rebuild_ok`).
-/

namespace MaeroOS.Ext2.Extents

open List
open Lib (Buf)
open Lib.RunMap
export Ext2.BlockMap (Grown Freed allocBlockGoal_spec)
open Ext2.BlockMap (blocksCount_lt)

variable {geo : Geometry} {alloc : Allocator geo} {d d' : Disk} {csum : Csum} {ino ino' : Inode}
  {n goal : Nat} {v : List Ext} {tb blks : List Nat}

/-! ## Shapes -/

/-- The parts of a list: enough for all of it, and none of them empty. -/
theorem ceil_spec {per : Nat} (hper : 0 < per) :
    n ≤ (n + per - 1) / per * per ∧ ∀ j < (n + per - 1) / per, j * per < n := by
  have hdiv := Nat.div_add_mod (n + per - 1) per
  have hmod := Nat.mod_lt (n + per - 1) hper
  rw [Nat.mul_comm] at hdiv
  refine ⟨by omega, fun j hj => ?_⟩
  have hmul : (j + 1) * per ≤ (n + per - 1) / per * per := Nat.mul_le_mul_right _ hj
  rw [Nat.succ_mul] at hmul
  omega

/-- What `shape` promises. -/
inductive Shape (geo : Geometry) (n : Nat) : Nat × Nat × Nat → Prop
  | root (h : n ≤ 4) : Shape geo n (0, 0, 0)
  | leaves {nleaf : Nat} (hle : nleaf ≤ 4) (hall : n ≤ nleaf * perBlock geo)
      (hsome : ∀ j < nleaf, j * perBlock geo < n) : Shape geo n (1, nleaf, 0)
  | indexes {nleaf nidx : Nat} (hle : nidx ≤ 4) (hall : n ≤ nleaf * perBlock geo)
      (hsome : ∀ j < nleaf, j * perBlock geo < n) (hall' : nleaf ≤ nidx * perBlock geo)
      (hsome' : ∀ u < nidx, u * perBlock geo < nleaf) : Shape geo n (2, nleaf, nidx)

theorem shape_spec {sh : Nat × Nat × Nat} (h : shape geo n = some sh) : Shape geo n sh := by
  obtain ⟨-, hper, -⟩ := @perBlock_bounds geo
  have hper : 0 < perBlock geo := by omega
  unfold shape at h
  dsimp only at h
  split at h
  next hn =>
    cases h
    exact .root hn
  obtain ⟨hall, hsome⟩ := ceil_spec hper
  split at h
  next hle =>
    cases h
    exact .leaves hle hall hsome
  obtain ⟨hall', hsome'⟩ := ceil_spec hper
  split at h
  · cases h
  next hle =>
    cases h
    exact .indexes (Nat.le_of_not_gt hle) hall hsome hall' hsome'

/-! ## Laying out -/

/-- The disk has a tree of the extents `v` in the blocks `blks`, and is else as before. -/
structure LaidOut (geo : Geometry) (d d' : Disk) (root : Buf) (v : List Ext) (blks : List Nat) :
    Prop where
  tree : ∃ k ≤ 2, ∃ t : Tree k, Reads geo d' k t root 60 ∧ Keys k t ∧ exts k t = v ∧
    (treeBlocks k t).Perm blks
  frame : ∀ x, x ∉ blks → d'.block x = d.block x
  used : d'.used = d.used
  freed : d'.freed = d.freed

theorem entries_lt (hok : ∀ x ∈ v, ExtOk x) (hblks : ∀ x ∈ blks, x < 2 ^ 32) {i j : Nat}
    (hi : i < v.length)
    (hj : j < blks.length) : lblkAt v i < 2 ^ 32 ∧ (blks[j]?).getD 0 < 2 ^ 32 := by
  rw [lblkAt_eq hi, getD_getElem? hj]
  have := (hok _ (getElem_mem hi)).stop
  exact ⟨by omega, hblks _ (getElem_mem hj)⟩

theorem getD_ne_of_not_mem {i x : Nat} (hx : x ∉ blks) (hi : i < blks.length) :
    (blks[i]?).getD 0 ≠ x := by
  rintro rfl
  rw [getD_getElem? hi] at hx
  exact hx (getElem_mem hi)

variable {nleaf : Nat}

theorem leafEntries_eq : leafEntries geo v blks nleaf = (children (leafTree geo v blks nleaf)).map
    fun c => (c.1, c.2.1) := by
  unfold leafEntries leafTree children
  rw [map_map]
  rfl

theorem leafEntries_lt (hok : ∀ x ∈ v, ExtOk x) (hblks : ∀ x ∈ blks, x < 2 ^ 32)
    (hsome : ∀ j < nleaf, j * perBlock geo < v.length) (hlen : nleaf ≤ blks.length) :
    ∀ e ∈ leafEntries geo v blks nleaf, e.1 < 2 ^ 32 ∧ e.2 < 2 ^ 32 := by
  intro e he
  obtain ⟨j, hj, rfl⟩ := mem_map.mp he
  have hj := mem_range.mp hj
  exact entries_lt hok hblks (hsome j hj) (by omega)

/-- The leaves go to their blocks, and no other block is written. -/
theorem writeLeaves_spec (hnodup : blks.Nodup) (hlen : nleaf ≤ blks.length) :
    let d' := writeLeaves geo csum v blks nleaf d
    (∀ j < nleaf, d'.block ((blks[j]?).getD 0) = leafBuf geo csum (chunk (perBlock geo) v j)) ∧
      (∀ x, x ∉ blks → d'.block x = d.block x) ∧ d'.used = d.used ∧ d'.freed = d.freed := by
  obtain ⟨hself, hother, hrest⟩ := foldl_writeBlock (fun j => (blks[j]?).getD 0)
    (fun j => leafBuf geo csum (chunk (perBlock geo) v j)) d nleaf fun i hi j hj =>
      getD_inj hnodup (by omega) (by omega)
  exact ⟨hself, fun x hx => hother x fun j hj => getD_ne_of_not_mem hx (by omega), hrest⟩

/-- The leaves read back once they are written, as long as nothing writes over them. -/
theorem leaves_read (hnodup : blks.Nodup) (hlen : nleaf ≤ blks.length) (hok : ∀ x ∈ v, ExtOk x)
    (hd : ∀ j < nleaf, d'.block ((blks[j]?).getD 0) = (writeLeaves geo csum v blks nleaf d).block
      ((blks[j]?).getD 0)) :
    ∀ c ∈ children (leafTree geo v blks nleaf),
      Reads geo d' 0 c.2.2 (d'.block c.2.1) geo.blockSize := by
  intro c hc
  obtain ⟨j, hj, rfl⟩ := mem_map.mp hc
  have hj := mem_range.mp hj
  rw [hd j hj, (writeLeaves_spec hnodup hlen).1 j hj]
  exact leafBuf_reads length_chunk_le fun x hx => hok x (chunk_sublist.subset hx)

/-- **What `x4_rebuild` writes is a tree of its extents.** -/
theorem layOut_spec {sh : Nat × Nat × Nat} (hsh : Shape geo v.length sh)
    (hlen : blks.length = sh.2.1 + sh.2.2)
    (hnodup : blks.Nodup) (hblks : ∀ x ∈ blks, x < 2 ^ 32) (hsorted : Sorted v)
    (hok : ∀ x ∈ v, ExtOk x) (h : layOut geo csum v blks sh d ino = (d', ino')) :
    LaidOut geo d d' ino'.root v blks ∧ ino'.blocks = ino.blocks := by
  cases hsh with
  | root hn =>
    unfold layOut at h
    dsimp only at h
    rw [if_pos rfl] at h
    cases h
    obtain rfl : blks = [] := length_eq_zero_iff.mp hlen
    refine ⟨⟨⟨0, by decide, v, ?_, trivial, rfl, .refl _⟩, fun _ _ => rfl, rfl, rfl⟩, rfl⟩
    exact leaf_reads 4 hn (by decide) (by decide) hok fun _ _ => rfl
  | @leaves nleaf hle hall hsome =>
    unfold layOut at h
    dsimp only at h
    rw [if_neg (by decide), if_pos rfl] at h
    cases h
    change blks.length = nleaf at hlen
    obtain ⟨-, hother, hused, hfreed⟩ := writeLeaves_spec hnodup (le_of_eq hlen.symm)
    refine ⟨⟨⟨1, by decide, leafTree geo v blks nleaf, ?_, leafTree_keys hsorted hsome,
      exts_leafTree hall, ?_⟩, hother, hused, hfreed⟩, rfl⟩
    · have hlength : (leafEntries geo v blks nleaf).length = nleaf := by
        unfold leafEntries
        rw [length_map, length_range]
      exact index_reads 4 leafEntries_eq (by omega) (by decide) (by decide) (by decide)
        (leafEntries_lt hok hblks hsome (le_of_eq hlen.symm))
        (leaves_read hnodup (le_of_eq hlen.symm) hok fun _ _ => rfl) fun q _ => by rw [hlength]
    · rw [treeBlocks_leafTree hlen]
  | @indexes nleaf nidx hle hall hsome hall' hsome' =>
    unfold layOut at h
    dsimp only at h
    rw [if_neg (by decide), if_neg (by decide)] at h
    cases h
    dsimp only at hlen
    obtain ⟨-, hother, hused, hfreed⟩ := @writeLeaves_spec geo d csum v blks nleaf hnodup (by omega)
    obtain ⟨hself', hother', hused', hfreed'⟩ :=
      foldl_writeBlock (fun u => (blks[nleaf + u]?).getD 0)
        (fun u => indexBuf geo csum (chunk (perBlock geo) (leafEntries geo v blks nleaf) u))
        (writeLeaves geo csum v blks nleaf d) nidx fun i hi j hj heq => by
          have := getD_inj hnodup (by omega) (by omega) heq
          omega
    have hbound := leafEntries_lt hok hblks hsome (show nleaf ≤ blks.length by omega)
    set d₂ := writeIndexes geo csum v blks nleaf nidx (writeLeaves geo csum v blks nleaf d)
    -- index blocks are written after the leaves, elsewhere
    have hleaves : ∀ c ∈ children (leafTree geo v blks nleaf),
        Reads geo d₂ 0 c.2.2
          (d₂.block c.2.1) geo.blockSize := by
      refine leaves_read hnodup (by omega) hok fun j hj => hother' _ fun u hu heq => ?_
      have := getD_inj hnodup (by omega) (by omega) heq
      omega
    have hes' : indexEntries geo v blks nleaf nidx =
        (children (indexTree geo v blks nleaf nidx)).map fun c => (c.1, c.2.1) := by
      unfold indexEntries indexTree children
      rw [map_map]
      rfl
    have hlength : (indexEntries geo v blks nleaf nidx).length = nidx := by
      unfold indexEntries
      rw [length_map, length_range]
    refine ⟨⟨⟨2, by decide, indexTree geo v blks nleaf nidx, ?_,
      indexTree_keys hsorted hsome hsome',
      exts_indexTree hall hall', treeBlocks_indexTree hlen hall'⟩, ?_, hused'.trans hused,
        hfreed'.trans hfreed⟩, rfl⟩
    · refine index_reads 4 hes' (by omega) (by decide) (by decide) (by decide) ?_ ?_ fun q _ => by
        rw [hlength]
      · intro e he
        obtain ⟨u, hu, rfl⟩ := mem_map.mp he
        have hu := mem_range.mp hu
        exact entries_lt hok hblks (hsome _ (hsome' u hu)) (by omega)
      · intro c hc
        obtain ⟨u, hu, rfl⟩ := mem_map.mp hc
        have hu := mem_range.mp hu
        unfold d₂ writeIndexes
        rw [hself' u hu]
        have hchunk : chunk (perBlock geo) (leafEntries geo v blks nleaf) u =
            (chunk (perBlock geo) (children (leafTree geo v blks nleaf)) u).map fun c =>
              (c.1, c.2.1) := by
          unfold chunk
          rw [leafEntries_eq, map_take, map_drop]
        refine indexBuf_reads hchunk length_chunk_le
          (fun e he => hbound e (chunk_sublist.subset he)) fun c hc => ?_
        exact hleaves c (chunk_sublist.subset hc)
    · exact fun x hx => (hother' x fun u hu => getD_ne_of_not_mem hx (by omega)).trans (hother x hx)

/-! ## Blocks -/

/-- `i_blocks` with `k` more blocks. -/
def addBlocks (geo : Geometry) (ino : Inode) (k : Nat) : Inode :=
  { ino with blocks := ino.blocks + BitVec.ofNat 32 (k * geo.sectorsPerBlock) }

theorem takeBlocks_spec : ∀ (k : Nat) {taken out : List Nat} {d d' : Disk} {ino ino' : Inode},
    takeBlocks alloc goal k taken d ino = (some out, d', ino') →
      ∃ new, out = taken ++ new ∧ new.length = k ∧ Grown geo [] d d' new ∧
        ino' = addBlocks geo ino k := by
  intro k
  induction k with
  | zero =>
    intro taken out d d' ino ino' h
    rw [takeBlocks] at h
    cases h
    refine ⟨[], (append_nil _).symm, rfl, .refl, ?_⟩
    rw [addBlocks, Nat.zero_mul, BitVec.add_zero]
  | succ k ih =>
    intro taken out d d' ino ino' h
    rw [takeBlocks] at h
    rcases halloc : allocBlockGoal alloc goal false d with ⟨b, d₁⟩
    rw [halloc] at h
    dsimp only at h
    by_cases hb : b = 0
    · rw [if_pos hb] at h
      cases h
    rw [if_neg hb] at h
    obtain ⟨hgrown, -⟩ := allocBlockGoal_spec halloc hb
    obtain ⟨new, rfl, hlen, hgrown', rfl⟩ := ih h
    refine ⟨b :: new, ?_, ?_, hgrown.trans hgrown' nofun, ?_⟩
    · rw [append_assoc, singleton_append]
    · rw [length_cons, hlen]
    · unfold addBlocks countBlock
      rw [BitVec.add_assoc, ← BitVec.ofNat_add, Nat.succ_mul, Nat.add_comm]

theorem foldl_freeBlock (bs : List Nat) : ∀ d : Disk, Freed [] d (bs.foldl freeBlock d) bs := by
  induction bs with
  | nil => exact fun d => .refl
  | cons b bs ih =>
    intro d
    have hfirst : Freed [] d (freeBlock d b) [b] := .freeBlock
    exact hfirst.trans (ih (freeBlock d b))

/-- Every block that goes is taken off `i_blocks`, as long as that counted it. -/
theorem uncount_iterate (k : Nat) :
    ∀ {ino : Inode} {m : Nat}, ino.blocks.toNat = m * geo.sectorsPerBlock → k ≤ m →
    ((fun ino => uncountBlock geo ino)^[k] ino).blocks.toNat = (m - k) * geo.sectorsPerBlock ∧
      ((fun ino => uncountBlock geo ino)^[k] ino).root = ino.root := by
  induction k with
  | zero => exact fun h _ => ⟨h, rfl⟩
  | succ k ih =>
    intro ino m h hle
    have hge : geo.sectorsPerBlock ≤ ino.blocks.toNat := by
      rw [h]
      exact Nat.le_mul_of_pos_left _ (by omega)
    have hlt : geo.sectorsPerBlock < 2 ^ 32 := lt_of_le_of_lt hge ino.blocks.isLt
    have hstep : (uncountBlock geo ino).blocks.toNat = (m - 1) * geo.sectorsPerBlock ∧
        (uncountBlock geo ino).root = ino.root := by
      unfold uncountBlock
      rw [if_pos hge]
      refine ⟨?_, rfl⟩
      rw [BitVec.toNat_sub_of_le, BitVec.toNat_ofNat, Nat.mod_eq_of_lt hlt, h, Nat.sub_mul,
        Nat.one_mul]
      rw [BitVec.le_def, BitVec.toNat_ofNat, Nat.mod_eq_of_lt hlt]
      exact hge
    rw [Function.iterate_succ_apply]
    obtain ⟨hblocks, hroot⟩ := ih hstep.1 (by omega)
    rw [hblocks, hroot]
    exact ⟨by rw [Nat.sub_sub, Nat.add_comm 1 k], hstep.2⟩

/-! ## `x4_rebuild` -/

/-- What a rebuild does with the old tree blocks `tb`: it keeps some, and takes others or lets the
rest go. -/
structure Rebuilt (geo : Geometry) (fs fs' : Fs) (ino ino' : Inode) (v : List Ext)
    (tb kept taken gone : List Nat) : Prop where
  old : tb = kept ++ gone
  one : taken = [] ∨ gone = []
  size : ∀ sh, shape geo v.length = some sh → (kept ++ taken).length = sh.2.1 + sh.2.2
  enough : ∀ sh, shape geo v.length = some sh → sh.2.1 + sh.2.2 ≤ tb.length → taken = []
  grown : ∀ x ∈ taken, 0 < x ∧ x < geo.blocksCount ∧ fs.disk.used x = false
  nodup : taken.Nodup
  tree : ∃ k ≤ 2, ∃ t : Tree k, Reads geo fs'.disk k t ino'.root 60 ∧ Keys k t ∧ exts k t = v ∧
    (treeBlocks k t).Perm (kept ++ taken)
  frame : ∀ x, x ∉ kept ++ taken → fs'.disk.block x = fs.disk.block x
  used : ∀ x, fs'.disk.used x = if x ∈ gone then false
    else if x ∈ taken then true else fs.disk.used x
  freed : fs'.disk.freed = fs.disk.freed ++ gone
  blocks : ∀ m, ino.blocks.toNat = m * geo.sectorsPerBlock → gone.length ≤ m →
    (m + taken.length) * geo.sectorsPerBlock < 2 ^ 32 →
      ino'.blocks.toNat = (m + taken.length - gone.length) * geo.sectorsPerBlock
  xgen : fs'.xgen = fs.xgen + 1
  cache : fs'.cache = fs.cache

/-- **What `x4_rebuild` does** when it succeeds. -/
theorem rebuild_spec {fs fs' : Fs} (hsorted : Sorted v) (hok : ∀ x ∈ v, ExtOk x) (htb : tb.Nodup)
    (hused : ∀ x ∈ tb, fs.disk.used x = true) (hlt : ∀ x ∈ tb, x < geo.blocksCount)
    (h : rebuild alloc csum fs ino v tb goal = (true, fs', ino')) :
    ∃ kept taken gone, Rebuilt geo fs fs' ino ino' v tb kept taken gone := by
  unfold rebuild at h
  cases hshape : shape geo v.length with
  | none =>
    rw [hshape] at h
    cases h
  | some sh =>
    rw [hshape] at h
    dsimp only at h
    rcases htake : takeBlocks alloc goal (sh.2.1 + sh.2.2 - tb.length) [] fs.disk
      ino with ⟨out, d₁, ino₁⟩
    rw [htake] at h
    rcases out with _ | out
    · cases h
    dsimp only at h
    obtain ⟨taken, hout, hlen, hgrown, rfl⟩ := takeBlocks_spec _ htake
    rw [nil_append] at hout
    subst hout
    unfold dropBlocks at h
    generalize hneed : sh.2.1 + sh.2.2 = need at h hlen
    have hdrop := foldl_freeBlock (tb.drop need) d₁
    generalize hd₂ : (tb.drop need).foldl freeBlock d₁ = d₂ at h hdrop
    generalize hino₂ : (fun ino => uncountBlock geo ino)^[(tb.drop need).length] _ = ino₂ at h
    have hnodup : (tb.take need ++ out).Nodup := by
      refine nodup_append'.mpr ⟨htb.sublist (take_sublist _ _), hgrown.nodup, fun x hx hx' => ?_⟩
      exact hgrown.not_mem (hused x (mem_of_mem_take hx)) hx'
    have hbound : ∀ x ∈ tb.take need ++ out, x < 2 ^ 32 := by
      intro x hx
      rcases mem_append.mp hx with hx | hx
      · exact lt_of_lt_of_le (hlt x (mem_of_mem_take hx)) blocksCount_lt
      · exact hgrown.lt hx
    have hblks : (tb.take need ++ out).length = sh.2.1 + sh.2.2 := by
      rw [length_append, length_take, hlen, hneed]
      omega
    rcases hlay : layOut geo csum v (tb.take need ++ out) sh d₂ ino₂ with ⟨d₃, ino₃⟩
    rw [hlay] at h
    cases h
    obtain ⟨hlaid, hblocks⟩ := layOut_spec (shape_spec hshape) hblks hnodup hbound hsorted hok hlay
    refine ⟨tb.take need, out, tb.drop need, (take_append_drop need tb).symm, ?_,
      fun sh' hsh' => ?_,
      fun sh' hsh' hle => ?_, hgrown.fresh, hgrown.nodup, hlaid.tree, fun x hx => ?_, fun x => ?_,
        ?_, fun m hm hle hfits => ?_, rfl, rfl⟩
    · by_cases hcmp : need ≤ tb.length
      · exact .inl (length_eq_zero_iff.mp (by omega))
      · exact .inr (drop_of_length_le (by omega))
    · rw [hshape] at hsh'
      cases hsh'
      exact hblks
    · rw [hshape] at hsh'
      cases hsh'
      exact length_eq_zero_iff.mp (by omega)
    · rw [hlaid.frame x hx, hdrop.frame x not_mem_nil]
      exact hgrown.frame x not_mem_nil fun hx' => hx (mem_append_right _ hx')
    · rw [hlaid.used, hdrop.used, hgrown.used]
    · rw [hlaid.freed, hdrop.freed, hgrown.freed]
    · rw [hblocks, ← hino₂]
      refine (uncount_iterate _ ?_ (by omega)).1
      unfold addBlocks
      rw [Nat.add_mul] at hfits ⊢
      rw [BitVec.toNat_add, BitVec.toNat_ofNat, hm, hlen] at *
      rw [Nat.mod_eq_of_lt (a := (need - tb.length) * _) (by omega), Nat.mod_eq_of_lt (by omega)]

/-- **With the tree blocks it needs, `x4_rebuild` cannot fail.** -/
theorem rebuild_ok {fs : Fs} {sh : Nat × Nat × Nat} (hshape : shape geo v.length = some sh)
    (hneed : sh.2.1 + sh.2.2 ≤ tb.length) : (rebuild alloc csum fs ino v tb goal).1 = true := by
  unfold rebuild
  rw [hshape]
  dsimp only
  rw [Nat.sub_eq_zero_of_le hneed]
  rfl

end MaeroOS.Ext2.Extents
