import MaeroOS.Ext2.BlockFile

/-!
# The three walks over a block map agree

`ext2_free_blocks_from` cuts the trees of a file one after another (`freeBlocksFrom_spec`). With
what looking up and mapping do, the three walks agree on every index (`block_map_agrees`).
-/

namespace MaeroOS.Ext2.BlockMap

open List
open Lib.PtrTree

variable {geo : Geometry} {alloc : Allocator geo} {d d' : Disk} {ino ino' : Inode}
  {s off idx fromIdx b x k : Nat}

/-! ## Cutting a file -/

/-- `ext2_free_blocks_from` before slot `k`, with the blocks that are gone so far. -/
structure FileLoop (geo : Geometry) (fromIdx : Nat) (d : Disk) (ino : Inode)
    (st : Disk × Inode × Nat) (gone : List Nat) (k : Nat) : Prop where
  cut : ForestCut geo.ppb fromIdx 15 slotLevel (slotBase geo) ino.slot st.2.1.slot (entry d)
    (entry st.1) gone k
  freed : Freed (pointerBlocks geo d ino) d st.1 gone
  sectors : st.2.1.blocks = ino.blocks
  count : st.2.2 = gone.length

variable {st : Disk × Inode × Nat} {gone : List Nat}

variable (h : FileLoop geo fromIdx d ino st gone k)

include h

variable (hok : FileOk geo d ino)

include hok

/-- The tree of slot `k` is cut to `r`. -/
theorem FileLoop.step (hk : k < 15) {r : Nat} {more : List Nat} {d' : Disk} {ino' : Inode}
    (hcut : Cut geo fromIdx (slotLevel k) (slotBase geo k) (st.2.1.slot k) r st.1 d' more)
    (hslot : ino'.slot = Function.update st.2.1.slot k r) (hblocks : ino'.blocks = st.2.1.blocks) :
    FileLoop geo fromIdx d ino (d', ino', st.2.2 + more.length) (gone ++ more) (k + 1) := by
  have htables := h.cut.next_tables hk
  refine ⟨?_, ?_, hblocks.trans h.sectors, ?_⟩
  · dsimp only
    rw [hslot]
    refine h.cut.step hok.nodup hk hcut.map hcut.perm fun x hx _ i _ => ?_
    exact congrFun (entry_eq_of_block (hcut.freed.frame x fun hmem =>
      hx (mem_blocks_of_mem_tables hmem))) i
  · refine h.freed.trans (hcut.freed.mono fun x hx => ?_)
    rw [htables] at hx
    exact mem_flatMap.mpr ⟨k, mem_range.mpr hk, hx⟩
  · rw [h.count, length_append]

/-- The tree of slot `k` is left as it is. -/
theorem FileLoop.skip (hk : k < 15)
    (hmap : CutMap geo.ppb fromIdx (slotLevel k) (slotBase geo k) (st.2.1.slot k) (st.2.1.slot k)
      (entry st.1) (entry st.1)) : FileLoop geo fromIdx d ino st gone (k + 1) := by
  have hcut : Cut geo fromIdx (slotLevel k) (slotBase geo k) (st.2.1.slot k) (st.2.1.slot k) st.1
      st.1 [] :=
    ⟨hmap, .refl _, .refl⟩
  have hself : st.2.1.slot = Function.update st.2.1.slot k (st.2.1.slot k) :=
    (Function.update_eq_self k _).symm
  have hstep := h.step hok hk hcut hself rfl
  rwa [append_nil] at hstep

/-- The tree that comes next is in order. -/
theorem FileLoop.next (hk : k < 15) :
    (blocks geo.ppb (entry st.1) (slotLevel k) (st.2.1.slot k)).Nodup ∧
      Full geo.ppb (entry st.1) (slotLevel k) (st.2.1.slot k) := by
  have hblocks := h.cut.next_blocks hk
  obtain ⟨hroot, hagree⟩ := h.cut.todo k hk (le_refl k)
  rw [hblocks, hroot]
  exact ⟨nodup_of_forest hok.nodup hk, full_congr hagree (hok.full k hk)⟩

theorem freeDirect_step (hk : k < 12) :
    ∃ gone, FileLoop geo fromIdx d ino (freeDirect fromIdx st k) gone (k + 1) := by
  have hk' : k < 15 := by omega
  obtain ⟨-, hfull⟩ := h.next hok hk'
  obtain ⟨d₁, ino₁, freed₁⟩ := st
  unfold freeDirect
  dsimp only at *
  by_cases hgo : k ≥ fromIdx ∧ ino₁.slot k ≠ 0
  · rw [if_pos hgo]
    have hcut : Cut geo fromIdx (slotLevel k) (slotBase geo k) (ino₁.slot k) 0 d₁
        (freeBlock d₁ (ino₁.slot k)) [ino₁.slot k] := by
      rw [slotLevel_direct hk, slotBase_direct hk]
      refine ⟨.data hgo.1, ?_, .freeBlock⟩
      simp [blocks, hgo.2]
    exact ⟨_, h.step hok hk' hcut rfl rfl⟩
  · rw [if_neg hgo]
    refine ⟨_, h.skip hok hk' ?_⟩
    by_cases hzero : ino₁.slot k = 0
    · rw [hzero]
      exact .none
    · apply CutMap.below hfull
      rw [slotLevel_direct hk, slotBase_direct hk, Nat.pow_zero]
      omega

omit h

omit hok in
theorem freeTree_step {l : Nat} (h : FileLoop geo fromIdx d ino st gone (11 + l))
    (hok : FileOk geo d ino) (hl : 1 ≤ l)
    (hl' : l ≤ 3) : ∃ gone,
      FileLoop geo fromIdx d ino (freeTree geo fromIdx l (slotBase geo (11 + l)) st) gone
      (11 + l + 1) := by
  have hk : 11 + l < 15 := by omega
  have hlevel : slotLevel (11 + l) = l := by
    unfold slotLevel
    omega
  obtain ⟨hnodup, hfull⟩ := h.next hok hk
  obtain ⟨d₁, ino₁, freed₁⟩ := st
  rw [hlevel] at hnodup hfull
  unfold freeTree
  dsimp only at *
  by_cases hgo : ino₁.slot (11 + l) ≠ 0 ∧ slotBase geo (11 + l) + geo.ppb ^ l > fromIdx
  · rw [if_pos hgo]
    obtain ⟨r, d₂, more, heq, hr, hcut⟩ :=
      freeSubtree_spec l _ (slotBase geo (11 + l)) d₁ freed₁ hgo.1 hnodup hfull hgo.2
    rw [heq]
    refine ⟨_, h.step hok hk (r := r) ?_ ?_ ?_⟩
    · rw [hlevel]
      exact hcut
    · by_cases hgone : r = 0
      · rw [if_pos (decide_eq_true hgone), hgone]
        rfl
      · rw [if_neg (by simp [hgone]), hr.resolve_right hgone]
        exact (Function.update_eq_self _ _).symm
    · split <;> rfl
  · rw [if_neg hgo]
    refine ⟨_, h.skip hok hk ?_⟩
    rw [hlevel]
    by_cases hzero : ino₁.slot (11 + l) = 0
    · rw [hzero]
      exact .none
    · apply CutMap.below hfull
      omega

/-- All slots. -/
theorem freeSlots_run :
    ∃ gone, FileLoop geo fromIdx d ino (freeTree geo fromIdx 3 (12 + geo.ppb + geo.ppb ^ 2)
      (freeTree geo fromIdx 2 (12 + geo.ppb) (freeTree geo fromIdx 1 12
        ((range 12).foldl (freeDirect fromIdx) (d, ino, 0))))) gone 15 := by
  have hdirect : ∀ k ≤ 12, ∃ gone,
      FileLoop geo fromIdx d ino ((range k).foldl (freeDirect fromIdx) (d, ino, 0)) gone k := by
    intro k
    induction k with
    | zero => exact fun _ => ⟨[], .init, .refl, rfl, rfl⟩
    | succ k ih =>
      intro hk
      obtain ⟨gone, hloop⟩ := ih (by omega)
      rw [range_succ, foldl_append]
      exact freeDirect_step hloop hok (by omega)
  obtain ⟨_, h12⟩ := hdirect 12 le_rfl
  obtain ⟨_, h13⟩ := freeTree_step (l := 1) h12 hok (by decide) (by decide)
  obtain ⟨_, h14⟩ := freeTree_step (l := 2) h13 hok (by decide) (by decide)
  exact freeTree_step h14 hok (by decide) (by decide)

omit hok

/-- A file cut at `from`, with the blocks `gone` freed. -/
structure FileCut (geo : Geometry) (fromIdx : Nat) (d d' : Disk) (ino ino' : Inode)
    (gone : List Nat) : Prop where
  cut : ForestCut geo.ppb fromIdx 15 slotLevel (slotBase geo) ino.slot ino'.slot (entry d)
    (entry d') gone 15
  freed : Freed (pointerBlocks geo d ino) d d' gone
  ok : FileOk geo d' ino'

/-- The map that is left. -/
theorem fileBlk_cut {d d' : Disk} {ino ino' : Inode}
    (h : ForestCut geo.ppb fromIdx 15 slotLevel (slotBase geo) ino.slot
    ino'.slot (entry d) (entry d') gone 15) (j : Nat) :
    fileBlk geo d' ino' j = if j < fromIdx then fileBlk geo d ino j else 0 := by
  by_cases hj : j < maxBlocks geo
  · obtain ⟨s, off, hs, hoff, rfl⟩ := exists_place hj
    rw [fileBlk_eq hs hoff, fileBlk_eq hs hoff]
    exact (h.done s hs hs).lookup off hoff
  · rw [fileBlk_beyond (Nat.le_of_not_lt hj), fileBlk_beyond (Nat.le_of_not_lt hj), ite_self]

/-- Every block of a file is on the path of a mapped index. -/
theorem exists_filePath (hfull : ∀ s < 15, Full geo.ppb (entry d) (slotLevel s) (ino.slot s))
    (hx : x ∈ fileBlocks geo d ino) : ∃ j < maxBlocks geo, fileBlk geo d ino j ≠ 0 ∧
      x ∈ filePath geo d ino j := by
  obtain ⟨s, hs, hx⟩ := mem_forest.mp hx
  obtain ⟨i, hi, hne, hmem⟩ := exists_trail (hfull s hs) hx
  refine ⟨slotBase geo s + i, (place_eq hs hi).2, ?_, ?_⟩
  · rw [fileBlk_eq hs hi]
    exact hne
  · rw [filePath_eq hs hi]
    exact hmem

/-- A count that stops at 0, with no need to. -/
theorem toNat_countDown {x : BitVec 32} {n k : Nat} (h : x.toNat = n + k) :
    (if x > BitVec.ofNat 32 n then x - BitVec.ofNat 32 n else 0).toNat = k := by
  have hn : (BitVec.ofNat 32 n).toNat = n := Nat.mod_eq_of_lt (by have := x.isLt; omega)
  split
  · next hgt =>
    rw [BitVec.toNat_sub_of_le (BitVec.le_of_lt hgt), hn]
    omega
  · next hle =>
    rw [gt_iff_lt, BitVec.lt_def, hn] at hle
    show 0 = k
    omega

/-- **What `ext2_free_blocks_from` does.** -/
theorem freeBlocksFrom_spec (hok : FileOk geo d ino)
    (h : freeBlocksFrom geo d ino fromIdx = (d', ino')) :
    ∃ gone, FileCut geo fromIdx d d' ino ino' gone := by
  obtain ⟨gone, hloop⟩ := freeSlots_run hok
  unfold freeBlocksFrom at h
  dsimp only at h
  generalize freeTree geo fromIdx 3 (12 + geo.ppb + geo.ppb ^ 2) _ = st at hloop h
  obtain ⟨d₁, ino₁, freed₁⟩ := st
  obtain ⟨hcut, hfreed, hblocks, hcount⟩ := hloop
  have hslot : ino'.slot = ino₁.slot := by
    cases h
    rfl
  have hd : d₁ = d' := by
    cases h
    rfl
  subst hd
  rw [← hslot] at hcut
  have hnodup := hcut.nodup hok.nodup
  have hmem : ∀ x ∈ fileBlocks geo d₁ ino', x ∈ fileBlocks geo d ino := fun x hx =>
    hcut.perm.mem_iff.mp (mem_append_right _ hx)
  have hfull : ∀ s < 15, Full geo.ppb (entry d₁) (slotLevel s) (ino'.slot s) :=
    fun s hs => (hcut.done s hs hs).full
  have hlen : gone.length + (fileBlocks geo d₁ ino').length = (fileBlocks geo d ino).length := by
    rw [← length_append]
    exact hcut.perm.length_eq
  refine ⟨gone, hcut, hfreed, hnodup.of_append_right, fun x hx => ?_, fun x hx =>
    hok.lt x (hmem x hx), hfull, ?_⟩
  · rw [hfreed.used, if_neg fun hgone => (disjoint_of_nodup_append hnodup) hgone hx]
    exact hok.used x (hmem x hx)
  · -- the sectors that are left
    have hbefore := hok.count
    rw [← hlen, Nat.add_mul] at hbefore
    have hblocks' : ino'.blocks = if fromIdx = 0 then 0 else
        if ino.blocks > BitVec.ofNat 32 (gone.length * geo.sectorsPerBlock) then
          ino.blocks - BitVec.ofNat 32 (gone.length * geo.sectorsPerBlock) else 0 := by
      cases h
      rw [hblocks, hcount]
    rw [hblocks']
    by_cases hzero : fromIdx = 0
    · -- nothing is left, or a block would be on the path of an index
      have hnone : fileBlocks geo d₁ ino' = [] := by
        rw [eq_nil_iff_forall_not_mem]
        intro x hx
        obtain ⟨j, -, hne, -⟩ := exists_filePath hfull hx
        rw [fileBlk_cut hcut, if_neg (by omega)] at hne
        exact hne rfl
      rw [if_pos hzero, hnone, length_nil, Nat.zero_mul]
      rfl
    · rw [if_neg hzero]
      exact toNat_countDown hbefore

/-! ## All three -/

/-- The blocks that a cut frees. -/
theorem FileCut.mem_gone (h : FileCut geo fromIdx d d' ino ino' gone) (hok : FileOk geo d ino) :
    x ∈ gone ↔ (∃ j, fromIdx ≤ j ∧ x ≠ 0 ∧ fileBlk geo d ino j = x) ∨
      (x ∈ pointerBlocks geo d ino ∧ ∀ j < fromIdx, fileBlk geo d ino j ≠ 0 →
        x ∉ filePath geo d ino j) := by
  have hnodup := h.cut.nodup hok.nodup
  have hleft : x ∈ fileBlocks geo d ino → (x ∈ gone ↔ x ∉ fileBlocks geo d' ino') := by
    intro hx
    have hmem := h.cut.perm.mem_iff.mpr hx
    constructor
    · exact fun hgone hkept => disjoint_of_nodup_append hnodup hgone hkept
    · exact fun hkept => (mem_append.mp hmem).resolve_right hkept
  -- the path of an index that stays mapped stays, and so do the blocks on it
  have hstays : ∀ j < fromIdx, fileBlk geo d ino j ≠ 0 →
      filePath geo d' ino' j = filePath geo d ino j ∧
      ∀ y ∈ filePath geo d ino j, y ∈ fileBlocks geo d' ino' := by
    intro j hj hne
    obtain ⟨s, off, hs, hoff, rfl⟩ := exists_place_of_ne hne
    rw [fileBlk_eq hs hoff] at hne
    have htrail := (h.cut.done s hs hs).trail off hoff hj hne
    rw [filePath_eq hs hoff, filePath_eq hs hoff]
    refine ⟨htrail, fun y hy => mem_forest.mpr ⟨s, hs, ?_⟩⟩
    rw [← htrail] at hy
    exact mem_blocks_of_mem_trail hoff hy
  -- a block that stays is on the path of an index that stays
  have hpath : x ∈ fileBlocks geo d' ino' →
      ∃ j < fromIdx, fileBlk geo d ino j ≠ 0 ∧ x ∈ filePath geo d ino j := by
    intro hx
    obtain ⟨j, -, hne, hmem⟩ := exists_filePath h.ok.full hx
    rw [fileBlk_cut h.cut] at hne
    by_cases hj : j < fromIdx
    · rw [if_pos hj] at hne
      rw [(hstays j hj hne).1] at hmem
      exact ⟨j, hj, hne, hmem⟩
    · rw [if_neg hj] at hne
      exact absurd rfl hne
  constructor
  · intro hgone
    have hx : x ∈ fileBlocks geo d ino := h.cut.perm.mem_iff.mp (mem_append_left _ hgone)
    have hkept := (hleft hx).mp hgone
    obtain ⟨s, hs, hmem⟩ := mem_forest.mp hx
    rcases mem_blocks_cases hmem with htable | ⟨i, hi, hlook⟩
    · refine .inr ⟨mem_flatMap.mpr ⟨s, mem_range.mpr hs, htable⟩, fun j hj hne hon => ?_⟩
      exact hkept ((hstays j hj hne).2 x hon)
    · have hx0 := ne_zero_of_mem_blocks hmem
      have hblk : fileBlk geo d ino (slotBase geo s + i) = x := (fileBlk_eq hs hi).trans hlook
      refine .inl ⟨_, ?_, hx0, hblk⟩
      by_contra hlt
      apply hkept
      apply (hstays _ (Nat.lt_of_not_le hlt) (by rwa [hblk])).2
      rw [filePath_eq hs hi, ← hlook]
      exact lookup_mem_trail (by rwa [hlook])
  · rintro (⟨j, hj, hx0, hblk⟩ | ⟨htable, hoff⟩)
    · obtain ⟨s, off, hs, hoff, rfl⟩ := exists_place_of_ne (hblk ▸ hx0)
      rw [fileBlk_eq hs hoff] at hblk
      have htrail : x ∈ trail geo.ppb (entry d) (slotLevel s) (ino.slot s) off := by
        rw [← hblk]
        exact lookup_mem_trail (by rwa [hblk])
      have hx := mem_blocks_of_mem_trail hoff htrail
      rw [hleft (mem_forest.mpr ⟨s, hs, hx⟩)]
      intro hkept
      -- it would be on the path of an earlier index, but it is the data block of this one
      obtain ⟨j, hjlt, hne, hmem⟩ := hpath hkept
      obtain ⟨t, o, ht, ho, rfl⟩ := exists_place_of_ne hne
      rw [filePath_eq ht ho] at hmem
      have hts : t = s := by
        by_contra hne
        exact forest_disjoint hok.nodup ht hs hne (mem_blocks_of_mem_trail ho hmem) hx
      subst hts
      have heq :=
        eq_of_mem_trail (nodup_of_forest hok.nodup hs) hoff ho (by rwa [hblk]) (by rwa [hblk])
      omega
    · obtain ⟨s, hs, htable⟩ := mem_flatMap.mp htable
      rw [hleft (mem_forest.mpr ⟨s, mem_range.mp hs, mem_blocks_of_mem_tables htable⟩)]
      intro hkept
      obtain ⟨j, hj, hne, hmem⟩ := hpath hkept
      exact hoff j hj hne hmem

/-- **Looking up, mapping and cutting agree on every index.** A file block that
`ext2_file_blk_alloc` returns is what `ext2_file_blk` then finds, at this index and no other.
`ext2_free_blocks_from` leaves the map below `from`, and frees the data blocks from there on and the
pointer blocks that no mapped index needs any more, each once. Either way the file stays in order,
with `i_blocks` counting all its blocks. -/
theorem block_map_agrees (alloc : Allocator geo) (d : Disk) (ino : Inode) (hok : FileOk geo d ino) :
    (∀ idx < 2 ^ 32, ∀ blk d' ino', fileBlkAlloc alloc d ino idx = (blk, d', ino') →
      blk ≠ 0 ∨ maxBlocks geo ≤ idx → fileBlk geo d' ino' idx = blk ∧
        (∀ j < 2 ^ 32, j ≠ idx → fileBlk geo d' ino' j = fileBlk geo d ino j) ∧
          FileOk geo d' ino') ∧
    ∀ fromIdx < 2 ^ 32, ∀ d' ino', freeBlocksFrom geo d ino fromIdx = (d', ino') →
      (∀ j < 2 ^ 32, fileBlk geo d' ino' j = if j < fromIdx then fileBlk geo d ino j else 0) ∧
        (∃ gone, d'.freed = d.freed ++ gone ∧ gone.Nodup ∧
          (∀ x, d'.used x = if x ∈ gone then false else d.used x) ∧
          ∀ x, x ∈ gone ↔ (∃ j, fromIdx ≤ j ∧ x ≠ 0 ∧ fileBlk geo d ino j = x) ∨
            (x ∈ pointerBlocks geo d ino ∧ ∀ j < fromIdx, fileBlk geo d ino j ≠ 0 →
              x ∉ filePath geo d ino j)) ∧
        FileOk geo d' ino' := by
  refine ⟨fun idx _ blk d' ino' h hblk => ?_, fun fromIdx _ d' ino' h => ?_⟩
  · by_cases hzero : blk = 0
    · have hge := hblk.resolve_left (not_not_intro hzero)
      rw [fileBlkAlloc_beyond hge] at h
      cases h
      exact ⟨fileBlk_beyond hge, fun _ _ _ => rfl, hok⟩
    · obtain ⟨s, off, new, hs, hoff, rfl, hgrown⟩ := fileBlkAlloc_spec hok hzero h
      have hmap := hgrown.fileBlk hok hs hoff
      refine ⟨(hmap _).trans (if_pos rfl), fun j _ hne => (hmap j).trans (if_neg hne),
        hgrown.fileOk hok hs⟩
  · obtain ⟨gone, hcut⟩ := freeBlocksFrom_spec hok h
    refine ⟨fun j _ => fileBlk_cut hcut.cut j,
      ⟨gone, hcut.freed.freed, ?_, hcut.freed.used, fun x => hcut.mem_gone hok⟩, hcut.ok⟩
    exact (hcut.cut.nodup hok.nodup).of_append_left

/-! ### A small file -/

/-- The allocator that takes the first free block. -/
def firstFree (geo : Geometry) : Allocator geo where
  pick used _ := (List.range geo.blocksCount).find? fun b => 0 < b && !used b
  pos := fun h => by
    have := List.find?_some h
    simp at this
    exact this.1
  lt := fun h => List.mem_range.mp (List.mem_of_find?_eq_some h)
  free := fun h => by
    have := List.find?_some h
    simp at this
    exact this.2

/-- Blocks of 1 KiB. -/
def smallGeometry : Geometry := ⟨256, .inl rfl, 4096, by decide⟩

/-- A file of its first block and of the first of the singly indirect range. -/
def smallInode : Inode := ⟨fun s => if s = 0 then 100 else if s = 12 then 101 else 0, 6⟩

def smallDisk : Disk where
  block b := if b = 101 then setWord (fun _ => 0) 0 102 else fun _ => 0
  used b := b = 100 || b = 101 || b = 102
  freed := []

theorem smallDisk_fileOk : FileOk smallGeometry smallDisk smallInode := by
  have hblocks : fileBlocks smallGeometry smallDisk smallInode = [100, 101, 102] := by
    decide +kernel
  refine ⟨?_, ?_, ?_, fun s hs => ?_, ?_⟩
  · rw [hblocks]
    decide
  · rw [hblocks]
    decide
  · rw [hblocks]
    decide
  · rcases slot_cases hs with h | rfl | rfl | rfl
    · rw [slotLevel_direct h]
      trivial
    · exact .inr ⟨⟨0, by decide, by decide +kernel⟩, fun _ _ => trivial⟩
    · exact full_zero
    · exact full_zero
  · rw [hblocks]
    decide

/-- Cutting it at its second block leaves the first. -/
theorem block_map_agrees_small :
    FileOk smallGeometry smallDisk smallInode ∧
      fileBlk smallGeometry (freeBlocksFrom smallGeometry smallDisk smallInode 1).1
        (freeBlocksFrom smallGeometry smallDisk smallInode 1).2 0 = 100 ∧
      fileBlk smallGeometry (freeBlocksFrom smallGeometry smallDisk smallInode 1).1
        (freeBlocksFrom smallGeometry smallDisk smallInode 1).2 12 = 0 := by
  rcases hcut : freeBlocksFrom smallGeometry smallDisk smallInode 1 with ⟨d', ino'⟩
  have hmap :=
    ((block_map_agrees (firstFree _) _ _ smallDisk_fileOk).2 1 (by decide) d' ino' hcut).1
  have hfirst : fileBlk smallGeometry smallDisk smallInode 0 = 100 := by decide
  refine ⟨smallDisk_fileOk, ?_, ?_⟩
  · rw [hmap 0 (by decide), if_pos (by decide), hfirst]
  · rw [hmap 12 (by decide), if_neg (by decide)]

end MaeroOS.Ext2.BlockMap
