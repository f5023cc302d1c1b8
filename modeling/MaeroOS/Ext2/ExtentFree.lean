import MaeroOS.Ext2.BlockFree
import MaeroOS.Ext2.ExtentSpace

/-!
# `x4_ext_free_from`

A file is cut from its end, an extent at a time (`cutLoop_spec`), and the tree of what is left laid
out over the old tree blocks. These are always enough (`shape_fits`), so that a round cannot fail,
and every round but the last one makes the list of extents shorter (`cutRounds_spec`). With
`x4_ext_alloc` this makes the tree a partial map (`extents_refine_map`).
-/

namespace MaeroOS.Ext2.Extents

open List
open Lib (Buf)
open Lib.RunMap

variable {geo : Geometry} {alloc : Allocator geo} {d d' : Disk} {csum : Csum} {ino ino' : Inode}
  {fs fs' : Fs} {fromIdx lblk nb : Nat} {v v' : List Ext} {tb tb' : List Nat} {k per room : Nat}

/-! ## The list -/

theorem freeRange_spec {b n : Nat} : Freed [] d (freeRange d b n) (range' b n) := by
  refine ⟨rfl, fun x => ?_, fun _ _ => rfl⟩
  show (if b ≤ x ∧ x < b + n then false else d.used x) = _
  simp only [mem_range'_1]

/-- What a cut makes of a list of extents: it lets the blocks `gone` go, and no file block below
`fromIdx`. -/
structure CutList (fromIdx : Nat) (v v' : List Ext) (gone : List Nat) : Prop where
  sorted : Sorted v'
  ok : ∀ x ∈ v', ExtOk x
  perm : (targets v).Perm (targets v' ++ gone)
  below : ∀ j < fromIdx, lookup v' j = lookup v j
  length : v'.length ≤ v.length

theorem CutList.refl (hsorted : Sorted v) (hok : ∀ x ∈ v, ExtOk x) : CutList fromIdx v v [] :=
  ⟨hsorted, hok, by rw [append_nil], fun _ _ => rfl, le_rfl⟩

/-- The last extent goes. -/
theorem CutList.drop {x : Ext} {gone : List Nat} (hx : fromIdx ≤ x.start)
    (h : CutList fromIdx v v' gone) : CutList fromIdx (v ++ [x]) v' (x.targets ++ gone) := by
  refine ⟨h.sorted, h.ok, ?_, fun j hj => ?_, ?_⟩
  · rw [targets_append]
    show (targets v ++ (x.targets ++ [])).Perm _
    rw [append_nil]
    refine (h.perm.append_right _).trans ?_
    rw [append_assoc]
    exact perm_append_comm.append_left _
  · have hnot : ¬ x.Has j := fun hhas => by
      have := hhas.1
      omega
    rw [h.below j hj, lookup_append, lookup_cons_of_not_has hnot, lookup_nil, Option.or_none]
  · rw [length_append]
    exact Nat.le_add_right_of_le h.length

/-- The last extent is cut inside. -/
theorem CutList.shorten {x : Ext} (hsorted : Sorted (v ++ [x])) (hok : ∀ y ∈ v ++ [x], ExtOk y)
    (hlt : x.start < fromIdx) (hle : fromIdx ≤ x.start + x.len) :
    CutList fromIdx (v ++ [x]) (v ++ [{ x with len := fromIdx - x.start }])
      (range' (x.target + (fromIdx - x.start)) (x.len - (fromIdx - x.start))) := by
  obtain ⟨hv, -, hcross⟩ := pairwise_append.mp hsorted
  refine ⟨pairwise_append.mpr ⟨hv, pairwise_singleton _ _, fun y hy z hz => ?_⟩, fun y hy => ?_, ?_,
    fun j hj => ?_, ?_⟩
  · rw [mem_singleton.mp hz]
    exact hcross y hy x mem_cons_self
  · rcases mem_append.mp hy with hy | hy
    · exact hok y (mem_append_left _ hy)
    obtain ⟨hpos, hlen, hstop, htarget, htlt⟩ := hok x (mem_append_right _ mem_cons_self)
    rw [mem_singleton.mp hy]
    exact ⟨by dsimp only; omega, by dsimp only; omega, by dsimp only; omega, htarget, htlt⟩
  · refine List.Perm.of_eq ?_
    rw [targets_append, targets_append, append_assoc]
    show targets v ++ (range' x.target x.len ++ []) = targets v ++
      ((range' x.target (fromIdx - x.start) ++ []) ++ _)
    rw [append_nil, append_nil, range'_append_1]
    congr 2
    omega
  · rw [lookup_append, lookup_append]
    congr 1
    by_cases hhas : x.Has j
    · have hkept : ({ x with len := fromIdx - x.start } : Ext).Has j :=
        ⟨hhas.1, by dsimp only; omega⟩
      rw [lookup_cons_of_has hhas, lookup_cons_of_has hkept]
      rfl
    · have hnot : ¬ ({ x with len := fromIdx - x.start } : Ext).Has j := fun h => hhas ⟨h.1, by
        have := h.2
        omega⟩
      rw [lookup_cons_of_not_has hhas, lookup_cons_of_not_has hnot]
  · rw [length_append, length_append]
    exact le_rfl

/-- **What the loop does** over a sorted list: the blocks it lets go are freed and counted, and
either nothing from `fromIdx` on is left or the list got shorter. -/
theorem cutLoop_spec (due : Nat → Bool) :
    ∀ (rev : List Ext) {rev' : List Ext} {d d' : Disk} {now now' : Nat} {stepped : Bool},
    Sorted rev.reverse → (∀ x ∈ rev, ExtOk x) →
      cutLoop due fromIdx rev d now = (rev', d', now', stepped) →
      ∃ gone, CutList fromIdx rev.reverse rev'.reverse gone ∧ Freed [] d d' gone ∧
        now' = now + gone.length ∧
        (stepped = false → ∀ x ∈ rev', x.start + x.len ≤ fromIdx) ∧
          (stepped = true → rev'.length < rev.length) := by
  intro rev
  induction rev with
  | nil =>
    intro rev' d d' now now' stepped hsorted hok h
    rw [cutLoop] at h
    cases h
    exact ⟨[], .refl hsorted hok, .refl, rfl, nofun, nofun⟩
  | cons x rest ih =>
    intro rev' d d' now now' stepped hsorted hok h
    have hok' : ∀ y ∈ (x :: rest).reverse, ExtOk y := fun y hy => hok y (mem_reverse.mp hy)
    have hrestOk : ∀ y ∈ rest, ExtOk y := fun y hy => hok y (mem_cons_of_mem _ hy)
    rw [reverse_cons] at hsorted hok' ⊢
    obtain ⟨hrest, -, hcross⟩ := pairwise_append.mp hsorted
    have hbefore : ∀ y ∈ rest, y.start + y.len ≤ x.start := fun y hy =>
      hcross y (mem_reverse.mpr hy) x mem_cons_self
    rw [cutLoop.eq_def] at h
    dsimp only at h
    split at h
    next hle =>
      cases h
      rw [reverse_cons]
      refine ⟨[], .refl hsorted hok', .refl, rfl, fun _ y hy => ?_, nofun⟩
      rcases mem_cons.mp hy with rfl | hy
      · exact hle
      · have := hbefore y hy
        omega
    next hgt =>
      split at h
      next hge =>
        -- the whole extent goes
        have hfree : Freed [] d (freeRange d x.target x.len) x.targets := freeRange_spec
        have hlen : x.targets.length = x.len := length_range'
        have hdrop := CutList.drop hge (.refl hrest fun z hz => hrestOk z (mem_reverse.mp hz))
        rw [append_nil] at hdrop
        cases rest with
        | nil =>
          cases h
          exact ⟨x.targets, hdrop, hfree, by rw [hlen], nofun, fun _ => Nat.lt_succ_self _⟩
        | cons y ys =>
          dsimp only at h
          split at h
          · cases h
            exact ⟨x.targets, hdrop, hfree, by rw [hlen], nofun, fun _ => Nat.lt_succ_self _⟩
          · obtain ⟨gone, hcut, hfreed, hnow, hlast, hshort⟩ := ih hrest hrestOk h
            refine ⟨x.targets ++ gone, hcut.drop hge, hfree.trans hfreed, ?_, hlast, fun hs => ?_⟩
            · rw [hnow, length_append, hlen, Nat.add_assoc]
            · exact Nat.lt_succ_of_lt (hshort hs)
      next hlt =>
        cases h
        rw [reverse_cons]
        refine ⟨_, .shorten hsorted hok' (by omega) (by omega), freeRange_spec, ?_, fun _ y hy =>
          ?_, nofun⟩
        · rw [length_range']
        · rcases mem_cons.mp hy with rfl | hy
          · dsimp only
            omega
          · have := hbefore y hy
            omega

/-! ## The tree -/

theorem ceil_le {n m per : Nat} (h : n ≤ m * per) : (n + per - 1) / per ≤ m := by
  rcases Nat.eq_zero_or_pos per with rfl | hper
  · rw [Nat.div_zero]
    exact Nat.zero_le _
  · rw [← Nat.lt_succ_iff, Nat.div_lt_iff_lt_mul hper, Nat.succ_mul]
    omega

/-- A list of lists that are no longer than `per`. -/
theorem length_flatMap_le {α β : Type} {l : List α} {f : α → List β}
    (h : ∀ a ∈ l, (f a).length ≤ per) : (l.flatMap f).length ≤ l.length * per := by
  induction l with
  | nil => exact Nat.zero_le _
  | cons a l ih =>
    have hfirst := h a mem_cons_self
    have hrest := ih fun a ha => h a (mem_cons_of_mem _ ha)
    rw [flatMap_cons, length_append, length_cons, Nat.succ_mul]
    omega

/-- The entries of a node fit into it. -/
theorem Reads.entries_le {t : Tree k} {b : Buf} (h : Reads geo d k t b room)
    (hper : (room - 12) / 12 = per) : hdrEntries b ≤ per := by
  obtain ⟨-, hle, hroom, -⟩ := hdrOk_iff.mp h.hdrOk
  omega

theorem Reads.leaf_length {xs : Tree 0} {b : Buf} (h : Reads geo d 0 xs b room) :
    (exts 0 xs).length = hdrEntries b := by
  have := congrArg length h.2.2
  rw [length_map, length_range] at this
  exact this.symm

theorem Reads.children_length {cs : Tree (k + 1)} {b : Buf} (h : Reads geo d (k + 1) cs b room) :
    (children cs).length = hdrEntries b := by
  have := congrArg length h.2.2.1
  rw [length_map, length_map, length_range] at this
  exact this.symm

/-- **A tree of at most two levels has the blocks that its extents need.** -/
theorem shape_fits : ∀ {k : Nat} {t : Tree k} {b : Buf}, k ≤ 2 → Reads geo d k t b 60 →
    ∃ sh, shape geo (exts k t).length = some sh ∧ sh.2.1 + sh.2.2 ≤ (treeBlocks k t).length := by
  intro k t b hk h
  have hroot : hdrEntries b ≤ 4 := h.entries_le rfl
  match k, t, hk, h with
  | 0, xs, _, h =>
    have hlen := h.leaf_length
    refine ⟨(0, 0, 0), ?_, Nat.zero_le _⟩
    rw [shape, if_pos (by omega)]
  | 1, cs, _, h =>
    have hlen := h.children_length
    have hexts : (exts 1 cs).length ≤ (children cs).length * perBlock geo :=
      length_flatMap_le fun c hc => by
      have hleaf := h.2.2.2.2 c hc
      rw [hleaf.leaf_length]
      exact hleaf.entries_le rfl
    have hblocks : (treeBlocks 1 cs).length = (children cs).length := by
      show ((children cs).flatMap fun c => c.2.1 :: []).length = _
      rw [length_flatMap]
      simp
    have hleaves := ceil_le hexts
    unfold shape
    split
    · exact ⟨_, rfl, Nat.zero_le _⟩
    · rw [if_pos (by omega)]
      exact ⟨_, rfl, by dsimp only; omega⟩
  | 2, cs, _, h =>
    have hlen := h.children_length
    -- the leaves, and the extents in them
    have hleaves : ((children cs).flatMap fun c => children c.2.2).length ≤
        (children cs).length * perBlock geo :=
      length_flatMap_le fun c hc => by
        have hidx := h.2.2.2.2 c hc
        rw [hidx.children_length]
        exact hidx.entries_le rfl
    have hexts : (exts 2 cs).length ≤ ((children cs).flatMap fun c => children c.2.2).length *
        perBlock geo := by
      have hflat : exts 2 cs = ((children cs).flatMap fun c => children c.2.2).flatMap fun c =>
        exts 0 c.2.2 := by
        rw [flatMap_assoc]
        rfl
      rw [hflat]
      refine length_flatMap_le fun c hc => ?_
      obtain ⟨c', hc', hc⟩ := mem_flatMap.mp hc
      have hleaf := (h.2.2.2.2 c' hc').2.2.2.2 c hc
      rw [hleaf.leaf_length]
      exact hleaf.entries_le rfl
    have hblocks : (treeBlocks 2 cs).length =
        ((children cs).flatMap fun c => children c.2.2).length + (children cs).length := by
      show ((children cs).flatMap fun c => c.2.1 :: (children c.2.2).flatMap fun c =>
        c.2.1 :: []).length = _
      generalize children cs = l
      induction l with
      | nil => rfl
      | cons c l ih =>
        simp
        omega
    have hceil := ceil_le hexts
    have hceil' : (((exts 2 cs).length + perBlock geo - 1) / perBlock geo + perBlock geo - 1) /
        perBlock geo ≤ (children cs).length := ceil_le (le_trans hceil hleaves)
    unfold shape
    dsimp only
    split
    · exact ⟨_, rfl, Nat.zero_le _⟩
    split
    · exact ⟨_, rfl, by dsimp only; omega⟩
    · rw [if_neg (by omega)]
      exact ⟨_, rfl, by dsimp only; omega⟩

/-! ## Rounds -/

/-- What one round, or more of them, do to a file with the extents `v` and the tree blocks `tb`. -/
structure Cut (geo : Geometry) (fromIdx : Nat) (fs fs' : Fs) (ino' : Inode) (v v' : List Ext)
    (tb tb' gone : List Nat) : Prop where
  holds : Holds geo fs'.disk ino' v' tb'
  freed : fs'.disk.freed = fs.disk.freed ++ gone
  used : ∀ x, fs'.disk.used x = if x ∈ gone then false else fs.disk.used x
  perm : (tb ++ targets v).Perm (tb' ++ targets v' ++ gone)
  tree : ∀ x ∈ tb', x ∈ tb
  size : ∀ sh, shape geo v'.length = some sh → tb'.length = sh.2.1 + sh.2.2
  data : ∀ x ∈ targets v', x ∈ targets v ∧ fs'.disk.block x = fs.disk.block x
  below : ∀ j < fromIdx, lookup v' j = lookup v j
  xgen : fs.xgen < fs'.xgen
  cache : fs'.cache = fs.cache

theorem Cut.trans {fs₁ : Fs} {ino₁ : Inode} {v₁ : List Ext} {tb₁ gone gone' : List Nat}
    (h : Cut geo fromIdx fs fs₁ ino₁ v v₁ tb tb₁ gone)
    (h' : Cut geo fromIdx fs₁ fs' ino' v₁ v' tb₁ tb' gone') :
    Cut geo fromIdx fs fs' ino' v v' tb tb' (gone ++ gone') := by
  refine ⟨h'.holds, ?_, fun x => ?_, ?_, fun x hx => h.tree x (h'.tree x hx), h'.size,
    fun x hx => ?_,
    fun j hj => (h'.below j hj).trans (h.below j hj), lt_trans h.xgen h'.xgen,
      h'.cache.trans h.cache⟩
  · rw [h'.freed, h.freed, append_assoc]
  · rw [h'.used, h.used]
    split_ifs <;> simp_all
  · refine h.perm.trans ((h'.perm.append_right gone).trans ?_)
    rw [append_assoc]
    exact perm_append_comm.append_left _
  · obtain ⟨hmem, hblock⟩ := h'.data x hx
    obtain ⟨hmem', hblock'⟩ := h.data x hmem
    exact ⟨hmem', hblock.trans hblock'⟩

/-- **A round cuts the file**, to `fromIdx` if it does not stop for the journal. -/
theorem cutRound_spec {due : Nat → Bool} {stepped : Bool} (h : Holds geo fs.disk ino v tb)
    (hres : cutRound alloc csum due fromIdx fs ino v tb = (stepped, fs', ino')) :
    ∃ v' tb' gone, Cut geo fromIdx fs fs' ino' v v' tb tb' gone ∧
      (stepped = false → ∀ j, fromIdx ≤ j → lookup v' j = none) ∧
        (stepped = true → v'.length < v.length) := by
  unfold cutRound at hres
  rcases hloop : cutLoop due fromIdx v.reverse fs.disk 0 with ⟨rev, d₁, now, st⟩
  rw [hloop] at hres
  dsimp only at hres
  obtain ⟨data, hcut, hfreed, hnow, hlast, hshort⟩ := cutLoop_spec due v.reverse
    (by rw [reverse_reverse]; exact h.sorted) (fun x hx => h.ok x (mem_reverse.mp hx)) hloop
  rw [reverse_reverse] at hcut
  rw [Nat.zero_add] at hnow
  rw [length_reverse] at hshort
  have hlast' : st = false → ∀ j, fromIdx ≤ j → lookup rev.reverse j = none := by
    refine fun hst j hj => lookup_eq_none.mpr fun x hx hhas => ?_
    have := hlast hst x (mem_reverse.mp hx)
    have := hhas.2
    omega
  have hshort' : st = true → rev.reverse.length < v.length := fun hst => by
    rw [length_reverse]
    exact hshort hst
  generalize rev.reverse = v' at hres hcut hlast' hshort'
  -- the blocks that stay, and those that go
  have hall : (tb ++ targets v).Perm (tb ++ targets v' ++ data) := by
    rw [append_assoc]
    exact hcut.perm.append_left tb
  have hnodup := hall.nodup_iff.mp h.nodup
  obtain ⟨hstay, -, hapart⟩ := nodup_append'.mp hnodup
  have hmem : ∀ x ∈ tb ++ targets v', x ∈ tb ++ targets v :=
    fun x hx => hall.mem_iff.mpr (mem_append_left _ hx)
  have hsub : ∀ x ∈ targets v', x ∈ targets v :=
    fun x hx => hcut.perm.mem_iff.mpr (mem_append_left _ hx)
  have hcount : (if ino.blocks > BitVec.ofNat 32 (now * geo.sectorsPerBlock) then
      ino.blocks - BitVec.ofNat 32 (now * geo.sectorsPerBlock) else 0).toNat =
        (tb ++ targets v').length * geo.sectorsPerBlock := by
    have hbefore := h.count
    rw [hall.length_eq, length_append, Nat.add_mul, ← hnow] at hbefore
    exact BlockMap.toNat_countDown (hbefore.trans (Nat.add_comm _ _))
  -- the tree blocks are enough
  obtain ⟨k, hk, t, hreads, -, hv, htb⟩ := h.tree
  obtain ⟨sh, hshape, hneed⟩ := shape_fits hk hreads
  rw [hv] at hshape
  rw [htb] at hneed
  obtain ⟨sh', hshape', hneed'⟩ := shape_mono hshape hcut.length
  generalize hino₁ :
    ({ ino with blocks := (if ino.blocks > BitVec.ofNat 32 (now * geo.sectorsPerBlock) then
      ino.blocks - BitVec.ofNat 32 (now * geo.sectorsPerBlock) else 0) } : Inode) = ino₁ at hres
  have hok := @rebuild_ok geo alloc csum ino₁ 0 v' tb { fs with disk := d₁ } sh' hshape' (by omega)
  rcases hre : rebuild alloc csum { fs with disk := d₁ } ino₁ v' tb 0 with ⟨ok, fs₂, ino₂⟩
  rw [hre] at hok hres
  cases hok
  cases hres
  have howned : Owned geo d₁ ino₁ v' tb := by
    refine ⟨hstay, fun x hx => ?_, fun x hx => h.lt x (hmem x hx),
      h.pos, by rw [← hino₁]; exact hcount⟩
    rw [hfreed.used, if_neg fun hx' => hapart hx hx']
    exact h.used x (hmem x hx)
  obtain ⟨kept, taken, gone, tb', hrebuilt, hperm, hholds, hkeep⟩ :=
    Holds.rebuild hcut.sorted hcut.ok howned hre
  obtain rfl := hrebuilt.enough sh' hshape' (by omega)
  rw [append_nil] at hperm
  have hold := hrebuilt.old
  refine ⟨v', tb', data ++ gone, ⟨hholds, ?_, fun x => ?_, ?_, fun x hx => ?_, fun sh hsh => ?_,
    fun x hx => ⟨hsub x hx, ?_⟩, hcut.below, ?_, hrebuilt.cache⟩, hlast', hshort'⟩
  · rw [hrebuilt.freed]
    show d₁.freed ++ gone = _
    rw [hfreed.freed, append_assoc]
  · rw [hrebuilt.used, if_neg not_mem_nil]
    show (if x ∈ gone then false else d₁.used x) = _
    rw [hfreed.used]
    split_ifs <;> simp_all
  · refine hall.trans ?_
    rw [hold]
    have hleft : (kept ++ gone ++ targets v').Perm (tb' ++ targets v' ++ gone) := by
      refine List.Perm.trans ?_ ((hperm.symm.append_right _).append_right _)
      rw [append_assoc, append_assoc]
      exact perm_append_comm.append_left _
    refine (hleft.append_right data).trans ?_
    rw [append_assoc]
    exact perm_append_comm.append_left _
  · rw [hold]
    exact mem_append_left _ (hperm.mem_iff.mp hx)
  · rw [← hrebuilt.size sh hsh, append_nil, hperm.length_eq]
  · rw [hkeep x hx]
    exact hfreed.frame x not_mem_nil
  · rw [hrebuilt.xgen]
    exact Nat.lt_succ_self _

/-- **The rounds cut the file to `fromIdx`.** -/
theorem cutRounds_spec (due : Nat → Nat → Bool) :
    ∀ (fuel : Nat) {fs : Fs} {ino : Inode} {v : List Ext} {tb : List Nat},
    Holds geo fs.disk ino v tb → v.length < fuel → cutRounds alloc csum due fromIdx fuel fs ino =
      (fs', ino') →
      ∃ v' tb' gone, Cut geo fromIdx fs fs' ino' v v' tb tb' gone ∧ ∀ j, fromIdx ≤ j →
        lookup v' j = none := by
  intro fuel
  induction fuel with
  | zero => exact fun _ hlt => absurd hlt (Nat.not_lt_zero _)
  | succ fuel ih =>
    intro fs ino v tb h hlt hres
    rw [cutRounds, h.collect] at hres
    dsimp only at hres
    rcases hround : cutRound alloc csum (due fuel) fromIdx fs ino v tb with ⟨stepped, fs₁, ino₁⟩
    rw [hround] at hres
    obtain ⟨v₁, tb₁, gone, hcut, hlast, hshort⟩ := cutRound_spec h hround
    cases stepped with
    | false =>
      cases hres
      exact ⟨v₁, tb₁, gone, hcut, hlast rfl⟩
    | true =>
      have hlt' := hshort rfl
      obtain ⟨v', tb', gone', hcut', hlast'⟩ := ih hcut.holds (by omega) hres
      exact ⟨v', tb', gone ++ gone', hcut.trans hcut', hlast'⟩

theorem extFreeFrom_spec {due : Nat → Nat → Bool} (h : Holds geo fs.disk ino v tb)
    (hres : extFreeFrom alloc csum due fs ino fromIdx = (fs', ino')) :
    ∃ v' tb' gone, Cut geo fromIdx fs fs' ino' v v' tb tb' gone ∧ ∀ j, fromIdx ≤ j →
      lookup v' j = none := by
  unfold extFreeFrom at hres
  rw [h.collect] at hres
  exact cutRounds_spec due (v.length + 1) h (Nat.lt_succ_self _) hres

/-- The blocks that go are the data from `fromIdx` on, and the tree blocks that are no longer
needed. -/
theorem Cut.mem_gone {gone : List Nat} (h : Cut geo fromIdx fs fs' ino' v v' tb tb' gone)
    (hold : Holds geo d ino v tb) (habove : ∀ j, fromIdx ≤ j → lookup v' j = none) {x : Nat} :
    x ∈ gone ↔ (∃ j, fromIdx ≤ j ∧ ∃ u, lookup v j = some (x, u)) ∨ x ∈ tb ∧ x ∉ tb' := by
  have hnodup := h.perm.nodup_iff.mp hold.nodup
  obtain ⟨-, -, hapart⟩ := nodup_append'.mp hnodup
  obtain ⟨-, hdata, hsplit⟩ := nodup_append'.mp hold.nodup
  constructor
  · intro hx
    rcases mem_append.mp (h.perm.mem_iff.mpr (mem_append_right _ hx)) with htb | hv
    · exact .inr ⟨htb, fun hx' => hapart (mem_append_left _ hx') hx⟩
    obtain ⟨j, u, hj⟩ := exists_lookup_of_mem_targets hold.sorted.apart hv
    refine .inl ⟨j, ?_, u, hj⟩
    by_contra hlt
    rw [← h.below j (by omega)] at hj
    exact hapart (mem_append_right _ (mem_targets_of_lookup hj)) hx
  · rintro (⟨j, hj, u, hlook⟩ | ⟨htb, hnot⟩)
    · have hx : x ∈ targets v := mem_targets_of_lookup hlook
      rcases mem_append.mp (h.perm.mem_iff.mp (mem_append_right _ hx)) with hkept | hgone
      · rcases mem_append.mp hkept with htb | hv
        · exact absurd hx fun hx => hsplit (h.tree x htb) hx
        -- a block that stays is that of a file block below
        obtain ⟨j', u', hj'⟩ := exists_lookup_of_mem_targets h.holds.sorted.apart hv
        have hlt : j' < fromIdx := by
          by_contra hge
          rw [habove j' (by omega)] at hj'
          cases hj'
        rw [h.below j' hlt] at hj'
        have := lookup_inj hdata hlook hj'
        omega
      · exact hgone
    · rcases mem_append.mp (h.perm.mem_iff.mp (mem_append_left _ htb)) with hkept | hgone
      · rcases mem_append.mp hkept with htb' | hv
        · exact absurd htb' hnot
        · exact absurd (h.data x hv).1 fun hx => hsplit htb hx
      · exact hgone

/-! ## How often a tree changes -/

/-- Trees have changed `n` times at most from `fs` to `fs'`. -/
def Changed (n : Nat) (fs fs' : Fs) : Prop := fs.xgen ≤ fs'.xgen ∧ fs'.xgen ≤ fs.xgen + n

theorem Changed.refl {n : Nat} : Changed n fs fs := ⟨le_rfl, Nat.le_add_right _ _⟩

theorem Changed.once {d : Disk} : Changed 1 fs { fs with disk := d, xgen := fs.xgen + 1 } :=
  ⟨Nat.le_succ _, le_rfl⟩

theorem Changed.trans {fs₁ : Fs} {m n : Nat} (h : Changed m fs fs₁) (h' : Changed n fs₁ fs') :
    Changed (m + n) fs fs' := by
  unfold Changed at *
  omega

theorem extMap_xgen {j : Nat} : (extMap geo fs ino j).2.2.xgen = fs.xgen := by
  unfold extMap
  split
  · rfl
  · dsimp only
    split <;> rfl

theorem rebuild_changed {goal : Nat} : Changed 1 fs (rebuild alloc csum fs ino v tb goal).2.1 := by
  unfold rebuild
  split
  · exact .refl
  dsimp only
  split
  · exact .refl
  · exact .once

theorem allocFail_changed {n : Nat} {unwritten : Bool} :
    Changed n fs (allocFail geo fs ino nb unwritten).2.1 := by
  unfold allocFail
  split <;> exact .refl

theorem insertNew_changed : Changed 1 fs (insertNew alloc csum fs ino lblk nb).2.1 := by
  unfold insertNew
  split
  · exact allocFail_changed
  next v tb _ =>
  have hone :=
    @rebuild_changed geo alloc csum ino fs (normaliseExts (v ++ [⟨lblk, 1, nb, false⟩])) tb (nb + 1)
  split
  next heq =>
    rw [heq] at hone
    exact hone.trans (allocFail_changed (n := 0))
  next heq =>
    rw [heq] at hone
    exact hone

theorem convert_changed : Changed 1 fs (convert alloc csum fs ino lblk).2.1 := by
  unfold convert
  split
  · exact .refl
  split
  · exact .refl
  next v tb _ _ nb v' _ =>
  have hone :=
    @rebuild_changed geo alloc csum ino { fs with disk := writeBlock fs.disk nb fun _ => 0 }
      (normaliseExts v') tb (nb + 1)
  dsimp only
  split
  next heq =>
    rw [heq] at hone
    exact hone
  next heq =>
    rw [heq] at hone
    exact hone

theorem extAlloc_changed {nozero : Bool} :
    Changed 1 fs (extAlloc alloc csum nozero fs ino lblk).2.1 := by
  have hmap := @extMap_xgen geo ino fs lblk
  unfold extAlloc
  generalize extMap geo fs ino lblk = found at hmap ⊢
  obtain ⟨p, unwritten, fs₁⟩ := found
  dsimp only at hmap ⊢
  have hsame : Changed 0 fs fs₁ := ⟨hmap.ge, hmap.le⟩
  show Changed (0 + 1) fs _
  refine hsame.trans ?_
  split
  · exact .refl
  split
  · exact .refl
  split
  · exact .refl
  split
  · exact convert_changed
  generalize BlockMap.allocBlockGoal alloc _ _ fs₁.disk = taken
  obtain ⟨nb, d₁⟩ := taken
  split
  · exact .refl
  split
  · unfold append
    split <;> exact .once
  · exact @insertNew_changed geo alloc csum (countBlock geo ino) { fs₁ with disk := d₁ } lblk nb

/-- Each round lays the tree out once. -/
theorem cutRounds_changed {due : Nat → Nat → Bool} (fuel : Nat) :
    Changed fuel fs (cutRounds alloc csum due fromIdx fuel fs ino).1 := by
  induction fuel generalizing fs ino with
  | zero => exact .refl
  | succ fuel ih =>
    unfold cutRounds
    split
    · exact .refl
    next v tb _ =>
    have hone : Changed 1 fs (cutRound alloc csum (due fuel) fromIdx fs ino v tb).2.1 := by
      unfold cutRound
      generalize cutLoop (due fuel) fromIdx v.reverse fs.disk 0 = cut
      obtain ⟨rev, d, now, stepped⟩ := cut
      exact @rebuild_changed geo alloc csum _ { fs with disk := d } rev.reverse tb 0
    rw [Nat.add_comm]
    split
    next heq =>
      rw [heq] at hone
      exact hone.trans .refl
    next heq =>
      rw [heq] at hone
      exact hone.trans ih

/-- How many extents a file has. -/
def extCount (geo : Geometry) (d : Disk) (ino : Inode) : Nat :=
  match collect geo d 6 ino.root 60 with
  | none => 0
  | some (v, _) => v.length

theorem extFreeFrom_changed {due : Nat → Nat → Bool} :
    Changed (extCount geo fs.disk ino + 1) fs (extFreeFrom alloc csum due fs ino fromIdx).1 := by
  unfold extFreeFrom extCount
  cases collect geo fs.disk 6 ino.root 60 with
  | none => exact .refl
  | some found => exact cutRounds_changed _

/-! ## The map -/

/-- Nothing stands in the way of one block more: there is room for two more extents in the tree, and
there are free blocks for that tree and the block. -/
structure Roomy (alloc : Allocator geo) (d : Disk) (ino : Inode) : Prop where
  complete : Complete alloc
  room : ∃ sh, shape geo (extCount geo d ino + 2) = some sh ∧ sh.2.1 + sh.2.2 < space geo d

export Ext2.BlockMap (smallGeometry)
open Ext2.BlockMap (firstFree)

/-- A root with a written extent of two blocks and an unwritten one of two. -/
def smallRoot : Buf :=
  putExts 0 [⟨0, 2, 100, false⟩, ⟨8, 2, 200, true⟩] (hdrPut (fun _ => 0) 2 4 0)

/-- The file and a cache that has the first extent. -/
def smallFs : Fs where
  disk := { block := fun _ _ => 0, used := fun b => decide (b ∈ [100, 101, 200, 201]), freed := [] }
  xgen := 1
  cache := ⟨1, smallRoot, 0, 2, 100⟩

def smallInode : Inode := ⟨smallRoot, 8⟩

def smallExts : List Ext := [⟨0, 2, 100, false⟩, ⟨8, 2, 200, true⟩]

theorem smallFs_holds : Holds smallGeometry smallFs.disk smallInode smallExts [] where
  tree :=
    ⟨0, by decide, smallExts, ⟨by decide +kernel, by decide +kernel, by decide +kernel⟩, trivial,
      rfl, rfl⟩
  sorted := by
    unfold Sorted smallExts
    decide
  ok := by
    intro x hx
    rcases mem_cons.mp hx with rfl | hx
    · exact ⟨by decide, by decide, by decide, by decide, by decide⟩
    · rw [mem_singleton.mp hx]
      exact ⟨by decide, by decide, by decide, by decide, by decide⟩
  nodup := by decide
  used := by decide
  lt := by decide
  pos := by decide
  count := by decide

theorem smallFs_cacheOk : CacheOk smallGeometry smallFs smallInode := by
  refine ⟨le_rfl, fun _ _ j _ hj => ?_⟩
  obtain ⟨hseen, -⟩ := mapList_spec smallFs_holds.ok
  have hhas : (⟨0, 2, 100, false⟩ : Ext).Has j := ⟨Nat.zero_le _, hj⟩
  rw [lookup_of_mem smallFs_holds.sorted.apart mem_cons_self hhas] at hseen
  rw [smallFs_holds.mapNode]
  exact ⟨(congrArg Prod.fst hseen).symm, congrArg Prod.snd hseen⟩

/-- Six extents of one block, apart from each other: too many for the inode. -/
def sixExts : List Ext :=
  [⟨0, 1, 100, false⟩, ⟨2, 1, 102, false⟩, ⟨4, 1, 104, false⟩, ⟨6, 1, 106, false⟩,
    ⟨8, 1, 108, false⟩, ⟨10, 1, 110, false⟩]

/-- The root of their tree, whose only leaf is block 50. -/
def sixRoot : Buf := putIdxs 0 [(0, 50)] (hdrPut (fun _ => 0) 1 4 1)

def sixDisk : Disk where
  block b :=
    if b = 50 then leafBuf smallGeometry none sixExts else if b = 110 then fun _ =>
    1 else fun _ => 0
  used b := decide (b ∈ [50, 100, 102, 104, 106, 108, 110])
  freed := []

def sixInode : Inode := ⟨sixRoot, 14⟩

theorem sixDisk_holds : Holds smallGeometry sixDisk sixInode sixExts [50] where
  tree := by
    refine ⟨1, by decide, [(0, 50, sixExts)],
      ⟨by decide +kernel, by decide +kernel, by decide +kernel, by decide +kernel, ?_⟩,
      ⟨pairwise_singleton _ _, ?_⟩, rfl, rfl⟩
    · intro c hc
      rw [mem_singleton.mp hc]
      exact ⟨by decide +kernel, by decide +kernel, by decide +kernel⟩
    · intro c hc
      rw [mem_singleton.mp hc]
      exact ⟨fun _ _ => Nat.zero_le _, trivial⟩
  sorted := by
    unfold Sorted sixExts
    decide
  ok := by
    intro x hx
    simp only [sixExts, mem_cons, not_mem_nil, or_false] at hx
    rcases hx with rfl | rfl | rfl | rfl | rfl | rfl <;>
      exact ⟨by decide, by decide, by decide, by decide, by decide⟩
  nodup := by decide
  used := by decide
  lt := by decide
  pos := by decide
  count := by decide

/-- The file, with its last extent remembered from before `changes` changes. -/
def sixFs (changes : Nat) : Fs := ⟨sixDisk, changes, ⟨0, sixRoot, 10, 1, 110⟩⟩

theorem sixFs_cacheOk {changes : Nat} : CacheOk smallGeometry (sixFs changes) sixInode := by
  refine ⟨Nat.zero_le _, fun _ _ j hle hlt => ?_⟩
  obtain rfl : j = 10 := by
    have hlt' : j < 10 + 1 := hlt
    have hle' : 10 ≤ j := hle
    omega
  show 110 + (10 - 10) = (mapNode smallGeometry sixDisk 10 6 sixRoot 60).blk ∧
    (mapNode smallGeometry sixDisk 10 6 sixRoot 60).unwritten = false
  decide +kernel

end MaeroOS.Ext2.Extents
