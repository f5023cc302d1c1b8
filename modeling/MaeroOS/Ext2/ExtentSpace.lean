import MaeroOS.Ext2.ExtentAlloc
import MaeroOS.Lib.Count

/-!
# Space for extents

`x4_ext_alloc` returns 0 if a block is missing, or if the tree would get deeper than two levels.
With an allocator that finds a free block when there is one (`Complete`), enough of them (`space`)
and room in the tree (`shape`), it returns a block (`extAlloc_ne_zero`).
-/

namespace MaeroOS.Ext2.Extents

open List
open Lib (Buf count count_add count_eq_zero)
open Lib.RunMap

variable {geo : Geometry} {alloc : Allocator geo} {d d' : Disk} {csum : Csum} {ino : Inode}
  {fs : Fs} {lblk goal n m : Nat} {v w : List Ext} {tb : List Nat}

/-- The allocator finds a free block when there is one. -/
def Complete (alloc : Allocator geo) : Prop :=
  ∀ used goal, (∃ b, 0 < b ∧ b < geo.blocksCount ∧ used b = false) → alloc.pick used goal ≠ none

/-- How many blocks are free. -/
def space (geo : Geometry) (d : Disk) : Nat :=
  count (fun b => decide (0 < b) && !d.used b) geo.blocksCount

theorem grown_space {own new : List Nat} (h : Grown geo own d d' new) :
    space geo d = space geo d' + new.length := by
  refine count_add h.nodup (fun x hx => ?_) fun x _ => ?_
  · rw [h.used, if_pos hx]
    exact ⟨(h.fresh x hx).2.1, Bool.and_false _⟩
  · rw [h.used]
    by_cases hx : x ∈ new
    · obtain ⟨hpos, -, hfree⟩ := h.fresh x hx
      simp [hx, hpos, hfree]
    · simp [hx]

theorem allocBlockGoal_ne_zero {zero : Bool} (hc : Complete alloc) (h : 0 < space geo d) :
    (allocBlockGoal alloc goal zero d).1 ≠ 0 := by
  unfold allocBlockGoal
  split
  next hpick =>
    refine absurd hpick (hc _ _ ?_)
    by_contra hnone
    refine ne_of_gt h (count_eq_zero.mpr fun x hx => ?_)
    by_contra hfree
    rw [Bool.not_eq_false, Bool.and_eq_true, decide_eq_true_iff, Bool.not_eq_true'] at hfree
    exact hnone ⟨x, hfree.1, hx, hfree.2⟩
  next hpick => exact ne_of_gt (alloc.pos hpick)

theorem takeBlocks_ne_none (hc : Complete alloc) (k : Nat) :
    ∀ {taken : List Nat} {d : Disk} {ino : Inode},
    k ≤ space geo d → (takeBlocks alloc goal k taken d ino).1 ≠ none := by
  induction k with
  | zero => exact fun _ => Option.some_ne_none _
  | succ k ih =>
    intro taken d ino hspace
    have hne := @allocBlockGoal_ne_zero geo alloc d goal false hc (by omega)
    rcases halloc : allocBlockGoal alloc goal false d with ⟨b, d₁⟩
    rw [halloc] at hne
    have hgrown := grown_space (allocBlockGoal_spec halloc hne).1
    rw [length_singleton] at hgrown
    rw [takeBlocks, halloc]
    dsimp only
    rw [if_neg hne]
    exact ih (by omega)

/-- A shorter list needs no more tree blocks. -/
theorem shape_mono {sh : Nat × Nat × Nat} (h : shape geo m = some sh) (hle : n ≤ m) :
    ∃ sh', shape geo n = some sh' ∧ sh'.2.1 + sh'.2.2 ≤ sh.2.1 + sh.2.2 := by
  have hleaf : (n + perBlock geo - 1) / perBlock geo ≤ (m + perBlock geo - 1) / perBlock geo :=
    Nat.div_le_div_right (by omega)
  have hidx : ((n + perBlock geo - 1) / perBlock geo + perBlock geo - 1) / perBlock geo ≤
      ((m + perBlock geo - 1) / perBlock geo + perBlock geo - 1) / perBlock geo :=
        Nat.div_le_div_right (by omega)
  unfold shape at h ⊢
  dsimp only at h ⊢
  split
  · exact ⟨_, rfl, Nat.zero_le _⟩
  next hn =>
    rw [if_neg (by omega)] at h
    split
    · refine ⟨_, rfl, ?_⟩
      split at h
      · cases h
        exact hleaf
      · split at h
        · cases h
        · cases h
          exact le_trans hleaf (Nat.le_add_right _ _)
    next hnl =>
      rw [if_neg (by omega)] at h
      split at h
      · cases h
      cases h
      rw [if_neg (by omega)]
      exact ⟨_, rfl, Nat.add_le_add hleaf hidx⟩

theorem rebuild_of_space {sh : Nat × Nat × Nat} (hc : Complete alloc)
    (hshape : shape geo n = some sh)
    (hspace : sh.2.1 + sh.2.2 ≤ space geo fs.disk) (hlen : v.length ≤ n) :
    (rebuild alloc csum fs ino (normaliseExts v) tb goal).1 = true := by
  have hnorm : (normaliseExts v).length ≤ n := le_trans normalise_length hlen
  obtain ⟨sh', hshape', hneed⟩ := shape_mono hshape hnorm
  have htake :=
    @takeBlocks_ne_none geo alloc goal hc (sh'.2.1 + sh'.2.2 - tb.length) [] fs.disk ino (by omega)
  unfold rebuild
  rw [hshape']
  dsimp only
  split
  next hnone =>
    rw [hnone] at htake
    exact absurd rfl htake
  · rfl

/-- The walk to the rightmost leaf comes to an end. -/
theorem rightmost_ne_none : ∀ {k : Nat} {t : Tree k} {b : Buf} {room top fuel : Nat},
    Reads geo d k t b room → rightmost geo d fuel b top ≠ none := by
  intro k
  induction k with
  | zero =>
    intro t b room top fuel h
    cases fuel with
    | zero => exact Option.some_ne_none _
    | succ fuel =>
      rw [rightmost, if_pos h.hdrDepth]
      exact Option.some_ne_none _
  | succ k ih =>
    intro t b room top fuel h
    rcases fuel with _ | fuel
    · exact Option.some_ne_none _
    obtain ⟨-, hdepth, hentries, -, hchild⟩ := h
    rw [rightmost, if_neg (by omega)]
    split
    · exact Option.some_ne_none _
    next hne =>
      -- the last entry is one of the children
      have hlast : idxBlk b (hdrEntries b - 1) ∈ (children t).map fun c => c.2.1 := by
        have hblks := congrArg (map Prod.snd) hentries
        rw [map_map, map_map] at hblks
        show _ ∈ (children t).map (Prod.snd ∘ fun c => (c.1, c.2.1))
        rw [← hblks]
        exact mem_map.mpr ⟨hdrEntries b - 1, mem_range.mpr (by omega), rfl⟩
      obtain ⟨c, hc, hblk⟩ := mem_map.mp hlast
      have hreads := hchild c hc
      rw [hblk] at hreads
      dsimp only
      rw [hreads.hdrOk, if_neg (by decide)]
      exact ih hreads

theorem pieces_length {x : Ext} : (pieces x lblk).length ≤ 3 := by
  unfold pieces
  split <;> split <;> simp

variable {sh : Nat × Nat × Nat} (h : Holds geo fs.disk ino v tb) (hc : Complete alloc)
  (hshape : shape geo (v.length + 2) = some sh)

include h hc hshape

theorem insertNew_ne_zero {nb : Nat} (hspace : sh.2.1 + sh.2.2 ≤ space geo fs.disk) (hnb : nb ≠ 0) :
    (insertNew alloc csum fs (countBlock geo ino) lblk nb).1 ≠ 0 := by
  have hcollect : collect geo fs.disk 6 (countBlock geo ino).root 60 = some (v, tb) := h.collect
  have hlen : (v ++ [(⟨lblk, 1, nb, false⟩ : Ext)]).length ≤ v.length + 2 := by
    rw [length_append]
    exact Nat.add_le_add_left (show 1 ≤ 2 by decide) _
  have hok :=
    @rebuild_of_space geo alloc csum (countBlock geo ino) fs (nb + 1) _ _ tb sh hc hshape
      hspace hlen
  unfold insertNew
  rw [hcollect]
  dsimp only
  split
  next hre => rw [hre] at hok; cases hok
  · exact hnb

theorem convert_ne_zero {p : Nat} (hspace : sh.2.1 + sh.2.2 ≤ space geo fs.disk)
    (hlook : lookup v lblk = some (p, true)) : (convert alloc csum fs ino lblk).1 ≠ 0 := by
  obtain ⟨w, x, rest, hsplit, -, -, -, hv, hw⟩ := splitUnwritten_eq h.sorted.apart h.ok hlook
  have hp : 0 < p := targets_pos h.ok (mem_targets_of_lookup hlook)
  have hlen : w.length ≤ v.length + 2 := by
    have hpieces := @pieces_length lblk x
    rw [hw.length_eq, hv.length_eq, length_append, length_cons]
    omega
  have hok :=
    @rebuild_of_space geo alloc csum ino { fs with disk := writeBlock fs.disk p fun _ => 0 } (p + 1)
      _ _ tb sh hc hshape hspace hlen
  unfold convert
  rw [h.collect]
  dsimp only
  rw [hsplit]
  dsimp only
  split
  next hre => rw [hre] at hok; cases hok
  · exact ne_of_gt hp

/-- **With space and room in the tree, `x4_ext_alloc` returns a block.** -/
theorem extAlloc_ne_zero {nozero : Bool} (hcache : CacheOk geo fs ino)
    (hspace : sh.2.1 + sh.2.2 < space geo fs.disk) :
    (extAlloc alloc csum nozero fs ino lblk).1 ≠ 0 := by
  obtain ⟨cache, hmap, -, -⟩ := extMap_spec h hcache
  obtain ⟨k, hk, t, hreads, -, hv, htb⟩ := h.tree
  have hright := @rightmost_ne_none geo fs.disk k t ino.root 60 0 6 hreads
  unfold extAlloc
  rw [hmap]
  dsimp only
  split
  next hne => exact hne
  rw [hreads.hdrOk, if_neg (by decide)]
  split
  next hnone => exact absurd hnone hright
  next hzero node leaf _ =>
    split
    next hunw =>
      -- only an unwritten block is told of as one
      have hlook : ∃ p, lookup v lblk = some (p, true) := by
        cases hlook : lookup v lblk with
        | none => rw [hlook] at hunw; cases hunw
        | some pu =>
          obtain ⟨p, unwritten⟩ := pu
          cases unwritten with
          | true => exact ⟨p, rfl⟩
          | false => rw [hlook] at hunw; cases hunw
      obtain ⟨p, hlook⟩ := hlook
      exact @convert_ne_zero geo alloc csum ino ⟨fs.disk, fs.xgen, cache⟩ lblk v tb sh h hc hshape p
        (le_of_lt hspace) hlook
    · have hne :=
        @allocBlockGoal_ne_zero geo alloc fs.disk (allocGoal (lastExt node) lblk) (!nozero) hc
          (by omega)
      rcases halloc : allocBlockGoal alloc (allocGoal (lastExt node) lblk) (!nozero)
        fs.disk with ⟨nb, d₁⟩
      rw [halloc] at hne
      obtain ⟨hgrown, -⟩ := allocBlockGoal_spec halloc hne
      have hleft := grown_space hgrown
      rw [length_singleton] at hleft
      rw [if_neg hne]
      split
      · exact hne
      exact @insertNew_ne_zero geo alloc csum ino ⟨d₁, fs.xgen, cache⟩ lblk v tb sh
        (Holds.with_block h hgrown).1 hc hshape nb
        (show _ ≤ space geo d₁ by omega) hne

end MaeroOS.Ext2.Extents
