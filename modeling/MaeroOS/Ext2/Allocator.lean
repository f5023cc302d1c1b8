import MaeroOS.Ext2.BlockMap
import MaeroOS.Ext2.Effects
import Mathlib.Data.List.Find

/-!
# The allocator behind the block maps

The walks over block maps and extents take any allocator that picks free blocks
(`BlockMap.Allocator`). The search of `ext2_alloc_block_goal_once` is one (`allocator`), over
bitmaps that are made from the blocks in use. On an instance whose bitmaps can be read, and whose
counts skip no group with a free block, the driver gives out the block that it picks
(`alloc_agrees`).
-/

namespace MaeroOS.Ext2

open Lib (Buf)

variable {geo : Geometry} {mem : Mem} {s : Instance} {inUse : Nat → Bool} {bm : Buf}
  {b goal grp i k start stop : Nat} {zero : Bool}

/-! ## Bitmaps from the blocks in use -/

theorem bitmapTest_foldl_set (bits : List Nat) (bm : Buf) (k : Nat) :
    bitmapTest (bits.foldl bitmapSet bm) k = (decide (k ∈ bits) || bitmapTest bm k) := by
  induction bits generalizing bm with
  | nil => simp
  | cons i bits ih =>
    rw [List.foldl_cons, ih, bitmapTest_set]
    by_cases hk : k = i
    · simp [hk]
    · simp [hk]

/-- The bitmap of a group in which these blocks are in use. -/
def bitmapOf (geo : Geometry) (inUse : Nat → Bool) (grp : Nat) : Buf :=
  ((List.range geo.blocksPerGroup).filter fun i => inUse (geo.groupStart grp + i)).foldl bitmapSet
    fun _ => 0

theorem bitmapTest_bitmapOf (hi : i < geo.blocksPerGroup) :
    bitmapTest (bitmapOf geo inUse grp) i = inUse (geo.groupStart grp + i) := by
  have hzero : bitmapTest (fun _ => 0) i = false := by
    rw [bitmapTest_eq]
    simp
  rw [bitmapOf, bitmapTest_foldl_set, hzero, Bool.or_false]
  simp [hi]

/-- The instance with these bitmaps: that of group `g` is block `g`. No group is skipped. -/
def Instance.withUsed (s : Instance) (geo : Geometry) (inUse : Nat → Bool) : Instance :=
  { s with
    run := {
      bgd := fun g => { s.run.bgd g with blockBitmap := g, freeBlocks := 1, blockUninit := false }
      block := bitmapOf geo inUse } }

theorem used_withUsed (s : Instance) (inUse : Nat → Bool) (hb : geo.InRange b) :
    used geo (s.withUsed geo inUse).run b = inUse b := by
  have htest : bitmapTest (bitmapOf geo inUse (geo.groupOf b)) (geo.indexOf b) = _ :=
    bitmapTest_bitmapOf (indexOf_lt geo b)
  rw [groupStart_add_indexOf hb] at htest
  exact htest

/-! ## The search -/

/-- The block that a search has found. -/
def blockAt (geo : Geometry) (found : Nat × Buf × Nat) : Nat := geo.groupStart found.1 + found.2.2

/-- No group with a free block is passed over. -/
structure Searchable (geo : Geometry) (s : Instance) : Prop where
  groups : 0 < geo.groupCount
  bitmap : ∀ g < geo.groupCount, getBitmap geo s.run g = some (blockBitmap geo s.run g)
  count : ∀ g < geo.groupCount, (s.run.bgd g).freeBlocks = 0 →
    ∀ b, geo.InRange b → geo.groupOf b = g → used geo s.run b = true

theorem inRange_groupStart (h : geo.groupStart grp + k < geo.blocksCount) :
    geo.InRange (geo.groupStart grp + k) := by
  refine ⟨?_, h⟩
  unfold Geometry.groupStart
  omega

theorem searchable_withUsed (s : Instance) (hgroups : 0 < geo.groupCount) :
    Searchable geo (s.withUsed geo inUse) :=
  ⟨hgroups, fun _ _ => rfl, fun _ _ h => absurd h (by decide : (1 : BitVec 16) ≠ 0)⟩

/-- One round of the search finds the first block of its part of the group. -/
theorem Searchable.searchGroup_eq (hs : Searchable geo s) (hgrp : grp < geo.groupCount)
    (hstop : stop ≤ geo.blocksPerGroup) :
    (searchGroup geo s grp start stop).map (blockAt geo) =
      ((List.range' start (stop - start)).find?
        (freeAt geo s grp (blockBitmap geo s.run grp))).map (geo.groupStart grp + ·) := by
  unfold searchGroup
  split
  · next hskip =>
    refine (Option.map_eq_none_iff.mpr (List.find?_eq_none.mpr fun k hk hfree => ?_)).symm
    have hk := List.mem_range'_1.mp hk
    rcases hskip with hempty | hzero
    · omega
    rw [freeAt, Bool.and_eq_true, decide_eq_true_iff, Bool.not_eq_true',
      Bool.or_eq_false_iff] at hfree
    have hlt : k < geo.blocksPerGroup := by omega
    have hused := hs.count grp hgrp hzero _ (inRange_groupStart hfree.1) (groupOf_add hlt)
    rw [used, groupOf_add hlt, indexOf_add hlt, hfree.2.1] at hused
    cases hused
  · rw [hs.bitmap grp hgrp, Option.bind_some, scanGroup_eq le_rfl, Option.map_map]
    rfl

/-- **The search sees of the bitmaps which blocks are in use**, and nothing else. -/
theorem findBlock_withUsed (hs : Searchable geo s)
    (hused : ∀ b, geo.InRange b → inUse b = used geo s.run b) (goal : Nat) :
    (findBlock geo (s.withUsed geo inUse) goal).map (blockAt geo) =
      (findBlock geo s goal).map (blockAt geo) := by
  unfold findBlock
  rw [List.map_findSome?, List.map_findSome?]
  congr 1
  funext r
  have hgrp := Nat.mod_lt (goalGroup geo goal + r) hs.groups
  have hstop := stop_le geo goal r
  simp only [Function.comp_apply]
  rw [(searchable_withUsed s hs.groups).searchGroup_eq hgrp hstop, hs.searchGroup_eq hgrp hstop]
  congr 1
  refine List.find?_congr fun k hk => ?_
  have hk := List.mem_range'_1.mp hk
  have hlt : k < geo.blocksPerGroup := by omega
  unfold freeAt
  by_cases hin : geo.groupStart ((goalGroup geo goal + r) % geo.groupCount) + k < geo.blocksCount
  · have hblk := inRange_groupStart hin
    have hbit := (used_withUsed s inUse hblk).trans (hused _ hblk)
    rw [used, used, groupOf_add hlt, indexOf_add hlt] at hbit
    rw [hbit]
    rfl
  · rw [decide_eq_false hin, Bool.false_and, Bool.false_and]

/-! ## The allocator -/

/-- What `ext2_alloc_block_goal_once` picks on an instance. Block 0 stands for no block. -/
def allocator (geo : Geometry) (s : Instance) {vol : BlockMap.Geometry}
    (hvol : geo.blocksCount = vol.blocksCount) : BlockMap.Allocator vol where
  pick inUse goal := ((findBlock geo (s.withUsed geo inUse) goal).map (blockAt geo)).filter (0 < ·)
  pos h := of_decide_eq_true (Option.filter_eq_some_iff.mp h).2
  lt h := by
    obtain ⟨⟨grp, bm, i⟩, hfind, rfl⟩ :=
      Option.map_eq_some_iff.mp (Option.filter_eq_some_iff.mp h).1
    exact (findBlock_spec hfind).2.2.2.1.2.trans_eq hvol
  free h := by
    obtain ⟨⟨grp, bm, i⟩, hfind, rfl⟩ :=
      Option.map_eq_some_iff.mp (Option.filter_eq_some_iff.mp h).1
    obtain ⟨-, -, -, hblk, hfree, -⟩ := findBlock_spec hfind
    rwa [used_withUsed s _ hblk] at hfree

/-- **The driver's step is that of the block maps with this allocator**: where it gives out a block
and the instance goes on writing, both take the same block, and agree on what is in use after. -/
theorem alloc_agrees {vol : BlockMap.Geometry} (hvol : geo.blocksCount = vol.blocksCount)
    (hmem : mem.Describes) (hs : Searchable geo s) (hapart : Apart geo s.run) {d : BlockMap.Disk}
    (hused : ∀ b, geo.InRange b → d.used b = used geo s.run b)
    (hne : (allocBlockGoalOnce geo mem s goal zero).1 ≠ 0)
    (hro : (allocBlockGoalOnce geo mem s goal zero).2.ro = false) :
    (BlockMap.allocBlockGoal (allocator geo s hvol) goal zero d).1 =
        (allocBlockGoalOnce geo mem s goal zero).1 ∧
      ∀ b, geo.InRange b → (BlockMap.allocBlockGoal (allocator geo s hvol) goal zero d).2.used b =
        used geo (allocBlockGoalOnce geo mem s goal zero).2.run b := by
  have hpick : (allocator geo s hvol).pick d.used goal =
      some (allocBlockGoalOnce geo mem s goal zero).1 := by
    obtain ⟨grp, bm, i, hfind, -, heq⟩ := findBlock_of_alloc hne
    refine Option.filter_eq_some_iff.mpr ⟨?_, decide_eq_true (Nat.pos_of_ne_zero hne)⟩
    rw [findBlock_withUsed hs hused, hfind, heq]
    rfl
  have hafter : ∀ b, geo.InRange b → used geo (allocBlockGoalOnce geo mem s goal zero).2.run b =
      (decide (b = (allocBlockGoalOnce geo mem s goal zero).1) || used geo s.run b) := by
    have hcases := allocBlockGoalOnce_cases geo hmem (fun _ => hapart) goal zero
    generalize allocBlockGoalOnce geo mem s goal zero = r at hcases hne hro ⊢
    cases hcases with
    | none => exact absurd rfl hne
    | stopped h => exact absurd rfl hne
    | lost hfree h => exact absurd h.ro (Bool.eq_false_iff.mp hro)
    | found hfree h hhits => exact h.inUse
    | cleared hfree h hhits => exact h.inUse
  rw [BlockMap.allocBlockGoal, hpick]
  refine ⟨rfl, fun b hb => ?_⟩
  have hset : Function.update d.used (allocBlockGoalOnce geo mem s goal zero).1 true b =
      (decide (b = (allocBlockGoalOnce geo mem s goal zero).1) || d.used b) := by
    rw [Function.update_apply]
    split
    · next heq => rw [decide_eq_true heq, Bool.true_or]
    · next hother => rw [decide_eq_false hother, Bool.false_or]
  rw [hafter b hb, ← hused b hb, ← hset]
  cases zero with
  | false => rfl
  | true => rfl

end MaeroOS.Ext2
