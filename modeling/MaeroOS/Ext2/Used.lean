import MaeroOS.Ext2.Alloc
import Mathlib.Order.Nat

/-!
# Blocks in use

Whether a block is in use, in a state of the metadata (`used`), and how the operations of the
allocator change that. Nothing else of the bitmaps matters to what follows.
-/

namespace MaeroOS.Ext2

open Function
open Lib (Buf)

variable {geo : Geometry} {mem : Mem} {s : Instance} {v v' : View} {bm : Buf}
  {i k grp b blk n : Nat}

/-! ## Bits -/

theorem bitmapTest_eq (bm : Buf) (i : Nat) : bitmapTest bm i = (bm (i / 8)).getLsbD (i % 8) := by
  have hlt : i % 8 < 8 := Nat.mod_lt _ (by decide)
  show (bm (i / 8) &&& BitVec.twoPow 8 (i % 8) != 0) = _
  rw [BitVec.and_twoPow]
  cases (bm (i / 8)).getLsbD (i % 8) with
  | false => rfl
  | true =>
    refine bne_iff_ne.mpr fun h => ?_
    have hbit := congrArg (·.getLsbD (i % 8)) h
    simp [hlt] at hbit

/-- The mask of bit `i`, read at another bit of its byte. -/
theorem getLsbD_mask (h : k / 8 = i / 8) : (BitVec.twoPow 8 (i % 8)).getLsbD (k % 8) = decide
    (k = i) := by
  rw [BitVec.getLsbD_twoPow, decide_eq_true (Nat.mod_lt i (by decide)), Bool.true_and]
  exact decide_eq_decide.mpr (by omega)

theorem bitmapTest_set (bm : Buf) (i k : Nat) :
    bitmapTest (bitmapSet bm i) k = (decide (k = i) || bitmapTest bm k) := by
  rw [bitmapTest_eq, bitmapTest_eq, bitmapSet]
  by_cases hbyte : k / 8 = i / 8
  · rw [hbyte, update_self, BitVec.getLsbD_or, Bool.or_comm]
    exact congrArg (· || _) (getLsbD_mask hbyte)
  · rw [update_of_ne hbyte, decide_eq_false (by omega), Bool.false_or]

theorem bitmapTest_clear (bm : Buf) (i k : Nat) :
    bitmapTest (bitmapClear bm i) k = (!decide (k = i) && bitmapTest bm k) := by
  rw [bitmapTest_eq, bitmapTest_eq, bitmapClear]
  by_cases hbyte : k / 8 = i / 8
  · rw [hbyte, update_self, BitVec.getLsbD_and, BitVec.getLsbD_not, Bool.and_comm,
      ← getLsbD_mask hbyte, decide_eq_true (Nat.mod_lt k (by decide)), Bool.true_and]
    rfl
  · rw [update_of_ne hbyte, decide_eq_false (by omega), Bool.not_false, Bool.true_and]

theorem bitmapTest_foldl_clear (bits : List Nat) (bm : Buf) (k : Nat) :
    bitmapTest (bits.foldl bitmapClear bm) k = (!decide (k ∈ bits) && bitmapTest bm k) := by
  induction bits generalizing bm with
  | nil => simp
  | cons i bits ih =>
    rw [List.foldl_cons, ih, bitmapTest_clear]
    by_cases hk : k = i
    · simp [hk]
    · simp [hk]

/-! ## Blocks -/

/-- A block that has a bit in a bitmap. -/
def Geometry.InRange (geo : Geometry) (b : Nat) : Prop :=
  geo.firstDataBlock ≤ b ∧ b < geo.blocksCount

/-- Block `b` is in use. -/
def used (geo : Geometry) (v : View) (b : Nat) : Bool :=
  bitmapTest (blockBitmap geo v (geo.groupOf b)) (geo.indexOf b)

theorem groupOf_lt (h : geo.InRange b) : geo.groupOf b < geo.groupCount := by
  have hpos := geo.group_pos
  have hb := h.2
  unfold Geometry.groupOf Geometry.groupCount
  rw [Nat.div_lt_iff_lt_mul hpos]
  have hmod := Nat.div_add_mod (geo.blocksCount + geo.blocksPerGroup - 1) geo.blocksPerGroup
  have hlt := Nat.mod_lt (geo.blocksCount + geo.blocksPerGroup - 1) hpos
  rw [Nat.mul_comm] at hmod
  omega

/-- A block is known by its group and its place in it. -/
theorem groupStart_add_indexOf (h : geo.InRange b) :
    geo.groupStart (geo.groupOf b) + geo.indexOf b = b := by
  have := h.1
  have := Nat.div_add_mod (b - geo.firstDataBlock) geo.blocksPerGroup
  rw [Nat.mul_comm] at this
  unfold Geometry.groupStart Geometry.groupOf Geometry.indexOf
  omega

theorem groupStart_add_sub :
    geo.groupStart grp + i - geo.firstDataBlock = i + geo.blocksPerGroup * grp := by
  unfold Geometry.groupStart
  rw [Nat.mul_comm]
  omega

theorem groupOf_add (h : i < geo.blocksPerGroup) : geo.groupOf (geo.groupStart grp + i) = grp := by
  rw [Geometry.groupOf, groupStart_add_sub, Nat.add_mul_div_left _ _ geo.group_pos,
    Nat.div_eq_of_lt h, Nat.zero_add]

theorem indexOf_add (h : i < geo.blocksPerGroup) : geo.indexOf (geo.groupStart grp + i) = i := by
  rw [Geometry.indexOf, groupStart_add_sub, Nat.add_mul_mod_self_left, Nat.mod_eq_of_lt h]

theorem indexOf_lt (geo : Geometry) (b : Nat) : geo.indexOf b < geo.blocksPerGroup :=
  Nat.mod_lt _ geo.group_pos

/-! ## New bitmaps -/

/-- Two states have everything in the same places. -/
def SameLayout (v v' : View) : Prop :=
  ∀ g, (v'.bgd g).blockBitmap = (v.bgd g).blockBitmap ∧ (v'.bgd g).inodeBitmap =
    (v.bgd g).inodeBitmap ∧ (v'.bgd g).inodeTable = (v.bgd g).inodeTable

theorem SameLayout.initBlockBitmap (h : SameLayout v v') :
    initBlockBitmap geo v' grp = initBlockBitmap geo v grp := by
  unfold Ext2.initBlockBitmap initBits
  simp only [(h _).1, (h _).2.1, (h _).2.2]

/-- The block bitmaps of different groups are different blocks. -/
def Apart (geo : Geometry) (v : View) : Prop :=
  ∀ g < geo.groupCount, ∀ g' < geo.groupCount,
    (v.bgd g).blockBitmap = (v.bgd g').blockBitmap → g = g'

/-- The state after a group has got a new bitmap, and its descriptor a new count. -/
def withBitmap (v : View) (grp : Nat) (bm : Buf) (free : BitVec 16) : View where
  bgd := Function.update v.bgd grp { v.bgd grp with blockUninit := false, freeBlocks := free }
  block := Function.update v.block (v.bgd grp).blockBitmap bm

theorem sameLayout_withBitmap (v : View) (grp : Nat) (bm : Buf) (free : BitVec 16) :
    SameLayout v (withBitmap v grp bm free) := by
  intro g
  unfold withBitmap
  by_cases hg : g = grp
  · subst hg
    simp
  · simp [update_of_ne hg]

/-- **Only the blocks of this group can change.** -/
theorem used_withBitmap (hapart : Apart geo v) (hgrp : grp < geo.groupCount) (hb : geo.InRange b)
    (free : BitVec 16) :
    used geo (withBitmap v grp bm free) b = if geo.groupOf b =
      grp then bitmapTest bm (geo.indexOf b) else used geo v b := by
  by_cases hgroup : geo.groupOf b = grp
  · rw [if_pos hgroup, used, hgroup]
    simp [blockBitmap, withBitmap]
  · have hlayout := sameLayout_withBitmap v grp bm free
    have hbgd : (withBitmap v grp bm free).bgd (geo.groupOf b) = v.bgd (geo.groupOf b) :=
      update_of_ne hgroup _ _
    have hblock : (withBitmap v grp bm free).block (v.bgd (geo.groupOf b)).blockBitmap =
        v.block (v.bgd (geo.groupOf b)).blockBitmap :=
      update_of_ne (fun h => hgroup (hapart _ (groupOf_lt hb) _ hgrp h)) _ _
    rw [if_neg hgroup, used, used, blockBitmap, blockBitmap, hbgd, hblock, hlayout.initBlockBitmap]

theorem getBitmap_eq (h : getBitmap geo v grp = some bm) : bm = blockBitmap geo v grp := by
  unfold getBitmap at h
  split at h
  · cases h
  · exact (Option.some.inj h).symm

/-- Other blocks' contents do not matter. -/
theorem used_write (hb : geo.InRange b) (hne : ∀ g < geo.groupCount, blk ≠ (v.bgd g).blockBitmap)
    (bm : Buf) : used geo { v with block := update v.block blk bm } b = used geo v b := by
  have hblock : update v.block blk bm (v.bgd (geo.groupOf b)).blockBitmap =
      v.block (v.bgd (geo.groupOf b)).blockBitmap :=
    update_of_ne (hne _ (groupOf_lt hb)).symm _ _
  have hinit : initBlockBitmap geo { v with block := update v.block blk bm } (geo.groupOf b) =
      initBlockBitmap geo v (geo.groupOf b) := SameLayout.initBlockBitmap fun g => ⟨rfl, rfl, rfl⟩
  unfold used blockBitmap
  rw [hinit]
  dsimp only
  rw [hblock]

section Chunk

variable {chunk : Nat} (hblk : geo.InRange blk)
  (hchunk : geo.indexOf blk + chunk ≤ geo.blocksPerGroup)

include hblk hchunk

/-- The blocks of a range within one group. -/
theorem mem_range_index (hb : geo.InRange b) :
    geo.groupOf b = geo.groupOf blk ∧ geo.indexOf b ∈ List.range' (geo.indexOf blk) chunk ↔
      blk ≤ b ∧ b < blk + chunk := by
  have h1 := groupStart_add_indexOf hblk
  have h2 := groupStart_add_indexOf hb
  rw [List.mem_range'_1]
  constructor
  · rintro ⟨hg, h3, h4⟩
    rw [hg] at h2
    omega
  · intro h
    have heq : b = geo.groupStart (geo.groupOf blk) + (geo.indexOf blk + (b - blk)) := by omega
    have hlt : geo.indexOf blk + (b - blk) < geo.blocksPerGroup := by omega
    rw [heq, groupOf_add hlt, indexOf_add hlt]
    exact ⟨rfl, by omega, by omega⟩

/-- The bits of these blocks are cleared. -/
theorem used_clear (hb : geo.InRange b) :
    (if geo.groupOf b = geo.groupOf blk then
        bitmapTest ((List.range' (geo.indexOf blk) chunk).foldl bitmapClear
          (blockBitmap geo v (geo.groupOf blk))) (geo.indexOf b)
      else used geo v b) = (!decide (blk ≤ b ∧ b < blk + chunk) && used geo v b) := by
  have hrange := mem_range_index hblk hchunk hb
  split
  · next hg =>
    rw [bitmapTest_foldl_clear, used, hg]
    congr 2
    exact decide_eq_decide.mpr ⟨fun h => hrange.mp ⟨hg, h⟩, fun h => (hrange.mpr h).2⟩
  · next hg =>
    rw [decide_eq_false fun h => hg (hrange.mpr h).1, Bool.not_false, Bool.true_and]

/-- No bit of these blocks is set. -/
theorem used_of_clear (hb : geo.InRange b) (hzero : ((List.range' (geo.indexOf blk) chunk).filter
      (bitmapTest (blockBitmap geo v (geo.groupOf blk)))).length = 0) :
    used geo v b = (!decide (blk ≤ b ∧ b < blk + chunk) && used geo v b) := by
  by_cases hin : blk ≤ b ∧ b < blk + chunk
  · obtain ⟨hg, hmem⟩ := (mem_range_index hblk hchunk hb).mpr hin
    have hnone := List.filter_eq_nil_iff.mp (List.eq_nil_of_length_eq_zero hzero) _ hmem
    rw [used, hg, Bool.eq_false_iff.mpr hnone, Bool.and_false]
  · rw [decide_eq_false hin, Bool.not_false, Bool.true_and]

end Chunk

/-- One bit is set. -/
theorem used_set (hi : i < geo.blocksPerGroup) (hb : geo.InRange b) :
    (if geo.groupOf b = grp then bitmapTest (bitmapSet (blockBitmap geo v grp) i) (geo.indexOf b)
      else used geo v b) = (decide (b = geo.groupStart grp + i) || used geo v b) := by
  split
  · next hg =>
    rw [bitmapTest_set, used, hg]
    congr 1
    refine decide_eq_decide.mpr ⟨fun h => ?_, fun h => ?_⟩
    · rw [← groupStart_add_indexOf hb, hg, h]
    · rw [h, indexOf_add hi]
  · next hg =>
    rw [decide_eq_false fun h => hg (by rw [h, groupOf_add hi]), Bool.false_or]

/-! ## Ranges of freed blocks -/

theorem freedIn_append {l l' : List (Nat × Nat)} :
    freedIn (l ++ l') b = (freedIn l b || freedIn l' b) := List.any_append

theorem freedIn_singleton {start len : Nat} : freedIn [(start, len)] b = decide
    (start ≤ b ∧ b < start + len) := by
  have hiff : start ≤ b ∧ b - start < len ↔ start ≤ b ∧ b < start + len := by omega
  simp only [freedIn, List.any_cons, List.any_nil, Bool.or_false, hiff]

/-- What a new range does to the instance. -/
theorem jtFreedAdd_cases (mem : Mem) (s : Instance) (blk n : Nat) :
    jtFreedAdd mem s blk n = jnlAbort s ∨
      ∃ freed fcap, jtFreedAdd mem s blk n = { s with freed := freed, fcap := fcap } ∧
        ∀ b, freedIn freed b = (freedIn s.freed b || decide (blk ≤ b ∧ b < blk + n)) := by
  have hpush : jtFreedAdd.push mem s blk n = jnlAbort s ∨
      ∃ freed fcap, jtFreedAdd.push mem s blk n = { s with freed := freed, fcap := fcap } ∧
        ∀ b, freedIn freed b = (freedIn s.freed b || decide (blk ≤ b ∧ b < blk + n)) := by
    unfold jtFreedAdd.push
    split
    · split
      · refine .inr ⟨_, _, rfl, fun b => ?_⟩
        rw [freedIn_append, freedIn_singleton]
      · exact .inl rfl
    · refine .inr ⟨_, s.fcap, rfl, fun b => ?_⟩
      rw [freedIn_append, freedIn_singleton]
  unfold jtFreedAdd
  split
  · next start len hlast =>
    split
    · next hjoin =>
      refine .inr ⟨_, s.fcap, rfl, fun b => ?_⟩
      -- the last range is replaced by a longer one
      obtain ⟨before, hsplit⟩ := List.getLast?_eq_some_iff.mp hlast
      rw [hsplit, List.dropLast_concat, freedIn_append, freedIn_append, freedIn_singleton,
        freedIn_singleton, Bool.or_assoc]
      congr 1
      rw [← Bool.decide_or]
      exact decide_eq_decide.mpr (by omega)
    · exact hpush
  · exact hpush

/-! ## The search -/

/-- Block `k` of a group is in the volume and may be given out. -/
def freeAt (geo : Geometry) (s : Instance) (grp : Nat) (bm : Buf) (k : Nat) : Bool :=
  decide (geo.groupStart grp + k < geo.blocksCount) &&
    !(bitmapTest bm k || jtFreed s (geo.groupStart grp + k))

/-- Eight blocks that are skipped are in use. -/
theorem bitmapTest_full (hi : i % 8 = 0) (hfull : bm (i / 8) = 0xFF) (hk : i ≤ k)
    (hk' : k < i + 8) : bitmapTest bm k = true := by
  rw [bitmapTest_eq, show k / 8 = i / 8 by omega, hfull]
  show (BitVec.allOnes 8).getLsbD (k % 8) = true
  rw [BitVec.getLsbD_allOnes, decide_eq_true (Nat.mod_lt k (by decide))]

/-- **The search in a group** finds the first block that may be given out. -/
theorem scanGroup_eq {stop fuel i : Nat} (hfuel : stop - i ≤ fuel) :
    scanGroup geo s grp bm stop fuel i =
      (List.range' i (stop - i)).find? (freeAt geo s grp bm) := by
  fun_induction scanGroup geo s grp bm stop fuel i with
  | case1 i =>
    rw [Nat.le_zero.mp hfuel]
    rfl
  | case2 fuel i hstop =>
    rw [Nat.sub_eq_zero_of_le hstop]
    rfl
  | case3 fuel i hstop hskip ih =>
    have hnone : (List.range' i 8).find? (freeAt geo s grp bm) = none := by
      refine List.find?_eq_none.mpr fun k hk => ?_
      rw [List.mem_range'_1] at hk
      rw [freeAt, bitmapTest_full hskip.1 hskip.2.2 hk.1 hk.2]
      simp
    rw [ih (by omega), show stop - i = 8 + (stop - (i + 8)) by omega, ← List.range'_append_1,
      List.find?_append, hnone, Option.none_or]
  | case4 fuel i hstop hskip hcount =>
    -- the volume ends here
    refine (List.find?_eq_none.mpr fun k hk => ?_).symm
    have := (List.mem_range'_1.mp hk).1
    rw [freeAt, decide_eq_false (by omega)]
    simp
  | case5 fuel i hstop hskip hcount hbusy ih =>
    rw [ih (by omega), show stop - i = stop - (i + 1) + 1 by omega, List.range'_succ,
      List.find?_cons_of_neg]
    rw [freeAt, hbusy]
    simp
  | case6 fuel i hstop hskip hcount hfree =>
    rw [show stop - i = stop - (i + 1) + 1 by omega, List.range'_succ, List.find?_cons_of_pos]
    rw [freeAt, decide_eq_true (by omega), Bool.eq_false_iff.mpr hfree]
    rfl

theorem scanGroup_spec {start stop j : Nat}
    (h : scanGroup geo s grp bm stop (stop - start) start = some j) :
    j < stop ∧ geo.groupStart grp + j < geo.blocksCount ∧ bitmapTest bm j = false ∧
      jtFreed s (geo.groupStart grp + j) = false := by
  rw [scanGroup_eq le_rfl] at h
  have hj := List.mem_range'_1.mp (List.mem_of_find?_eq_some h)
  have hfree := List.find?_some h
  rw [freeAt, Bool.and_eq_true, decide_eq_true_iff, Bool.not_eq_true',
    Bool.or_eq_false_iff] at hfree
  exact ⟨by omega, hfree⟩

theorem searchGroup_spec {start stop i grp' : Nat} (hstop : stop ≤ geo.blocksPerGroup)
    (h : searchGroup geo s grp start stop = some (grp', bm, i)) :
    start < stop ∧ grp' = grp ∧ bm = blockBitmap geo s.run grp ∧ i < geo.blocksPerGroup ∧
      geo.InRange (geo.groupStart grp + i) ∧ used geo s.run (geo.groupStart grp + i) = false ∧
      jtFreed s (geo.groupStart grp + i) = false := by
  unfold searchGroup at h
  split at h
  · cases h
  next hsome =>
  obtain ⟨bm', hbm', hscan⟩ := Option.bind_eq_some_iff.mp h
  obtain ⟨i', hi', heq⟩ := Option.map_eq_some_iff.mp hscan
  cases heq
  obtain ⟨hlt, hcount, htest, hfreed⟩ := scanGroup_spec hi'
  have hi : i < geo.blocksPerGroup := by omega
  refine ⟨by omega, rfl, getBitmap_eq hbm', hi, ⟨?_, hcount⟩, ?_, hfreed⟩
  · unfold Geometry.groupStart
    omega
  · rw [used, groupOf_add hi, indexOf_add hi, ← getBitmap_eq hbm']
    exact htest

theorem stop_le (geo : Geometry) (goal k : Nat) :
    (if k = geo.groupCount then goalBit geo goal else geo.blocksPerGroup) ≤ geo.blocksPerGroup := by
  have := indexOf_lt geo goal
  unfold goalBit
  split
  · split <;> omega
  · exact le_rfl

/-- **A block that is found** is neither in use nor freed by the running transaction. -/
theorem findBlock_spec {goal i : Nat} (h : findBlock geo s goal = some (grp, bm, i)) :
    grp < geo.groupCount ∧ bm = blockBitmap geo s.run grp ∧ i < geo.blocksPerGroup ∧
      geo.InRange (geo.groupStart grp + i) ∧ used geo s.run (geo.groupStart grp + i) = false ∧
      jtFreed s (geo.groupStart grp + i) = false := by
  obtain ⟨k, hk, hround⟩ := List.exists_of_findSome?_eq_some h
  obtain ⟨hlt, rfl, hspec⟩ := searchGroup_spec (stop_le geo goal k) hround
  refine ⟨Nat.mod_lt _ ?_, hspec⟩
  -- without a group there is no round
  by_contra hzero
  have hk0 : k = 0 := by
    have := List.mem_range.mp hk
    omega
  rw [if_pos hk0, if_pos (by omega)] at hlt
  exact absurd hlt (lt_irrefl _)

end MaeroOS.Ext2
