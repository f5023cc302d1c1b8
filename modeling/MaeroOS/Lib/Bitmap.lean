import Mathlib.Order.Interval.Finset.Nat
import Mathlib.Algebra.Order.BigOperators.Ring.Finset

/-!
# Bits and bitmaps

Single bits of a 32-bit word, and bitmaps that are arrays of such words: testing, setting and
clearing bit `i` is done in word `i / 32` at position `i % 32`. A word all of whose bits are set can
be skipped by a search (`Bitmap.word_full`), and `Bitmap.weight` counts the bits set below a bound.
-/

namespace MaeroOS.Lib

/-! ## Words -/

def bit (i : Nat) : BitVec 32 := 1#32 <<< i

theorem getLsbD_bit (i j : Nat) : (bit i).getLsbD j = (decide (j < 32) && decide (i = j)) := by
  unfold bit
  rw [BitVec.getLsbD_shiftLeft, BitVec.getLsbD_one]
  by_cases hij : i = j
  · subst hij
    simp
  · grind

variable {hi lo : Nat}

/-- Setting a bit. -/
theorem getLsbD_setBit (x : BitVec 32) (hi : i < 32) (j : Nat) :
    (x ||| bit i).getLsbD j = if j = i then true else x.getLsbD j := by
  rw [BitVec.getLsbD_or, getLsbD_bit]
  grind

/-- Clearing a bit. -/
theorem getLsbD_clearBit (x : BitVec 32) (i j : Nat) :
    (x &&& ~~~bit i).getLsbD j = if j = i then false else x.getLsbD j := by
  rw [BitVec.getLsbD_and, BitVec.getLsbD_not, getLsbD_bit]
  by_cases hj : j < 32
  · grind
  · rw [BitVec.getLsbD_of_ge x j (by omega)]
    grind

variable {x : BitVec 32}

theorem exists_bit (h : x ≠ 0) : ∃ i, i < 32 ∧ x.getLsbD i = true := by
  by_contra hnone
  push Not at hnone
  apply h
  apply BitVec.eq_of_getLsbD_eq
  intro i hi
  rw [Bool.eq_false_iff.mpr (hnone i hi)]
  simp

theorem ne_zero_of_bit (h : x.getLsbD i = true) : x ≠ 0 := by
  rintro rfl
  simp at h

/-- A word with exactly one bit in it, tested against another. -/
theorem and_bit_eq_zero (hi : i < 32) : x &&& bit i = 0 ↔ x.getLsbD i = false := by
  constructor
  · intro h
    by_contra hx
    refine ne_zero_of_bit (x := x &&& bit i) (i := i) ?_ h
    rw [BitVec.getLsbD_and, getLsbD_bit]
    simp [hi, Bool.eq_true_of_not_eq_false hx]
  · intro h
    by_contra hne
    obtain ⟨j, -, hj⟩ := exists_bit hne
    rw [BitVec.getLsbD_and, getLsbD_bit] at hj
    grind

/-! ## Bitmaps -/

/-- An array of 32-bit words. -/
abbrev Bitmap : Type := Nat → BitVec 32

namespace Bitmap

variable {b : Bitmap} {i j : Nat}

/-- Bit `i` is set. -/
def test (b : Bitmap) (i : Nat) : Bool := b (i / 32) &&& bit (i % 32) != 0

def set (b : Bitmap) (i : Nat) : Bitmap := Function.update b (i / 32) (b (i / 32) ||| bit (i % 32))

def clear (b : Bitmap) (i : Nat) : Bitmap :=
  Function.update b (i / 32) (b (i / 32) &&& ~~~bit (i % 32))

theorem test_eq : b.test i = (b (i / 32)).getLsbD (i % 32) := by
  have h := and_bit_eq_zero (x := b (i / 32)) (i := i % 32) (Nat.mod_lt _ (by decide))
  unfold test
  cases hb : (b (i / 32)).getLsbD (i % 32) with
  | false => rw [h.mpr hb, bne_self_eq_false]
  | true =>
    refine bne_iff_ne.mpr fun h0 => ?_
    rw [h.mp h0] at hb
    cases hb

/-- A word in which only bit `i` has changed is written back. -/
theorem test_update {w : BitVec 32} {v : Bool}
    (hw : ∀ m, w.getLsbD m = if m = i % 32 then v else (b (i / 32)).getLsbD m) :
    test (Function.update b (i / 32) w) j = if j = i then v else b.test j := by
  rw [test_eq, test_eq]
  by_cases hword : j / 32 = i / 32
  · rw [hword, Function.update_self, hw]
    by_cases hji : j = i
    · simp [hji]
    · rw [if_neg hji, if_neg fun hm => hji (by omega), ← hword]
  · rw [Function.update_of_ne hword, if_neg fun he => hword (by rw [he])]

theorem test_set : (b.set i).test j = if j = i then true else b.test j :=
  test_update (getLsbD_setBit _ (Nat.mod_lt _ (by decide)))

theorem test_clear : (b.clear i).test j = if j = i then false else b.test j :=
  test_update (getLsbD_clearBit _ _)

/-- A full word has all its bits set. -/
theorem word_full (h : b (i / 32) = BitVec.allOnes 32) : b.test i = true := by
  rw [test_eq, h, BitVec.getLsbD_allOnes]
  exact decide_eq_true (Nat.mod_lt _ (by decide))

/-- The number of bits set among those from `lo` on, below `hi`. -/
def weight (b : Bitmap) (lo hi : Nat) : Nat := ∑ i ∈ Finset.Ico lo hi, if b.test i then 1 else 0

theorem weight_congr {b' : Bitmap} (h : ∀ i, lo ≤ i → i < hi → b'.test i = b.test i) :
    b'.weight lo hi = b.weight lo hi := by
  refine Finset.sum_congr rfl fun i hi => ?_
  rw [h i (Finset.mem_Ico.mp hi).1 (Finset.mem_Ico.mp hi).2]

theorem weight_le : b.weight lo hi ≤ hi - lo := by
  have hle : b.weight lo hi ≤ ∑ _i ∈ Finset.Ico lo hi, 1 :=
    Finset.sum_le_sum fun i _ => by split <;> omega
  rwa [Finset.sum_const, Nat.card_Ico, nsmul_eq_mul, Nat.cast_id, mul_one] at hle

theorem weight_full (h : ∀ i, lo ≤ i → i < hi → b.test i = true) : b.weight lo hi = hi - lo := by
  have hone : b.weight lo hi = ∑ _i ∈ Finset.Ico lo hi, 1 := by
    refine Finset.sum_congr rfl fun i hi => ?_
    rw [h i (Finset.mem_Ico.mp hi).1 (Finset.mem_Ico.mp hi).2, if_pos rfl]
  rw [hone, Finset.sum_const, Nat.card_Ico, nsmul_eq_mul, Nat.cast_id, mul_one]

/-- One bit more. -/
theorem weight_set (hclear : b.test i = false) (lo hi : Nat) :
    (b.set i).weight lo hi = b.weight lo hi + if lo ≤ i ∧ i < hi then 1 else 0 := by
  split
  · next hin =>
    have hmem : i ∈ Finset.Ico lo hi := Finset.mem_Ico.mpr hin
    unfold weight
    rw [← Finset.sum_erase_add _ _ hmem,
      ← Finset.sum_erase_add _ (fun j => if b.test j then 1 else 0) hmem,
      test_set, if_pos rfl, hclear]
    congr 1
    refine Finset.sum_congr rfl fun j hj => ?_
    rw [test_set, if_neg (Finset.ne_of_mem_erase hj)]
  · next hout =>
    refine weight_congr fun j h1 h2 => ?_
    rw [test_set, if_neg]
    rintro rfl
    exact hout ⟨h1, h2⟩

/-- One bit less. -/
theorem weight_clear (hset : b.test i = true) (lo hi : Nat) :
    (b.clear i).weight lo hi + (if lo ≤ i ∧ i < hi then 1 else 0) = b.weight lo hi := by
  have hback : ∀ j, ((b.clear i).set i).test j = b.test j := by
    intro j
    rw [test_set, test_clear]
    by_cases hj : j = i
    · simp [hj, hset]
    · simp [hj]
  have hclear : (b.clear i).test i = false := by rw [test_clear, if_pos rfl]
  rw [← weight_set hclear lo hi]
  exact weight_congr fun j _ _ => hback j

end Bitmap

end MaeroOS.Lib
