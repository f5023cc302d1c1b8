import Mathlib.Algebra.BigOperators.Group.Finset.Basic

/-!
# Counting below a bound

How many numbers below a bound have a decidable property, as a bitmap's free count says of its
clear bits, and how that changes with a few of them.
-/

namespace MaeroOS.Lib

open List

/-- How many `i < n` have `p`. -/
def count (p : Nat → Bool) (n : Nat) : Nat := (List.range n).countP p

variable {p q : Nat → Bool} {n : Nat}

theorem count_eq_zero : count p n = 0 ↔ ∀ i < n, p i = false := by
  unfold count
  rw [countP_eq_zero]
  simp [mem_range]

theorem count_eq_card (p : Nat → Bool) (n : Nat) :
    count p n = ((Finset.range n).filter fun i => p i = true).card := by
  rw [count, countP_eq_length_filter, ← toFinset_card_of_nodup (nodup_range.filter _)]
  congr 1
  ext i
  simp

/-- **More of them**: those of a list get the property as well. -/
theorem count_add {l : List Nat} (hl : l.Nodup) (hnew : ∀ i ∈ l, i < n ∧ p i = false)
    (hq : ∀ i < n, q i = (p i || decide (i ∈ l))) : count q n = count p n + l.length := by
  rw [count_eq_card, count_eq_card, ← toFinset_card_of_nodup hl]
  rw [← Finset.card_union_of_disjoint]
  · congr 1
    ext i
    rw [Finset.mem_union, Finset.mem_filter, Finset.mem_filter, mem_toFinset, Finset.mem_range]
    constructor
    · rintro ⟨hi, hqi⟩
      rw [hq i hi, Bool.or_eq_true, decide_eq_true_iff] at hqi
      exact hqi.imp (⟨hi, ·⟩) id
    · rintro (⟨hi, hpi⟩ | hil)
      · exact ⟨hi, by rw [hq i hi, hpi, Bool.true_or]⟩
      · exact ⟨(hnew i hil).1, by rw [hq i (hnew i hil).1, decide_eq_true hil, Bool.or_true]⟩
  · rw [Finset.disjoint_left]
    intro i hi hil
    rw [Finset.mem_filter] at hi
    rw [mem_toFinset] at hil
    rw [(hnew i hil).2] at hi
    exact Bool.false_ne_true hi.2

end MaeroOS.Lib
