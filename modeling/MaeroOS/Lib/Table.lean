import Mathlib.Algebra.BigOperators.Ring.Finset

/-!
# Tables

A table is a function from a finite type of slots, and a program changes it one slot at a time. What
is kept about a table as a whole is mostly a sum over its entries; `sum_update_of_mem` and
`sum_update` say how a sum changes with one entry. The number of entries that hold something is such
a sum (`holders`).
-/

namespace MaeroOS.Lib.Table

variable {ι κ α : Type} [Fintype ι]

/-- **A sum over a table, when one entry changes**: the old entry goes, the new one comes. -/
theorem sum_update_of_mem [DecidableEq κ] {M : Type} [AddCommMonoid M] (g : α → M) (t : κ → α)
    {S : Finset κ} {i : κ} (hi : i ∈ S) (x : α) :
    ∑ j ∈ S, g (Function.update t i x j) + g (t i) = ∑ j ∈ S, g (t j) + g x := by
  have hrest : ∑ j ∈ S.erase i, g (Function.update t i x j) = ∑ j ∈ S.erase i, g (t j) :=
    Finset.sum_congr rfl fun j hj => by rw [Function.update_of_ne (Finset.ne_of_mem_erase hj)]
  rw [← Finset.sum_erase_add _ _ hi, ← Finset.sum_erase_add _ (fun j => g (t j)) hi, hrest,
    Function.update_self, add_assoc, add_assoc, add_comm (g x)]

theorem sum_update [DecidableEq ι] {M : Type} [AddCommMonoid M] (g : α → M) (t : ι → α) (i : ι)
    (x : α) : ∑ j, g (Function.update t i x j) + g (t i) = ∑ j, g (t j) + g x :=
  sum_update_of_mem g t (Finset.mem_univ i) x

variable [DecidableEq α]

/-- One reference to `head`, if it is one. -/
def one (head : Option α) (a : α) : Nat := if head = some a then 1 else 0

@[simp] theorem one_none (a : α) : one none a = 0 := by simp [one]

@[simp] theorem one_self (a : α) : one (some a) a = 1 := by simp [one]

theorem one_ne {a b : α} (h : b ≠ a) : one (some a) b = 0 := by simp [one, Ne.symm h]

/-- How many entries of the table hold `a`. -/
def holders (t : ι → Option α) (a : α) : Nat := (Finset.univ.filter fun i => t i = some a).card

variable {t : ι → Option α} {i : ι} {a : α}

theorem holders_pos (hi : t i = some a) : 0 < holders t a :=
  Finset.card_pos.mpr ⟨i, by simp [hi]⟩

theorem exists_of_holders_pos (h : 0 < holders t a) : ∃ i, t i = some a := by
  obtain ⟨i, hi⟩ := Finset.card_pos.mp h
  exact ⟨i, (Finset.mem_filter.mp hi).2⟩

theorem holders_eq_zero (h : ∀ i, t i ≠ some a) : holders t a = 0 := by
  by_contra hne
  obtain ⟨i, hi⟩ := exists_of_holders_pos (Nat.pos_of_ne_zero hne)
  exact h i hi

theorem holders_update [DecidableEq ι] (v : Option α) :
    holders (Function.update t i v) a + one (t i) a = holders t a + one v a := by
  unfold holders
  rw [Finset.card_filter, Finset.card_filter]
  exact sum_update (fun x => one x a) t i v

end MaeroOS.Lib.Table
