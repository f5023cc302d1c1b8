import Mathlib.Tactic.Common

/-!
# Sequences of writes

Writes to cells, one after the other. A cell has what was last written to it, or what it had before
(`applyWrites_of_notMem`, `applyWrites_congr`), so that writes that are repeated from the start
after a first part of them are as good as done once (`applyWrites_take`).
-/

namespace MaeroOS.Lib

open Function

variable {α β : Type} [DecidableEq α] {d d' : α → β} {ws vs : List (α × β)} {a : α}

/-- The cells after some writes. -/
def applyWrites (d : α → β) (ws : List (α × β)) : α → β :=
  ws.foldl (fun d w => Function.update d w.1 w.2) d

@[simp] theorem applyWrites_nil : applyWrites d [] = d := rfl

@[simp] theorem applyWrites_cons {w : α × β} :
    applyWrites d (w :: ws) = applyWrites (update d w.1 w.2) ws := rfl

theorem applyWrites_append : applyWrites d (ws ++ vs) = applyWrites (applyWrites d ws) vs :=
  List.foldl_append ..

theorem applyWrites_of_notMem (h : ∀ w ∈ ws, w.1 ≠ a) : applyWrites d ws a = d a := by
  induction ws generalizing d with
  | nil => rfl
  | cons w ws ih =>
    rw [applyWrites_cons, ih fun w' hw' => h w' (List.mem_cons_of_mem w hw'),
      update_of_ne (h w List.mem_cons_self).symm]

/-- A cell has what it had, or something that was written to it. -/
theorem applyWrites_cases (d : α → β) (ws : List (α × β)) (a : α) :
    applyWrites d ws a = d a ∨ ∃ w ∈ ws, w.1 = a ∧ applyWrites d ws a = w.2 := by
  induction ws generalizing d with
  | nil => exact .inl rfl
  | cons w ws ih =>
    rw [applyWrites_cons]
    rcases ih (update d w.1 w.2) with h | ⟨w', hw', h⟩
    · by_cases hw : w.1 = a
      · subst hw
        exact .inr ⟨w, List.mem_cons_self, rfl, h.trans (update_self ..)⟩
      · exact .inl (h.trans (update_of_ne (Ne.symm hw) ..))
    · exact .inr ⟨w', List.mem_cons_of_mem w hw', h⟩

/-- A cell that is written has the same afterwards, whatever it had before. -/
theorem applyWrites_congr (h : d a = d' a ∨ ∃ w ∈ ws, w.1 = a) :
    applyWrites d ws a = applyWrites d' ws a := by
  induction ws generalizing d d' with
  | nil =>
    rcases h with h | ⟨w, hw, -⟩
    · exact h
    · cases hw
  | cons w ws ih =>
    rw [applyWrites_cons, applyWrites_cons]
    apply ih
    by_cases hw : w.1 = a
    · subst hw
      exact .inl (by rw [update_self, update_self])
    · rw [update_of_ne (Ne.symm hw), update_of_ne (Ne.symm hw)]
      refine h.imp id ?_
      rintro ⟨w', hw', rfl⟩
      rcases List.mem_cons.mp hw' with rfl | hw'
      · exact absurd rfl hw
      · exact ⟨w', hw', rfl⟩

/-- A first part of the writes, and then all of them. -/
theorem applyWrites_take (n : Nat) :
    applyWrites (applyWrites d (ws.take n)) ws = applyWrites d ws := by
  funext a
  apply applyWrites_congr
  by_cases h : ∃ w ∈ ws, w.1 = a
  · exact .inr h
  · exact .inl (applyWrites_of_notMem fun w hw heq => h ⟨w, List.mem_of_mem_take hw, heq⟩)

end MaeroOS.Lib
