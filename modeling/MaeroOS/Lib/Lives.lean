import Mathlib.Data.List.Nodup

/-!
# Lives of reused slots

A slot of a table is given to one object after the other: inode numbers, segment slots, descriptors.
Whoever kept the number of the slot cannot tell by it which object it names now, and the mistake to
rule out is that the end of one object is carried out on its successor. Here every object gets a
stamp of its own. `Lives live dead born` says that a table of living stamps and the list of those
that have ended fit together; an object can then end only once.
-/

namespace MaeroOS.Lib

variable {α : Type} [DecidableEq α]

/-- `live a` is the stamp of the object in slot `a`, `dead` the stamps of those that have ended, and
stamps from `born` on are unused. -/
structure Lives (live : α → Option Nat) (dead : List Nat) (born : Nat) : Prop where
  once : dead.Nodup
  apart : ∀ a n, live a = some n → n ∉ dead
  distinct : ∀ a a' n, live a = some n → live a' = some n → a = a'
  live_lt : ∀ a n, live a = some n → n < born
  dead_lt : ∀ n ∈ dead, n < born

namespace Lives

variable {live : α → Option Nat} {dead : List Nat} {born : Nat}

theorem of_update_none {a b : α} {n : Nat} (h : Function.update live a none b = some n) :
    b ≠ a ∧ live b = some n := by
  by_cases hba : b = a
  · subst hba
    rw [Function.update_self] at h
    cases h
  · rw [Function.update_of_ne hba] at h
    exact ⟨hba, h⟩

/-- The object in a slot ends. -/
theorem die (h : Lives live dead born) {a : α} {n : Nat} (ha : live a = some n) :
    Lives (Function.update live a none) (n :: dead) born := by
  constructor
  · exact List.nodup_cons.mpr ⟨h.apart a n ha, h.once⟩
  · intro b m hb hm
    obtain ⟨hba, hb⟩ := of_update_none hb
    rcases List.mem_cons.mp hm with rfl | hm
    · exact hba (h.distinct b a m hb ha)
    · exact h.apart b m hb hm
  · intro b b' m hb hb'
    exact h.distinct b b' m (of_update_none hb).2 (of_update_none hb').2
  · intro b m hb
    exact h.live_lt b m (of_update_none hb).2
  · intro m hm
    rcases List.mem_cons.mp hm with rfl | hm
    · exact h.live_lt a m ha
    · exact h.dead_lt m hm

/-- A free slot is given to a new object. -/
theorem birth (h : Lives live dead born) {a : α} (ha : live a = none) :
    Lives (Function.update live a (some born)) dead (born + 1) := by
  have hcases : ∀ b m, Function.update live a (some born) b = some m → (b = a ∧ m = born) ∨
      (b ≠ a ∧ live b = some m) := by
    intro b m hb
    by_cases hba : b = a
    · subst hba
      rw [Function.update_self] at hb
      exact .inl ⟨rfl, (Option.some.inj hb).symm⟩
    · rw [Function.update_of_ne hba] at hb
      exact .inr ⟨hba, hb⟩
  constructor
  · exact h.once
  · intro b m hb hm
    rcases hcases b m hb with ⟨-, rfl⟩ | ⟨-, hb⟩
    · exact Nat.lt_irrefl _ (h.dead_lt _ hm)
    · exact h.apart b m hb hm
  · intro b b' m hb hb'
    rcases hcases b m hb with ⟨hba, hm⟩ | ⟨-, hold⟩ <;>
      rcases hcases b' m hb' with ⟨hba', hm'⟩ | ⟨-, hold'⟩
    · rw [hba, hba']
    · exact absurd (hm ▸ h.live_lt b' m hold') (Nat.lt_irrefl _)
    · exact absurd (hm' ▸ h.live_lt b m hold) (Nat.lt_irrefl _)
    · exact h.distinct b b' m hold hold'
  · intro b m hb
    rcases hcases b m hb with ⟨-, rfl⟩ | ⟨-, hb⟩
    · exact Nat.lt_succ_self _
    · exact Nat.lt_succ_of_lt (h.live_lt b m hb)
  · exact fun m hm => Nat.lt_succ_of_lt (h.dead_lt m hm)

end Lives

end MaeroOS.Lib
