import Mathlib.Data.List.Nodup
import Mathlib.Data.Nat.ModEq

/-!
# Ring buffers

A ring of `cap` cells is a function on positions of which only the remainders modulo `cap` matter.
The `window` of `n` cells from a position is what a queue holds; `store` sets consecutive cells.

* `window_add` splits a window, `window_mod` moves it around the ring.
* `window_store` says what a store behind the window adds to it, and `window_store_apart` that
  within one revolution it leaves the window alone.
-/

namespace MaeroOS.Lib.Ring

open List

variable {α : Type} {cap : Nat} {data data' : Nat → α} {p q m n : Nat} {bs : List α}

/-- The `n` cells from position `p` on, around the end of the ring. -/
def window (cap : Nat) (data : Nat → α) (p n : Nat) : List α :=
  (List.range n).map fun i => data ((p + i) % cap)

/-- The cells from position `p` on are set to `bs`, around the end of the ring. -/
def store (cap : Nat) (data : Nat → α) (p : Nat) : List α → Nat → α
  | [] => data
  | b :: bs => store cap (Function.update data (p % cap) b) (p + 1) bs

@[simp] theorem length_window : (window cap data p n).length = n := by simp [window]

@[simp] theorem window_zero : window cap data p 0 = [] := rfl

theorem window_mod : window cap data (p % cap) n = window cap data p n := by simp [window]

theorem window_add : window cap data p (m + n) = window cap data p m ++ window cap data
    (p + m) n := by
  simp [window, range_add, add_assoc]

theorem window_one : window cap data p 1 = [data (p % cap)] := rfl

theorem window_cons : window cap data p (n + 1) = data (p % cap) :: window cap data (p + 1) n := by
  rw [add_comm n 1, window_add, window_one, singleton_append]

/-- Within one revolution different offsets are different cells. -/
theorem offset_inj {i j : Nat} (hi : i < cap) (hj : j < cap) (h : (p + i) % cap = (p + j) % cap) :
    i = j := by
  have hmod : i % cap = j % cap := Nat.ModEq.add_left_cancel' p h
  rwa [Nat.mod_eq_of_lt hi, Nat.mod_eq_of_lt hj] at hmod

/-- Only the remainder of the position matters. -/
theorem store_mod (h : p % cap = q % cap) : store cap data p bs = store cap data q bs := by
  induction bs generalizing data p q with
  | nil => rfl
  | cons b bs ih =>
    rw [store, store, h]
    exact ih (Nat.ModEq.add_right 1 h)

/-- A store changes only the cells it covers. -/
theorem store_of_ne {x : Nat} (h : ∀ i < bs.length, x ≠ (p + i) % cap) :
    store cap data p bs x = data x := by
  induction bs generalizing data p with
  | nil => rfl
  | cons b bs ih =>
    have hrest : ∀ i < bs.length, x ≠ (p + 1 + i) % cap := by
      intro i hi
      rw [add_assoc, add_comm 1 i]
      exact h (i + 1) (by simpa using hi)
    have hfirst := h 0 (by simp)
    rw [store, ih hrest, Function.update_of_ne (by simpa using hfirst)]

/-- A store that starts behind the window and ends within one revolution leaves it alone. -/
theorem window_store_apart (hm : n ≤ m) (hcap : m + bs.length ≤ cap) :
    window cap (store cap data (p + m) bs) p n = window cap data p n := by
  refine map_congr_left fun i hi => store_of_ne fun j hj heq => ?_
  have hi := mem_range.mp hi
  rw [add_assoc] at heq
  have := offset_inj (by omega) (by omega) heq
  omega

/-- What is stored is what is there. -/
theorem window_store (hcap : bs.length ≤ cap) :
    window cap (store cap data p bs) p bs.length = bs := by
  induction bs generalizing data p with
  | nil => rfl
  | cons b bs ih =>
    simp only [length_cons] at hcap ⊢
    rw [add_comm, window_add, window_one, store, ih (by omega)]
    have hkept : window cap (store cap (Function.update data (p % cap) b) (p + 1) bs) p 1 =
        window cap (Function.update data (p % cap) b) p 1 :=
      window_store_apart le_rfl (by omega)
    rw [window_one, window_one, Function.update_self] at hkept
    rw [hkept, singleton_append]

/-- A cell is filled behind the window. -/
theorem window_push {b : α} (h : n < cap) :
    window cap (Function.update data ((p + n) % cap) b) p (n + 1) = window cap data p n ++ [b] := by
  have hcap : n + [b].length ≤ cap := h
  have hstore : window cap (store cap data (p + n) [b]) (p + n) 1 = [b] :=
    window_store (by simp; omega)
  rw [window_add]
  exact congrArg₂ (· ++ ·) (window_store_apart le_rfl hcap) hstore

/-- In a full ring the oldest cell is used again. -/
theorem window_shift {b : α} (h : 0 < cap) :
    window cap (Function.update data (p % cap) b) (p + 1) cap = (window cap data p cap).tail ++
      [b] := by
  obtain ⟨k, rfl⟩ := Nat.exists_eq_succ_of_ne_zero h.ne'
  have hround : p % (k + 1) = (p + 1 + k) % (k + 1) := by
    rw [add_assoc, add_comm 1 k, Nat.add_mod_right]
  rw [Nat.succ_eq_add_one, hround, window_push (Nat.lt_succ_self k), window_cons, tail_cons]

end MaeroOS.Lib.Ring
