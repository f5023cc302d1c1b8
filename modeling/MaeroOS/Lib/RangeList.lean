import Mathlib.Data.List.Basic

/-!
# Unsorted lists of ranges

A list of inclusive integer ranges, each with a value, in no order: what a kernel keeps when it
hangs byte ranges on a hash chain. The meaning of such a list is the set of (value, point) pairs it
covers (`Covers`); `remove` takes a range out of the entries a predicate selects, trimming and
splitting as needed; `Apart Q` says that entries whose values are related by `Q` do not overlap.
-/

namespace MaeroOS.Lib.RangeList

open List

variable {β : Type}

structure Ranged (β : Type) where
  lo : Int
  hi : Int
  val : β
  deriving DecidableEq, Repr

variable {s : Ranged β}

namespace Ranged

/-- The point `b` is in the range. -/
def Has (r : Ranged β) (b : Int) : Prop := r.lo ≤ b ∧ b ≤ r.hi

/-- The two ranges have no point in common. -/
def Apart (r s : Ranged β) : Prop := r.hi < s.lo ∨ s.hi < r.lo

/-- What is left of a selected range without `[lo, hi]`: up to two pieces. -/
def cut (sel : β → Bool) (lo hi : Int) (r : Ranged β) : List (Ranged β) :=
  if sel r.val = true ∧ r.lo ≤ hi ∧ lo ≤ r.hi then
    (if r.lo < lo then [{ r with hi := lo - 1 }] else []) ++
      (if hi < r.hi then [{ r with lo := hi + 1 }] else [])
  else [r]

variable {sel : β → Bool} {lo hi : Int} {r : Ranged β}

theorem cut_of_not_overlap (h : ¬ (sel r.val = true ∧ r.lo ≤ hi ∧ lo ≤ r.hi)) :
    cut sel lo hi r = [r] := if_neg h

/-- The pieces of a range. -/
theorem mem_cut_iff : s ∈ cut sel lo hi r ↔ if sel r.val = true ∧ r.lo ≤ hi ∧ lo ≤ r.hi then
    r.lo < lo ∧ s = { r with hi := lo - 1 } ∨ hi < r.hi ∧ s = { r with lo := hi + 1 }
      else s = r := by
  unfold cut
  split
  · rw [mem_append]
    split <;> split <;> simp [*]
  · exact mem_singleton

/-- A piece of a range, and whether it is inside the range taken out. -/
theorem mem_cut (hs : s ∈ cut sel lo hi r) :
    s.val = r.val ∧ r.lo ≤ s.lo ∧ s.hi ≤ r.hi ∧ (r.lo ≤ r.hi → lo ≤ hi → s.lo ≤ s.hi) ∧
      (sel r.val = true → s.hi < lo ∨ hi < s.lo ∨ s.hi < s.lo) := by
  rw [mem_cut_iff] at hs
  grind

/-- The pieces cover the range without what is taken out. -/
theorem has_cut (b : Int) :
    (∃ s ∈ cut sel lo hi r, s.Has b) ↔ r.Has b ∧ ¬ (sel r.val = true ∧ lo ≤ b ∧ b ≤ hi) := by
  simp only [mem_cut_iff, Has]
  split
  · next h =>
    constructor
    · rintro ⟨s, ⟨hlt, rfl⟩ | ⟨hlt, rfl⟩, hb⟩
      · dsimp only at hb
        omega
      · dsimp only at hb
        omega
    · rintro ⟨hb, hout⟩
      have hout : ¬ (lo ≤ b ∧ b ≤ hi) := fun hin => hout ⟨h.1, hin⟩
      by_cases hlt : b < lo
      · exact ⟨{ r with hi := lo - 1 }, .inl ⟨by omega, rfl⟩, by dsimp only; omega⟩
      · exact ⟨{ r with lo := hi + 1 }, .inr ⟨by omega, rfl⟩, by dsimp only; omega⟩
  · next h =>
    rw [exists_eq_left]
    exact ⟨fun hb => ⟨hb, fun hin => h ⟨hin.1, by omega, by omega⟩⟩, And.left⟩

end Ranged

open Ranged

/-- Take `[lo, hi]` out of every selected range. -/
def remove (sel : β → Bool) (lo hi : Int) (l : List (Ranged β)) : List (Ranged β) :=
  l.flatMap (cut sel lo hi)

/-- Some range with value `v` has the point `b`. -/
def Covers (l : List (Ranged β)) (v : β) (b : Int) : Prop := ∃ r ∈ l, r.val = v ∧ r.Has b

theorem covers_cons {l : List (Ranged β)} {v : β} {b : Int} :
    Covers (r :: l) v b ↔ (r.val = v ∧ r.Has b) ∨ Covers l v b := by
  simp [Covers]

/-- Ranges whose values `Q` relates have no point in common. -/
def Apart (Q : β → β → Prop) (l : List (Ranged β)) : Prop :=
  l.Pairwise fun r s => Q r.val s.val → r.Apart s

variable {sel : β → Bool} {lo hi : Int} {l : List (Ranged β)} {Q : β → β → Prop}

theorem mem_remove :
    s ∈ remove sel lo hi l ↔ ∃ r ∈ l, s ∈ cut sel lo hi r := mem_flatMap

/-- Nothing changes when no selected range meets `[lo, hi]`. -/
theorem remove_of_misses (h : ∀ r ∈ l, sel r.val = true → r.hi < lo ∨ hi < r.lo) :
    remove sel lo hi l = l := by
  refine (flatMap_congr fun r hr => cut_of_not_overlap fun ⟨hsel, h₁, h₂⟩ => ?_).trans
    (flatMap_singleton' l)
  rcases h r hr hsel with h | h <;> omega

/-- **Removing a range removes exactly its points from exactly the selected values.** -/
theorem covers_remove (v : β) (b : Int) :
    Covers (remove sel lo hi l) v b ↔ Covers l v b ∧ ¬ (sel v = true ∧ lo ≤ b ∧ b ≤ hi) := by
  constructor
  · rintro ⟨s, hs, rfl, hb⟩
    obtain ⟨r, hr, hcut⟩ := mem_remove.mp hs
    have hval := (mem_cut hcut).1
    obtain ⟨hrb, hout⟩ := (has_cut b).mp ⟨s, hcut, hb⟩
    exact ⟨⟨r, hr, hval.symm, hrb⟩, hval ▸ hout⟩
  · rintro ⟨⟨r, hr, rfl, hb⟩, hout⟩
    obtain ⟨s, hs, hsb⟩ := (has_cut b).mpr ⟨hb, hout⟩
    exact ⟨s, mem_remove.mpr ⟨r, hr, hs⟩, (mem_cut hs).1, hsb⟩

/-- After the removal no selected range meets `[lo, hi]`. -/
theorem remove_misses (hle : lo ≤ hi) (hr : ∀ r ∈ l, r.lo ≤ r.hi)
    (hs : s ∈ remove sel lo hi l) (hsel : sel s.val = true) : s.hi < lo ∨ hi < s.lo := by
  obtain ⟨r, hmem, hcut⟩ := mem_remove.mp hs
  obtain ⟨hval, -, -, hne, hmiss⟩ := mem_cut hcut
  have := hne (hr r hmem) hle
  rcases hmiss (hval ▸ hsel) with h | h | h
  · exact Or.inl h
  · exact Or.inr h
  · omega

theorem Apart.remove (hle : lo ≤ hi) (h : Apart Q l) : Apart Q (remove sel lo hi l) := by
  refine pairwise_flatMap.mpr ⟨fun r _ => ?_, ?_⟩
  · -- the two pieces of one range lie on different sides of what was taken out
    unfold cut
    split
    · split
      · split
        · refine pairwise_pair.mpr fun _ => Or.inl ?_
          show lo - 1 < hi + 1
          omega
        · simp
      · split <;> simp
    · exact pairwise_singleton _ _
  · refine h.imp fun {r s} hrs x hx y hy hQ => ?_
    obtain ⟨hxv, hx₁, hx₂, -⟩ := mem_cut hx
    obtain ⟨hyv, hy₁, hy₂, -⟩ := mem_cut hy
    exact (hrs (hxv ▸ hyv ▸ hQ)).imp (by omega) (by omega)

end MaeroOS.Lib.RangeList
