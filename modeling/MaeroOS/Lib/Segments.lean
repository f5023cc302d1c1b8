import Mathlib.Tactic.Common

/-!
# Ordered lists of segments

A program often keeps a partial map on numbers as a list of nodes. Each node stands for a half-open
range and says what the map is there; `seg` reads a node that way. `find` is the node that has a
point and `lookup` the map of the list. `Ordered` says that a node ends before the next one starts,
so that no point is in two nodes.

The edits of such a list replace nodes by pieces of themselves (`lookup_edit`, `Ordered.flatMap`),
put a node in where there was none (`lookup_insert`, `Ordered.insert`), and make one node of two
that touch (`lookup_join`).
-/

namespace MaeroOS.Lib

open List

variable {ι β : Type}

/-- The numbers from `lo` on and below `hi`, each with a value. -/
structure Segment (β : Type) where
  lo : Nat
  hi : Nat
  val : Nat → β

namespace Segment

def Has (s : Segment β) (a : Nat) : Prop := s.lo ≤ a ∧ a < s.hi

instance (s : Segment β) (a : Nat) : Decidable (s.Has a) := inferInstanceAs (Decidable (_ ∧ _))

/-- One range is inside the other. -/
def Within (p s : Segment β) : Prop := s.lo ≤ p.lo ∧ p.hi ≤ s.hi

theorem Within.refl (s : Segment β) : s.Within s := ⟨Nat.le_refl _, Nat.le_refl _⟩

theorem Within.has {p s : Segment β} {a : Nat} (h : p.Within s) (ha : p.Has a) : s.Has a :=
  ⟨Nat.le_trans h.1 ha.1, Nat.lt_of_lt_of_le ha.2 h.2⟩

/-- `m` is `s` and `t` in one: they touch, and its values are theirs. -/
structure Joins (m s t : Segment β) : Prop where
  lo : m.lo = s.lo
  hi : m.hi = t.hi
  touch : s.hi = t.lo
  left : ∀ a, s.Has a → m.val a = s.val a
  right : ∀ a, t.Has a → m.val a = t.val a

end Segment

namespace Segments

variable (seg : ι → Segment β)

/-- The node that has a point. -/
def find (l : List ι) (a : Nat) : Option ι := l.find? fun i => (seg i).Has a

/-- The map of a list of nodes. -/
def lookup (l : List ι) (a : Nat) : Option β := (find seg l a).map fun i => (seg i).val a

/-- Each node ends before the next one starts. -/
def Ordered (l : List ι) : Prop := l.Pairwise fun i j => (seg i).hi ≤ (seg j).lo

variable {seg} {l l' : List ι} {i j : ι} {a : Nat}

/-! ## The map of a list -/

theorem find_cons_of_has (h : (seg i).Has a) : find seg (i :: l) a = some i :=
  List.find?_cons_of_pos (by simpa using h)

theorem find_cons_of_not_has (h : ¬ (seg i).Has a) : find seg (i :: l) a = find seg l a :=
  List.find?_cons_of_neg (by simpa using h)

theorem find_append : find seg (l ++ l') a = (find seg l a).or (find seg l' a) := List.find?_append

theorem find_eq_none : find seg l a = none ↔ ∀ i ∈ l, ¬ (seg i).Has a := by
  simp [find]

/-- Points that are in the same nodes have the same one. -/
theorem find_congr {b : Nat} (h : ∀ i ∈ l, (seg i).Has a ↔ (seg i).Has b) :
    find seg l a = find seg l b := by
  induction l with
  | nil => rfl
  | cons i l ih =>
    have hrest := ih fun j hj => h j (mem_cons_of_mem i hj)
    by_cases ha : (seg i).Has a
    · rw [find_cons_of_has ha, find_cons_of_has ((h i mem_cons_self).mp ha)]
    · rw [find_cons_of_not_has ha, find_cons_of_not_has fun hb =>
        ha ((h i mem_cons_self).mpr hb), hrest]

theorem mem_of_find (h : find seg l a = some i) : i ∈ l := mem_of_find?_eq_some h

theorem has_of_find (h : find seg l a = some i) : (seg i).Has a := by
  simpa using List.find?_some h

@[simp] theorem lookup_nil : lookup seg [] a = none := rfl

theorem lookup_of_find (h : find seg l a = some i) : lookup seg l a = some ((seg i).val a) := by
  rw [lookup, h, Option.map_some]

theorem lookup_cons_of_has (h : (seg i).Has a) : lookup seg (i :: l) a = some ((seg i).val a) :=
  lookup_of_find (find_cons_of_has h)

theorem lookup_cons_of_not_has (h : ¬ (seg i).Has a) : lookup seg (i :: l) a = lookup seg l a := by
  rw [lookup, find_cons_of_not_has h, lookup]

theorem lookup_cons : lookup seg (i :: l) a = if (seg i).Has a then some ((seg i).val a)
    else lookup seg l a := by
  split
  · next h => exact lookup_cons_of_has h
  · next h => exact lookup_cons_of_not_has h

theorem lookup_append : lookup seg (l ++ l') a = (lookup seg l a).or (lookup seg l' a) := by
  unfold lookup
  rw [find_append]
  cases find seg l a <;> rfl

theorem lookup_eq_none : lookup seg l a = none ↔ ∀ i ∈ l, ¬ (seg i).Has a := by
  rw [lookup, Option.map_eq_none_iff, find_eq_none]

variable (hord : Ordered seg l)

include hord

/-- In an ordered list the node that has a point is the only one. -/
theorem find_of_mem (hi : i ∈ l) (ha : (seg i).Has a) : find seg l a = some i := by
  induction l with
  | nil => cases hi
  | cons j l ih =>
    obtain ⟨hj, hl⟩ := pairwise_cons.mp hord
    rcases mem_cons.mp hi with rfl | hi
    · exact find_cons_of_has ha
    have hnot : ¬ (seg j).Has a :=
      fun hja => Nat.not_lt.mpr (hj i hi) (Nat.lt_of_le_of_lt ha.1 hja.2)
    rw [find_cons_of_not_has hnot]
    exact ih hl hi

theorem lookup_of_mem (hi : i ∈ l) (ha : (seg i).Has a) :
    lookup seg l a = some ((seg i).val a) := lookup_of_find (find_of_mem hord hi ha)

/-- Two nodes of an ordered list with a common point are the same. -/
theorem Ordered.unique (hi : i ∈ l) (hj : j ∈ l) (hia : (seg i).Has a) (hja : (seg j).Has a) :
    i = j := Option.some.inj ((find_of_mem hord hi hia).symm.trans (find_of_mem hord hj hja))

/-! ## Nodes replaced by pieces -/

section Edit

variable {g : ι → List ι}

theorem Ordered.flatMap (hin : ∀ i ∈ l, ∀ p ∈ g i, (seg p).Within (seg i))
    (hg : ∀ i ∈ l, Ordered seg (g i)) : Ordered seg (l.flatMap g) := by
  refine pairwise_flatMap.mpr ⟨hg, ?_⟩
  refine List.Pairwise.imp_of_mem (fun {i j} hi hj hij p hp q hq => ?_) hord
  exact Nat.le_trans (Nat.le_trans (hin i hi p hp).2 hij) (hin j hj q hq).1

/-- The map of the pieces, node by node. -/
theorem lookup_flatMap (hin : ∀ i ∈ l, ∀ p ∈ g i, (seg p).Within (seg i)) (a : Nat) :
    lookup seg (l.flatMap g) a = (find seg l a).bind fun i => lookup seg (g i) a := by
  induction l with
  | nil => rfl
  | cons i l ih =>
    obtain ⟨hi, hl⟩ := pairwise_cons.mp hord
    have hrest := ih hl fun j hj => hin j (mem_cons_of_mem i hj)
    rw [flatMap_cons, lookup_append, hrest]
    by_cases ha : (seg i).Has a
    · -- no later node has the point
      have hnone : find seg l a = none := find_eq_none.mpr fun j hj hja =>
        Nat.not_lt.mpr (hi j hj) (Nat.lt_of_le_of_lt hja.1 ha.2)
      rw [find_cons_of_has ha, hnone]
      exact Option.or_none
    · have hnone : lookup seg (g i) a = none := lookup_eq_none.mpr fun p hp hpa =>
        ha ((hin i mem_cons_self p hp).has hpa)
      rw [find_cons_of_not_has ha, hnone, Option.none_or]

end Edit

omit hord

/-! ## Two nodes made one -/

section Join

variable {m s t : ι}

theorem lookup_join (h : (seg m).Joins (seg s) (seg t)) (hs : (seg s).lo ≤ (seg s).hi)
    (ht : (seg t).lo ≤ (seg t).hi)
    (a : Nat) : lookup seg (m :: l) a = lookup seg (s :: t :: l) a := by
  have hlo := h.lo
  have hhi := h.hi
  have htouch := h.touch
  by_cases hsa : (seg s).Has a
  · have hma : (seg m).Has a := ⟨hlo ▸ hsa.1, by have := hsa.2; omega⟩
    rw [lookup_cons_of_has hma, lookup_cons_of_has hsa, h.left a hsa]
  · rw [lookup_cons_of_not_has hsa]
    by_cases hta : (seg t).Has a
    · have hma : (seg m).Has a := ⟨by have := hta.1; omega, hhi ▸ hta.2⟩
      rw [lookup_cons_of_has hma, lookup_cons_of_has hta, h.right a hta]
    · have hma : ¬ (seg m).Has a := by
        unfold Segment.Has at *
        omega
      rw [lookup_cons_of_not_has hma, lookup_cons_of_not_has hta]

theorem Ordered.join (h : (seg m).Joins (seg s) (seg t)) (hord : Ordered seg (s :: t :: l)) :
    Ordered seg (m :: l) := by
  obtain ⟨-, htl⟩ := pairwise_cons.mp hord
  obtain ⟨ht, hl⟩ := pairwise_cons.mp htl
  refine pairwise_cons.mpr ⟨fun j hj => ?_, hl⟩
  rw [h.hi]
  exact ht j hj

end Join

/-! ## A new node -/

section Insert

variable {v : ι}

theorem lookup_insert (hbefore : ∀ i ∈ l, (seg i).hi ≤ (seg v).lo) (a : Nat) :
    lookup seg (l ++ v :: l') a = if (seg v).Has a then some ((seg v).val a)
      else lookup seg (l ++ l') a := by
  rw [lookup_append, lookup_append]
  by_cases hva : (seg v).Has a
  · have hnone : lookup seg l a = none := lookup_eq_none.mpr fun i hi hia =>
      Nat.not_lt.mpr (hbefore i hi) (Nat.lt_of_le_of_lt hva.1 hia.2)
    rw [if_pos hva, hnone, Option.none_or, lookup_cons_of_has hva]
  · rw [if_neg hva, lookup_cons_of_not_has hva]

end Insert

end Segments

end MaeroOS.Lib
