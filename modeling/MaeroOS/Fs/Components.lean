import Mathlib.Data.List.TakeWhile
import MaeroOS.Fs.Walk

/-!
# Components

`vfs_walk` reads its path character by character. Here the path is cut into its components first,
each with the text after it (`pieces`), and the walk goes from one to the next (`walkFrom_eq`), so
that a property of walks is one of a list.
-/

namespace MaeroOS.Fs

open List

/-- The components of the rest of a path, after a part of the first one, each with the path after
it. -/
def pieces : Name → Name → List (Name × Name)
  | [], name => if name = [] then [] else [(name, [])]
  | c :: p, name =>
      if c = '/' then (if name = [] then [] else [(name, skipSlashes p)]) ++ pieces p []
        else pieces p (name ++ [c])

def components (path : Name) : List Name := (pieces path []).map Prod.fst

/-- The path of the given components. -/
def pathOf (names : List Name) : Name := names.flatMap ('/' :: ·)

/-- A component as a walk meets them. -/
def Component (name : Name) : Prop := name ≠ [] ∧ '/' ∉ name

theorem components_cons (p : Name) : components ('/' :: p) = (pieces p []).map Prod.fst := by
  simp [components, pieces]

theorem pieces_name {c : Name} (hc : '/' ∉ c) (r name : Name) : pieces (c ++ r) name = pieces r
    (name ++ c) := by
  induction c generalizing name with
  | nil => simp
  | cons a c ih =>
    obtain ⟨ha, hc⟩ : '/' ≠ a ∧ '/' ∉ c := by simpa using hc
    rw [cons_append, pieces, if_neg (Ne.symm ha), ih hc, append_assoc, singleton_append]

/-- A component that has been begun is the first one. -/
theorem pieces_begun {name : Name} (hname : name ≠ []) (p : Name) :
    ∃ more after rest, pieces p name = (name ++ more, after) :: rest := by
  induction p generalizing name with
  | nil => exact ⟨[], [], [], by simp [pieces, hname]⟩
  | cons c p ih =>
    by_cases hc : c = '/'
    · exact ⟨[], skipSlashes p, pieces p [], by simp [pieces, hc, hname]⟩
    · obtain ⟨more, after, rest, h⟩ := ih (show name ++ [c] ≠ [] by simp)
      exact ⟨c :: more, after, rest, by simpa [pieces, hc] using h⟩

/-- A component that ends is followed by a slash or by nothing. -/
theorem pieces_end {name tail : Name} (hname : name ≠ [])
    (htail : tail = [] ∨ tail.head? = some '/') :
    ∃ rest, pieces tail name = (name, skipSlashes tail) :: rest := by
  cases tail with
  | nil => exact ⟨[], by simp [pieces, hname, skipSlashes]⟩
  | cons c t =>
    obtain rfl : c = '/' := by simpa using htail
    exact ⟨pieces t [], by simp [pieces, hname, skipSlashes]⟩

/-- Where a slash is, a path is two. -/
theorem pieces_slash (p r name : Name) :
    ∃ front, pieces (p ++ '/' :: r) name = front ++ pieces r [] ∧
      front.map Prod.fst = (pieces p name).map Prod.fst := by
  induction p generalizing name with
  | nil => exact ⟨_, rfl, by by_cases hname : name = [] <;> simp [pieces, hname]⟩
  | cons c p ih =>
    by_cases hc : c = '/'
    · obtain ⟨front, hfront, hfst⟩ := ih []
      refine ⟨(if name = [] then [] else [(name, skipSlashes (p ++ '/' :: r))]) ++ front, ?_, ?_⟩
      · simp [pieces, hc, hfront]
      · by_cases hname : name = [] <;> simp [pieces, hc, hfst, hname]
    · simpa [pieces, hc] using ih (name ++ [c])

theorem components_slash (p r : Name) :
    components (p ++ '/' :: r) = components p ++ components r := by
  obtain ⟨front, hfront, hfst⟩ := pieces_slash p r []
  rw [components, hfront, map_append, hfst]
  rfl

theorem pieces_skipSlashes (p : Name) : pieces (skipSlashes p) [] = pieces p [] := by
  induction p with
  | nil => rfl
  | cons c p ih =>
    by_cases hc : c = '/'
    · rw [show skipSlashes (c :: p) = skipSlashes p by simp [skipSlashes, hc], ih]
      simp [pieces, hc]
    · simp [skipSlashes, hc]

/-- The first component of a path. -/
theorem pieces_first {p first : Name} (hfirst : (skipSlashes p).takeWhile (· ≠ '/') = first)
    (hne : first ≠ []) : ∃ after rest, pieces p [] = (first, after) :: rest := by
  rw [← pieces_skipSlashes]
  generalize skipSlashes p = p at hfirst
  have hslash : '/' ∉ first := by
    rw [← hfirst]
    intro hin
    have hne := mem_takeWhile_imp hin
    simp at hne
  have htail : p.dropWhile (· ≠ '/') = [] ∨ (p.dropWhile (· ≠ '/')).head? = some '/' := by
    cases h : (p.dropWhile (· ≠ '/')).head? with
    | none => exact .inl (head?_eq_none_iff.mp h)
    | some c =>
      rw [← find?_not_eq_head?_dropWhile] at h
      obtain rfl : c = '/' := by simpa using find?_some h
      exact .inr rfl
  obtain ⟨rest, hrest⟩ := pieces_end hne htail
  have hsplit : first ++ p.dropWhile (· ≠ '/') = p := by rw [← hfirst, takeWhile_append_dropWhile]
  exact ⟨_, rest, by rw [← hrest, ← hsplit, pieces_name hslash, hsplit, nil_append]⟩

theorem components_pathOf {names : List Name} (h : ∀ name ∈ names, Component name) :
    components (pathOf names) = names := by
  have hgo : ∀ name, (pieces (pathOf names) name).map Prod.fst =
      (if name = [] then [] else [name]) ++ names := by
    induction names with
    | nil => intro name; by_cases hname : name = [] <;> simp [pathOf, pieces, hname]
    | cons a names ih =>
      intro name
      obtain ⟨⟨ha, hslash⟩, h⟩ := forall_mem_cons.mp h
      have hcons : pathOf (a :: names) = '/' :: (a ++ pathOf names) := rfl
      rw [hcons, pieces, if_pos rfl, map_append, pieces_name hslash, ih h, nil_append, if_neg ha]
      by_cases hname : name = [] <;> simp [hname]
  exact hgo []

theorem pathOf_append (a b : List Name) : pathOf (a ++ b) = pathOf a ++ pathOf b := flatMap_append

theorem pathOf_snoc (names : List Name) (name : Name) :
    pathOf (names ++ [name]) = pathOf names ++ '/' :: name := by
  simp [pathOf]

/-- What a component is made of, and how long the components are together. -/
theorem mem_pieces {p name : Name} {x : Name × Name} (hname : '/' ∉ name) (hx : x ∈ pieces p name) :
    Component x.1 ∧ (∀ c ∈ x.1, c ∈ name ∨ c ∈ p) ∧ x.1.length + x.2.length ≤
      name.length + p.length := by
  have hflush : ∀ {name after : Name}, '/' ∉ name →
      x ∈ (if name = [] then [] else [(name, after)]) → x = (name, after) ∧ Component name := by
    intro name after hname
    split
    · simp
    · next hne => exact fun h => ⟨mem_singleton.mp h, hne, hname⟩
  induction p generalizing name with
  | nil =>
    obtain ⟨rfl, hcomp⟩ := hflush hname hx
    exact ⟨hcomp, fun c hc => .inl hc, le_rfl⟩
  | cons c p ih =>
    unfold pieces at hx
    split at hx
    · obtain hx | hx := mem_append.mp hx
      · obtain ⟨rfl, hcomp⟩ := hflush hname hx
        have hskip : (skipSlashes p).length ≤ p.length := (dropWhile_sublist _).length_le
        exact ⟨hcomp, fun c hc => .inl hc, by simp only [length_cons]; omega⟩
      · obtain ⟨hcomp, hmem, hlen⟩ := ih (show '/' ∉ [] by simp) hx
        refine ⟨hcomp, fun b hb => .inr (mem_cons_of_mem _ ((hmem b hb).resolve_left not_mem_nil)),
          ?_⟩
        simp only [length_nil, length_cons] at hlen ⊢
        omega
    · next hc =>
      obtain ⟨hcomp, hmem, hlen⟩ :=
        ih (show '/' ∉ name ++ [c] by simpa using ⟨hname, Ne.symm hc⟩) hx
      refine ⟨hcomp, fun b hb => by simpa [or_assoc] using hmem b hb, ?_⟩
      simpa [Nat.add_assoc, Nat.add_comm 1] using hlen

theorem length_pathOf_pieces (p name : Name) :
    (pathOf ((pieces p name).map Prod.fst)).length ≤ 1 + name.length + p.length := by
  have hflush : ∀ name after : Name,
      (pathOf ((if name = [] then [] else [(name, after)]).map Prod.fst)).length ≤
      1 + name.length := by
    intro name after
    split <;> simp [pathOf, Nat.add_comm]
  induction p generalizing name with
  | nil => exact hflush name []
  | cons c p ih =>
    unfold pieces
    split
    · have := ih []
      have := hflush name (skipSlashes p)
      rw [map_append, pathOf_append, length_append]
      simp only [length_nil, length_cons] at *
      omega
    · have := ih (name ++ [c])
      simp only [length_append, length_cons, length_nil] at this ⊢
      omega

/-! ## The walk -/

variable {ν : Type} [DecidableEq ν] {fs : Vfs ν} {args : WalkArgs ν} {w : Walk ν}

/-- A walk from one component to the next. -/
def Vfs.walkPieces (fs : Vfs ν) (args : WalkArgs ν) : List (Name × Name) → Walk ν → WalkEnd ν
  | [], w => .found w.cur
  | (name, after) :: rest, w =>
      if nameMax < name.length then .miss enametoolong
      else
        match fs.step args name after w with
        | .next w => fs.walkPieces args rest w
        | .done e => e

theorem walkFrom_eq {name : Name} (hname : name.length ≤ nameMax) (p : Name) :
    fs.walkFrom args p name w = fs.walkPieces args (pieces p name) w := by
  induction p generalizing name w with
  | nil =>
    by_cases hnil : name = []
    · simp [Vfs.walkFrom, pieces, Vfs.walkPieces, hnil]
    · cases hstep : fs.step args name [] w <;>
        simp only [Vfs.walkFrom, pieces, Vfs.walkPieces, if_neg hnil,
          if_neg (not_lt.mpr hname), hstep]
  | cons c p ih =>
    have hempty : ([] : Name).length ≤ nameMax := Nat.zero_le _
    unfold Vfs.walkFrom pieces
    by_cases hc : c = '/'
    · by_cases hnil : name = []
      · simp only [if_pos hc, if_pos hnil, nil_append, ih hempty]
      cases hstep : fs.step args name (skipSlashes p) w <;>
        simp only [if_pos hc, if_neg hnil, singleton_append, Vfs.walkPieces,
          if_neg (not_lt.mpr hname), ih hempty, hstep]
    · rw [if_neg hc, if_neg hc]
      by_cases hfull : name.length = nameMax
      · -- the component is longer than any that is accepted
        obtain ⟨more, after, rest, hbegun⟩ := pieces_begun (show name ++ [c] ≠ [] by simp) p
        rw [if_pos hfull, hbegun, Vfs.walkPieces,
          if_pos (by simp only [length_append, length_singleton]; omega)]
      · rw [if_neg hfull, ih (by simp only [length_append, length_singleton]; omega)]

theorem vfsWalk_eq (path : Name) :
    fs.vfsWalk args path = fs.walkPieces args (pieces (path.drop 1) []) ⟨args.root, [], some []⟩ :=
  walkFrom_eq (Nat.zero_le _) _

end MaeroOS.Fs
