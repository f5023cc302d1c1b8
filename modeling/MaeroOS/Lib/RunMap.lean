import Mathlib.Data.List.Sort
import Mathlib.Data.List.Pairwise

/-!
# Maps kept as runs

A list of runs stands for a partial map: a run takes the `len` indices from `start` on to the `len`
targets from `target` on, all with one tag. `lookup` is the map, and `targets` are all numbers it
takes indices to. Sorting runs and joining neighbours changes neither (`normalise_lookup`,
`normalise_targets`).
-/

namespace MaeroOS.Lib.RunMap

open List

structure Run (τ : Type) where
  start : Nat
  len : Nat
  target : Nat
  tag : τ
deriving DecidableEq, Repr

variable {τ : Type} {r r' p c : Run τ} {l l' : List (Run τ)} {i : Nat} {j x : Nat}

/-- The run has an index. -/
def Run.Has (r : Run τ) (i : Nat) : Prop := r.start ≤ i ∧ i < r.start + r.len

instance : Decidable (r.Has i) := inferInstanceAs (Decidable (_ ∧ _))

def Run.value (r : Run τ) (i : Nat) : Nat × τ := (r.target + (i - r.start), r.tag)

def Run.targets (r : Run τ) : List Nat := List.range' r.target r.len

def lookup (l : List (Run τ)) (i : Nat) : Option (Nat × τ) := (l.find? (·.Has i)).map (·.value i)

def targets (l : List (Run τ)) : List Nat := l.flatMap Run.targets

/-- No index is in two runs. -/
def Apart (l : List (Run τ)) : Prop := l.Pairwise fun r r' => ∀ i, r.Has i → ¬ r'.Has i

/-- Each run ends where the next one starts, or before. -/
def Sorted (l : List (Run τ)) : Prop := l.Pairwise fun r r' => r.start + r.len ≤ r'.start

theorem Sorted.apart (h : Sorted l) : Apart l := by
  refine h.imp fun hle i hi hi' => ?_
  have := hi.2
  have := hi'.1
  omega

/-- Of sorted runs, an earlier one ends before a later one starts. -/
theorem Sorted.getElem_le (h : Sorted l) (hij : i < j) (hj : j < l.length) :
    l[i].start + l[i].len ≤ l[j].start := pairwise_iff_getElem.mp h i j (by omega) hj hij

theorem Sorted.start_le (h : Sorted l) (hij : i ≤ j) (hj : j < l.length) :
    l[i].start ≤ l[j].start := by
  rcases Nat.lt_or_eq_of_le hij with hlt | rfl
  · have := h.getElem_le hlt hj
    omega
  · exact le_rfl

/-! ## The map of a list -/

@[simp] theorem lookup_nil : lookup ([] : List (Run τ)) i = none := rfl

theorem lookup_cons_of_has (h : r.Has i) : lookup (r :: l) i = some (r.value i) := by
  unfold lookup
  rw [find?_cons_of_pos (by simpa using h)]
  rfl

theorem lookup_cons_of_not_has (h : ¬ r.Has i) : lookup (r :: l) i = lookup l i := by
  unfold lookup
  rw [find?_cons_of_neg (by simpa using h)]

theorem lookup_append : lookup (l ++ l') i = (lookup l i).or (lookup l' i) := by
  unfold lookup
  rw [find?_append]
  cases l.find? _ <;> rfl

theorem lookup_eq_none : lookup l i = none ↔ ∀ r ∈ l, ¬ r.Has i := by
  unfold lookup
  simp

/-- The run that has an index is the one that maps it. -/
theorem lookup_of_mem (hapart : Apart l) (hr : r ∈ l) (hi : r.Has i) :
    lookup l i = some (r.value i) := by
  induction l with
  | nil => cases hr
  | cons q l ih =>
    obtain ⟨hq, hl⟩ := pairwise_cons.mp hapart
    rcases mem_cons.mp hr with rfl | hr
    · exact lookup_cons_of_has hi
    · rw [lookup_cons_of_not_has fun hqi => hq r hr i hqi hi]
      exact ih hl hr

theorem exists_of_lookup {v : Nat × τ} (h : lookup l i = some v) :
    ∃ r ∈ l, r.Has i ∧ r.value i = v := by
  obtain ⟨r, hfind, hv⟩ := Option.map_eq_some_iff.mp h
  have hi := find?_some hfind
  exact ⟨r, mem_of_find?_eq_some hfind, by simpa using hi, hv⟩

theorem Apart.perm (h : Apart l) (hperm : l.Perm l') : Apart l' :=
  List.Pairwise.perm h hperm fun hab i hb ha => hab i ha hb

/-- The map does not depend on the order of runs that are apart. -/
theorem lookup_perm (hapart : Apart l) (hperm : l.Perm l') : lookup l' i = lookup l i := by
  cases h : lookup l i with
  | none =>
    rw [lookup_eq_none] at h ⊢
    exact fun r hr => h r (hperm.mem_iff.mpr hr)
  | some v =>
    obtain ⟨r, hr, hi, hv⟩ := exists_of_lookup h
    rw [lookup_of_mem (hapart.perm hperm) (hperm.mem_iff.mp hr) hi, hv]

theorem targets_append : targets (l ++ l') = targets l ++ targets l' := flatMap_append

theorem targets_perm (h : l.Perm l') : (targets l).Perm (targets l') := h.flatMap_right _

theorem mem_targets : x ∈ targets l ↔ ∃ r ∈ l, r.target ≤ x ∧ x < r.target + r.len := by
  simp [targets, Run.targets, mem_flatMap, mem_range'_1]

/-- What the map takes an index to is a target. -/
theorem mem_targets_of_lookup {v : Nat × τ} (h : lookup l i = some v) : v.1 ∈ targets l := by
  obtain ⟨r, hr, hi, rfl⟩ := exists_of_lookup h
  refine mem_targets.mpr ⟨r, hr, ?_⟩
  have := hi.1
  have := hi.2
  unfold Run.value
  constructor <;> dsimp only <;> omega

/-- Every target is what some index goes to. -/
theorem exists_lookup_of_mem_targets (hapart : Apart l) (h : x ∈ targets l) :
    ∃ i tag, lookup l i = some (x, tag) := by
  obtain ⟨r, hr, hle, hlt⟩ := mem_targets.mp h
  have hi : r.Has (r.start + (x - r.target)) := ⟨by omega, by omega⟩
  refine ⟨_, r.tag, (lookup_of_mem hapart hr hi).trans ?_⟩
  unfold Run.value
  rw [show r.target + (r.start + (x - r.target) - r.start) = x by omega]

/-- No two indices go to one target. -/
theorem lookup_inj (hnodup : (targets l).Nodup) {a b : τ} (hi : lookup l i = some (x, a))
    (hj : lookup l j = some (x, b)) : i = j := by
  obtain ⟨r, hr, hri, hrv⟩ := exists_of_lookup hi
  obtain ⟨q, hq, hqj, hqv⟩ := exists_of_lookup hj
  have hx : r.target + (i - r.start) = x := congrArg Prod.fst hrv
  have hx' : q.target + (j - q.start) = x := congrArg Prod.fst hqv
  have hin : x ∈ r.targets := by
    have := hri.2
    have := hri.1
    unfold Run.targets
    rw [mem_range'_1]
    omega
  have hin' : x ∈ q.targets := by
    have := hqj.2
    have := hqj.1
    unfold Run.targets
    rw [mem_range'_1]
    omega
  have heq : r = q := by
    by_contra hne
    have hsymm : Std.Symm (Function.onFun List.Disjoint fun r : Run τ => r.targets) :=
      ⟨fun _ _ h _ ha hb => h hb ha⟩
    exact (nodup_flatMap.mp hnodup).2.forall hr hq hne hin hin'
  subst heq
  have := hri.1
  have := hqj.1
  omega

/-! ## Joining neighbours -/

/-- Two runs as one. -/
def join (p c : Run τ) : Run τ := { p with len := p.len + c.len }

/-- The second run goes on where the first one ends, in indices and targets. -/
structure Continues (p c : Run τ) : Prop where
  tag : p.tag = c.tag
  start : p.start + p.len = c.start
  target : p.target + p.len = c.target

theorem lookup_join (h : Continues p c) : lookup (p :: c :: l) i = lookup (join p c :: l) i := by
  have hstart := h.start
  have htarget := h.target
  by_cases hp : p.Has i
  · have hj : (join p c).Has i := ⟨hp.1, by have := hp.2; show i < p.start + (p.len + c.len); omega⟩
    rw [lookup_cons_of_has hp, lookup_cons_of_has hj]
    rfl
  rw [lookup_cons_of_not_has hp]
  by_cases hc : c.Has i
  · have hj : (join p c).Has i := by
      have := hc.1
      have := hc.2
      refine ⟨?_, ?_⟩
      · show p.start ≤ i
        omega
      · show i < p.start + (p.len + c.len)
        omega
    rw [lookup_cons_of_has hc, lookup_cons_of_has hj]
    have := hc.1
    show some (c.target + (i - c.start), c.tag) = some (p.target + (i - p.start), p.tag)
    rw [h.tag, show c.target + (i - c.start) = p.target + (i - p.start) by omega]
  · have hj : ¬ (join p c).Has i := by
      rintro ⟨h1, h2⟩
      change p.start ≤ i at h1
      change i < p.start + (p.len + c.len) at h2
      by_cases hi : i < p.start + p.len
      · exact hp ⟨h1, hi⟩
      · exact hc ⟨by omega, by omega⟩
    rw [lookup_cons_of_not_has hc, lookup_cons_of_not_has hj]

theorem targets_join (h : Continues p c) : (join p c).targets = p.targets ++ c.targets := by
  show range' p.target (p.len + c.len) = range' p.target p.len ++ range' c.target c.len
  rw [← h.target, range'_append_1]

/-! ## Sorting and joining -/

/-- Insertion from the right, with the list reversed: past the runs that start later. -/
def insertRun (rev : List (Run τ)) (t : Run τ) : List (Run τ) :=
  rev.orderedInsert (fun t p => p.start ≤ t.start) t

def sortRuns (l : List (Run τ)) : List (Run τ) := (l.foldl insertRun []).reverse

theorem sortRuns_eq :
    sortRuns l = (l.reverse.insertionSort fun t p => p.start ≤ t.start).reverse := by
  unfold sortRuns insertRun
  rw [foldl_eq_foldr_reverse]
  rfl

theorem sortRuns_perm : (sortRuns l).Perm l := by
  rw [sortRuns_eq]
  exact (reverse_perm _).trans ((perm_insertionSort _ _).trans (reverse_perm l))

/-- Sorting puts runs that are apart one after another. -/
theorem sortRuns_sorted (hapart : Apart l) (hpos : ∀ r ∈ l, 0 < r.len) : Sorted (sortRuns l) := by
  have hstart : (sortRuns l).Pairwise fun r r' => r.start ≤ r'.start := by
    rw [sortRuns_eq, pairwise_reverse]
    exact pairwise_insertionSort _ _
  have hapart' : Apart (sortRuns l) := hapart.perm sortRuns_perm.symm
  refine (hstart.and hapart').imp_of_mem fun {r r'} hr hr' ⟨hle, hdis⟩ => ?_
  have hpos' := hpos r' (sortRuns_perm.mem_iff.mp hr')
  by_contra hlt
  exact hdis r'.start ⟨hle, by omega⟩ ⟨le_rfl, by omega⟩

section Join

variable [DecidableEq τ] (limit : τ → Nat)

/-- Join a run to the one before it, or add it. -/
def joinRun (rev : List (Run τ)) (c : Run τ) : List (Run τ) :=
  match rev with
  | [] => [c]
  | p :: ps =>
    if p.tag = c.tag ∧ p.start + p.len = c.start ∧ p.target + p.len = c.target ∧
      p.len + c.len ≤ limit c.tag then
      join p c :: ps
    else c :: p :: ps

def joinRuns (l : List (Run τ)) : List (Run τ) := (l.foldl (joinRun limit) []).reverse

def normalise (l : List (Run τ)) : List (Run τ) := joinRuns limit (sortRuns l)

variable {limit}

/-- One step of joining keeps the map and the targets. -/
theorem joinRun_spec (rev : List (Run τ)) (c : Run τ) :
    (∀ tail i, lookup ((joinRun limit rev c).reverse ++ tail) i =
      lookup (rev.reverse ++ c :: tail) i) ∧
      targets (joinRun limit rev c).reverse = targets (rev.reverse ++ [c]) := by
  unfold joinRun
  split
  · exact ⟨fun _ _ => rfl, rfl⟩
  next p ps =>
    split
    next h =>
      have hcont : Continues p c := ⟨h.1, h.2.1, h.2.2.1⟩
      constructor
      · intro tail i
        rw [reverse_cons, reverse_cons, append_assoc, append_assoc, singleton_append,
          singleton_append, lookup_append, lookup_append, lookup_join hcont]
      · rw [reverse_cons, reverse_cons, targets_append, targets_append, targets_append,
          append_assoc]
        congr 1
        simp only [targets, flatMap_cons, flatMap_nil, append_nil]
        exact targets_join hcont
    · constructor
      · intro tail i
        rw [reverse_cons, append_assoc, singleton_append]
      · rw [reverse_cons]

theorem joinRuns_spec (l rev : List (Run τ)) :
    (∀ i, lookup (l.foldl (joinRun limit) rev).reverse i = lookup (rev.reverse ++ l) i) ∧
      targets (l.foldl (joinRun limit) rev).reverse = targets (rev.reverse ++ l) := by
  induction l generalizing rev with
  | nil => exact ⟨fun i => by rw [foldl_nil, append_nil], by rw [foldl_nil, append_nil]⟩
  | cons c l ih =>
    obtain ⟨hlook, htargets⟩ := joinRun_spec rev c
    obtain ⟨hlook', htargets'⟩ := ih (joinRun limit rev c)
    constructor
    · intro i
      rw [foldl_cons, hlook', hlook]
    · rw [foldl_cons, htargets', targets_append, htargets, ← targets_append, append_assoc]
      rfl

/-- **Normalising runs that are apart keeps the map.** -/
theorem normalise_lookup (hapart : Apart l) : lookup (normalise limit l) i = lookup l i := by
  have hjoin := (@joinRuns_spec τ _ limit (sortRuns l) []).1 i
  exact hjoin.trans (lookup_perm hapart sortRuns_perm.symm)

theorem normalise_targets : (targets (normalise limit l)).Perm (targets l) := by
  have hjoin := (@joinRuns_spec τ _ limit (sortRuns l) []).2
  unfold normalise joinRuns
  rw [hjoin]
  exact targets_perm sortRuns_perm

/-- What all runs have, and a run joined from two that do. -/
theorem joinRuns_forall {P : Run τ → Prop}
    (hjoin : ∀ p c, P p → P c → Continues p c → p.len + c.len ≤ limit c.tag →
    P (join p c)) (l rev : List (Run τ)) (hrev : ∀ r ∈ rev, P r) (hl : ∀ r ∈ l, P r) :
    ∀ r ∈ l.foldl (joinRun limit) rev, P r := by
  induction l generalizing rev with
  | nil => exact hrev
  | cons c l ih =>
    have hc := hl c mem_cons_self
    refine ih _ (fun r hr => ?_) fun r hr => hl r (mem_cons_of_mem _ hr)
    unfold joinRun at hr
    split at hr
    · rw [mem_singleton.mp hr]
      exact hc
    next p ps =>
      have hp := hrev p mem_cons_self
      split at hr
      next h =>
        rcases mem_cons.mp hr with rfl | hr
        · exact hjoin p c hp hc ⟨h.1, h.2.1, h.2.2.1⟩ h.2.2.2
        · exact hrev r (mem_cons_of_mem _ hr)
      · rcases mem_cons.mp hr with rfl | hr
        · exact hc
        · exact hrev r hr

theorem normalise_forall {P : Run τ → Prop}
    (hjoin : ∀ p c, P p → P c → Continues p c → p.len + c.len ≤ limit c.tag →
    P (join p c)) (h : ∀ r ∈ l, P r) : ∀ r ∈ normalise limit l, P r := by
  intro r hr
  refine joinRuns_forall hjoin (sortRuns l) [] nofun (fun r hr => ?_) r
    (mem_reverse.mp hr)
  exact h r (sortRuns_perm.mem_iff.mp hr)

/-- Joining keeps runs one after another. -/
theorem joinRuns_sorted (l rev : List (Run τ)) (h : Sorted (rev.reverse ++ l)) :
    Sorted (l.foldl (joinRun limit) rev).reverse := by
  induction l generalizing rev with
  | nil =>
    rw [append_nil] at h
    exact h
  | cons c l ih =>
    apply ih
    unfold joinRun
    split
    · exact h
    next p ps =>
      split
      next hc =>
        -- the runs before come before the first half, the runs after come after the second
        rw [reverse_cons, append_assoc, singleton_append] at h ⊢
        unfold Sorted at h ⊢
        rw [pairwise_append, pairwise_cons, pairwise_cons] at h
        rw [pairwise_append, pairwise_cons]
        obtain ⟨hbefore, ⟨-, hafter, hrest⟩, hcross⟩ := h
        refine ⟨hbefore, ⟨fun r hr => ?_, hrest⟩, fun q hq r hr => ?_⟩
        · have := hafter r hr
          show p.start + (p.len + c.len) ≤ r.start
          omega
        · rcases mem_cons.mp hr with rfl | hr
          · exact hcross q hq p mem_cons_self
          · exact hcross q hq r (mem_cons_of_mem _ (mem_cons_of_mem _ hr))
      · rw [reverse_cons, append_assoc, singleton_append]
        exact h

theorem normalise_sorted (hapart : Apart l) (hpos : ∀ r ∈ l, 0 < r.len) :
    Sorted (normalise limit l) :=
  joinRuns_sorted (sortRuns l) [] (sortRuns_sorted hapart hpos)

theorem joinRuns_length (l rev : List (Run τ)) :
    (l.foldl (joinRun limit) rev).length ≤ rev.length + l.length := by
  induction l generalizing rev with
  | nil => exact le_rfl
  | cons c l ih =>
    have hstep : (joinRun limit rev c).length ≤ rev.length + 1 := by
      unfold joinRun
      split
      · exact le_rfl
      split
      · exact Nat.le_succ _
      · exact le_rfl
    have hrest := ih (joinRun limit rev c)
    rw [foldl_cons, length_cons]
    omega

/-- Normalising does not make more runs. -/
theorem normalise_length : (normalise limit l).length ≤ l.length := by
  have hjoin := @joinRuns_length τ _ limit (sortRuns l) []
  rw [sortRuns_perm.length_eq, length_nil, Nat.zero_add] at hjoin
  unfold normalise joinRuns
  rw [length_reverse]
  exact hjoin

end Join

end MaeroOS.Lib.RunMap
