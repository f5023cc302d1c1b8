import Mathlib.Tactic.Common

/-!
# A one-pass forward must-analysis

A program whose jumps only go forward can be analysed in program order: when an instruction is
reached, every predecessor has already been seen. A *must* analysis keeps, for each instruction, a
set of facts established on **every** path into it; a path that joins another can only remove facts.

`MustFlow` is that scheme over an abstract set type `L` of facts `C`. `pass` is the loop itself, and
`pass_spec` says what an accepted pass computed: a map that is consistent with every edge
(`Consistent`). Soundness with respect to executions is then one step lemma (`Established.step`) —
whoever has a run of the program carries it along by induction.
-/

namespace MaeroOS.Lib

/-- The ingredients of a forward must-analysis. -/
structure MustFlow (L C : Type) where
  /-- The fact `c` is in the set. -/
  holds : C → L → Prop
  /-- Meet of two paths: keeps at most what both know. -/
  meet : L → L → L
  holds_meet : ∀ {c a b}, holds c (meet a b) → holds c a ∧ holds c b
  /-- Facts the instruction at `pc` itself establishes. -/
  gen : Nat → C → Prop
  /-- What is known after the instruction at `pc`. -/
  out : Nat → L → L
  holds_out : ∀ {pc c a}, holds c (out pc a) → holds c a ∨ gen pc c
  /-- The check made at `pc`. -/
  ok : Nat → L → Bool
  succ : Nat → List Nat

namespace MustFlow

variable {L C : Type} (F : MustFlow L C) {ts : List Nat}

/-- Intersect `a` into the entry of every successor in `ts`. -/
def spread (a : L) (ts : List Nat) (known : Nat → L) : Nat → L :=
  ts.foldl (fun kn t => Function.update kn t (F.meet (kn t) a)) known

/-- Process `n` instructions starting at `pc`; `none` when a check fails. -/
def pass : Nat → Nat → (Nat → L) → Option (Nat → L)
  | 0, _, known => some known
  | n + 1, pc, known =>
      if F.ok pc (known pc) then
        pass n (pc + 1) (F.spread (F.out pc (known pc)) (F.succ pc) known)
      else none

/-! ### What `spread` does -/

theorem spread_cons (a : L) (t : Nat) (ts : List Nat) (known : Nat → L) :
    F.spread a (t :: ts) known =
      F.spread a ts (Function.update known t (F.meet (known t) a)) := rfl

theorem spread_of_not_mem (a : L) {i : Nat} (hi : i ∉ ts) (known : Nat → L) :
    F.spread a ts known i = known i := by
  induction ts generalizing known with
  | nil => rfl
  | cons t ts ih =>
    rw [List.mem_cons, not_or] at hi
    rw [spread_cons, ih hi.2, Function.update_of_ne hi.1]

theorem holds_spread_old {a : L} {known : Nat → L} {i : Nat} {c : C}
    (h : F.holds c (F.spread a ts known i)) : F.holds c (known i) := by
  induction ts generalizing known with
  | nil => exact h
  | cons t ts ih =>
    rw [spread_cons] at h
    have h' := ih h
    by_cases hit : i = t
    · subst hit
      rw [Function.update_self] at h'
      exact (F.holds_meet h').1
    · rwa [Function.update_of_ne hit] at h'

theorem holds_spread_new {a : L} {known : Nat → L} {i : Nat} {c : C}
    (hi : i ∈ ts) (h : F.holds c (F.spread a ts known i)) : F.holds c a := by
  induction ts generalizing known with
  | nil => cases hi
  | cons t ts ih =>
    rw [spread_cons] at h
    by_cases hts : i ∈ ts
    · exact ih hts h
    have hit : i = t := (List.mem_cons.mp hi).resolve_right hts
    subst hit
    rw [F.spread_of_not_mem a hts, Function.update_self] at h
    exact (F.holds_meet h).2

/-! ### What an accepted pass computed -/

/-- `K` is consistent at `pc`: the check passes on `K pc`, and nothing is known at a successor that
is neither known at `pc` nor established by it. -/
def Consistent (K : Nat → L) (pc : Nat) : Prop :=
  F.ok pc (K pc) = true ∧ ∀ t ∈ F.succ pc, ∀ c, F.holds c (K t) → F.holds c (K pc) ∨ F.gen pc c

/-- The pass only ever shrinks entries, leaves those at or before its starting point alone, and ends
consistent on every instruction it processed. The first two are what make the third inductive: the
entry read at `pc` is already final, because later instructions only touch what lies after them. -/
theorem pass_spec (hfwd : ∀ pc, ∀ t ∈ F.succ pc, pc < t) :
    ∀ {n pc : Nat} {known K : Nat → L}, F.pass n pc known = some K →
      (∀ i ≤ pc, K i = known i) ∧ (∀ i c, F.holds c (K i) → F.holds c (known i)) ∧
        ∀ i, pc ≤ i → i < pc + n → F.Consistent K i := by
  intro n
  induction n with
  | zero =>
    intro pc known K h
    cases h
    exact ⟨fun _ _ => rfl, fun _ _ h => h, fun i h₁ h₂ => absurd h₁ (Nat.not_le.mpr h₂)⟩
  | succ n ih =>
    intro pc known K h
    rw [pass] at h
    split at h
    case isFalse => cases h
    case isTrue hok =>
      obtain ⟨hkeep, hshrink, hcons⟩ := ih h
      have hold : ∀ i ≤ pc, F.spread (F.out pc (known pc)) (F.succ pc) known i = known i := by
        intro i hi
        apply F.spread_of_not_mem
        intro hmem
        exact absurd (hfwd pc i hmem) (Nat.not_lt.mpr hi)
      have hpc : K pc = known pc := (hkeep pc (Nat.le_succ pc)).trans (hold pc (Nat.le_refl pc))
      refine ⟨?_, ?_, ?_⟩
      · intro i hi
        exact (hkeep i (Nat.le_succ_of_le hi)).trans (hold i hi)
      · intro i c hc
        exact F.holds_spread_old (hshrink i c hc)
      · intro i h₁ h₂
        rcases Nat.eq_or_lt_of_le h₁ with rfl | hlt
        · refine ⟨hpc ▸ hok, ?_⟩
          intro t ht c hc
          rw [hpc]
          exact F.holds_out (F.holds_spread_new ht (hshrink t c hc))
        · exact hcons i hlt (by omega)

/-! ### Soundness along an execution -/

/-- Everything known at `pc` has been established by one of the instructions already executed. -/
def Established (K : Nat → L) (done : List Nat) (pc : Nat) : Prop :=
  ∀ c, F.holds c (K pc) → ∃ i ∈ done, F.gen i c

variable {F}

/-- Executing the instruction at `pc` and going on to one of its successors keeps `Established`. -/
theorem Established.step {K : Nat → L} {done : List Nat} {pc t : Nat}
    (h : F.Established K done pc) (hc : F.Consistent K pc) (ht : t ∈ F.succ pc) :
    F.Established K (pc :: done) t := by
  intro c hct
  rcases hc.2 t ht c hct with hk | hg
  · obtain ⟨i, hi, hgi⟩ := h c hk
    exact ⟨i, List.mem_cons_of_mem _ hi, hgi⟩
  · exact ⟨pc, List.mem_cons_self, hg⟩

end MustFlow

end MaeroOS.Lib
