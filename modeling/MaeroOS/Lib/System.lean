import Mathlib.Tactic.Common

/-!
# Labelled transition systems

The kernel's subsystems are all driven the same way: a shared state, and system calls that each run
to completion (or to their next sleep) before another one starts. A `System` is that picture with
nothing else in it — which states are initial, and what an event may do to a state.

* `Run` is a finite execution together with its events, **newest first**, so that a statement about
  "since the last time …" is a recursion on the history.
* `Run.invariant` and `Run.invariant_history` are the two induction rules every safety theorem of
  the development goes through.
* `Path` is an execution between two states, for statements that compare an earlier state with a
  later one.
* `System.ofMachine` is the system of a function that answers each event; `play` runs it. `drive`
  runs a machine that may refuse.
* `answers` are those of a machine to a list of events; `answers_refine` compares two machines.
* `System.restrict` keeps only the steps that meet a condition. A run of the restricted system is
  exactly a run all of whose steps meet it (`Run.of_restrict`).
-/

namespace MaeroOS.Lib

/-- A labelled transition system over states `σ` and events `ε`. -/
structure System (σ ε : Type) where
  init : σ → Prop
  step : σ → ε → σ → Prop

variable {σ ε : Type}

/-- `Run sys h s`: the events `h`, newest first, lead from an initial state to `s`. -/
inductive Run (sys : System σ ε) : List ε → σ → Prop
  | init {s : σ} : sys.init s → Run sys [] s
  | step {h : List ε} {s s' : σ} {e : ε} : Run sys h s → sys.step s e s' → Run sys (e :: h) s'

/-- `Path sys s h s'`: the events `h`, newest first, lead from `s` to `s'`. -/
inductive Path (sys : System σ ε) (s : σ) : List ε → σ → Prop
  | refl : Path sys s [] s
  | step {h : List ε} {s' s'' : σ} {e : ε} :
      Path sys s h s' → sys.step s' e s'' → Path sys s (e :: h) s''

namespace System

/-- The system with only those steps whose state and event meet `G`. -/
def restrict (sys : System σ ε) (G : σ → ε → Prop) : System σ ε where
  init := sys.init
  step := fun s e s' => sys.step s e s' ∧ G s e

end System

namespace Run

variable {sys : System σ ε}

/-- An invariant that may mention the history holds along every run. -/
theorem invariant_history {P : List ε → σ → Prop}
    (hinit : ∀ s, sys.init s → P [] s)
    (hstep : ∀ h s e s', Run sys h s → P h s → sys.step s e s' → P (e :: h) s') :
    ∀ {h : List ε} {s : σ}, Run sys h s → P h s := by
  intro h s hr
  induction hr with
  | init hs => exact hinit _ hs
  | step hr hse ih => exact hstep _ _ _ _ hr ih hse

/-- An invariant of the state alone: it holds initially, and every step keeps it. -/
theorem invariant {P : σ → Prop} (hinit : ∀ s, sys.init s → P s)
    (hstep : ∀ s e s', P s → sys.step s e s' → P s') :
    ∀ {h : List ε} {s : σ}, Run sys h s → P s := by
  intro h s hr
  exact invariant_history (P := fun _ s => P s) hinit
    (fun _ s e s' _ hP hse => hstep s e s' hP hse) hr

/-- A run of the restricted system is a run of the system. -/
theorem of_restrict {G : σ → ε → Prop} :
    ∀ {h : List ε} {s : σ}, Run (sys.restrict G) h s → Run sys h s := by
  intro h s hr
  induction hr with
  | init hs => exact .init hs
  | step _ hse ih => exact .step ih hse.1

end Run

/-! ## Machines -/

section Machine

variable {ρ : Type}

/-- A machine answers each event and goes to a next state; an answer in `bad` ends it. -/
def System.ofMachine (boot : σ) (apply : σ → ε → ρ × σ) (bad : ρ → Prop) : System σ (ε × ρ) where
  init s := s = boot
  step s l s' := apply s l.1 = (l.2, s') ∧ ¬ bad l.2

/-- The machine on one event after the other, with its answers. -/
def play (apply : σ → ε → ρ × σ) (bad : ρ → Prop) [DecidablePred bad] :
    List (ε × ρ) → σ → List ε → Option (List (ε × ρ) × σ)
  | tr, s, [] => some (tr, s)
  | tr, s, e :: es =>
      if bad (apply s e).1 then none else play apply bad ((e, (apply s e).1) :: tr) (apply s e).2 es

/-- What is played is a run of any system that has the steps of the machine on these events: what is
to hold after a run can be found out by playing it. -/
theorem run_play {sys : System σ (ε × ρ)} (apply : σ → ε → ρ × σ) (bad : ρ → Prop)
    [DecidablePred bad] {P : List (ε × ρ) → σ → Prop} : ∀ (es : List ε) (s : σ) {tr : List (ε × ρ)},
      (∀ e ∈ es, ∀ s, ¬ bad (apply s e).1 → sys.step s (e, (apply s e).1) (apply s e).2) →
        Run sys tr s →
      (∃ p ∈ play apply bad tr s es, P p.1 p.2) → ∃ tr s, Run sys tr s ∧ P tr s := by
  intro es
  induction es with
  | nil =>
    rintro s tr - hrun ⟨p, ⟨⟩, hP⟩
    exact ⟨tr, s, hrun, hP⟩
  | cons e es ih =>
    intro s tr hstep hrun h
    unfold play at h
    split at h
    · obtain ⟨p, ⟨⟩, -⟩ := h
    next hbad =>
    have hfirst := hstep e List.mem_cons_self s hbad
    exact ih _ (fun e' he' => hstep e' (List.mem_cons_of_mem e he')) (.step hrun hfirst) h

/-- A machine that may refuse an event, on one event after the other. -/
def drive (apply : σ → ε → Option σ) : σ → List ε → Option σ
  | s, [] => some s
  | s, e :: es => (apply s e).bind fun s' => drive apply s' es

/-- What is driven is a run of any system that has the steps of the machine on these events. -/
theorem run_drive {sys : System σ ε} (apply : σ → ε → Option σ) {P : σ → Prop} :
    ∀ (es : List ε) (s : σ) {tr : List ε},
      (∀ e ∈ es, ∀ s s', apply s e = some s' → sys.step s e s') → Run sys tr s →
        (∃ s' ∈ drive apply s es, P s') →
      ∃ tr s, Run sys tr s ∧ P s := by
  intro es
  induction es with
  | nil =>
    rintro s tr - hrun ⟨s', ⟨⟩, hP⟩
    exact ⟨tr, s, hrun, hP⟩
  | cons e es ih =>
    rintro s tr hstep hrun ⟨s', hdrive, hP⟩
    obtain ⟨s₁, hs₁, hrest⟩ := Option.bind_eq_some_iff.mp hdrive
    have hfirst := hstep e List.mem_cons_self s s₁ hs₁
    exact ih s₁ (fun e' he' => hstep e' (List.mem_cons_of_mem e he')) (.step hrun hfirst)
      ⟨s', hrest, hP⟩

/-- The answers of a machine to one event after the other, and where it ends. -/
def answers (apply : σ → ε → ρ × σ) : σ → List ε → List ρ × σ
  | s, [] => ([], s)
  | s, e :: es => ((apply s e).1 :: (answers apply (apply s e).2 es).1,
      (answers apply (apply s e).2 es).2)

/-- Each event of a run meets a condition in the state it comes upon. -/
def Along (apply : σ → ε → ρ × σ) (P : σ → ε → Prop) : σ → List ε → Prop
  | _, [] => True
  | s, e :: es => P s e ∧ Along apply P (apply s e).2 es

theorem Along.and {apply : σ → ε → ρ × σ} {P Q : σ → ε → Prop} :
    ∀ (es : List ε) {s : σ}, Along apply P s es →
    Along apply Q s es → Along apply (fun s e => P s e ∧ Q s e) s es := by
  intro es
  induction es with
  | nil => exact fun _ _ => trivial
  | cons e es ih => exact fun hP hQ => ⟨⟨hP.1, hQ.1⟩, ih hP.2 hQ.2⟩

/-- **Refinement**: if related machines answer each event that meets the condition the same and stay
related, they answer every run of such events the same. -/
theorem answers_refine {τ : Type} {apply : σ → ε → ρ × σ} {apply' : τ → ε → ρ × τ}
    {R : σ → τ → Prop} {P : σ → ε → Prop}
    (hstep : ∀ s t e, R s t → P s e → (apply s e).1 = (apply' t e).1 ∧
      R (apply s e).2 (apply' t e).2) :
    ∀ (es : List ε) {s : σ} {t : τ}, R s t → Along apply P s es →
      (answers apply s es).1 = (answers apply' t es).1 ∧
        R (answers apply s es).2 (answers apply' t es).2 := by
  intro es
  induction es with
  | nil => exact fun hR _ => ⟨rfl, hR⟩
  | cons e es ih =>
    intro s t hR hP
    obtain ⟨hfirst, hR'⟩ := hstep s t e hR hP.1
    obtain ⟨hrest, hend⟩ := ih hR' hP.2
    exact ⟨congrArg₂ List.cons hfirst hrest, hend⟩

end Machine

end MaeroOS.Lib
