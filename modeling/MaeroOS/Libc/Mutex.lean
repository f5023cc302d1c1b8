import MaeroOS.Lib.System

/-!
# The mutex of the user library

`pthread_mutex_lock` and `pthread_mutex_unlock`, between their atomic accesses to the state word and
their futex calls. The word is 0 if the mutex is free, 1 if it is held, and 2 if it is held and
somebody may be asleep.

At most one thread holds the mutex, and nobody sleeps through an unlock: while the word is not 2 and
some thread is asleep, another is about to wake one or is in the loop of `pthread_mutex_lock` before
the exchange, which leaves the word at 2 (`mutex_excludes`). The thread that wakes one does not wait
for it: until that one has run, the mutex may be free while others are asleep (`free_while_asleep`).
-/

namespace MaeroOS.Libc

open Lib (System Run run_drive)

/-- Where a thread is. -/
inductive MutexPc
  /-- Not in the mutex's code, or before the first try of `pthread_mutex_lock`. -/
  | out
  /-- In the loop, before the exchange. -/
  | exchange
  /-- In the loop, before `FUTEX_WAIT`. -/
  | wait
  | asleep
  | holds
  /-- In `pthread_mutex_unlock`, before `FUTEX_WAKE`. -/
  | wake
  deriving DecidableEq

/-- The state word, and where each of `n` threads is. -/
structure Mutex (n : Nat) where
  state : Nat
  pc : Fin n → MutexPc

inductive MutexEvent (n : Nat)
  | lock (t : Fin n)
  | exchange (t : Fin n)
  | futexWait (t : Fin n)
  /-- The sleep ends without a wake. -/
  | interrupt (t : Fin n)
  | unlock (t : Fin n)
  /-- The kernel wakes one thread that sleeps, if there is one. -/
  | futexWake (t : Fin n) (woken : Option (Fin n))

namespace Mutex

variable {n : Nat}

def goTo (s : Mutex n) (t : Fin n) (pc : MutexPc) : Mutex n :=
  { s with pc := Function.update s.pc t pc }

@[simp, grind =] theorem pc_goTo (s : Mutex n) (t u : Fin n) (pc : MutexPc) :
    (s.goTo t pc).pc u = if u = t then pc else s.pc u := Function.update_apply ..

/-- Whom a wake may wake. -/
def Wakes (s : Mutex n) : Option (Fin n) → Prop
  | some t => s.pc t = .asleep
  | none => ∀ t, s.pc t ≠ .asleep

instance (s : Mutex n) : DecidablePred s.Wakes := fun woken =>
  match woken with
  | some t => inferInstanceAs (Decidable (s.pc t = .asleep))
  | none => inferInstanceAs (Decidable (∀ t, s.pc t ≠ .asleep))

def apply (s : Mutex n) : MutexEvent n → Option (Mutex n)
  | .lock t =>
      if s.pc t = .out then some (if s.state = 0 then { s with state := 1 }.goTo t .holds
        else s.goTo t .exchange) else none
  | .exchange t =>
      if s.pc t = .exchange
        then some ({ s with state := 2 }.goTo t (if s.state = 0 then .holds else .wait)) else none
  | .futexWait t => if s.pc t =
      .wait then some (s.goTo t (if s.state = 2 then .asleep else .exchange)) else none
  | .interrupt t => if s.pc t = .asleep then some (s.goTo t .exchange) else none
  | .unlock t => if s.pc t = .holds
      then some ({ s with state := 0 }.goTo t (if s.state = 2 then .wake else .out)) else none
  | .futexWake t woken =>
      if s.pc t = .wake ∧ s.Wakes woken then some ((woken.elim s (s.goTo · .exchange)).goTo t .out)
        else none

/-- Awake, and about to wake a thread or to leave the word at 2. -/
def Stirs (s : Mutex n) (t : Fin n) : Prop := s.pc t = .wake ∨ s.pc t = .exchange

structure Inv (s : Mutex n) : Prop where
  free : s.state = 0 → ∀ t, s.pc t ≠ .holds
  one : ∀ t u, s.pc t = .holds → s.pc u = .holds → t = u
  stirs : s.state ≠ 2 → (∃ t, s.pc t = .asleep) → ∃ t, s.Stirs t

variable {s s' : Mutex n}

theorem Stirs.goTo {t u : Fin n} {pc : MutexPc} (h : s.Stirs u) (hne : u ≠ t) :
    (s.goTo t pc).Stirs u := by
  simpa [Stirs, hne] using h

/-- A thread that goes on and neither takes the mutex nor gives it back. -/
theorem Inv.goTo (h : Inv s) {t : Fin n} {pc : MutexPc} (hnew : pc ≠ .holds)
    (hstirs : s.state ≠ 2 → (∃ u, (s.goTo t pc).pc u = .asleep) → ∃ u, (s.goTo t pc).Stirs u) :
    Inv (s.goTo t pc) where
  free hzero u := by
    have := h.free hzero u
    grind
  one u v hu hv := h.one u v (by grind) (by grind)
  stirs := hstirs

/-- **Every step keeps the invariant.** -/
theorem Inv.step (h : Inv s) {e : MutexEvent n} (hstep : s.apply e = some s') : Inv s' := by
  have hfree := h.free
  have hone := h.one
  cases e with
  | lock t =>
    obtain ⟨hpc, ⟨⟩⟩ := Option.ite_none_right_eq_some.mp hstep
    split
    · next hzero =>
      refine ⟨nofun, by grind, fun _ hasleep => ?_⟩
      obtain ⟨u, hu⟩ := h.stirs (by omega) (by grind)
      exact ⟨u, Stirs.goTo hu (by grind [Stirs])⟩
    · exact h.goTo nofun fun _ _ => ⟨t, by simp [Stirs]⟩
  | exchange t =>
    obtain ⟨hpc, ⟨⟩⟩ := Option.ite_none_right_eq_some.mp hstep
    exact ⟨nofun, by grind, fun hne => absurd rfl hne⟩
  | futexWait t =>
    obtain ⟨hpc, ⟨⟩⟩ := Option.ite_none_right_eq_some.mp hstep
    exact h.goTo (by split <;> nofun) fun hne _ => ⟨t, by simp [Stirs, hne]⟩
  | interrupt t =>
    obtain ⟨hpc, ⟨⟩⟩ := Option.ite_none_right_eq_some.mp hstep
    exact h.goTo nofun fun _ _ => ⟨t, by simp [Stirs]⟩
  | unlock t =>
    obtain ⟨hpc, ⟨⟩⟩ := Option.ite_none_right_eq_some.mp hstep
    refine ⟨by grind, by grind, fun _ hasleep => ?_⟩
    by_cases htwo : s.state = 2
    · exact ⟨t, by simp [Stirs, htwo]⟩
    -- it wakes nobody: another thread is awake
    obtain ⟨u, hu⟩ := h.stirs htwo (by grind)
    exact ⟨u, Stirs.goTo hu (by grind [Stirs])⟩
  | futexWake t woken =>
    obtain ⟨⟨hpc, hwoken⟩, ⟨⟩⟩ := Option.ite_none_right_eq_some.mp hstep
    cases woken with
    | none =>
      refine h.goTo nofun fun _ ⟨u, hu⟩ => absurd hu ?_
      have := hwoken u
      grind
    | some u =>
      have hu : s.pc u = .asleep := hwoken
      have hwake : Inv (s.goTo u .exchange) := h.goTo nofun fun _ _ => ⟨u, by simp [Stirs]⟩
      have hne : u ≠ t := by grind
      exact hwake.goTo nofun fun _ _ => ⟨u, Stirs.goTo (by simp [Stirs]) hne⟩

end Mutex

/-- The mutex of `n` threads, from its initializer on. -/
def mutexSystem (n : Nat) : System (Mutex n) (MutexEvent n) where
  init s := s.state = 0 ∧ ∀ t, s.pc t = .out
  step s e s' := s.apply e = some s'

/-- The mutex is free and some thread is asleep, with nobody about to wake one and nobody in the
loop before the exchange. -/
def Mutex.Stuck {n : Nat} (s : Mutex n) : Prop :=
  s.state = 0 ∧ (∀ t, s.pc t ≠ .wake) ∧ (∀ t, s.pc t ≠ .exchange) ∧ ∃ t, s.pc t = .asleep

/-- **The mutex excludes, and nobody sleeps through an unlock.** -/
theorem mutex_excludes {n : Nat} {tr : List (MutexEvent n)} {s : Mutex n}
    (hr : Run (mutexSystem n) tr s) :
    (∀ t u, s.pc t = .holds → s.pc u = .holds → t = u) ∧ ¬ s.Stuck := by
  have hinv : s.Inv := hr.invariant (fun s hs => ⟨by simp [hs.2], by simp [hs.2], by simp [hs.2]⟩)
    fun _ _ _ h hstep => h.step hstep
  refine ⟨hinv.one, ?_⟩
  rintro ⟨hzero, hwake, hloop, hasleep⟩
  obtain ⟨t, ht⟩ := hinv.stirs (by omega) hasleep
  rcases ht with ht | ht
  · exact hwake t ht
  · exact hloop t ht

/-- Two threads find the mutex held and fall asleep, and the holder unlocks it and wakes one of
them. -/
def wakeOneOfTwo : List (MutexEvent 3) :=
  [.lock 0, .lock 1, .exchange 1, .futexWait 1, .lock 2, .exchange 2, .futexWait 2, .unlock 0,
    .futexWake 0 (some 1)]

theorem wakeOneOfTwo_excludes : ∃ tr s, Run (mutexSystem 3) tr s ∧ s.pc 2 = .asleep ∧
    (∀ t u, s.pc t = .holds → s.pc u = .holds → t = u) ∧ ¬ s.Stuck := by
  obtain ⟨tr, s, hr, hasleep⟩ : ∃ tr s, Run (mutexSystem 3) tr s ∧ s.pc 2 = .asleep :=
    run_drive Mutex.apply wakeOneOfTwo ⟨0, fun _ => .out⟩ (fun _ _ _ _ h => h)
      (.init ⟨rfl, fun _ => rfl⟩) (by decide)
  exact ⟨tr, s, hr, hasleep, mutex_excludes hr⟩

/-- Before the woken thread has run, the mutex is free, nobody is about to wake one, and the other
one is asleep. -/
theorem free_while_asleep : ∃ tr s, Run (mutexSystem 3) tr s ∧ s.state = 0 ∧ (∀ t, s.pc t ≠ .wake) ∧
    ∃ t, s.pc t = .asleep := by
  exact run_drive Mutex.apply wakeOneOfTwo ⟨0, fun _ => .out⟩ (fun _ _ _ _ h => h)
    (.init ⟨rfl, fun _ => rfl⟩) (by decide)

end MaeroOS.Libc
