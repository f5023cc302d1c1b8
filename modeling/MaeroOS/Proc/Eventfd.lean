import MaeroOS.Lib.System
import MaeroOS.Lib.Table

/-!
# Eventfd counters

`eventfd_read_held` and `eventfd_write_held`, in the steps between which another call can run: what
is done with the lock held, the copies from and to user memory, and the returns. A sleeper tests
again when it runs.

A read takes its value and copies it out without the lock. If the copy faults it puts the value
back, whatever has been written in the meantime. The counter is exact as long as that fits
(`eventfd_exact`); otherwise the sum wraps (`put_back_wraps`).
-/

namespace MaeroOS.Proc

open Lib (System Run)

/-- The largest value of a counter. -/
def eventfdMax : Nat := 0xFFFFFFFFFFFFFFFE

/-- The call of a thread, by what it has done. -/
inductive EventfdCall
  | idle
  | read (nonblock : Bool)
  /-- `out` is taken. -/
  | taken (out : Nat)
  /-- `out` is taken and could not be copied out. -/
  | faulted (out : Nat)
  | copied (out : Nat)
  | write (add : BitVec 64) (nonblock : Bool)
  | added (add : Nat)

/-- The counter, the calls of `n` threads, and the sums of what the calls that returned 8 have
written and delivered. -/
structure Eventfd (n : Nat) where
  count : Nat
  semaphore : Bool
  call : Fin n → EventfdCall
  written : Nat
  delivered : Nat

inductive EventfdEvent (n : Nat)
  | startRead (t : Fin n) (len : Int) (nonblock : Bool)
  /-- `add` is what `copy_from_user` reads, unless it faults. -/
  | startWrite (t : Fin n) (len : Int) (add : Option (BitVec 64)) (nonblock : Bool)
  /-- The lock is taken; `signal` says that a signal is pending. -/
  | run (t : Fin n) (signal : Bool)
  | copyOut (t : Fin n) (ok : Bool)
  | finish (t : Fin n)

namespace Eventfd

variable {n : Nat}

def goTo (s : Eventfd n) (t : Fin n) (c : EventfdCall) : Eventfd n :=
  { s with call := Function.update s.call t c }

/-- A call that cannot go on returns `-EAGAIN` or `-EINTR`, or sleeps. -/
def block (s : Eventfd n) (t : Fin n) (nonblock signal : Bool) : Eventfd n :=
  if nonblock || signal then s.goTo t .idle else s

def apply (s : Eventfd n) : EventfdEvent n → Option (Eventfd n)
  | .startRead t len nonblock =>
    match s.call t with
    | .idle => some (if len < 8 then s else s.goTo t (.read nonblock))
    | _ => none
  | .startWrite t len add nonblock =>
    match s.call t, add with
    | .idle, some add =>
        some (if len < 8 ∨ add = BitVec.allOnes 64 then s else s.goTo t (.write add nonblock))
    | .idle, none => some s
    | _, _ => none
  | .run t signal =>
    match s.call t with
    | .read nonblock =>
      let out := if s.semaphore then 1 else s.count
      some (if s.count = 0 then s.block t nonblock signal
        else { s with count := s.count - out }.goTo t (.taken out))
    | .faulted out => some ({ s with count := (s.count + out) % 2 ^ 64 }.goTo t .idle)
    | .write add nonblock =>
      let count := (s.count + add.toNat) % 2 ^ 64
      some (if count < s.count ∨ eventfdMax < count then s.block t nonblock signal
        else { s with count }.goTo t (.added add.toNat))
    | _ => none
  | .copyOut t ok =>
    match s.call t with
    | .taken out => some (s.goTo t (if ok then .copied out else .faulted out))
    | _ => none
  | .finish t =>
    match s.call t with
    | .copied out => some ({ s with delivered := s.delivered + out }.goTo t .idle)
    | .added add => some ({ s with written := s.written + add }.goTo t .idle)
    | _ => none

/-- What the counter and the sums are apart by for a call. -/
def owed : EventfdCall → Int
  | .taken out | .faulted out | .copied out => out
  | .added add => -add
  | _ => 0

/-- The counter is in its range and, but for the calls that have not returned, what has been written
and not delivered. -/
structure Exact (init : Nat) (s : Eventfd n) : Prop where
  le : s.count ≤ eventfdMax
  sum : (s.count : Int) + ∑ t, owed (s.call t) = init + s.written - s.delivered

/-- A value that is put back fits. -/
def Fits (s : Eventfd n) : EventfdEvent n → Prop
  | .run t _ => ∀ out, s.call t = .faulted out → s.count + out ≤ eventfdMax
  | _ => True

variable {init : Nat} {s s' : Eventfd n}

/-- A call goes on: what it owes is what the counter and the sums change by. -/
theorem Exact.goTo (h : Exact init s) {t : Fin n} {c : EventfdCall} {count written delivered : Nat}
    (hle : count ≤ eventfdMax)
    (howed : (count : Int) + owed c - written + delivered = s.count + owed (s.call t) - s.written +
      s.delivered) :
    Exact init ({ s with count, written, delivered }.goTo t c) where
  le := hle
  sum := by
    have hsum := h.sum
    have hupdate := Lib.Table.sum_update owed s.call t c
    simp only [Eventfd.goTo] at hupdate ⊢
    omega

theorem Exact.block (h : Exact init s) {t : Fin n} {nonblock signal : Bool}
    (howed : owed (s.call t) = 0) : Exact init (s.block t nonblock signal) := by
  unfold Eventfd.block
  split
  · exact h.goTo h.le (by rw [howed]; rfl)
  · exact h

/-- **Every step keeps the counter exact**, if what is put back fits. -/
theorem Exact.step (h : Exact init s) {e : EventfdEvent n} (hstep : s.apply e = some s')
    (hfits : s.Fits e) : Exact init s' := by
  cases e with
  | startRead t len nonblock =>
    simp only [apply] at hstep
    split at hstep
    · next hcall =>
      cases hstep
      split
      · exact h
      · exact h.goTo h.le (by rw [hcall]; rfl)
    · cases hstep
  | startWrite t len add nonblock =>
    simp only [apply] at hstep
    split at hstep
    · next hcall =>
      cases hstep
      split
      · exact h
      · exact h.goTo h.le (by rw [hcall]; rfl)
    · cases hstep
      exact h
    · cases hstep
  | run t signal =>
    simp only [apply] at hstep
    split at hstep
    · next nonblock hcall =>
      cases hstep
      split
      · exact h.block (by rw [hcall]; rfl)
      -- at most the counter is taken
      have hout : (if s.semaphore then 1 else s.count) ≤ s.count := by split <;> omega
      have hle := h.le
      exact h.goTo (by omega) (by rw [hcall]; simp only [owed]; omega)
    · next out hcall =>
      cases hstep
      have hfit := hfits out hcall
      have hmod : (s.count + out) % 2 ^ 64 = s.count + out :=
        Nat.mod_eq_of_lt (by unfold eventfdMax at hfit; omega)
      exact h.goTo (by omega) (by rw [hcall, hmod]; simp only [owed]; omega)
    · next add nonblock hcall =>
      cases hstep
      split
      · exact h.block (by rw [hcall]; rfl)
      next hroom =>
      -- past 64 bits the sum would be less than the counter
      have hmod : (s.count + add.toNat) % 2 ^ 64 = s.count + add.toNat := by
        omega
      exact h.goTo (by omega) (by rw [hcall, hmod]; simp only [owed]; omega)
    · cases hstep
  | copyOut t ok =>
    simp only [apply] at hstep
    split at hstep
    · next out hcall =>
      cases hstep
      exact h.goTo h.le (by rw [hcall]; cases ok <;> rfl)
    · cases hstep
  | finish t =>
    simp only [apply] at hstep
    split at hstep
    · next out hcall =>
      cases hstep
      exact h.goTo h.le (by rw [hcall]; simp only [owed]; omega)
    · next add hcall =>
      cases hstep
      exact h.goTo h.le (by rw [hcall]; simp only [owed]; omega)
    · cases hstep

end Eventfd

/-- The eventfd of `n` threads; `init` is an `unsigned int`. -/
def eventfdSystem (n : Nat) (init : BitVec 32) : System (Eventfd n) (EventfdEvent n) where
  init s := s.count = init.toNat ∧ (∀ t, s.call t = .idle) ∧ s.written = 0 ∧ s.delivered = 0
  step s e s' := s.apply e = some s'

/-- **An eventfd is an exact counter**, in every run in which what is put back fits. -/
theorem eventfd_exact {n : Nat} {init : BitVec 32} {tr : List (EventfdEvent n)} {s : Eventfd n}
    (hr : Run ((eventfdSystem n init).restrict Eventfd.Fits) tr s) :
    s.count ≤ eventfdMax ∧
      ((∀ t, s.call t = .idle) → (s.count : Int) = init.toNat + s.written - s.delivered) := by
  have hexact : s.Exact init.toNat := by
    refine hr.invariant (fun s hs => ?_) fun _ _ _ h hstep => h.step hstep.1 hstep.2
    obtain ⟨hcount, hidle, hwritten, hdelivered⟩ := hs
    have := init.isLt
    exact ⟨by unfold eventfdMax; omega, by simp [hcount, hidle, hwritten, hdelivered, Eventfd.owed]⟩
  refine ⟨hexact.le, fun hidle => ?_⟩
  have hsum := hexact.sum
  simpa [hidle, Eventfd.owed] using hsum

/-- The read of a counter of 2 faults and puts its value back after a write of 5. -/
theorem put_back_exact : ∃ tr s, Run ((eventfdSystem 2 2).restrict Eventfd.Fits) tr s ∧
    s.count = 7 ∧ s.count ≤ eventfdMax ∧
    ((∀ t, s.call t = .idle) →
      (s.count : Int) = (2 : BitVec 32).toNat + s.written - s.delivered) := by
  have hinit : Run ((eventfdSystem 2 2).restrict Eventfd.Fits) []
      ⟨2, false, fun _ => .idle, 0, 0⟩ :=
    .init ⟨rfl, fun _ => rfl, rfl, rfl⟩
  have hread :=
    (hinit.step (e := EventfdEvent.startRead 0 8 false) ⟨rfl, trivial⟩).step
      (e := EventfdEvent.run 0 false) ⟨rfl, nofun⟩
  have hfault := hread.step (e := EventfdEvent.copyOut 0 false) ⟨rfl, trivial⟩
  have hwrite :=
    (hfault.step (e := EventfdEvent.startWrite 1 8 (some 5) false) ⟨rfl, trivial⟩).step
      (e := EventfdEvent.run 1 false) ⟨rfl, nofun⟩
  have hback :=
    (hwrite.step (e := EventfdEvent.finish 1) ⟨rfl, trivial⟩).step (e := EventfdEvent.run 0 false)
      ⟨rfl, by rintro _ ⟨⟩; decide⟩
  exact ⟨_, _, hback, rfl, eventfd_exact hback⟩

/-- The read of `t` cannot copy its value out, and before it puts it back `u` writes the largest
value. -/
def faultingRead {n : Nat} (t u : Fin n) : List (EventfdEvent n) :=
  [.startRead t 8 false, .run t false, .copyOut t false,
    .startWrite u 8 (some 0xFFFFFFFFFFFFFFFE) false, .run u false, .finish u, .run t false]

/-- The write returned 8 and the read failed, and the counter is 0. -/
theorem put_back_wraps : ∃ tr s, Run (eventfdSystem 2 2) tr s ∧ (∀ t, s.call t = .idle) ∧
    s.count = 0 ∧ s.written = eventfdMax ∧ s.delivered = 0 := by
  exact Lib.run_drive Eventfd.apply (faultingRead 0 1) ⟨2, false, fun _ => .idle, 0, 0⟩
    (fun _ _ _ _ h => h)
    (.init ⟨rfl, fun _ => rfl, rfl, rfl⟩) ⟨_, rfl, fun | 0 | 1 => rfl, rfl, rfl, rfl⟩

end MaeroOS.Proc
