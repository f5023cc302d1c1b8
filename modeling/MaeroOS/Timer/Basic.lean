import Mathlib.Algebra.Group.Nat.Defs
import MaeroOS.Lib.System

/-!
# Kernel timers

The table of `proc/ktimer.c`: the interval timers of `alarm` and `setitimer` and the POSIX timers,
with the tick that expires them. Times are nanoseconds in 64 bits, saturated at `KT_NS_MAX`.

The clock, which processes and threads exist and which signals are pending are not the timers' own:
a function that looks at them is given them. Each look at the clock has its own value, so that a
tick gets a clock reading for every slot of the table.

Beside each timer stands a record that no code reads (`Hist`): what has happened since it was last
set. Every expiry of a wall-clock timer is written down in a log.
-/

namespace MaeroOS.Timer

open Lib (System)

/-- `KT_MAX`, `KT_POSIX_MAX`. -/
def ktMax : Nat := 256

def ktPosixMax : Nat := 32

/-- `KT_NS_MAX`: a timer that far out never expires. -/
def ktNsMax : Nat := 0x7FFFFFFFFFFFFFFF

def nsecPerSec : Nat := 1000000000

/-- `TICK_NS`: 10 ms. -/
def tickLength : Nat := 10000000

/-- `NSIGS`. -/
def nsigs : Int := 32

inductive Kind
  | real
  | virtual
  | prof
  | posix
  deriving DecidableEq

/-- `SIGEV_SIGNAL`, `SIGEV_NONE`, `SIGEV_THREAD_ID`. -/
inductive Notify
  | signal
  | none
  | threadId
  deriving DecidableEq

inductive Clock
  | realtime
  | monotonic
  | boottime
  deriving DecidableEq

/-- `struct ktimer`. -/
structure KTimer where
  used : Bool
  kind : Kind
  armed : Bool
  tgid : Int
  id : Nat
  clock : Clock
  notify : Notify
  signo : Int
  tid : Int
  deadline : Nat
  interval : Nat
  queued : Bool
  overrun : Nat
  overrunLast : Nat

/-- Since a timer was set: its first deadline, how many boundaries of its interval have been passed,
the time at which this was last found out, the signals sent and the overruns handed over. -/
structure Hist where
  first : Nat
  passed : Nat
  last : Option Nat
  sent : Nat
  handed : Nat

structure Slot where
  t : KTimer
  h : Hist

/-- An expiry: the deadline, the start of the tick, the clock that was read for a periodic timer,
and what the deadline became. -/
structure Expiry where
  slot : Nat
  deadline : Nat
  interval : Nat
  start : Nat
  clock : Nat
  next : Nat

/-- The table, the count `ktimers_used` and the log. -/
structure KtState where
  slots : Nat → Slot
  used : Nat
  log : List Expiry

/-- What a look at the rest of the kernel finds. -/
structure Env where
  /-- `sig_pending_in`: thread group, thread or 0, signal. -/
  pending : Int → Int → Int → Bool
  /-- `group_member`: the thread group has a live thread. -/
  member : Int → Bool
  /-- The thread is alive and in the thread group. -/
  thread : Int → Int → Bool
  /-- `clock_mono_ns`. -/
  mono : Nat

/-! ## Arithmetic -/

/-- The loop of `udivmod64` for the bits below `i`, with the quotient and the remainder so far. -/
def udivLoop (n d : Nat) : Nat → Nat → Nat → Nat × Nat
  | 0, q, r => (q, r)
  | i + 1, q, r =>
      if d ≤ ((r <<< 1) ||| ((n >>> i) &&& 1)) % 2 ^ 64 then
        udivLoop n d i (q ||| (1 <<< i)) (((r <<< 1) ||| ((n >>> i) &&& 1)) % 2 ^ 64 - d)
      else udivLoop n d i q (((r <<< 1) ||| ((n >>> i) &&& 1)) % 2 ^ 64)

/-- `udivmod64`: quotient and remainder. -/
def udivmod64 (n d : Nat) : Nat × Nat :=
  if d = 0 then (0, 0)
  else if n >>> 32 = 0 ∧ d >>> 32 = 0 then (n % 2 ^ 32 / (d % 2 ^ 32), n % 2 ^ 32 % (d % 2 ^ 32))
  else udivLoop n d 64 0 0

/-- `ns_add`. -/
def nsAdd (a b : Nat) : Nat := if ktNsMax ≤ a ∨ ktNsMax - a ≤ b then ktNsMax else a + b

/-- `tick_ns`. -/
def tickNs (now : Nat) : Nat := now * tickLength

/-- `ns_of`, for seconds and nanoseconds that are not negative. -/
def nsOf (sec nsec : Nat) : Nat :=
  if ktNsMax / nsecPerSec ≤ sec then ktNsMax else nsAdd (sec * nsecPerSec) nsec

/-! ## One timer -/

namespace Slot

def setTimer (x : Slot) (t : KTimer) : Slot := { x with t := t }

/-- The thread a signal is looked for on: none for one to the process. -/
def target (x : Slot) : Int := if x.t.notify = .threadId then x.t.tid else 0

/-- `kt_sync_overrun`. -/
def ktSyncOverrun (env : Env) (x : Slot) : Slot :=
  if x.t.queued = false ∨ env.pending x.t.tgid x.target x.t.signo then x
  else
    { t := { x.t with queued := false, overrunLast := x.t.overrun, overrun := 0 }
      h := { x.h with handed := x.h.handed + x.t.overrun } }

/-- A signal of the timer is sent. -/
def send (x : Slot) : Slot := { x with h := { x.h with sent := x.h.sent + 1 } }

/-- One signal per POSIX timer: an expiry while it is pending is an overrun. -/
def firePosix (env : Env) (x : Slot) : Slot :=
  if (x.ktSyncOverrun env).t.queued then
    (x.ktSyncOverrun env).setTimer { (x.ktSyncOverrun env).t with
      overrun := ((x.ktSyncOverrun env).t.overrun + 1) % 2 ^ 32 }
  else ((x.ktSyncOverrun env).setTimer { (x.ktSyncOverrun env).t with queued := true }).send

/-- `kt_fire`: `false` if the process is gone. -/
def ktFire (env : Env) (x : Slot) : Bool × Slot :=
  if x.t.kind = .posix ∧ x.t.notify = .none then (true, x)
  else if x.t.kind = .posix ∧ x.t.notify = .threadId then
    if env.thread x.t.tid x.t.tgid then (true, x.firePosix env) else (env.member x.t.tgid, x)
  else if env.member x.t.tgid = false then (false, x)
  else if x.t.kind = .posix then (true, x.firePosix env)
  else (true, x.send)

/-- The periods that were missed entirely. -/
def missed (mono dl interval : Nat) : Nat := (udivmod64 (mono - dl) interval).1 + 1

/-- The next deadline of a periodic timer: a whole interval after the one that passed, and behind
the clock. -/
def nextDeadline (mono deadline interval : Nat) : Nat :=
  if nsAdd deadline interval ≤ mono then
    (nsAdd deadline interval + missed mono (nsAdd deadline interval) interval * interval) % 2 ^ 64
  else nsAdd deadline interval

/-- The boundaries passed with an expiry. -/
def boundaries (mono deadline interval : Nat) : Nat :=
  if nsAdd deadline interval ≤ mono then 1 + missed mono (nsAdd deadline interval) interval else 1

/-- The overruns of a POSIX timer after its missed periods. -/
def missedOverrun (mono : Nat) (t : KTimer) : Nat :=
  if t.kind = .posix ∧ nsAdd t.deadline t.interval ≤ mono then
    (t.overrun + missed mono (nsAdd t.deadline t.interval) t.interval % 2 ^ 32) % 2 ^ 32
  else t.overrun

/-- The timer is armed again after an expiry. -/
def reload (mono : Nat) (x : Slot) : Slot :=
  { t := { x.t with
      deadline := nextDeadline mono x.t.deadline x.t.interval
      armed := true
      overrun := missedOverrun mono x.t }
    h := { x.h with
      passed := x.h.passed + boundaries mono x.t.deadline x.t.interval
      last := some mono } }

/-- A timer without interval is done. -/
def finish (now : Nat) (x : Slot) : Slot :=
  { t := { x.t with armed := false }
    h := { x.h with passed := x.h.passed + 1, last := some (tickNs now) } }

/-- What the tick does with a wall-clock timer that has fired. -/
def afterFire (now mono : Nat) (x : Slot) : Slot :=
  if x.t.interval = 0 then x.finish now else x.reload mono

/-- What the tick does with a CPU-time timer that has fired. -/
def reloadCpu (x : Slot) : Slot :=
  if x.t.interval = 0 then x.setTimer { x.t with armed := false }
  else x.setTimer { x.t with deadline := x.t.interval }

end Slot

/-! ## The table -/

namespace KtState

def setSlot (s : KtState) (i : Nat) (x : Slot) : KtState :=
  { s with slots := Function.update s.slots i x }

/-- `kt_find`. -/
def ktFind (s : KtState) (tgid : Int) (kind : Kind) (id : Nat) : Option Nat :=
  (List.range ktMax).find? fun i => (s.slots i).t.used && decide ((s.slots i).t.tgid = tgid) &&
    decide ((s.slots i).t.kind = kind) && (decide (kind ≠ .posix) || decide ((s.slots i).t.id = id))

/-- A timer with nothing set, which `kt_alloc` leaves. -/
def blank : Slot where
  t := ⟨true, .real, false, 0, 0, .realtime, .signal, 0, 0, 0, 0, false, 0, 0⟩
  h := ⟨0, 0, none, 0, 0⟩

/-- `kt_alloc`: the index of the timer. -/
def ktAlloc (s : KtState) : Option (Nat × KtState) :=
  ((List.range ktMax).find? fun i => !(s.slots i).t.used).map fun i =>
    (i, { s.setSlot i blank with used := s.used + 1 })

/-- `kt_free`. -/
def ktFree (s : KtState) (i : Nat) : KtState :=
  if (s.slots i).t.used then
    { s.setSlot i ((s.slots i).setTimer { (s.slots i).t with used := false, armed := false }) with
      used := s.used - 1 }
  else s

/-! ## The tick -/

/-- The expiry of a wall-clock timer is written down. -/
def note (s : KtState) (e : Expiry) : KtState := { s with log := e :: s.log }

/-- A wall-clock timer that is due. -/
def expire (s : KtState) (now : Nat) (env : Env) (i : Nat) : KtState :=
  if ((s.slots i).ktFire env).1 then
    (s.setSlot i (((s.slots i).ktFire env).2.afterFire now env.mono)).note
      ⟨i, (s.slots i).t.deadline, (s.slots i).t.interval, tickNs now, env.mono,
        (((s.slots i).ktFire env).2.afterFire now env.mono).t.deadline⟩
  else (s.setSlot i ((s.slots i).ktFire env).2).ktFree i

/-- A CPU-time timer of the running process. -/
def charge (s : KtState) (env : Env) (i : Nat) : KtState :=
  if tickLength < (s.slots i).t.deadline then
    s.setSlot i ((s.slots i).setTimer { (s.slots i).t with
      deadline := (s.slots i).t.deadline - tickLength })
  else if ((s.slots i).ktFire env).1 then s.setSlot i (((s.slots i).ktFire env).2.reloadCpu)
  else (s.setSlot i ((s.slots i).ktFire env).2).ktFree i

/-- What a tick knows: its number, whether this is the CPU that keeps the clock, whether it
interrupted user mode, and the thread group it interrupted. -/
structure Tick where
  now : Nat
  bsp : Bool
  userMode : Bool
  cur : Option Int

/-- One slot of `ktimer_tick`. -/
def tickSlot (k : Tick) (env : Env) (s : KtState) (i : Nat) : KtState :=
  if (s.slots i).t.used = false ∨ (s.slots i).t.armed = false then s
  else if (s.slots i).t.kind = .real ∨ (s.slots i).t.kind = .posix then
    if k.bsp = false ∨ tickNs k.now < (s.slots i).t.deadline then s else s.expire k.now env i
  else if k.cur ≠ some (s.slots i).t.tgid then s
  else if (s.slots i).t.kind = .virtual ∧ k.userMode = false then s
  else s.charge env i

/-- `ktimer_tick`. -/
def ktimerTick (k : Tick) (env : Nat → Env) (s : KtState) : KtState :=
  if s.used = 0 then s else (List.range ktMax).foldl (fun s i => s.tickSlot k (env i) i) s

/-! ## Lifetime -/

/-- The timers for which `p` holds are freed. -/
def freeAll (p : KTimer → Bool) (s : KtState) : KtState :=
  (List.range ktMax).foldl (fun s i => if (s.slots i).t.used && p (s.slots i).t then s.ktFree i
    else s) s

/-- `ktimer_group_exit`. -/
def ktimerGroupExit (s : KtState) (tgid : Int) : KtState :=
  s.freeAll fun t => decide (t.tgid = tgid)

/-- `ktimer_exec`. -/
def ktimerExec (s : KtState) (tgid : Int) : KtState :=
  s.freeAll fun t => decide (t.tgid = tgid) && decide (t.kind = .posix)

/-! ## Setting and reading -/

/-- `kt_read`: what is left, and the interval. -/
def ktRead (mono : Nat) (t : Option KTimer) : Nat × Nat :=
  match t with
  | none => (0, 0)
  | some t =>
      if t.armed = false then (0, t.interval)
      else if t.kind = .virtual ∨ t.kind = .prof then (t.deadline, t.interval)
      else (if mono < t.deadline then t.deadline - mono else 1, t.interval)

/-- The timer is set anew: what has happened so far does not count. -/
def arm (x : Slot) (dl interval : Nat) : Slot :=
  { t := { x.t with
           deadline := dl, interval := interval, armed := true, overrun := 0, overrunLast := 0 }
    h := ⟨dl, 0, none, 0, 0⟩ }

/-- `itimer_set`, for a timer that is there. -/
def itimerArm (s : KtState) (i : Nat) (which : Kind) (value interval mono : Nat) : KtState :=
  s.setSlot i (arm (s.slots i) (if which = .real then nsAdd mono value else value) interval)

/-- `itimer_set`: 0 or an error, and what was set before. -/
def itimerSet (s : KtState) (tgid : Int) (which : Kind) (value interval mono : Nat) :
    (Int × Nat × Nat) × KtState :=
  match s.ktFind tgid which 0 with
  | some i =>
      ((0, ktRead mono (some (s.slots i).t)),
        if value = 0 then s.ktFree i else s.itimerArm i which value interval mono)
  | none =>
      if value = 0 then ((0, 0, 0), s)
      else
        match s.ktAlloc with
        | none => ((-11, 0, 0), s)
        | some (i, s') =>
            ((0, 0, 0), (s'.setSlot i ((s'.slots i).setTimer
              { (s'.slots i).t with kind := which, tgid := tgid })).itimerArm i which value
                interval mono)

/-- `tv_to_ns`. -/
def tvToNs (sec usec : Int) : Option Nat :=
  if sec < 0 ∨ usec < 0 ∨ 1000000 ≤ usec then none else some (nsOf sec.toNat (usec.toNat * 1000))

/-- The kinds of `setitimer`. -/
def itimerKind (which : Int) : Option Kind :=
  if which = 0 then some .real else if which = 1 then some .virtual
  else if which = 2 then some .prof else none

/-- `sys_alarm`, up to the rounding of its result. -/
def sysAlarm (s : KtState) (tgid : Int) (secs mono : Nat) : (Int × Nat × Nat) × KtState :=
  s.itimerSet tgid .real (min secs 0x7fffffff * nsecPerSec) 0 mono

/-- `sys_setitimer`, after the new value was copied in. -/
def sysSetitimer (s : KtState) (tgid which vsec vusec isec iusec : Int) (mono : Nat) :
    (Int × Nat × Nat) × KtState :=
  match itimerKind which, tvToNs vsec vusec, tvToNs isec iusec with
  | some kind, some value, some interval => s.itimerSet tgid kind value interval mono
  | _, _, _ => ((-22, 0, 0), s)

/-- The clocks of `timer_create`. -/
def posixClock (clock : Int) : Option Clock :=
  if clock = 0 then some .realtime else if clock = 1 then some .monotonic
  else if clock = 7 then some .boottime else none

/-- The `notify` of a `struct ksigevent`, with the checks that go with it. -/
def sigevNotify (env : Env) (tgid notify signo tid : Int) : Option Notify :=
  if notify = 1 then some .none
  else if notify = 4 then
    if env.thread tid tgid ∧ 1 ≤ signo ∧ signo < nsigs then some .threadId else none
  else if notify = 0 then
    if 1 ≤ signo ∧ signo < nsigs then some .signal else none
  else none

/-- The POSIX timers of a process. -/
def posixTimers (s : KtState) (tgid : Int) : List Nat :=
  (List.range ktMax).filter fun i => (s.slots i).t.used && decide ((s.slots i).t.tgid = tgid) &&
    decide ((s.slots i).t.kind = .posix)

/-- The smallest id that none of the process's timers has. -/
def freeId (s : KtState) (tgid : Int) : Nat :=
  ((List.range 32).find? fun id =>
    !((s.posixTimers tgid).any fun i => decide ((s.slots i).t.id = id))).getD 32

/-- `sys_timer_create`; `stored` is whether the id could be copied out. -/
def sysTimerCreate (s : KtState) (env : Env) (tgid clock notify signo tid : Int) (stored : Bool) :
    Int × KtState :=
  match posixClock clock, sigevNotify env tgid notify signo tid with
  | some clock, some notify =>
      if ktPosixMax ≤ (s.posixTimers tgid).length then (-11, s)
      else
        match s.ktAlloc with
        | none => (-11, s)
        | some (i, s') =>
            if stored then
              (0, s'.setSlot i ((s'.slots i).setTimer { (s'.slots i).t with
                kind := .posix, tgid := tgid, id := s.freeId tgid, clock := clock, notify := notify,
                signo := signo, tid := tid }))
            else (-14, s'.ktFree i)
  | _, _ => (-22, s)

/-- The deadline of an absolute time. `epoch` is the second the RTC showed at boot. -/
def absDeadline (clock : Clock) (epoch val mono : Nat) : Nat :=
  max mono (if clock = .realtime then
      if ktNsMax ≤ val then ktNsMax else val - epoch * nsecPerSec
    else val)

/-- A POSIX timer is set to `val`, which is not 0. -/
def posixArm (s : KtState) (i : Nat) (abstime : Bool) (val interval mono epoch : Nat) : KtState :=
  s.setSlot i ((arm (s.slots i)
      (if abstime then absDeadline (s.slots i).t.clock epoch val mono else nsAdd mono val)
        interval).setTimer
    { (arm (s.slots i) (if abstime then absDeadline (s.slots i).t.clock epoch val mono
        else nsAdd mono val) interval).t with queued := false })

/-- A POSIX timer is disarmed by setting it to 0. -/
def posixDisarm (s : KtState) (i : Nat) : KtState :=
  s.setSlot i
    { t := { (s.slots i).t with
             overrun := 0, overrunLast := 0, queued := false, armed := false, interval := 0 }
      h := ⟨0, 0, none, 0, 0⟩ }

/-- `timer_settime_ns`. -/
def timerSettimeNs (s : KtState) (tgid : Int) (id : Nat) (abstime : Bool) (vs vn is «in» : Int)
    (mono epoch : Nat) : (Int × Nat × Nat) × KtState :=
  match s.ktFind tgid .posix id with
  | none => ((-22, 0, 0), s)
  | some i =>
      if vs < 0 ∨ vn < 0 ∨ (nsecPerSec : Int) ≤ vn ∨ is < 0 ∨ «in» < 0 ∨
        (nsecPerSec : Int) ≤ «in» then
        ((-22, 0, 0), s)
      else
        ((0, ktRead mono (some (s.slots i).t)),
          if nsOf vs.toNat vn.toNat = 0 then s.posixDisarm i
          else s.posixArm i abstime (nsOf vs.toNat vn.toNat) (nsOf is.toNat «in».toNat) mono epoch)

/-- `sys_timer_getoverrun`. -/
def sysTimerGetoverrun (s : KtState) (env : Env) (tgid : Int) (id : Nat) : Int × KtState :=
  match s.ktFind tgid .posix id with
  | none => (-22, s)
  | some i =>
      (min ((s.slots i).ktSyncOverrun env).t.overrunLast 0x7fffffff,
        s.setSlot i ((s.slots i).ktSyncOverrun env))

/-- `sys_timer_delete`. -/
def sysTimerDelete (s : KtState) (tgid : Int) (id : Nat) : Int × KtState :=
  match s.ktFind tgid .posix id with
  | none => (-22, s)
  | some i => (0, s.ktFree i)

end KtState

/-! ## The system -/

open KtState (Tick)

inductive KtEvent
  | tick (k : Tick) (env : Nat → Env)
  | alarm (tgid : Int) (secs mono : Nat)
  | setitimer (tgid which vsec vusec isec iusec : Int) (mono : Nat)
  | timerCreate (env : Env) (tgid clock notify signo tid : Int) (stored : Bool)
  | timerSettime (tgid : Int) (id : Nat) (abstime : Bool) (vs vn is «in» : Int) (mono epoch : Nat)
  | timerGetoverrun (env : Env) (tgid : Int) (id : Nat)
  | timerDelete (tgid : Int) (id : Nat)
  | groupExit (tgid : Int)
  | exec (tgid : Int)

def KtEvent.apply (s : KtState) : KtEvent → KtState
  | tick k env => s.ktimerTick k env
  | alarm tgid secs mono => (s.sysAlarm tgid secs mono).2
  | setitimer tgid which vsec vusec isec iusec mono =>
      (s.sysSetitimer tgid which vsec vusec isec iusec mono).2
  | timerCreate env tgid clock notify signo tid stored =>
      (s.sysTimerCreate env tgid clock notify signo tid stored).2
  | timerSettime tgid id abstime vs vn is «in» mono epoch =>
      (s.timerSettimeNs tgid id abstime vs vn is «in» mono epoch).2
  | timerGetoverrun env tgid id => (s.sysTimerGetoverrun env tgid id).2
  | timerDelete tgid id => (s.sysTimerDelete tgid id).2
  | groupExit tgid => s.ktimerGroupExit tgid
  | exec tgid => s.ktimerExec tgid

/-- The times an event may come with: the clock does not show less than the start of the tick in
which it is read, and every time is below `KT_NS_MAX`. -/
def KtEvent.Timely : KtEvent → Prop
  | tick k env => ∀ i, tickNs k.now ≤ (env i).mono ∧ (env i).mono < ktNsMax
  | alarm _ _ mono => mono < ktNsMax
  | setitimer _ _ _ _ _ _ mono => mono < ktNsMax
  | timerSettime _ _ _ _ _ _ _ mono _ => mono < ktNsMax
  | _ => True

/-- The kernel's timers, from an empty table on. -/
def ktSystem : System KtState KtEvent where
  init s := s.used = 0 ∧ s.log = [] ∧ ∀ i, (s.slots i).t.used = false
  step s e s' := e.Timely ∧ s' = e.apply s

end MaeroOS.Timer
