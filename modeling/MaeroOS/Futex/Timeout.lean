import Mathlib.Tactic.Linarith

/-!
# Futex timeouts

The timeouts of `FUTEX_WAIT` (relative) and `FUTEX_WAIT_BITSET` (absolute) in `sys_futex`, with the
deadlines of `proc/syscall.c`, the clock of `arch/i686/cpu/tsc.c` and the test of `scheduler_tick`.
A moment is a tick and the nanoseconds that have gone by since; the uptime is below `2 ^ 32` ticks,
so `pit_ticks` has not wrapped.

Seconds are clamped to 2000000 and wake ticks to `2 ^ 32 - 1`. Both clamps make a long timeout
expire early (`Wait.never_early_iff`), although a comment of `sys_futex` says that none does.
-/

namespace MaeroOS.Futex

def tickHz : Nat := 100
def tickNs : Nat := 10000000
def nsecPerSec : Nat := 1000000000

/-- The largest number of seconds a timeout is taken to have. -/
def maxSec : Nat := 2000000

theorem tickNs_pos : 0 < tickNs := by simp [tickNs]

/-! ## The clock -/

structure Moment where
  tick : Nat
  sub : Nat
  tick_lt : tick < 2 ^ 32
  sub_lt : sub < tickNs

/-- The nanoseconds since boot. -/
def Moment.uptime (m : Moment) : Nat := m.tick * tickNs + m.sub

/-- `struct kdeadline`. -/
structure Deadline where
  sec : Nat
  nsec : Nat

namespace Deadline

/-- `clock_mono`. -/
def ofMoment (m : Moment) : Deadline := ⟨m.tick / tickHz, m.tick % tickHz * tickNs + m.sub⟩

/-- The carry at the end of `deadline_set`. -/
def carry (s ns : Nat) : Deadline :=
  if nsecPerSec ≤ ns then ⟨(s + 1) % 2 ^ 32, ns - nsecPerSec⟩ else ⟨s, ns⟩

/-- `deadline_set`: so long after the moment. -/
def set (m : Moment) (sec nsec : Nat) : Deadline :=
  carry (((ofMoment m).sec + sec + nsec / nsecPerSec) % 2 ^ 32)
    ((ofMoment m).nsec + nsec % nsecPerSec)

/-- `deadline_expired`. -/
def expired (d : Deadline) (m : Moment) : Bool :=
  d.sec < (ofMoment m).sec ∨ (ofMoment m).sec = d.sec ∧ d.nsec ≤ (ofMoment m).nsec

/-- `clock_mono_to_tick`. -/
def toTick (d : Deadline) : Nat :=
  let t := d.sec * tickHz + (d.nsec + tickNs - 1) / tickNs
  if 0xFFFFFFFF < t then 0xFFFFFFFF else t

/-- `(int32_t)(a - b) <= 0`, for 32-bit `a` and `b`. -/
def notAfter (a b : Nat) : Bool := if b ≤ a then a = b ∨ 2 ^ 31 ≤ a - b else b - a ≤ 2 ^ 31

/-- `(int32_t)(now - wake) >= 0`, the test of `scheduler_tick`. -/
def reached (wake now : Nat) : Bool :=
  if wake ≤ now then now - wake < 2 ^ 31 else 2 ^ 31 < wake - now

/-- `deadline_wake_tick`. -/
def wakeTick (d : Deadline) (m : Moment) : Nat :=
  let wt := if notAfter d.toTick m.tick then (m.tick + 1) % 2 ^ 32 else d.toTick
  if wt = 0 then 1 else wt

/-- The nanoseconds since boot at which it is due. -/
def due (d : Deadline) : Nat := d.sec * nsecPerSec + d.nsec

end Deadline

/-! ## The call -/

inductive Timeout
  | relative
  | absolute (realtime : Bool)
deriving DecidableEq, Repr

/-- A call with a timeout, with valid nanoseconds; `epoch` is `rtc_boot_epoch`. -/
structure Wait where
  kind : Timeout
  sec : Int
  nsec : Nat
  epoch : Nat
  now : Moment
  sec_ge : -2 ^ 63 ≤ sec
  sec_lt : sec < 2 ^ 63
  nsec_lt : nsec < nsecPerSec
  epoch_lt : epoch < 2 ^ 32

/-- How the call deals with its timeout: at once, or by sleeping until a tick. -/
inductive Arm
  | timedOut
  | sleep (wakeTick : Nat)
deriving DecidableEq, Repr

namespace Wait

/-- The part of `sys_futex` that sets the wake tick. `int64_t` and `uint32_t` wrap. The checks of
the nanoseconds, which answer with `-EINVAL`, are passed. -/
def arm (w : Wait) : Arm :=
  match w.kind with
  | .absolute realtime =>
      let ds := if realtime then (w.sec - w.epoch).bmod (2 ^ 64) else w.sec
      if ds < 0 then .timedOut
      else
        let d : Deadline := ⟨min ds.toNat maxSec, w.nsec⟩
        if d.expired w.now then .timedOut else .sleep (d.wakeTick w.now)
  | .relative =>
      let tsec := min w.sec maxSec
      if tsec = 0 ∧ w.nsec = 0 then .timedOut
      else .sleep ((Deadline.set w.now (tsec % 2 ^ 32).toNat w.nsec).wakeTick w.now)

/-- The call may return `-ETIMEDOUT` at the moment `m`: it does so at once, or `scheduler_tick`
found the wake tick reached at a tick since. -/
def ExpiresAt (w : Wait) (m : Moment) : Prop :=
  w.now.uptime ≤ m.uptime ∧
    match w.arm with
    | .timedOut => True
    | .sleep wake => ∃ k, w.now.tick ≤ k ∧ k ≤ m.tick ∧ Deadline.reached wake k = true

/-- The instant asked for, in nanoseconds since boot. -/
def requested (w : Wait) : Int :=
  match w.kind with
  | .relative => w.now.uptime + w.sec * nsecPerSec + w.nsec
  | .absolute realtime => (w.sec - if realtime then w.epoch else 0) * nsecPerSec + w.nsec

def NeverEarly (w : Wait) : Prop := ∀ m, w.ExpiresAt m → w.requested ≤ m.uptime

end Wait

/-! ## Deadlines -/

namespace Deadline

variable {d : Deadline} {m : Moment}

theorem ofMoment_due (m : Moment) :
    (ofMoment m).due = m.uptime ∧ (ofMoment m).nsec < nsecPerSec := by
  have hsub := m.sub_lt
  simp only [ofMoment, due, Moment.uptime, tickHz, tickNs, nsecPerSec] at *
  omega

theorem carry_due (s ns : Nat) (hs : s + 1 < 2 ^ 32) (hns : ns < 2 * nsecPerSec) :
    (carry s ns).due = s * nsecPerSec + ns ∧ (carry s ns).nsec < nsecPerSec := by
  unfold carry due
  split
  · dsimp only
    rw [Nat.mod_eq_of_lt hs, add_mul]
    omega
  · next hlt => exact ⟨rfl, Nat.lt_of_not_le hlt⟩

/-- A deadline is due so long after the moment, if the seconds are not too many. -/
theorem due_set (m : Moment) {sec nsec : Nat} (hsec : sec ≤ maxSec) (hnsec : nsec < nsecPerSec) :
    (set m sec nsec).due = m.uptime + sec * nsecPerSec + nsec ∧
      (set m sec nsec).nsec < nsecPerSec := by
  obtain ⟨hdue, hlt⟩ := ofMoment_due m
  have htick := m.tick_lt
  have hs : (ofMoment m).sec + sec + 1 < 2 ^ 32 := by
    simp only [ofMoment, tickHz, maxSec] at *
    omega
  unfold set
  rw [Nat.div_eq_of_lt hnsec, Nat.mod_eq_of_lt hnsec, add_zero, Nat.mod_eq_of_lt (by omega)]
  obtain ⟨hcarry, hns⟩ := carry_due _ ((ofMoment m).nsec + nsec) hs (by omega)
  refine ⟨?_, hns⟩
  rw [hcarry, ← hdue, due, add_mul]
  omega

variable (hd : d.nsec < nsecPerSec)

include hd

theorem expired_iff : d.expired m = true ↔ d.due ≤ m.uptime := by
  have hsub := m.sub_lt
  unfold expired
  rw [decide_eq_true_iff]
  simp only [ofMoment, due, Moment.uptime, tickHz, tickNs, nsecPerSec] at *
  omega

/-- The first tick at or after the deadline, or the last tick there is. -/
theorem toTick_spec : d.toTick < 2 ^ 32 ∧ d.toTick * tickNs < d.due + tickNs ∧
    (d.due ≤ (2 ^ 32 - 1) * tickNs → d.due ≤ d.toTick * tickNs) ∧
    ((2 ^ 32 - 1) * tickNs < d.due → d.toTick = 2 ^ 32 - 1) := by
  unfold toTick
  by_cases hlate : 0xFFFFFFFF < d.sec * tickHz + (d.nsec + tickNs - 1) / tickNs
  · rw [if_pos hlate]
    simp only [due, tickHz, tickNs, nsecPerSec] at *
    omega
  · rw [if_neg hlate]
    simp only [due, tickHz, tickNs, nsecPerSec] at *
    omega

/-- **The tick of a deadline that is not long after**: the sleeper is woken at `toTick`. -/
theorem reached_wakeTick (hlo : m.uptime < d.due)
    (hhi : d.due ≤ m.uptime + (maxSec + 1) * nsecPerSec) (hlast : m.tick < 2 ^ 32 - 1) :
    m.tick < d.toTick ∧ reached (d.wakeTick m) d.toTick = true ∧
      ∀ k, m.tick ≤ k → reached (d.wakeTick m) k = true → d.toTick ≤ k := by
  obtain ⟨hlt, hnear, hin, hout⟩ := toTick_spec hd
  have hsub := m.sub_lt
  have hafter : m.tick < d.toTick ∧ d.toTick < m.tick + 2 ^ 31 := by
    simp only [Moment.uptime, tickNs, nsecPerSec, maxSec] at *
    omega
  have hwake : d.wakeTick m = d.toTick := by
    have hnot : notAfter d.toTick m.tick = false := by
      simp only [notAfter]
      rw [if_pos hafter.1.le]
      simp only [decide_eq_false_iff_not]
      omega
    simp only [wakeTick, hnot, Bool.false_eq_true, if_false]
    rw [if_neg (by omega)]
  rw [hwake]
  refine ⟨hafter.1, by simp [reached], fun k hk hr => ?_⟩
  unfold reached at hr
  split at hr
  · next hle => exact hle
  · simp only [decide_eq_true_eq] at hr
    omega

end Deadline

namespace Wait

variable {w : Wait} {d : Deadline}

/-! ## When a timeout is early -/

/-- The wait until a deadline that is not long after. -/
theorem neverEarly_sleep (harm : w.arm = .sleep (d.wakeTick w.now)) (hd : d.nsec < nsecPerSec)
    (hlo : w.now.uptime < d.due)
    (hhi : d.due ≤ w.now.uptime + (maxSec + 1) * nsecPerSec) (hlast : w.now.tick < 2 ^ 32 - 1) :
    w.NeverEarly ↔ w.requested ≤ (d.toTick * tickNs : Nat) := by
  obtain ⟨hafter, hwoken, hreached⟩ := Deadline.reached_wakeTick hd hlo hhi hlast
  have hlt := (Deadline.toTick_spec hd).1
  unfold NeverEarly ExpiresAt
  rw [harm]
  constructor
  · intro hnever
    -- the call can return right at the wake tick
    have hlate : w.now.uptime ≤ d.toTick * tickNs := by
      have hsub := w.now.sub_lt
      have hnext : (w.now.tick + 1) * tickNs ≤ d.toTick * tickNs := Nat.mul_le_mul_right _ hafter
      rw [add_mul] at hnext
      unfold Moment.uptime
      omega
    have huptime : (⟨d.toTick, 0, hlt, tickNs_pos⟩ : Moment).uptime = d.toTick * tickNs := by
      simp [Moment.uptime]
    have hearly := hnever ⟨d.toTick, 0, hlt, tickNs_pos⟩
    rw [huptime] at hearly
    exact hearly ⟨hlate, d.toTick, hafter.le, le_refl _, hwoken⟩
  · rintro hle m ⟨-, k, hk, hkm, hr⟩
    have hdue : d.toTick * tickNs ≤ m.tick * tickNs :=
      Nat.mul_le_mul_right _ ((hreached k hk hr).trans hkm)
    unfold Moment.uptime
    omega

/-- The wait is so long, or so far into the last tick, that a clamp cuts it short. -/
def Clamped (w : Wait) : Prop :=
  match w.kind with
  | .relative => (maxSec < w.sec ∨ ((2 ^ 32 - 1) * tickNs : Nat) < w.requested) ∧
      w.now.tick < 2 ^ 32 - 1
  | .absolute realtime => maxSec < w.sec - (if realtime then w.epoch else 0) ∧
      w.now.uptime < w.requested

theorem neverEarly_of_past (h : w.requested ≤ w.now.uptime) : w.NeverEarly := by
  rintro m ⟨hm, -⟩
  omega

theorem uptime_lt {m : Moment} (h : m.tick < 2 ^ 32 - 1) : m.uptime < (2 ^ 32 - 1) * tickNs := by
  have hsub := m.sub_lt
  have hnext : (m.tick + 1) * tickNs ≤ (2 ^ 32 - 1) * tickNs := Nat.mul_le_mul_right _ h
  rw [add_mul] at hnext
  unfold Moment.uptime
  omega

/-- In the last tick before the counter wraps, the sleeper waits for a tick after that. -/
theorem neverEarly_last (harm : w.arm = .sleep (d.wakeTick w.now)) (hd : d.nsec < nsecPerSec)
    (hlo : w.now.uptime < d.due) (hlast : w.now.tick = 2 ^ 32 - 1) : w.NeverEarly := by
  have htick : d.toTick = 2 ^ 32 - 1 := by
    refine (Deadline.toTick_spec hd).2.2.2 (lt_of_le_of_lt ?_ hlo)
    unfold Moment.uptime
    rw [hlast]
    omega
  have hwake : d.wakeTick w.now = 1 := by simp [Deadline.wakeTick, htick, hlast, Deadline.notAfter]
  rintro m ⟨-, hwoken⟩
  rw [harm, hwake] at hwoken
  obtain ⟨k, hk, hkm, hr⟩ := hwoken
  have hmt := m.tick_lt
  have hk' : k = 2 ^ 32 - 1 := by omega
  rw [hk'] at hr
  exact absurd hr (by decide)

theorem never_early_relative (w : Wait) (hkind : w.kind = .relative) : w.NeverEarly ↔
    ¬ w.Clamped := by
  have hnsec := w.nsec_lt
  have hreq : w.requested = w.now.uptime + w.sec * nsecPerSec + w.nsec := by simp [requested, hkind]
  unfold Clamped
  simp only [hkind]
  by_cases hpast : w.sec < 0 ∨ w.sec = 0 ∧ w.nsec = 0
  · have hle : w.requested ≤ w.now.uptime := by
      rw [hreq]
      simp only [nsecPerSec] at *
      omega
    refine iff_of_true (neverEarly_of_past hle) ?_
    rintro ⟨hlong | hlate, hlast⟩
    · unfold maxSec at hlong
      omega
    · have hup := uptime_lt hlast
      omega
  -- the seconds after the clamp
  obtain ⟨sec, hsec⟩ : ∃ sec : Nat, (sec : Int) = min w.sec maxSec := by
    refine ⟨(min w.sec maxSec).toNat, Int.toNat_of_nonneg ?_⟩
    omega
  have hmax : sec ≤ maxSec := by omega
  obtain ⟨hdue, hd⟩ := Deadline.due_set w.now hmax hnsec
  have harm : w.arm = .sleep ((Deadline.set w.now sec w.nsec).wakeTick w.now) := by
    have hwrap : (min w.sec maxSec % 2 ^ 32).toNat = sec := by
      unfold maxSec at *
      omega
    have hzero : ¬ (min w.sec maxSec = 0 ∧ w.nsec = 0) := by
      unfold maxSec at *
      omega
    simp only [arm, hkind, hwrap]
    rw [if_neg hzero]
  generalize Deadline.set w.now sec w.nsec = d at *
  have hlo : w.now.uptime < d.due := by
    simp only [maxSec, nsecPerSec] at *
    omega
  by_cases hlast : w.now.tick < 2 ^ 32 - 1
  · have hhi : d.due ≤ w.now.uptime + (maxSec + 1) * nsecPerSec := by
      simp only [maxSec, nsecPerSec] at *
      omega
    obtain ⟨-, hnear, hin, hout⟩ := Deadline.toTick_spec hd
    rw [neverEarly_sleep harm hd hlo hhi hlast, hreq]
    simp only [maxSec, nsecPerSec, tickNs] at *
    omega
  · have htick := w.now.tick_lt
    exact iff_of_true (neverEarly_last harm hd hlo (by omega)) fun h => hlast h.2

theorem neverEarly_timedOut (harm : w.arm = .timedOut) : w.NeverEarly ↔
    w.requested ≤ w.now.uptime := by
  refine ⟨fun hnever => hnever w.now ⟨le_refl _, ?_⟩, neverEarly_of_past⟩
  rw [harm]
  trivial

/-- An instant before boot has been reached, also where the subtraction of the epoch wraps. -/
theorem never_early_absolute (w : Wait) {realtime : Bool} (hkind : w.kind = .absolute realtime) :
    w.NeverEarly ↔ ¬ w.Clamped := by
  have hnsec := w.nsec_lt
  obtain ⟨sec, hsec⟩ : ∃ sec, w.sec - (if realtime then w.epoch else 0 : Nat) = sec := ⟨_, rfl⟩
  have hreq : w.requested = sec * nsecPerSec + w.nsec := by
    rw [← hsec]
    cases realtime <;> simp [requested, hkind]
  have hclamped : w.Clamped ↔ maxSec < sec ∧ w.now.uptime < w.requested := by
    rw [← hsec]
    cases realtime <;> simp [Clamped, hkind]
  rw [hclamped]
  by_cases hneg : sec < 0
  · have hle : w.requested ≤ w.now.uptime := by
      rw [hreq]
      simp only [nsecPerSec] at *
      omega
    exact iff_of_true (neverEarly_of_past hle) fun h => by omega
  have hwrap : (if realtime then (w.sec - w.epoch).bmod (2 ^ 64) else w.sec) = sec := by
    have hhi := w.sec_lt
    cases realtime with
    | false => simpa using hsec
    | true =>
      have hsec : w.sec - w.epoch = sec := by simpa using hsec
      rw [if_pos rfl, hsec]
      exact Int.bmod_eq_of_le (by omega) (by omega)
  set d : Deadline := ⟨min sec.toNat maxSec, w.nsec⟩
  have hd : d.nsec < nsecPerSec := hnsec
  have hdue : d.due = min sec.toNat maxSec * nsecPerSec + w.nsec := rfl
  have harm : w.arm = if d.expired w.now then .timedOut
      else .sleep (d.wakeTick w.now) := by
    simp only [arm, hkind, hwrap]
    rw [if_neg hneg]
  clear_value d
  have hexpired : d.expired w.now = true ↔ d.due ≤ w.now.uptime := Deadline.expired_iff hd
  by_cases hpast : d.expired w.now = true
  · have hle := hexpired.mp hpast
    rw [if_pos hpast] at harm
    rw [neverEarly_timedOut harm]
    simp only [maxSec, nsecPerSec] at *
    omega
  · rw [if_neg hpast] at harm
    have hlo : w.now.uptime < d.due := Nat.lt_of_not_le fun hle => hpast (hexpired.mpr hle)
    have hlast : w.now.tick < 2 ^ 32 - 1 := by
      simp only [Moment.uptime, maxSec, nsecPerSec, tickNs] at *
      omega
    have hhi : d.due ≤ w.now.uptime + (maxSec + 1) * nsecPerSec := by
      simp only [maxSec, nsecPerSec] at *
      omega
    obtain ⟨-, hnear, hin, -⟩ := Deadline.toTick_spec hd
    rw [neverEarly_sleep harm hd hlo hhi hlast]
    simp only [maxSec, nsecPerSec, tickNs] at *
    omega

/-- **A timeout never expires early**, unless a clamp cuts it short. -/
theorem never_early_iff (w : Wait) : w.NeverEarly ↔ ¬ w.Clamped := by
  cases hkind : w.kind with
  | relative => exact w.never_early_relative hkind
  | absolute realtime => exact w.never_early_absolute hkind

/-- A wait of 2000001 seconds, right after boot. -/
def longWait : Wait where
  kind := .relative
  sec := 2000001
  nsec := 0
  epoch := 0
  now := ⟨0, 0, by decide, tickNs_pos⟩
  sec_ge := by decide
  sec_lt := by decide
  nsec_lt := by simp [nsecPerSec]
  epoch_lt := by decide

/-- It is over a second early. -/
theorem long_wait_early : ∃ m, longWait.ExpiresAt m ∧ (m.uptime : Int) < longWait.requested := by
  refine ⟨⟨200000000, 0, by decide, tickNs_pos⟩,
    ⟨by decide +kernel, 200000000, by decide +kernel, by decide +kernel, ?_⟩, ?_⟩
  · decide +kernel
  · decide +kernel

end Wait

end MaeroOS.Futex
