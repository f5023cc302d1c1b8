import MaeroOS.Timer.Expiry

/-!
# What a pending timer is reported as

`alarm`, `getitimer`, `setitimer` and `timer_gettime` each turn the nanoseconds of `kt_read` into
their own unit, rounding down, and zero means that the timer is disarmed. `ns_to_tv` puts right what
it rounds to zero, and nanoseconds need no rounding. `sys_alarm` looks at whole microseconds only,
so that an alarm with less than one left, or due and not yet seen by the tick, is reported as none
(`reported_iff`).
-/

namespace MaeroOS.Timer

/-- `split_ns`: seconds and nanoseconds. -/
def splitNs (ns : Nat) : Nat × Nat := udivmod64 ns nsecPerSec

/-- `sec32`, for seconds that are not negative. -/
def sec32 (s : Nat) : Nat := if 0x7fffffff < s then 0x7fffffff else s

/-- `ns_to_tv`: seconds and microseconds. -/
def nsToTv (ns : Nat) : Nat × Nat :=
  let sec := sec32 (splitNs ns).1
  let usec := (splitNs ns).2 % 2 ^ 32 / 1000
  (sec, if ns ≠ 0 ∧ sec = 0 ∧ usec = 0 then 1 else usec)

/-- The `struct kts32` of a time. -/
def nsToTs (ns : Nat) : Nat × Nat := (sec32 (splitNs ns).1, (splitNs ns).2)

/-- The seconds that `sys_alarm` returns for the old remainder: rounded to the nearest second. -/
def alarmSeconds (oval : Nat) : Int :=
  let osec := (udivmod64 oval nsecPerSec).1 % 2 ^ 32
  let ous := (udivmod64 oval nsecPerSec).2 % 2 ^ 32 / 1000
  Int.bmod (if osec = 0 ∧ ous ≠ 0 ∨ 500000 ≤ ous then (osec + 1) % 2 ^ 32 else osec : Nat) (2 ^ 32)

namespace KtState

/-- The timer of a process, if it has one. -/
def timer (s : KtState) (tgid : Int) (kind : Kind) (id : Nat) : Option KTimer :=
  (s.ktFind tgid kind id).map fun i => (s.slots i).t

/-- What `sys_alarm` returns. -/
def alarmReturn (s : KtState) (tgid : Int) (secs mono : Nat) : Int :=
  if (s.sysAlarm tgid secs mono).1.1 < 0 then (s.sysAlarm tgid secs mono).1.1
  else alarmSeconds (s.sysAlarm tgid secs mono).1.2.1

/-- `sys_getitimer`: the value and the interval, to be copied out. -/
def sysGetitimer (s : KtState) (tgid which : Int) (mono : Nat) :
    Except Int ((Nat × Nat) × Nat × Nat) :=
  match itimerKind which with
  | none => .error (-22)
  | some kind =>
      .ok (nsToTv (ktRead mono (s.timer tgid kind 0)).1,
        nsToTv (ktRead mono (s.timer tgid kind 0)).2)

/-- The old value that `sys_setitimer` copies out. -/
def setitimerOld (s : KtState) (tgid which vsec vusec isec iusec : Int) (mono : Nat) : Nat × Nat :=
  nsToTv (s.sysSetitimer tgid which vsec vusec isec iusec mono).1.2.1

/-- `sys_timer_gettime`. -/
def sysTimerGettime (s : KtState) (tgid : Int) (id mono : Nat) :
    Except Int ((Nat × Nat) × Nat × Nat) :=
  match s.timer tgid .posix id with
  | none => .error (-22)
  | some t => .ok (nsToTs (ktRead mono (some t)).1, nsToTs (ktRead mono (some t)).2)

/-- The process has the timer, and it is armed. -/
def Armed (s : KtState) (tgid : Int) (kind : Kind) (id : Nat) : Prop :=
  ∃ t, s.timer tgid kind id = some t ∧ t.armed = true

/-- Every call that succeeds reports zero for a timer that is disarmed, and only for such a
timer. -/
structure Reported (s : KtState) (tgid : Int) (mono : Nat) : Prop where
  alarm : ∀ secs, (s.sysAlarm tgid secs mono).1.1 = 0 →
    (s.alarmReturn tgid secs mono ≠ 0 ↔ s.Armed tgid .real 0)
  getitimer : ∀ cv, s.sysGetitimer tgid 0 mono = .ok cv → (cv.1 ≠ (0, 0) ↔ s.Armed tgid .real 0)
  setitimer : ∀ vsec vusec isec iusec, (s.sysSetitimer tgid 0 vsec vusec isec iusec mono).1.1 = 0 →
    (s.setitimerOld tgid 0 vsec vusec isec iusec mono ≠ (0, 0) ↔ s.Armed tgid .real 0)
  gettime : ∀ id cv, s.sysTimerGettime tgid id mono = .ok cv →
    (cv.1 ≠ (0, 0) ↔ s.Armed tgid .posix id)

end KtState

/-! ## Rounding -/

section Rounding

variable {ns : Nat}

theorem splitNs_eq (h : ns < 2 ^ 64) : splitNs ns = (ns / nsecPerSec, ns % nsecPerSec) :=
  udivmod64_eq h (by decide) (by decide)

theorem nsToTv_ne (h : ns < 2 ^ 64) : nsToTv ns ≠ (0, 0) ↔ ns ≠ 0 := by
  unfold nsToTv sec32
  rw [splitNs_eq h, ne_eq, Prod.mk.injEq]
  unfold nsecPerSec
  grind

theorem nsToTs_ne (h : ns < 2 ^ 64) : nsToTs ns ≠ (0, 0) ↔ ns ≠ 0 := by
  unfold nsToTs sec32
  rw [splitNs_eq h, ne_eq, Prod.mk.injEq]
  unfold nsecPerSec
  split <;> omega

/-- `sys_alarm` sees a remainder of a microsecond or more, and less than what 32 bits of seconds
hold. -/
def AlarmSees (ns : Nat) : Prop :=
  1000 ≤ ns % (2 ^ 32 * nsecPerSec) ∧ ns % (2 ^ 32 * nsecPerSec) <
    2 ^ 32 * nsecPerSec - nsecPerSec / 2

theorem alarmSeconds_ne (h : ns < 2 ^ 64) : alarmSeconds ns ≠ 0 ↔ AlarmSees ns := by
  have hbmod : ∀ n : Nat, n < 2 ^ 32 → (Int.bmod n (2 ^ 32) ≠ 0 ↔ n ≠ 0) := by
    intro n hn
    rw [Int.bmod_def]
    split <;> omega
  unfold alarmSeconds AlarmSees
  rw [hbmod _ (by split <;> omega), udivmod64_eq h (by decide) (by decide)]
  unfold nsecPerSec
  split <;> omega

end Rounding

/-! ## The calls -/

namespace KtState

variable {s : KtState} {tgid : Int} {kind : Kind} {id mono : Nat}

/-- What is left of a timer. -/
def left (s : KtState) (tgid : Int) (kind : Kind) (id mono : Nat) : Nat :=
  (ktRead mono (s.timer tgid kind id)).1

/-- `kt_read` leaves nothing exactly for a timer that is not armed: one that is due has a nanosecond
left. -/
theorem left_spec (h : ∀ i, (s.slots i).t.deadline < 2 ^ 64)
    (hkind : kind = .real ∨ kind = .posix) :
    s.left tgid kind id mono < 2 ^ 64 ∧ (s.left tgid kind id mono ≠ 0 ↔ s.Armed tgid kind id) := by
  unfold left Armed
  cases ht : s.timer tgid kind id with
  | none => simp [ktRead]
  | some t =>
    obtain ⟨i, hi, rfl⟩ := Option.map_eq_some_iff.mp ht
    have hfound := List.find?_some hi
    unfold ktRead
    grind

/-- What `itimer_set` found is what `kt_read` tells. -/
theorem itimerSet_old {value interval : Nat}
    (h : (s.itimerSet tgid kind value interval mono).1.1 = 0) :
    (s.itimerSet tgid kind value interval mono).1.2.1 = s.left tgid kind 0 mono := by
  revert h
  unfold itimerSet left timer
  cases hf : s.ktFind tgid kind 0 with
  | some i => exact fun _ => rfl
  | none =>
    dsimp only
    split
    · exact fun _ => rfl
    · cases s.ktAlloc with
      | none => nofun
      | some r => exact fun _ => rfl

theorem setitimerOld_eq {vsec vusec isec iusec : Int}
    (h : (s.sysSetitimer tgid 0 vsec vusec isec iusec mono).1.1 = 0) :
    s.setitimerOld tgid 0 vsec vusec isec iusec mono = nsToTv (s.left tgid .real 0 mono) := by
  revert h
  unfold setitimerOld sysSetitimer
  rw [show itimerKind 0 = some .real from rfl]
  cases tvToNs vsec vusec with
  | none => nofun
  | some value =>
    cases tvToNs isec iusec with
    | none => nofun
    | some interval => exact fun h => congrArg nsToTv (itimerSet_old h)

/-- **A pending timer is reported as pending and a disarmed one as disarmed, exactly if `alarm` sees
what is left of the process's alarm.** -/
theorem reported_iff (h : ∀ i, (s.slots i).t.deadline < 2 ^ 64) :
    s.Reported tgid mono ↔ (s.Armed tgid .real 0 → AlarmSees (s.left tgid .real 0 mono)) := by
  obtain ⟨hlt, hreal⟩ : s.left tgid .real 0 mono < 2 ^ 64 ∧ _ := left_spec h (.inl rfl)
  have halarm : ∀ secs, (s.sysAlarm tgid secs mono).1.1 = 0 →
      (s.alarmReturn tgid secs mono ≠ 0 ↔ AlarmSees (s.left tgid .real 0 mono)) := by
    intro secs hok
    rw [alarmReturn, hok, if_neg (by decide), ← alarmSeconds_ne hlt, sysAlarm, itimerSet_old hok]
  constructor
  · intro hr harmed
    -- `alarm(0)` does not fail, whatever is set
    have h0 : (s.sysAlarm tgid 0 mono).1.1 = 0 := by
      unfold sysAlarm itimerSet
      cases s.ktFind tgid .real 0 <;> rfl
    exact (halarm 0 h0).mp ((hr.alarm 0 h0).mpr harmed)
  · intro hsees
    refine ⟨fun secs hok => ?_, ?_, fun vsec vusec isec iusec hok => ?_, fun id cv hcv => ?_⟩
    · rw [halarm secs hok]
      refine ⟨fun hs => hreal.mp fun h0 => ?_, hsees⟩
      rw [h0] at hs
      exact absurd hs.1 (by decide)
    · rintro cv ⟨⟩
      exact (nsToTv_ne hlt).trans hreal
    · rw [setitimerOld_eq hok]
      exact (nsToTv_ne hlt).trans hreal
    · obtain ⟨hlt, hposix⟩ : s.left tgid .posix id mono < 2 ^ 64 ∧ _ := left_spec h (.inr rfl)
      rw [← nsToTs_ne hlt] at hposix
      revert hcv
      unfold sysTimerGettime
      unfold left at hposix
      cases ht : s.timer tgid .posix id with
      | none => nofun
      | some t =>
        rintro ⟨⟩
        rwa [ht] at hposix

/-- Process 1 has an alarm at the given time. -/
def alarmAt (deadline : Nat) : KtState where
  slots i :=
    ⟨{ blank.t with used := i == 0, tgid := 1, armed := true, deadline := deadline }, blank.h⟩
  used := 1
  log := []

/-- With two seconds left it is pending for everyone. -/
theorem alarm_two_seconds :
    (alarmAt 2000000500).Armed 1 .real 0 ∧ (alarmAt 2000000500).Reported 1 500 := by
  refine ⟨⟨_, rfl, rfl⟩, (reported_iff fun _ => show 2000000500 < 2 ^ 64 by decide).mpr fun _ => ?_⟩
  rw [show (alarmAt 2000000500).left 1 .real 0 500 = 2000000000 from rfl]
  unfold AlarmSees nsecPerSec
  omega

/-- An alarm that is due and that no tick has seen yet: `alarm` returns 0 and takes it away. -/
theorem due_alarm_missed : (alarmAt 500).Armed 1 .real 0 ∧ (alarmAt 500).alarmReturn 1 0 500 = 0 ∧
    ¬ (alarmAt 500).Reported 1 500 := by
  have harmed : (alarmAt 500).Armed 1 .real 0 := ⟨_, rfl, rfl⟩
  have hzero : (alarmAt 500).alarmReturn 1 0 500 = 0 := by decide
  exact ⟨harmed, hzero, fun h => (h.alarm 0 rfl).mpr harmed hzero⟩

end KtState

end MaeroOS.Timer
