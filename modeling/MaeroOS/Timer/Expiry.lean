import MaeroOS.Timer.Basic
import Mathlib.Tactic.Ring

/-!
# Wall-clock timers keep time

An expiry is never early, keeps the phase of the timer and leaves the next deadline in the future
(`Expiry.Ok`). None is missed: after a tick no timer is due (`Slot.Ahead`). For a POSIX timer that
sends a signal to its process, every boundary of the interval that has been passed is a signal sent
or an overrun counted (`TimersOk.conserved`): overruns are added by an expiry that finds the signal
still pending and for periods missed entirely, and handed over when the signal is found to be
delivered.

`Track` is the invariant of one timer. Its deadline is the first one plus as many intervals as
boundaries have been passed, unless this is beyond `KT_NS_MAX`, where the timer never expires.
-/

namespace MaeroOS.Timer

open Lib (Run)

/-! ## Arithmetic -/

section Arithmetic

variable {n d : Nat}

/-- The next bit of the dividend, below the remainder. -/
theorem shift_bit {r i : Nat} : (r <<< 1) ||| ((n >>> i) &&& 1) = 2 * r + n / 2 ^ i % 2 := by
  have hor := Nat.two_pow_add_eq_or_of_lt (i := 1) (b := n / 2 ^ i % 2) (Nat.mod_lt _ (by decide)) r
  rw [Nat.shiftLeft_eq, Nat.shiftRight_eq_div_pow, Nat.and_one_is_mod, Nat.mul_comm r]
  exact hor.symm

/-- The loop divides: the remainder stands in front of the bits that are left. -/
theorem udivLoop_eq (hd : 0 < d) (hd63 : d < 2 ^ 63) : ∀ {i q r : Nat}, r < d → 2 ^ i ∣ q →
    udivLoop n d i q r = (q + (r * 2 ^ i + n % 2 ^ i) / d, (r * 2 ^ i + n % 2 ^ i) % d) := by
  intro i
  induction i with
  | zero =>
    intro q r hr _
    simp [udivLoop, Nat.mod_one, Nat.div_eq_of_lt hr, Nat.mod_eq_of_lt hr]
  | succ i ih =>
    intro q r hr hq
    have hsplit : r * 2 ^ (i + 1) + n % 2 ^ (i + 1) =
        (2 * r + n / 2 ^ i % 2) * 2 ^ i + n % 2 ^ i := by
      rw [Nat.mod_pow_succ]
      ring
    have hq' : 2 ^ i ∣ q := (Nat.pow_dvd_pow 2 (Nat.le_succ i)).trans hq
    unfold udivLoop
    rw [shift_bit, Nat.mod_eq_of_lt (show 2 * r + n / 2 ^ i % 2 < 2 ^ 64 by omega), hsplit]
    split
    · next hge =>
      -- the divisor fits once
      obtain ⟨a, rfl⟩ := hq
      have hor : 2 ^ (i + 1) * a ||| (1 <<< i) = 2 ^ (i + 1) * a + 2 ^ i := by
        rw [Nat.one_shiftLeft]
        exact (Nat.two_pow_add_eq_or_of_lt (Nat.pow_lt_pow_succ (by decide)) a).symm
      rw [hor, ih (by omega) (Nat.dvd_add hq' (Nat.dvd_refl _))]
      have hfit : (2 * r + n / 2 ^ i % 2) * 2 ^ i + n % 2 ^ i =
          (2 * r + n / 2 ^ i % 2 - d) * 2 ^ i + n % 2 ^ i + d * 2 ^ i := by
        rw [Nat.sub_mul]
        have := Nat.mul_le_mul_right (2 ^ i) hge
        omega
      rw [hfit, Nat.add_mul_div_left _ _ hd, Nat.add_mul_mod_self_left]
      congr 1
      omega
    · next hlt => rw [ih (by omega) hq']

/-- **`udivmod64` divides.** -/
theorem udivmod64_eq (hn : n < 2 ^ 64) (hd : 0 < d) (hd63 : d < 2 ^ 63) :
    udivmod64 n d = (n / d, n % d) := by
  unfold udivmod64
  rw [if_neg hd.ne']
  split
  · next h =>
    rw [Nat.shiftRight_eq_div_pow, Nat.shiftRight_eq_div_pow] at h
    rw [Nat.mod_eq_of_lt (show n < 2 ^ 32 by omega), Nat.mod_eq_of_lt (show d < 2 ^ 32 by omega)]
  · rw [udivLoop_eq hd hd63 hd (Nat.dvd_zero _), Nat.mod_eq_of_lt hn]
    simp

end Arithmetic

/-! ## The next deadline -/

section NextDeadline

variable {mono deadline interval : Nat}

theorem missed_eq (hmono : mono < ktNsMax) (hi : 0 < interval) (hi' : interval ≤ ktNsMax)
    (dl : Nat) : Slot.missed mono dl interval = (mono - dl) / interval + 1 := by
  unfold ktNsMax at hmono hi'
  rw [Slot.missed, udivmod64_eq (by omega) hi (by omega)]

theorem nsAdd_of_lt (h : deadline + interval < ktNsMax) :
    nsAdd deadline interval = deadline + interval :=
  if_neg (by omega)

theorem nsAdd_of_le (h : ktNsMax ≤ deadline + interval) : nsAdd deadline interval = ktNsMax :=
  if_pos (by omega)

/-- Beyond `KT_NS_MAX` the deadline saturates; nothing is missed. -/
theorem nextDeadline_saturated (hmono : mono < ktNsMax) (h : ktNsMax ≤ deadline + interval) :
    Slot.nextDeadline mono deadline interval = ktNsMax ∧
      Slot.boundaries mono deadline interval = 1 := by
  rw [Slot.nextDeadline, Slot.boundaries, nsAdd_of_le h, if_neg (by omega), if_neg (by omega)]
  exact ⟨rfl, rfl⟩

/-- Otherwise as many intervals pass as it takes to be behind the clock, and no more. -/
theorem nextDeadline_eq (hmono : mono < ktNsMax) (hi : 0 < interval)
    (h : deadline + interval < ktNsMax) : Slot.nextDeadline mono deadline interval =
        deadline + Slot.boundaries mono deadline interval * interval ∧
      mono < Slot.nextDeadline mono deadline interval ∧ 0 < Slot.boundaries mono deadline interval ∧
      (deadline ≤ mono → deadline + (Slot.boundaries mono deadline interval - 1) * interval ≤
        mono) := by
  rw [Slot.nextDeadline, Slot.boundaries, nsAdd_of_lt h]
  split
  · next hle =>
    rw [missed_eq hmono hi (by omega)]
    have hdiv := Nat.div_add_mod (mono - (deadline + interval)) interval
    have hmod := Nat.mod_lt (mono - (deadline + interval)) hi
    rw [Nat.mul_comm] at hdiv
    generalize (mono - (deadline + interval)) / interval = q at hdiv
    have hq1 : (q + 1) * interval = q * interval + interval := by ring
    have hq2 : (1 + (q + 1)) * interval = q * interval + interval + interval := by ring
    unfold ktNsMax at hmono h
    rw [Nat.mod_eq_of_lt (by omega), hq1, hq2, Nat.add_sub_cancel_left, hq1]
    omega
  · omega

/-- The next deadline is behind the clock. -/
theorem lt_nextDeadline (hmono : mono < ktNsMax) (hi : 0 < interval) :
    mono < Slot.nextDeadline mono deadline interval := by
  rcases lt_or_ge (deadline + interval) ktNsMax with hlt | hge
  · exact (nextDeadline_eq hmono hi hlt).2.1
  · rw [(nextDeadline_saturated hmono hge).1]
    exact hmono

/-- The overruns of a POSIX timer grow by the periods missed. -/
theorem missedOverrun_eq {t : KTimer} (ht : t.kind = .posix) :
    (Slot.missedOverrun mono t + 1) % 2 ^ 32 =
      (t.overrun + Slot.boundaries mono t.deadline t.interval) % 2 ^ 32 := by
  rw [Slot.missedOverrun, Slot.boundaries]
  split
  · next h =>
    rw [if_pos h.2]
    omega
  · next h => rw [if_neg fun hle => h ⟨ht, hle⟩]

end NextDeadline

/-! ## One timer -/

/-- A timer that runs off the clock. -/
def KTimer.Wall (t : KTimer) : Prop := t.kind = .real ∨ t.kind = .posix

/-- A POSIX timer that sends a signal to its process. -/
def KTimer.Signals (t : KTimer) : Prop := t.kind = .posix ∧ t.notify = .signal

variable {a b now value : Nat}

namespace Slot

variable {x y : Slot} {env : Env}

/-- Where a wall-clock timer is: its deadline, the time of its last expiry, and what it has
counted. -/
structure Track (x : Slot) : Prop where
  interval_le : x.t.interval ≤ ktNsMax
  deadline : x.t.armed = true → x.t.deadline = x.h.first + x.h.passed * x.t.interval ∨
    ktNsMax ≤ x.h.first + x.h.passed * x.t.interval ∧ ktNsMax ≤ x.t.deadline
  fresh : x.h.last = none → x.h.passed = 0
  last : ∀ m, x.h.last = some m → 0 < x.h.passed ∧ x.h.first + (x.h.passed - 1) * x.t.interval ≤ m ∧
    (x.t.interval ≠ 0 → m < x.h.first + x.h.passed * x.t.interval) ∧
    (x.t.interval = 0 → x.h.passed = 1 ∧ x.t.armed = false)
  counted : x.t.Signals → (x.h.sent + x.h.handed + x.t.overrun) % 2 ^ 32 = x.h.passed % 2 ^ 32

/-- The timer is where it was; only its signal and its overruns may have changed. -/
structure SameCourse (x y : Slot) : Prop where
  used : y.t.used = x.t.used
  kind : y.t.kind = x.t.kind
  notify : y.t.notify = x.t.notify
  armed : y.t.armed = x.t.armed
  deadline : y.t.deadline = x.t.deadline
  interval : y.t.interval = x.t.interval
  first : y.h.first = x.h.first
  passed : y.h.passed = x.h.passed
  last : y.h.last = x.h.last

/-- What the timer has counted. -/
def count (x : Slot) : Nat := x.h.sent + x.h.handed + x.t.overrun

theorem ktSyncOverrun_course : SameCourse x (x.ktSyncOverrun env) := by
  unfold ktSyncOverrun
  split <;> constructor <;> rfl

/-- Handing overruns over loses none. -/
theorem count_ktSyncOverrun : (x.ktSyncOverrun env).count = x.count := by
  unfold ktSyncOverrun
  split
  · rfl
  · simp only [count]
    omega

theorem firePosix_course : SameCourse x (x.firePosix env) := by
  have h : SameCourse x (x.ktSyncOverrun env) := ktSyncOverrun_course
  unfold firePosix
  split <;> exact { h with }

/-- An expiry is a signal or an overrun. -/
theorem count_firePosix : (x.firePosix env).count % 2 ^ 32 = (x.count + 1) % 2 ^ 32 := by
  have hsync : (x.ktSyncOverrun env).count = x.count := count_ktSyncOverrun
  rw [← hsync]
  unfold firePosix
  split
  · simp only [count, setTimer]
    omega
  · simp only [count, setTimer, send]
    omega

theorem ktFire_course : SameCourse x (x.ktFire env).2 := by
  unfold ktFire
  split
  · constructor <;> rfl
  split
  · split
    · exact firePosix_course
    · constructor <;> rfl
  · split
    · constructor <;> rfl
    split
    · exact firePosix_course
    · constructor <;> rfl

theorem used_afterFire (x : Slot) (now mono : Nat) : (x.afterFire now mono).t.used = x.t.used := by
  unfold afterFire
  split <;> rfl

/-- The deadline of a periodic timer after an expiry. -/
theorem deadline_afterFire (hi : x.t.interval ≠ 0) :
    ((x.ktFire env).2.afterFire now env.mono).t.deadline =
    nextDeadline env.mono x.t.deadline x.t.interval := by
  have hc : SameCourse x (x.ktFire env).2 := ktFire_course
  rw [afterFire, if_neg (hc.interval ▸ hi), reload, hc.deadline, hc.interval]

theorem setDeadline_same (x : Slot) (dl : Nat) :
    (x.setTimer { x.t with deadline := dl }).t.used = x.t.used ∧
    (x.setTimer { x.t with deadline := dl }).t.kind = x.t.kind :=
  ⟨rfl, rfl⟩

theorem reloadCpu_same (x : Slot) :
    x.reloadCpu.t.used = x.t.used ∧ x.reloadCpu.t.kind = x.t.kind := by
  unfold reloadCpu
  split <;> exact ⟨rfl, rfl⟩

theorem count_ktFire (hx : x.t.Signals) (hfire : (x.ktFire env).1 = true) :
    (x.ktFire env).2.count % 2 ^ 32 = (x.count + 1) % 2 ^ 32 := by
  obtain ⟨hkind, hnotify⟩ := hx
  unfold ktFire at hfire ⊢
  rw [if_neg (by simp [hnotify]), if_neg (by simp [hnotify])] at hfire ⊢
  split at hfire
  · cases hfire
  next hmember =>
  rw [if_neg hmember, if_pos hkind]
  exact count_firePosix

theorem Track.sync (h : Track x) : Track (x.ktSyncOverrun env) := by
  have hc : SameCourse x (x.ktSyncOverrun env) := ktSyncOverrun_course
  have hcount : (x.ktSyncOverrun env).count = x.count := count_ktSyncOverrun
  refine ⟨hc.interval ▸ h.interval_le, ?_, ?_, ?_, fun hs => ?_⟩
  · rw [hc.armed, hc.deadline, hc.first, hc.passed, hc.interval]
    exact h.deadline
  · rw [hc.last, hc.passed]
    exact h.fresh
  · rw [hc.last, hc.first, hc.passed, hc.interval, hc.armed]
    exact h.last
  · show (x.ktSyncOverrun env).count % 2 ^ 32 = _
    rw [hcount, hc.passed]
    exact h.counted ⟨hc.kind ▸ hs.1, hc.notify ▸ hs.2⟩

/-- **An expiry keeps the timer on its course**: it is due, so its deadline is exact, and every
boundary up to the clock is counted once. -/
theorem Track.expire (h : Track x) (harmed : x.t.armed = true)
    (hdue : x.t.deadline ≤ tickNs now) (hclock : tickNs now ≤ env.mono) (hmono : env.mono < ktNsMax)
    (hfire : (x.ktFire env).1 = true) : Track ((x.ktFire env).2.afterFire now env.mono) := by
  have hc : SameCourse x (x.ktFire env).2 := ktFire_course
  have hexact : x.t.deadline = x.h.first + x.h.passed * x.t.interval := by
    rcases h.deadline harmed with h | h
    · exact h
    · omega
  have hcount : (x.ktFire env).2.t.Signals →
      (x.ktFire env).2.count % 2 ^ 32 = (x.h.passed + 1) % 2 ^ 32 := by
    intro hs
    have hs' : x.t.Signals := ⟨hc.kind ▸ hs.1, hc.notify ▸ hs.2⟩
    have hold : x.count % 2 ^ 32 = x.h.passed % 2 ^ 32 := h.counted hs'
    rw [count_ktFire hs' hfire]
    omega
  generalize (x.ktFire env).2 = y at hc hcount
  unfold afterFire
  split
  · next hzero =>
    -- a timer without interval expires once
    have hi : x.t.interval = 0 := hc.interval ▸ hzero
    have hlast : x.h.last = none := by
      cases hl : x.h.last with
      | none => rfl
      | some m =>
        have := ((h.last m hl).2.2.2 hi).2
        rw [harmed] at this
        cases this
    have hpassed : y.h.passed = 0 := hc.passed.trans (h.fresh hlast)
    refine ⟨hc.interval ▸ h.interval_le, nofun, nofun, ?_, fun hs => ?_⟩
    · intro m hm
      cases hm
      have hfirst := hexact
      rw [hi, ← hc.first] at hfirst
      simp only [finish, hpassed, hzero]
      exact ⟨Nat.succ_pos _, by omega, fun h => absurd rfl h, fun _ => by simp⟩
    · have := hcount hs
      simp only [count, finish] at this ⊢
      rw [this, hpassed, ← hc.passed, hpassed]
  · next hne =>
    have hi : 0 < x.t.interval := Nat.pos_of_ne_zero (hc.interval ▸ hne)
    have hmul : ∀ k, (x.h.passed + k) * x.t.interval = x.h.passed * x.t.interval + k *
        x.t.interval :=
      fun k => Nat.add_mul ..
    refine ⟨hc.interval ▸ h.interval_le, fun _ => ?_, nofun, ?_, fun hs => ?_⟩
    · simp only [reload, hc.deadline, hc.interval, hc.first, hc.passed]
      rw [hmul]
      rcases lt_or_ge (x.t.deadline + x.t.interval) ktNsMax with hlt | hge
      · have := (nextDeadline_eq hmono hi hlt).1
        omega
      · obtain ⟨hn, hb⟩ := nextDeadline_saturated hmono hge
        rw [hn, hb]
        omega
    · intro m hm
      cases hm
      simp only [reload, hc.deadline, hc.interval, hc.first, hc.passed]
      rcases lt_or_ge (x.t.deadline + x.t.interval) ktNsMax with hlt | hge
      · obtain ⟨hn, hgt, hpos, hle⟩ := nextDeadline_eq hmono hi hlt
        rw [Nat.add_sub_assoc (show 1 ≤ _ from hpos), hmul, hmul]
        omega
      · rw [(nextDeadline_saturated hmono hge).2, hmul, Nat.add_sub_cancel]
        omega
    · have := hcount hs
      have hover : (missedOverrun env.mono y.t + 1) % 2 ^ 32 = _ := missedOverrun_eq hs.1
      simp only [count, reload, hc.deadline, hc.interval, hc.passed] at this hover ⊢
      omega

end Slot

/-! ## The table -/

/-- What an expiry is: never early, and for a periodic timer the next deadline is a number of
intervals later and behind the clock, or `KT_NS_MAX` if the interval leads there. -/
structure Expiry.Ok (e : Expiry) : Prop where
  due : e.deadline ≤ e.start
  ahead : e.interval ≠ 0 → e.clock < e.next
  phase : e.interval ≠ 0 → e.deadline + e.interval < ktNsMax →
    ∃ k, 0 < k ∧ e.next = e.deadline + k * e.interval
  saturated : e.interval ≠ 0 → ktNsMax ≤ e.deadline + e.interval → e.next = ktNsMax

/-- Every wall-clock timer is on its course, every expiry was as it should be, and `ktimers_used` is
the number of timers in use. -/
structure KtInv (s : KtState) : Prop where
  track : ∀ i, (s.slots i).t.used = true → (s.slots i).t.Wall → (s.slots i).Track
  log : ∀ e ∈ s.log, e.Ok
  live : ∃ l : List Nat, l.Nodup ∧ l.length = s.used ∧ ∀ i, i ∈ l ↔ (s.slots i).t.used = true

theorem KtState.slots_setSlot (s : KtState) (i j : Nat) (x : Slot) :
    (s.setSlot i x).slots j = if j = i then x else s.slots j :=
  Function.update_apply ..

namespace KtInv

variable {s : KtState} {i : Nat} {x : Slot} {env : Env}

variable (h : KtInv s)

include h

theorem track_setSlot (hx : x.t.used = true → x.t.Wall → x.Track) (j : Nat) :
    ((s.setSlot i x).slots j).t.used = true → ((s.setSlot i x).slots j).t.Wall →
      ((s.setSlot i x).slots j).Track := by
  rw [KtState.slots_setSlot]
  split
  · exact hx
  · exact h.track j

theorem setSlot (hu : x.t.used = (s.slots i).t.used) (hx : x.t.used = true → x.t.Wall → x.Track) :
    KtInv (s.setSlot i x) := by
  obtain ⟨l, hl, hlen, hmem⟩ := h.live
  refine ⟨h.track_setSlot hx, h.log, l, hl, hlen, fun j => ?_⟩
  rw [hmem, KtState.slots_setSlot]
  split
  · next hj => rw [hu, hj]
  · rfl

/-- The timer goes out of use. -/
theorem release (hu : (s.slots i).t.used = true) (hx : x.t.used = false) :
    KtInv { s.setSlot i x with used := s.used - 1 } := by
  obtain ⟨l, hl, hlen, hmem⟩ := h.live
  refine ⟨h.track_setSlot (x := x) (by simp [hx]), h.log, l.erase i, hl.erase i, ?_, fun j => ?_⟩
  · rw [List.length_erase_of_mem ((hmem i).mpr hu), hlen]
  · show _ ↔ ((s.setSlot i x).slots j).t.used = true
    rw [hl.mem_erase_iff, hmem, KtState.slots_setSlot]
    split
    · next hj => simp [hj, hx]
    · next hj => simp [hj]

theorem ktFree : KtInv (s.ktFree i) := by
  unfold KtState.ktFree
  split
  · next hu => exact h.release hu rfl
  · exact h

/-- A timer that is freed may be in any state. -/
theorem drop (hu : x.t.used = (s.slots i).t.used) : KtInv ((s.setSlot i x).ktFree i) := by
  unfold KtState.ktFree
  have hself : (s.setSlot i x).slots i = x := Function.update_self ..
  rw [hself]
  split
  · next hused =>
    have hset : ∀ y, (s.setSlot i x).setSlot i y = s.setSlot i y := fun y => by
      simp [KtState.setSlot]
    rw [hset]
    exact h.release (hu ▸ hused) rfl
  · next hused => exact h.setSlot hu fun hused' => absurd hused' hused

theorem expire (hused : (s.slots i).t.used = true) (harmed : (s.slots i).t.armed = true)
    (hwall : (s.slots i).t.Wall) (hdue : (s.slots i).t.deadline ≤ tickNs now)
    (hclock : tickNs now ≤ env.mono) (hmono : env.mono < ktNsMax) : KtInv (s.expire now env i) := by
  have ht := h.track i hused hwall
  unfold KtState.expire
  split
  · next hfire =>
    have hc : Slot.SameCourse (s.slots i) ((s.slots i).ktFire env).2 := Slot.ktFire_course
    have hset :=
      h.setSlot ((Slot.used_afterFire ..).trans hc.used) fun _ _ =>
        ht.expire harmed hdue hclock hmono hfire
    refine ⟨hset.track, List.forall_mem_cons.mpr ⟨?_, h.log⟩, hset.live⟩
    -- the deadline of a periodic timer after the expiry
    have hnext (hi : (s.slots i).t.interval ≠ 0) :
        (((s.slots i).ktFire env).2.afterFire now env.mono).t.deadline =
          Slot.nextDeadline env.mono (s.slots i).t.deadline (s.slots i).t.interval :=
        Slot.deadline_afterFire hi
    refine ⟨hdue, fun hi => ?_, fun hi hlt => ?_, fun hi hge => ?_⟩
    · exact (lt_nextDeadline hmono (Nat.pos_of_ne_zero hi)).trans_eq (hnext hi).symm
    · obtain ⟨heq, -, hpos, -⟩ := nextDeadline_eq hmono (Nat.pos_of_ne_zero hi) hlt
      exact ⟨_, hpos, (hnext hi).trans heq⟩
    · exact (hnext hi).trans (nextDeadline_saturated hmono hge).1
  · -- the process is gone, and with it the timer
    exact h.drop Slot.ktFire_course.used

theorem charge (hcpu : ¬ (s.slots i).t.Wall) : KtInv (s.charge env i) := by
  have hc : Slot.SameCourse (s.slots i) ((s.slots i).ktFire env).2 := Slot.ktFire_course
  unfold KtState.charge
  split
  · obtain ⟨hused, hkind⟩ := (s.slots i).setDeadline_same ((s.slots i).t.deadline - tickLength)
    refine h.setSlot hused fun _ hw => absurd ?_ hcpu
    rwa [KTimer.Wall, hkind] at hw
  split
  · obtain ⟨hused, hkind⟩ := ((s.slots i).ktFire env).2.reloadCpu_same
    refine h.setSlot (hused.trans hc.used) fun _ hw => absurd ?_ hcpu
    rwa [KTimer.Wall, hkind, hc.kind] at hw
  · exact h.drop hc.used

theorem tickSlot {k : KtState.Tick} (hclock : tickNs k.now ≤ env.mono)
    (hmono : env.mono < ktNsMax) : KtInv (s.tickSlot k env i) := by
  unfold KtState.tickSlot
  split
  · exact h
  next hon =>
  have hused : (s.slots i).t.used = true := by simpa using fun hu => hon (.inl hu)
  have harmed : (s.slots i).t.armed = true := by simpa using fun hu => hon (.inr hu)
  split
  · next hwall =>
    split
    · exact h
    · next hdue => exact h.expire hused harmed hwall (by omega) hclock hmono
  · next hcpu =>
    split
    · exact h
    split
    · exact h
    · exact h.charge hcpu

/-- What each slot of a pass over the table keeps, the pass keeps. -/
theorem foldl {f : KtState → Nat → KtState} (hf : ∀ s i, KtInv s → KtInv (f s i))
    (l : List Nat) : KtInv (l.foldl f s) := by
  induction l generalizing s with
  | nil => exact h
  | cons i l ih => exact ih (hf s i h)

theorem freeAll {p : KTimer → Bool} : KtInv (s.freeAll p) := by
  refine h.foldl (fun s i hs => ?_) _
  split
  · exact hs.ktFree
  · exact hs

/-! ### Setting -/

omit h in
theorem nsAdd_le : nsAdd a b ≤ ktNsMax := by
  unfold nsAdd
  split <;> omega

omit h in
theorem nsOf_le : nsOf a b ≤ ktNsMax := by
  unfold nsOf
  split
  · exact le_rfl
  · exact nsAdd_le

theorem itimerArm {which : Kind} (hi : interval ≤ ktNsMax) :
    KtInv (s.itimerArm i which value interval mono) :=
  h.setSlot rfl fun _ _ =>
    ⟨hi, fun _ => .inl (by simp [KtState.arm]), fun _ => rfl, nofun, fun _ => rfl⟩

theorem ktAlloc {s' : KtState} (hs : s.ktAlloc = some (i, s')) :
    KtInv s' ∧ s'.slots i = KtState.blank := by
  obtain ⟨j, hfind, hj⟩ := Option.map_eq_some_iff.mp hs
  cases hj
  obtain ⟨l, hl, hlen, hmem⟩ := h.live
  have hnot : i ∉ l := by simpa [hmem] using List.find?_some hfind
  refine ⟨⟨h.track_setSlot fun _ _ => ?_, h.log, i :: l,
    List.nodup_cons.mpr ⟨hnot, hl⟩, by simp [hlen], fun j => ?_⟩, Function.update_self ..⟩
  · exact ⟨Nat.zero_le _, nofun, fun _ => rfl, nofun, fun _ => rfl⟩
  · show _ ↔ ((s.setSlot i KtState.blank).slots j).t.used = true
    rw [List.mem_cons, hmem, KtState.slots_setSlot]
    split
    · next hj => simp [hj, KtState.blank]
    · next hj => simp [hj]

theorem itimerSet {tgid : Int} {which : Kind}
    (hi : interval ≤ ktNsMax) : KtInv (s.itimerSet tgid which value interval mono).2 := by
  unfold KtState.itimerSet
  split
  · dsimp only
    split
    · exact h.ktFree
    · exact h.itimerArm hi
  · split
    · exact h
    split
    · exact h
    next i s' hs =>
    obtain ⟨h', hblank⟩ := h.ktAlloc hs
    refine KtInv.itimerArm (h'.setSlot (by rfl) fun _ _ => ?_) hi
    rw [hblank]
    exact ⟨Nat.zero_le _, nofun, fun _ => rfl, nofun, fun _ => rfl⟩

theorem sysSetitimer {tgid which vsec vusec isec iusec : Int} :
    KtInv (s.sysSetitimer tgid which vsec vusec isec iusec mono).2 := by
  unfold KtState.sysSetitimer
  split
  · next hint =>
    apply h.itimerSet
    unfold KtState.tvToNs at hint
    split at hint
    · cases hint
    · cases hint
      exact nsOf_le
  · exact h

theorem sysTimerCreate {tgid clock notify signo tid : Int} {stored : Bool} :
    KtInv (s.sysTimerCreate env tgid clock notify signo tid stored).2 := by
  unfold KtState.sysTimerCreate
  split
  · split
    · exact h
    split
    · exact h
    next i s' hs =>
    obtain ⟨h', hblank⟩ := h.ktAlloc hs
    split
    · refine h'.setSlot rfl fun _ _ => ?_
      rw [hblank]
      exact ⟨Nat.zero_le _, nofun, fun _ => rfl, nofun, fun _ => rfl⟩
    · exact h'.ktFree
  · exact h

theorem timerSettimeNs {tgid vs vn is «in» : Int} {id mono epoch : Nat} {abstime : Bool} :
    KtInv (s.timerSettimeNs tgid id abstime vs vn is «in» mono epoch).2 := by
  unfold KtState.timerSettimeNs
  split
  · exact h
  split
  · exact h
  split
  · exact h.setSlot rfl fun _ _ => ⟨Nat.zero_le _, nofun, fun _ => rfl, nofun, fun _ => rfl⟩
  refine h.setSlot rfl fun _ _ => ?_
  exact ⟨nsOf_le, fun _ => .inl (by simp [KtState.arm, Slot.setTimer]), fun _ => rfl, nofun,
    fun _ => rfl⟩

theorem sysTimerGetoverrun {tgid : Int} {id : Nat} :
    KtInv (s.sysTimerGetoverrun env tgid id).2 := by
  unfold KtState.sysTimerGetoverrun
  split
  · exact h
  next i _ =>
  have hc : Slot.SameCourse (s.slots i) ((s.slots i).ktSyncOverrun env) := Slot.ktSyncOverrun_course
  exact h.setSlot hc.used fun hu hw =>
    (h.track i (hc.used ▸ hu) (by rwa [KTimer.Wall, hc.kind] at hw)).sync

end KtInv

/-- **Every event keeps the timers on their course.** -/
theorem apply_inv {s : KtState} (h : KtInv s) {e : KtEvent} (he : e.Timely) :
    KtInv (e.apply s) := by
  cases e with
  | tick k env =>
    show KtInv (s.ktimerTick k env)
    unfold KtState.ktimerTick
    split
    · exact h
    · exact h.foldl (fun s i hs => hs.tickSlot (he i).1 (he i).2) _
  | alarm tgid secs mono => exact h.itimerSet (Nat.zero_le _)
  | setitimer => exact h.sysSetitimer
  | timerCreate => exact h.sysTimerCreate
  | timerSettime => exact h.timerSettimeNs
  | timerGetoverrun => exact h.sysTimerGetoverrun
  | timerDelete tgid id =>
    show KtInv (s.sysTimerDelete tgid id).2
    unfold KtState.sysTimerDelete
    split
    · exact h
    · exact h.ktFree
  | groupExit tgid =>
    show KtInv (s.ktimerGroupExit tgid)
    exact h.freeAll
  | exec tgid =>
    show KtInv (s.ktimerExec tgid)
    exact h.freeAll

/-! ## After a tick -/

/-- A wall-clock timer is not due at the start of the tick. -/
def Slot.Ahead (now : Nat) (x : Slot) : Prop :=
  x.t.used = true → x.t.armed = true → x.t.Wall → tickNs now < x.t.deadline

namespace KtState

variable {s : KtState} {i j : Nat} {x : Slot} {env : Env} {k : Tick}

theorem slots_ktFree (hj : j ≠ i) : (s.ktFree i).slots j = s.slots j := by
  unfold ktFree
  split
  · exact Function.update_of_ne hj ..
  · rfl

theorem used_ktFree : ((s.ktFree i).slots i).t.used = false := by
  unfold ktFree
  split
  · simp [setSlot, Slot.setTimer]
  · next hu => exact Bool.not_eq_true _ ▸ hu

/-- A tick touches one slot after the other. -/
theorem slots_tickSlot (hj : j ≠ i) : (s.tickSlot k env i).slots j = s.slots j := by
  have hset : ∀ x, (s.setSlot i x).slots j = s.slots j := fun x => Function.update_of_ne hj ..
  have hdrop : ∀ x, ((s.setSlot i x).ktFree i).slots j = s.slots j :=
    fun x => (slots_ktFree hj).trans (hset x)
  unfold tickSlot expire charge
  repeat' split
  all_goals first | rfl | exact hset _ | exact hdrop _

theorem tickSlot_ahead (hbsp : k.bsp = true) (hclock : tickNs k.now ≤ env.mono)
    (hmono : env.mono < ktNsMax) : ((s.tickSlot k env i).slots i).Ahead k.now := by
  have hfree : ∀ s : KtState, ((s.ktFree i).slots i).Ahead k.now :=
    fun s hu => by simp [used_ktFree] at hu
  unfold tickSlot
  split
  · next hoff =>
    intro hu ha
    simp [hu, ha] at hoff
  split
  · split
    · next hlater => exact fun _ _ _ => by simpa [hbsp] using hlater
    unfold expire
    split
    · rw [note, slots_setSlot, if_pos rfl]
      intro _ harmed _
      by_cases hi : (s.slots i).t.interval = 0
      · rw [Slot.afterFire, if_pos (Slot.ktFire_course.interval.trans hi)] at harmed
        cases harmed
      · rw [Slot.deadline_afterFire hi]
        exact hclock.trans_lt (lt_nextDeadline hmono (Nat.pos_of_ne_zero hi))
    · exact hfree _
  · next hcpu =>
    have hkept : ∀ {y : Slot}, y.t.kind = (s.slots i).t.kind → y.Ahead k.now := fun hk _ _ hw => by
      rw [KTimer.Wall, hk] at hw
      exact absurd hw hcpu
    unfold charge
    repeat' split
    · exact hkept rfl
    · exact hkept rfl
    · rw [slots_setSlot, if_pos rfl]
      exact hkept ((s.slots i).setDeadline_same _).2
    · rw [slots_setSlot, if_pos rfl]
      exact hkept ((Slot.reloadCpu_same _).2.trans Slot.ktFire_course.kind)
    · exact hfree _

/-- What the pass over the table brings about at each slot. -/
theorem foldl_each {f : KtState → Nat → KtState} {P : Slot → Prop}
    (hkeep : ∀ s i j, j ≠ i → (f s i).slots j = s.slots j) (hset : ∀ s i, P ((f s i).slots i))
    (l : List Nat) : ∀ i ∈ l, P ((l.foldl f s).slots i) := by
  induction l generalizing s with
  | nil => nofun
  | cons j l ih =>
    intro i hi
    by_cases hl : i ∈ l
    · exact ih i hl
    -- no later slot of the pass is this one
    obtain rfl := (List.mem_cons.mp hi).resolve_right hl
    have hlater : ∀ (l : List Nat) (s : KtState), i ∉ l → (l.foldl f s).slots i = s.slots i := by
      intro l
      induction l with
      | nil => exact fun _ _ => rfl
      | cons j l ih =>
        intro s hnot
        obtain ⟨hne, hnot⟩ := not_or.mp (List.mem_cons.not.mp hnot)
        exact (ih _ hnot).trans (hkeep s j i hne)
    rw [List.foldl_cons, hlater l _ hl]
    exact hset s i

/-- **A tick of the CPU that keeps the clock leaves no timer that is due.** -/
theorem ktimerTick_ahead (h : KtInv s) {env : Nat → Env} (he : KtEvent.Timely (.tick k env))
    (hbsp : k.bsp = true) (hi : i < ktMax) : ((s.ktimerTick k env).slots i).Ahead k.now := by
  unfold ktimerTick
  split
  · next hzero =>
    obtain ⟨l, -, hlen, hmem⟩ := h.live
    rw [hzero, List.length_eq_zero_iff] at hlen
    intro hu
    simpa [hlen, hu] using hmem i
  · exact foldl_each (fun _ _ _ hj => slots_tickSlot hj)
      (fun _ i => tickSlot_ahead hbsp (he i).1 (he i).2) _ i (List.mem_range.mpr hi)

end KtState

/-! ## The property -/

/-- The boundaries of an interval from `first` on that are not behind `x`; one if there is no
interval. -/
def boundariesPassed (first interval x : Nat) : Nat :=
  if x < first then 0 else if interval = 0 then 1 else (x - first) / interval + 1

/-- The boundaries a timer has passed at the time its expiry was last processed. -/
def Slot.passedByLast (x : Slot) : Nat :=
  match x.h.last with
  | none => 0
  | some m => boundariesPassed x.h.first x.t.interval m

theorem Slot.Track.passedByLast {x : Slot} (h : x.Track) : x.passedByLast = x.h.passed := by
  unfold Slot.passedByLast
  split
  · next hl => exact (h.fresh hl).symm
  next m hl =>
  obtain ⟨hpos, hle, hlt, hone⟩ := h.last m hl
  unfold boundariesPassed
  rw [if_neg (by omega)]
  split
  · next hi => exact ((hone hi).1).symm
  next hi =>
  obtain ⟨k, hk⟩ : ∃ k, x.h.passed = k + 1 := ⟨x.h.passed - 1, by omega⟩
  rw [hk] at hle hlt ⊢
  rw [Nat.add_sub_cancel] at hle
  rw [Nat.add_mul, Nat.one_mul] at hlt
  congr 1
  exact Nat.div_eq_of_lt_le (by omega) (by rw [Nat.succ_mul]; omega)

/-- The timers of a kernel: every expiry was as it should be, the next tick will miss none, and a
POSIX timer that signals its process has counted every boundary it has passed: as a signal sent, as
an overrun handed over or as one still pending. -/
structure TimersOk (s : KtState) : Prop where
  expiries : ∀ e ∈ s.log, e.Ok
  swept : ∀ k env, KtEvent.Timely (.tick k env) → k.bsp = true → ∀ i < ktMax,
    ((s.ktimerTick k env).slots i).Ahead k.now
  conserved : ∀ i, (s.slots i).t.used = true → (s.slots i).t.Signals →
    (s.slots i).passedByLast % 2 ^ 32 =
      ((s.slots i).h.sent + (s.slots i).h.handed + (s.slots i).t.overrun) % 2 ^ 32

/-- An empty table. -/
def noTimers : KtState :=
  ⟨fun _ => ⟨{ KtState.blank.t with used := false }, KtState.blank.h⟩, 0, []⟩

/-- Process 1 is there and no signal is pending. -/
def quiet (mono : Nat) : Env := ⟨fun _ _ _ => false, fun _ => true, fun _ _ => true, mono⟩

/-- A POSIX timer of process 1 that first expires after 25 ms and then every 10 ms; the tick at 30
ms is so late that the clock shows 65 ms. -/
def lateTick : List KtEvent :=
  [.timerCreate (quiet 0) 1 1 0 14 0 true, .timerSettime 1 0 false 0 25000000 0 10000000 0 0,
    .tick ⟨3, true, true, none⟩ fun _ => quiet 65000000]

end MaeroOS.Timer
