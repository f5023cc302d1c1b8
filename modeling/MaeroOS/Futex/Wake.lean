import Mathlib.Algebra.Group.Nat.Defs
import Mathlib.Data.List.MinMax
import MaeroOS.Lib.System

/-!
# Futex wake-ups

`FUTEX_WAIT` and `FUTEX_WAKE` of `sys_futex`, with forks and the page faults of stores between them.
A private wait is matched by thread group and address. A wait of the other form is matched by the
physical address its word has when it falls asleep, and a wake looks for the one its word has then.
For shared memory that is the same (`wakes_right`). A word in private memory is moved by the store
that breaks a copy-on-write share, and then a wake does not find who waits for it
(`moved_word_lost`). Nor does a private wake find a thread of another group that runs in the same
address space (`CLONE_VM` without `CLONE_THREAD`).

The value of the word is not modelled: a wait is one whose word had the expected value.
-/

namespace MaeroOS.Futex

open Function List
open Lib (System Run)

def pageSize : Nat := 4096

/-- A present page. -/
structure Pte where
  frame : Nat
  cow : Bool

/-- A thread asleep in `FUTEX_WAIT`: its arguments, its key, and which sleep since boot it is. -/
structure Sleeper where
  uaddr : Nat
  isPrivate : Bool
  futexShared : Bool
  futexPhys : Nat
  nth : Nat

/-- `sleep_seq`, of 32 bits. -/
def Sleeper.sleepSeq (w : Sleeper) : Nat := w.nth % 2 ^ 32

/-- The process table, of which the first `hwm` slots are in use, and the memory. A slot has the
fields of its `struct proc`; `space` stands for the page directory. Pages are given by their
number. -/
structure Futexes where
  hwm : Nat
  tgid : Nat → Nat
  space : Nat → Nat
  wait : Nat → Option Sleeper
  pte : Nat → Nat → Option Pte
  /-- The page of shared memory that is mapped at a page, present or not. -/
  vma : Nat → Nat → Option Nat
  /-- The frame of a page of shared memory. -/
  backing : Nat → Nat
  /-- The sleeps since boot: `g_sleep_seq`, before it wraps. -/
  slept : Nat

/-- The key of a word in a frame. -/
def futexKey (frame uaddr : Nat) : Nat := (frame * pageSize + uaddr % pageSize) / 4

namespace Futexes

variable (s : Futexes)

/-! ## Page faults -/

def setPte (space page : Nat) (p : Pte) : Futexes :=
  { s with pte := Function.update s.pte space (Function.update (s.pte space) page (some p)) }

/-- An access to a page that is not present; `frame` is what the allocator gives. -/
def faultIn (space page frame : Nat) : Futexes :=
  match s.pte space page with
  | some _ => s
  | none => s.setPte space page ⟨(s.vma space page).elim frame s.backing, false⟩

/-- A store to a present page; `last` says that its frame has no other reference. -/
def cowBreak (space page frame : Nat) (last : Bool) : Futexes :=
  match s.pte space page with
  | none => s
  | some p => if p.cow then s.setPte space page ⟨if last then p.frame else frame, false⟩ else s

/-- What a fork makes of a page, in the parent and in the child. -/
def forkPte (space page : Nat) : Option Pte :=
  (s.pte space page).map fun p => if (s.vma space page).isSome then p else { p with cow := true }

/-- The copy of an address space that a fork makes. -/
def copySpace (parent space : Nat) : Futexes :=
  { s with
    pte :=
      Function.update (Function.update s.pte parent (s.forkPte parent)) space (s.forkPte parent)
    vma := Function.update s.vma space (s.vma parent) }

/-- A new thread, in the next slot. -/
def spawn (tgid space : Nat) : Futexes :=
  { s with
    hwm := s.hwm + 1
    tgid := Function.update s.tgid s.hwm tgid
    space := Function.update s.space s.hwm space }

/-! ## Waits and wakes -/

/-- `futex_resolve_phys`. -/
def futexResolvePhys (space uaddr : Nat) : Nat :=
  match s.pte space (uaddr / pageSize) with
  | none => 0
  | some p => futexKey p.frame uaddr

/-- `FUTEX_WAIT`, until the thread is asleep. Reading the word has faulted its page in. -/
def futexWait (t uaddr : Nat) (isPrivate : Bool) (frame : Nat) : Futexes :=
  let s := s.faultIn (s.space t) (uaddr / pageSize) frame
  let fphys := if isPrivate then 0 else s.futexResolvePhys (s.space t) uaddr
  let shared := !isPrivate && fphys ≠ 0
  { s with
    wait := Function.update s.wait t (some ⟨uaddr, isPrivate, shared, fphys, s.slept + 1⟩)
    slept := s.slept + 1 }

/-- `FUTEX_MATCH`, for a sleeper of the thread group `group`. -/
def futexMatch (uaddr : Nat) (isPrivate : Bool) (phys tgid group : Nat) (w : Sleeper) : Bool :=
  if isPrivate then !w.futexShared && group == tgid && w.uaddr == uaddr else w.futexShared &&
    phys != 0 && w.futexPhys == phys

/-- The slots whose sleeper matches. -/
def matching (m : Nat → Sleeper → Bool) : List Nat :=
  (List.range s.hwm).filter fun i => (s.wait i).any (m (s.tgid i))

def wakeAll (woken : List Nat) : Futexes :=
  { s with wait := fun i => if i ∈ woken then none else s.wait i }

def seqAt (i : Nat) : Nat := (s.wait i).elim 0 Sleeper.sleepSeq

/-- The loop that wakes the oldest, `n` times. -/
def wakeOldest (m : Nat → Sleeper → Bool) : Nat → Futexes → Nat × Futexes
  | 0, s => (0, s)
  | n + 1, s =>
      match (s.matching m).argmin s.seqAt with
      | none => (0, s)
      | some best => ((wakeOldest m n (s.wakeAll [best])).1 + 1,
          (wakeOldest m n (s.wakeAll [best])).2)

/-- `futex_wake_n`. -/
def futexWakeN (uaddr : Nat) (isPrivate : Bool) (phys tgid : Nat) (n : Int) : Nat × Futexes :=
  let ks := s.matching (futexMatch uaddr isPrivate phys tgid)
  if n ≤ 0 then (0, s)
  else if ks.length ≤ n then (ks.length, s.wakeAll ks)
  else wakeOldest (futexMatch uaddr isPrivate phys tgid) n.toNat s

/-- `FUTEX_WAKE`. -/
def futexWake (t uaddr : Nat) (isPrivate : Bool) (n : Int) : Nat × Futexes :=
  let wphys := if isPrivate then 0 else s.futexResolvePhys (s.space t) uaddr
  s.futexWakeN uaddr (isPrivate || wphys == 0) wphys (s.tgid t) n

end Futexes

/-! ## Histories -/

inductive FutexEvent
  | wait (t uaddr : Nat) (isPrivate : Bool) (frame : Nat)
  | wake (t uaddr : Nat) (isPrivate : Bool) (n : Int)
  | fork (t tgid space : Nat)
  /-- A clone with `CLONE_VM`: with `CLONE_THREAD` a thread of the same group, without it a group of
  its own. -/
  | clone (t tgid : Nat)
  /-- A sleep outside `sys_futex`. -/
  | sleep
  | store (t uaddr frame : Nat) (last : Bool)
  /-- A signal or a timeout. -/
  | interrupt (t : Nat)

namespace FutexEvent

/-- The thread runs. -/
abbrev Runs (s : Futexes) (t : Nat) : Prop := t < s.hwm ∧ (s.wait t).isNone

def apply (s : Futexes) : FutexEvent → Option Futexes
  | wait t uaddr isPrivate frame => if Runs s t then some (s.futexWait t uaddr isPrivate frame)
    else none
  | wake t uaddr isPrivate n => if Runs s t then some (s.futexWake t uaddr isPrivate n).2 else none
  | fork t tgid space =>
      if Runs s t ∧ ∀ i ∈ List.range s.hwm, s.tgid i ≠ tgid ∧ s.space i ≠ space then
        some ((s.copySpace (s.space t) space).spawn tgid space)
      else none
  | clone t tgid =>
      if Runs s t ∧ (tgid = s.tgid t ∨ ∀ i ∈ List.range s.hwm, s.tgid i ≠ tgid) then
        some (s.spawn tgid (s.space t))
      else none
  | sleep => some { s with slept := s.slept + 1 }
  | store t uaddr frame last =>
      let page := uaddr / pageSize
      if Runs s t then some ((s.faultIn (s.space t) page frame).cowBreak (s.space t) page frame
        last) else none
  | interrupt t => some (s.wakeAll [t])

/-- The condition on a step. A wait is taken before `2 ^ 32` sleeps. A private wake is by a thread
whose address space has no thread of another group. The other form is for aligned words of shared
memory, which a wake finds present. -/
def Keyed (s : Futexes) : FutexEvent → Prop
  | wait t uaddr isPrivate _ =>
      s.slept + 1 < 2 ^ 32 ∧
        (isPrivate = false → uaddr % 4 = 0 ∧ (s.vma (s.space t) (uaddr / pageSize)).isSome)
  | wake t uaddr isPrivate _ =>
      (isPrivate = true → ∀ i < s.hwm, s.space i = s.space t → s.tgid i = s.tgid t) ∧
        (isPrivate = false → uaddr % 4 = 0 ∧ (s.vma (s.space t) (uaddr / pageSize)).isSome ∧
          (s.pte (s.space t) (uaddr / pageSize)).isSome)
  | _ => True

end FutexEvent

/-- The threads of a group share their address space, and shared memory is mapped where it is. -/
structure Mapped (s : Futexes) : Prop where
  groups : ∀ i j, i < s.hwm → j < s.hwm → s.tgid i = s.tgid j → s.space i = s.space j
  mapped : ∀ space page p o, s.pte space page = some p → s.vma space page = some o →
    p.frame = s.backing o ∧ p.cow = false
  backing_pos : ∀ o, 0 < s.backing o
  backing_inj : Function.Injective s.backing

/-- Nobody waits yet. -/
structure Booted (s : Futexes) : Prop extends Mapped s where
  awake : ∀ i, s.wait i = none

def futexSystem : System Futexes FutexEvent where
  init := Booted
  step s e s' := e.apply s = some s'

/-! ## What a wake is for -/

namespace Futexes

variable (s : Futexes)

/-- The thread in slot `i` waits, in the same form, for the word that `uaddr` is for the thread `t`:
at the same address of the same space or, if the form is not private, for the same word of shared
memory. -/
def waitsFor (t uaddr : Nat) (isPrivate : Bool) (i : Nat) : Bool :=
  match s.wait i with
  | none => false
  | some w =>
      let page := s.vma (s.space t) (uaddr / pageSize)
      w.isPrivate == isPrivate && (((s.space i) == (s.space t) && w.uaddr == uaddr) ||
        (!isPrivate && page.isSome && s.vma (s.space i) (w.uaddr / pageSize) == page &&
          w.uaddr % pageSize == uaddr % pageSize))

/-- The order in which the threads fell asleep. -/
def nthAt (i : Nat) : Nat := (s.wait i).elim 0 Sleeper.nth

/-- Of the slots `ks`, a wake has woken `n`, or all if they are fewer: the first in the order of
`key`, and no other slot. It returns their number. -/
structure WakesFirst (ks : List Nat) (key : Nat → Nat) (n : Nat) (woken : List Nat)
    (res : Nat × Futexes) : Prop where
  nodup : woken.Nodup
  subset : woken ⊆ ks
  length : woken.length = min n ks.length
  first : ∀ i ∈ woken, ∀ j ∈ ks, j ∉ woken → key i ≤ key j
  res_eq : res = (woken.length, s.wakeAll woken)

/-- The wake is for those that wait for the word, in the order in which they fell asleep. -/
def WakesRight (t uaddr : Nat) (isPrivate : Bool) (n : Int) (res : Nat × Futexes) : Prop :=
  ∃ woken, s.WakesFirst ((List.range s.hwm).filter (s.waitsFor t uaddr isPrivate)) s.nthAt n.toNat
    woken res

variable {s}

/-! ## The oldest sleepers -/

theorem wakeAll_nil : s.wakeAll [] = s := by
  simp [wakeAll]

theorem wakeAll_append (a b : List Nat) : s.wakeAll (a ++ b) = (s.wakeAll a).wakeAll b := by
  simp only [wakeAll, mem_append]
  congr 1
  funext i
  by_cases ha : i ∈ a <;> by_cases hb : i ∈ b <;> simp [ha, hb]

theorem nodup_matching (m : Nat → Sleeper → Bool) : (s.matching m).Nodup := nodup_range.filter _

theorem matching_wakeAll (m : Nat → Sleeper → Bool) (a : Nat) :
    (s.wakeAll [a]).matching m = (s.matching m).erase a := by
  rw [(nodup_matching m).erase_eq_filter, matching, matching, filter_filter]
  refine filter_congr fun i _ => ?_
  by_cases hi : i = a <;> simp [wakeAll, hi]

theorem seqAt_wakeAll {a i : Nat} (hi : i ≠ a) : (s.wakeAll [a]).seqAt i = s.seqAt i := by
  simp [seqAt, wakeAll, hi]

theorem WakesFirst.nobody (ks : List Nat) (key : Nat → Nat) (n : Nat) (h : n = 0 ∨ ks = []) :
    WakesFirst s ks key n [] (0, s) where
  nodup := nodup_nil
  subset := nil_subset _
  length := by obtain rfl | rfl := h <;> simp
  first := by simp
  res_eq := by rw [wakeAll_nil, length_nil]

theorem wakeOldest_first (m : Nat → Sleeper → Bool) (n : Nat) (s : Futexes) :
    ∃ woken, WakesFirst s (s.matching m) s.seqAt n woken (wakeOldest m n s) := by
  induction n generalizing s with
  | zero => exact ⟨[], .nobody _ _ _ (.inl rfl)⟩
  | succ n ih =>
    unfold wakeOldest
    split
    · next hnone => exact ⟨[], .nobody _ _ _ (.inr (argmin_eq_none.mp hnone))⟩
    next best hbest =>
    have hmem : best ∈ s.matching m := argmin_mem hbest
    have herase : ∀ {i}, i ∈ (s.matching m).erase best ↔ i ≠ best ∧ i ∈ s.matching m :=
      (nodup_matching m).mem_erase_iff
    obtain ⟨woken, h⟩ := ih (s.wakeAll [best])
    rw [matching_wakeAll] at h
    have hnot : best ∉ woken := fun hb => (herase.mp (h.subset hb)).1 rfl
    refine ⟨best :: woken, nodup_cons.mpr ⟨hnot, h.nodup⟩, ?_, ?_, fun i hi j hj hjw => ?_, ?_⟩
    · exact cons_subset.mpr ⟨hmem, fun i hi => (herase.mp (h.subset hi)).2⟩
    · have hpos := length_pos_of_mem hmem
      rw [length_cons, h.length, length_erase_of_mem hmem]
      omega
    · obtain ⟨hjb, hjw⟩ := not_or.mp (mem_cons.not.mp hjw)
      rcases mem_cons.mp hi with rfl | hi
      · exact le_of_mem_argmin hj hbest
      have hib : i ≠ best := fun hib => hnot (hib ▸ hi)
      have := h.first i hi j (herase.mpr ⟨hjb, hj⟩) hjw
      rwa [seqAt_wakeAll hib, seqAt_wakeAll hjb] at this
    · rw [h.res_eq, ← wakeAll_append [best] woken]
      rfl

/-- `futex_wake_n` wakes the oldest of those that match, whichever of its loops it takes. -/
theorem futexWakeN_first (uaddr : Nat) (isPrivate : Bool) (phys tgid : Nat) (n : Int) :
    ∃ woken, WakesFirst s (s.matching (futexMatch uaddr isPrivate phys tgid)) s.seqAt n.toNat woken
      (s.futexWakeN uaddr isPrivate phys tgid n) := by
  unfold futexWakeN
  dsimp only
  split
  · next hn => exact ⟨[], .nobody _ _ _ (.inl (Int.toNat_eq_zero.mpr hn))⟩
  split
  · next hall => exact ⟨_, nodup_matching _, List.Subset.refl _, by omega, fun i _ j hj hnot =>
      absurd hj hnot, rfl⟩
  · exact wakeOldest_first _ _ _

end Futexes

/-! ## The keys of the sleepers -/

/-- Every wait that is not private is for an aligned word of shared memory, under the key that the
word has wherever it is mapped. -/
structure FutexInv (s : Futexes) : Prop extends Mapped s where
  unused : ∀ i, s.hwm ≤ i → s.wait i = none
  nth_lt : ∀ i w, s.wait i = some w → w.nth < 2 ^ 32
  form : ∀ i w, s.wait i = some w → w.futexShared = !w.isPrivate
  keyed : ∀ i w, s.wait i = some w → w.isPrivate = false →
    w.uaddr % 4 = 0 ∧ ∃ o, s.vma (s.space i) (w.uaddr / pageSize) = some o ∧
      w.futexPhys = futexKey (s.backing o) w.uaddr

theorem futexKey_ne_zero {f a : Nat} (hf : 0 < f) : futexKey f a ≠ 0 := by
  unfold futexKey pageSize
  omega

theorem Mapped.futexResolvePhys_eq {s : Futexes} (h : Mapped s) {space uaddr o : Nat}
    (hvma : s.vma space (uaddr / pageSize) = some o)
    (hpte : (s.pte space (uaddr / pageSize)).isSome) :
    s.futexResolvePhys space uaddr = futexKey (s.backing o) uaddr := by
  obtain ⟨p, hp⟩ := Option.isSome_iff_exists.mp hpte
  simp only [Futexes.futexResolvePhys, hp, (h.mapped _ _ _ _ hp hvma).1]

namespace FutexInv

variable {s : Futexes} {t uaddr : Nat} {isPrivate : Bool} {n : Int}

variable (h : FutexInv s)

include h

/-- **What a wake looks for are those that wait for its word.** -/
theorem matching_eq (ht : t < s.hwm) (hk : FutexEvent.Keyed s (.wake t uaddr isPrivate n)) :
    let wphys := if isPrivate then 0 else s.futexResolvePhys (s.space t) uaddr
    s.matching (Futexes.futexMatch uaddr (isPrivate || wphys == 0) wphys (s.tgid t)) =
      (range s.hwm).filter (s.waitsFor t uaddr isPrivate) := by
  intro wphys
  refine filter_congr fun i hi => ?_
  rcases hw : s.wait i with _ | w
  · simp [Futexes.waitsFor, hw]
  have hform := h.form i w hw
  rw [Bool.eq_iff_iff]
  cases isPrivate with
  | true =>
    have hgroups : s.tgid i = s.tgid t ↔ s.space i = s.space t :=
      ⟨h.groups i t (mem_range.mp hi) ht, hk.1 rfl i (mem_range.mp hi)⟩
    simp [Futexes.futexMatch, Futexes.waitsFor, hw, hform, hgroups, and_assoc]
  | false =>
    obtain ⟨halign, hvma, hpte⟩ := hk.2 rfl
    obtain ⟨o, ho⟩ := Option.isSome_iff_exists.mp hvma
    have hphys : wphys = futexKey (s.backing o) uaddr := h.futexResolvePhys_eq ho hpte
    have hne : wphys ≠ 0 := hphys ▸ futexKey_ne_zero (h.backing_pos o)
    cases hp : w.isPrivate with
    | true => simp [Futexes.futexMatch, Futexes.waitsFor, hw, hform, hp, hne]
    | false =>
      obtain ⟨halign', o', ho', hphys'⟩ := h.keyed i w hw hp
      have hkey : w.futexPhys = wphys ↔ o' = o ∧ w.uaddr % pageSize = uaddr % pageSize := by
        rw [hphys, hphys', ← h.backing_inj.eq_iff (a := o')]
        unfold futexKey pageSize
        omega
      have hsame : s.space i = s.space t ∧ w.uaddr = uaddr →
          o' = o ∧ w.uaddr % pageSize = uaddr % pageSize := by
        rintro ⟨hspace, haddr⟩
        rw [hspace, haddr, ho] at ho'
        exact ⟨(Option.some.inj ho').symm, by rw [haddr]⟩
      simpa [Futexes.futexMatch, Futexes.waitsFor, hw, hform, hp, hne, ho, ho', hkey] using hsame

theorem seqAt_eq : s.seqAt = s.nthAt := by
  funext i
  unfold Futexes.seqAt Futexes.nthAt
  cases hw : s.wait i with
  | none => rfl
  | some w => exact Nat.mod_eq_of_lt (h.nth_lt i w hw)

theorem wakesRight (ht : t < s.hwm) (hk : FutexEvent.Keyed s (.wake t uaddr isPrivate n)) :
    s.WakesRight t uaddr isPrivate n (s.futexWake t uaddr isPrivate n) := by
  obtain ⟨woken, hw⟩ := Futexes.futexWakeN_first (s := s) uaddr
    (isPrivate || (if isPrivate then 0 else s.futexResolvePhys (s.space t) uaddr) == 0)
    (if isPrivate then 0 else s.futexResolvePhys (s.space t) uaddr) (s.tgid t) n
  rw [h.matching_eq ht hk, h.seqAt_eq] at hw
  exact ⟨woken, hw⟩

/-! ### Steps -/

theorem setPte {space page : Nat} {p : Pte}
    (hp : ∀ o, s.vma space page = some o → p.frame = s.backing o ∧ p.cow = false) :
    FutexInv (s.setPte space page p) := by
  refine { h with mapped := fun sp pg q o hq ho => ?_ }
  by_cases hsp : sp = space
  · subst hsp
    by_cases hpg : pg = page
    · subst hpg
      simp only [Futexes.setPte, update_self, Option.some.injEq] at hq
      exact hq ▸ hp o ho
    · simp only [Futexes.setPte, update_self, update_of_ne hpg] at hq
      exact h.mapped _ _ _ _ hq ho
  · simp only [Futexes.setPte, update_of_ne hsp] at hq
    exact h.mapped _ _ _ _ hq ho

theorem faultIn (space page frame : Nat) : FutexInv (s.faultIn space page frame) := by
  unfold Futexes.faultIn
  split
  · exact h
  · exact h.setPte fun o ho => by simp [ho]

theorem cowBreak (space page frame : Nat) (last : Bool) :
    FutexInv (s.cowBreak space page frame last) := by
  unfold Futexes.cowBreak
  split
  · exact h
  next p hp =>
  split
  · next hcow =>
    refine h.setPte fun o ho => ?_
    rw [(h.mapped _ _ _ _ hp ho).2] at hcow
    cases hcow
  · exact h

theorem wakeAll (woken : List Nat) : FutexInv (s.wakeAll woken) := by
  have hwait : ∀ i w, (s.wakeAll woken).wait i = some w → s.wait i = some w := by
    intro i w hw
    by_cases hi : i ∈ woken <;> simp_all [Futexes.wakeAll]
  exact
    { h with
      unused := fun i hi => by simp [Futexes.wakeAll, h.unused i hi]
      nth_lt := fun i w hw => h.nth_lt i w (hwait i w hw)
      form := fun i w hw => h.form i w (hwait i w hw)
      keyed := fun i w hw => h.keyed i w (hwait i w hw) }

theorem sleep {w : Sleeper} {slept : Nat} (ht : t < s.hwm) (hnth : w.nth < 2 ^ 32)
    (hform : w.futexShared = !w.isPrivate) (hkeyed : w.isPrivate = false → w.uaddr % 4 = 0 ∧
      ∃ o, s.vma (s.space t) (w.uaddr / pageSize) = some o ∧ w.futexPhys = futexKey
      (s.backing o) w.uaddr) :
    FutexInv { s with wait := update s.wait t (some w), slept } := by
  -- a sleeper is the new one or was one before
  have hcases : ∀ {i w'}, update s.wait t (some w) i = some w' →
      i = t ∧ w' = w ∨ s.wait i = some w' := by
    intro i w' hw'
    by_cases hi : i = t
    · rw [hi, update_self] at hw'
      exact .inl ⟨hi, (Option.some.inj hw').symm⟩
    · rw [update_of_ne hi] at hw'
      exact .inr hw'
  refine { h with unused := fun i hi => ?_, nth_lt := fun i w' hw' => ?_,
                  form := fun i w' hw' => ?_, keyed := fun i w' hw' => ?_ }
  · exact (update_of_ne (ne_of_gt (lt_of_lt_of_le ht hi)) ..).trans (h.unused i hi)
  · obtain ⟨-, rfl⟩ | hold := hcases hw'
    · exact hnth
    · exact h.nth_lt i w' hold
  · obtain ⟨-, rfl⟩ | hold := hcases hw'
    · exact hform
    · exact h.form i w' hold
  · obtain ⟨rfl, rfl⟩ | hold := hcases hw'
    · exact hkeyed
    · exact h.keyed i w' hold

theorem futexWait {frame : Nat} (ht : t < s.hwm)
    (hk : FutexEvent.Keyed s (.wait t uaddr isPrivate frame)) :
    FutexInv (s.futexWait t uaddr isPrivate frame) := by
  obtain ⟨hslept, hform⟩ := hk
  have h₁ := h.faultIn (s.space t) (uaddr / pageSize) frame
  -- the fault leaves all but the page tables, and the page is present then
  obtain ⟨pte, heq, hpte⟩ : ∃ pte, s.faultIn (s.space t) (uaddr / pageSize) frame = { s with pte } ∧
      (pte (s.space t) (uaddr / pageSize)).isSome := by
    unfold Futexes.faultIn
    split
    · next p hp => exact ⟨s.pte, rfl, by simp [hp]⟩
    · exact ⟨_, rfl, by simp⟩
  unfold Futexes.futexWait
  rw [heq] at h₁ ⊢
  cases isPrivate with
  | true => exact h₁.sleep (w := ⟨uaddr, true, false, 0, s.slept + 1⟩) ht hslept rfl nofun
  | false =>
    obtain ⟨halign, hsome⟩ := hform rfl
    obtain ⟨o, ho⟩ := Option.isSome_iff_exists.mp hsome
    have hphys := h₁.futexResolvePhys_eq ho hpte
    have hshared : (!false && ({ s with pte } : Futexes).futexResolvePhys (s.space t) uaddr ≠ 0) =
        true := by
      simp [hphys, futexKey_ne_zero (h.backing_pos o)]
    exact h₁.sleep (w := ⟨uaddr, false, _, _, s.slept + 1⟩) ht hslept hshared fun _ =>
      ⟨halign, o, ho, hphys⟩

theorem copySpace {parent space : Nat} (hfresh : ∀ i < s.hwm, s.space i ≠ space) :
    FutexInv (s.copySpace parent space) := by
  have hforked : ∀ {page p o}, s.forkPte parent page = some p → s.vma parent page = some o →
      p.frame = s.backing o ∧ p.cow = false := by
    intro page p o hp ho
    obtain ⟨q, hq, rfl⟩ := Option.map_eq_some_iff.mp hp
    simpa [ho] using h.mapped _ _ _ _ hq ho
  refine { h with mapped := fun sp pg p o hp ho => ?_, keyed := fun i w hw hpriv => ?_ }
  · by_cases hsp : sp = space
    · subst hsp
      simp only [Futexes.copySpace, update_self] at hp ho
      exact hforked hp ho
    · simp only [Futexes.copySpace, update_of_ne hsp] at hp ho
      by_cases hpar : sp = parent
      · subst hpar
        rw [update_self] at hp
        exact hforked hp ho
      · rw [update_of_ne hpar] at hp
        exact h.mapped _ _ _ _ hp ho
  · have hi : i < s.hwm := Nat.lt_of_not_le fun hge => by cases (h.unused i hge).symm.trans hw
    have hvma : (s.copySpace parent space).vma (s.space i) = s.vma (s.space i) :=
      update_of_ne (hfresh i hi) ..
    rw [show (s.copySpace parent space).space i = s.space i from rfl, hvma]
    exact h.keyed i w hw hpriv

theorem spawn {tgid space : Nat} (hgroup : ∀ i < s.hwm, s.tgid i = tgid → s.space i = space) :
    FutexInv (s.spawn tgid space) := by
  have hlast : ∀ {i}, i < s.hwm + 1 → i = s.hwm ∨ i < s.hwm ∧ i ≠ s.hwm := by omega
  refine { h with groups := fun i j hi hj => ?_,
                  unused := fun i hi => h.unused i (Nat.le_of_succ_le hi),
                  keyed := fun i w hw hpriv => ?_ }
  · unfold Futexes.spawn
    obtain rfl | ⟨hi, hne⟩ := hlast hi <;> obtain rfl | ⟨hj, hne'⟩ := hlast hj
    · simp
    · simpa [update_of_ne hne', eq_comm] using hgroup j hj
    · simpa [update_of_ne hne] using hgroup i hi
    · simpa [update_of_ne hne, update_of_ne hne'] using h.groups i j hi hj
  · have hi : i ≠ s.hwm := fun hi => by cases (h.unused i hi.ge).symm.trans hw
    rw [show (s.spawn tgid space).space i = s.space i from update_of_ne hi ..]
    exact h.keyed i w hw hpriv

omit h in
theorem of_booted (h : Booted s) : FutexInv s where
  toMapped := h.toMapped
  unused i _ := h.awake i
  nth_lt i w hw := by simp [h.awake i] at hw
  form i w hw := by simp [h.awake i] at hw
  keyed i w hw := by simp [h.awake i] at hw

theorem step {e : FutexEvent} {s' : Futexes} (hk : e.Keyed s) (hs : e.apply s = some s') :
    FutexInv s' := by
  cases e with
  | wait t uaddr isPrivate frame =>
    obtain ⟨hruns, hs⟩ := Option.ite_none_right_eq_some.mp hs
    cases hs
    exact h.futexWait hruns.1 hk
  | wake t uaddr isPrivate n =>
    obtain ⟨hruns, hs⟩ := Option.ite_none_right_eq_some.mp hs
    cases hs
    obtain ⟨woken, hwoken⟩ := h.wakesRight hruns.1 hk
    rw [hwoken.res_eq]
    exact h.wakeAll woken
  | fork t tgid space =>
    obtain ⟨hruns, hs⟩ := Option.ite_none_right_eq_some.mp hs
    cases hs
    have hfresh i (hi : i < s.hwm) := hruns.2 i (mem_range.mpr hi)
    exact (h.copySpace fun i hi => (hfresh i hi).2).spawn fun i hi he => absurd he (hfresh i hi).1
  | clone t tgid =>
    obtain ⟨hruns, hs⟩ := Option.ite_none_right_eq_some.mp hs
    cases hs
    refine h.spawn fun i hi he => ?_
    obtain heq | hfresh := hruns.2
    · exact h.groups i t hi hruns.1.1 (he.trans heq)
    · exact absurd he (hfresh i (mem_range.mpr hi))
  | sleep =>
    cases hs
    exact { h with }
  | store t uaddr frame last =>
    obtain ⟨hruns, hs⟩ := Option.ite_none_right_eq_some.mp hs
    cases hs
    exact (h.faultIn _ _ _).cowBreak _ _ _ _
  | interrupt t =>
    cases hs
    exact h.wakeAll [t]

end FutexInv

/-- **Futex wakes reach the right waiters** in every history of steps that meet the condition. -/
theorem wakes_right {tr : List FutexEvent} {s : Futexes} {t uaddr : Nat} {isPrivate : Bool}
    {n : Int} (hr : Run (futexSystem.restrict fun s e => e.Keyed s) tr s) (ht : t < s.hwm)
    (hk : FutexEvent.Keyed s (.wake t uaddr isPrivate n)) :
    s.WakesRight t uaddr isPrivate n (s.futexWake t uaddr isPrivate n) := by
  have hinv : FutexInv s :=
    hr.invariant (fun _ => FutexInv.of_booted) fun _ _ _ h hstep => h.step hstep.2 hstep.1
  exact hinv.wakesRight ht hk

/-- Two threads of one process, each page of which is present and private. -/
def twoThreads : Futexes where
  hwm := 2
  tgid _ := 0
  space _ := 0
  wait _ := none
  pte _ page := some ⟨page + 1, false⟩
  vma _ _ := none
  backing o := o + 1
  slept := 0

theorem twoThreads_booted : Booted twoThreads where
  awake _ := rfl
  groups _ _ _ _ _ := rfl
  mapped _ _ _ _ _ h := by cases h
  backing_pos _ := Nat.succ_pos _
  backing_inj := Nat.succ_injective

theorem private_wake_right : let s := twoThreads.futexWait 0 4096 true 0
    (s.futexWake 1 4096 true 1).1 = 1 ∧ s.WakesRight 1 4096 true 1 (s.futexWake 1 4096 true 1) := by
  have hr : Run (futexSystem.restrict fun s e => e.Keyed s) [.wait 0 4096 true 0]
      (twoThreads.futexWait 0 4096 true 0) :=
    .step (.init twoThreads_booted) ⟨rfl, by decide, nofun⟩
  exact ⟨by decide +kernel, wakes_right hr (by decide) ⟨fun _ _ _ _ => rfl, nofun⟩⟩

/-- The word of a wait that is not private, after a fork, is moved to a frame of its own by a store;
the wake by the thread that stored finds nobody. -/
theorem moved_word_lost :
    (MaeroOS.Lib.drive FutexEvent.apply twoThreads [.wait 0 4096 false 0, .fork 1 2 1,
      .store 1 4096 9 false]).map
      (fun s => ((s.futexWake 1 4096 false 1).1,
        (List.range s.hwm).filter (s.waitsFor 1 4096 false))) = some (0, [0]) := by
  decide +kernel

end MaeroOS.Futex
