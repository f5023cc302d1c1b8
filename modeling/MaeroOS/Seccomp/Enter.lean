import MaeroOS.Seccomp.Soundness

/-!
# The system-call hook

`seccomp_syscall_enter` runs every filter on the caller's chain and lets the lowest-ranked answer
win, where the rank of an answer is its action read as a **signed** 32-bit number. The winning
action then goes through a `switch` whose `default:` kills the process.

Pushing a filter can therefore change the outcome only by lowering the minimum. The two actions that
let a call through are `ALLOW`, the initial value of the minimum, and `LOG`, which is not the next
one below it: `0x7ffd` and `0x7ffe` lie between them, are not the name of any action, and kill. A
`LOG` answer wins over those (`push_relaxes_iff`).
-/

namespace MaeroOS.Seccomp

def retKillProcess : UInt32 := 0x80000000
def retKillThread : UInt32 := 0x00000000
def retTrap : UInt32 := 0x00030000
def retErrno : UInt32 := 0x00050000
def retUserNotif : UInt32 := 0x7fc00000
def retTrace : UInt32 := 0x7ff00000
def retLog : UInt32 := 0x7ffc0000
def retAllow : UInt32 := 0x7fff0000
def retActionFull : UInt32 := 0xffff0000
def retData : UInt32 := 0x0000ffff
def auditArchI386 : UInt32 := 0x40000003
def maxErrno : UInt32 := 4095
def enosys : UInt32 := 38
def sigkill : Nat := 9
def sigsys : Nat := 31

/-- A filter as it is attached: `seccomp_validate` has accepted its program. -/
structure SeccompFilter where
  insns : List SockFilter
  log : Bool
  valid : seccompValidate true insns = 0

/-- What `seccomp_run` returns for each way its loop can end. -/
def Stop.value : Stop → UInt32
  | .ret v => v
  | _ => retKillThread

def seccompRun (f : SeccompFilter) (data : Vector UInt32 16) : UInt32 :=
  match (seccompLoop f.insns data f.insns.length Machine.init).1 with
  | some stop => stop.value
  | none => retKillThread

/-- `action_rank`: the action part as a signed number. -/
def actionRank (ret : UInt32) : Int := (ret &&& retActionFull).toBitVec.toInt

/-- What the hook reads of `registers_t`. -/
structure Registers where
  eip : UInt32
  ebx : UInt32
  ecx : UInt32
  edx : UInt32
  esi : UInt32
  edi : UInt32
  ebp : UInt32

/-- `struct seccomp_data`: number, architecture, instruction pointer, six zero-extended
arguments. -/
def seccompData (nr : UInt32) (regs : Registers) : Vector UInt32 16 :=
  #v[nr, auditArchI386, regs.eip, 0, regs.ebx, 0, regs.ecx, 0, regs.edx, 0, regs.esi, 0,
    regs.edi, 0, regs.ebp, 0]

inductive Mode where
  | disabled
  | strict
  | filter
  deriving DecidableEq, Repr

/-- The calling thread: `live` is what `live_threads` counts in its process. -/
structure Task where
  pid : Int
  comm : String
  mode : Mode
  chain : List SeccompFilter
  live : Nat

def actionName (action : UInt32) : String :=
  if action = retKillProcess then "kill_process"
  else if action = retKillThread then "kill_thread"
  else if action = retTrap then "trap"
  else if action = retErrno then "errno"
  else if action = retUserNotif then "user_notif"
  else if action = retTrace then "trace"
  else if action = retLog then "log"
  else if action = retAllow then "allow"
  else "unknown"

/-- A line `seccomp_log` prints. -/
structure LogLine where
  pid : Int
  comm : String
  nr : UInt32
  eip : UInt32
  action : String

/-- The log so far, and how many more `LOG` answers may add to it. -/
structure Log where
  budget : Int
  lines : List LogLine

def seccompLog (p : Task) (nr action eip : UInt32) (l : Log) : Log :=
  if action = retLog ∧ l.budget ≤ 0 then l
  else
    { budget := if action = retLog then l.budget - 1 else l.budget
      lines := l.lines ++ [⟨p.pid, p.comm, nr, eip, actionName action⟩] }

/-- What becomes of the call: it executes (the hook returns 0), it is skipped with this `eax` and
perhaps a forced `SIGSYS` (the hook returns 1), or the hook does not return. -/
inductive Verdict where
  | execute
  | skip (eax : UInt32) (trap : Option UInt32)
  | procExit (sig : Nat)
  | procGroupExit (sig : Nat)
  deriving DecidableEq, Repr

/-- `kill_thread`: the last live thread takes the process with it. -/
def killThread (p : Task) (sig : Nat) : Verdict :=
  if p.live ≤ 1 then .procGroupExit sig else .procExit sig

/-- The loop over the chain, newest filter first: the answer that wins and the filter it is from. -/
def runFilters (data : Vector UInt32 16) (chain : List SeccompFilter) :
    UInt32 × Option SeccompFilter :=
  chain.foldl (fun acc f =>
    if actionRank (seccompRun f data) < actionRank acc.1 then (seccompRun f data, some f) else acc)
    (retAllow, none)

/-- The `switch` on the winning action. -/
def decideAction (p : Task) (regs : Registers) (nr ret : UInt32) (from? : Option SeccompFilter)
    (l : Log) : Verdict × Log :=
  let action := ret &&& retActionFull
  let rdata := ret &&& retData
  let logged := if (from?.map (·.log)).getD false then seccompLog p nr action regs.eip l else l
  if action = retAllow then (.execute, l)
  else if action = retLog then (.execute, seccompLog p nr action regs.eip l)
  else if action = retErrno then
    (.skip (0 - (if maxErrno < rdata then maxErrno else rdata)) none, logged)
  else if action = retTrap then (.skip nr (some rdata), logged)
  else if action = retTrace ∨ action = retUserNotif then (.skip (0 - enosys) none, l)
  else if action = retKillThread then (killThread p sigsys, seccompLog p nr action regs.eip l)
  else (.procGroupExit sigsys, seccompLog p nr retKillProcess regs.eip l)

/-- `seccomp_syscall_enter(regs, nr)` for the thread `p`. -/
def seccompSyscallEnter (p : Task) (regs : Registers) (nr : UInt32) (l : Log) : Verdict × Log :=
  if p.mode = .strict then
    if nr = 3 ∨ nr = 4 ∨ nr = 1 ∨ nr = 119 then (.execute, l)
    else (killThread p sigkill, seccompLog p nr retKillThread regs.eip l)
  else
    let win := runFilters (seccompData nr regs) p.chain
    decideAction p regs nr win.1 win.2 l

/-- The thread after `set_mode_filter` has attached `f`. -/
def Task.push (p : Task) (f : SeccompFilter) : Task :=
  { p with mode := .filter, chain := f :: p.chain }

/-- The hook lets the call execute. -/
def Executes (p : Task) (regs : Registers) (nr : UInt32) (l : Log) : Prop :=
  (seccompSyscallEnter p regs nr l).1 = .execute

/-! ## The answer that wins -/

/-- One iteration of the loop over the chain. -/
theorem runFilters_foldl_spec (data : Vector UInt32 16) (chain : List SeccompFilter) :
    ∀ acc : UInt32 × Option SeccompFilter,
      let win := chain.foldl (fun acc f =>
        if actionRank (seccompRun f data) < actionRank acc.1 then (seccompRun f data, some f)
        else acc) acc
      actionRank win.1 ≤ actionRank acc.1 ∧
        (∀ f ∈ chain, actionRank win.1 ≤ actionRank (seccompRun f data)) ∧
        (win.1 = acc.1 ∨ ∃ f ∈ chain, win.1 = seccompRun f data) := by
  induction chain with
  | nil => intro acc; exact ⟨Int.le_refl _, nofun, Or.inl rfl⟩
  | cons g chain ih =>
    intro acc
    rw [List.foldl_cons]
    by_cases hlt : actionRank (seccompRun g data) < actionRank acc.1
    · rw [if_pos hlt]
      obtain ⟨hle, hall, hfrom⟩ := ih (seccompRun g data, some g)
      refine ⟨Int.le_trans hle (Int.le_of_lt hlt), ?_, ?_⟩
      · intro f hf
        rcases List.mem_cons.mp hf with rfl | hf
        · exact hle
        · exact hall f hf
      · rcases hfrom with h | ⟨f, hf, h⟩
        · exact Or.inr ⟨g, List.mem_cons_self, h⟩
        · exact Or.inr ⟨f, List.mem_cons_of_mem _ hf, h⟩
    · rw [if_neg hlt]
      obtain ⟨hle, hall, hfrom⟩ := ih acc
      refine ⟨hle, ?_, ?_⟩
      · intro f hf
        rcases List.mem_cons.mp hf with rfl | hf
        · exact Int.le_trans hle (Int.not_lt.mp hlt)
        · exact hall f hf
      · rcases hfrom with h | ⟨f, hf, h⟩
        · exact Or.inl h
        · exact Or.inr ⟨f, List.mem_cons_of_mem _ hf, h⟩

/-- Nothing on the chain ranks below the answer that wins. -/
theorem runFilters_le {data : Vector UInt32 16} {chain : List SeccompFilter} {f : SeccompFilter}
    (hf : f ∈ chain) : actionRank (runFilters data chain).1 ≤ actionRank (seccompRun f data) :=
  (runFilters_foldl_spec data chain (retAllow, none)).2.1 f hf

/-- The answer that wins is a filter's, or the `ALLOW` the loop starts from. -/
theorem runFilters_from (data : Vector UInt32 16) (chain : List SeccompFilter) :
    (runFilters data chain).1 = retAllow ∨
      ∃ f ∈ chain, (runFilters data chain).1 = seccompRun f data :=
  (runFilters_foldl_spec data chain (retAllow, none)).2.2

/-- Equal ranks are equal actions. -/
theorem action_eq_iff {a b : UInt32} : a &&& retActionFull = b &&& retActionFull ↔
    actionRank a = actionRank b :=
  ⟨fun h => by rw [actionRank, actionRank, h], fun h =>
    UInt32.toBitVec_inj.mp (BitVec.eq_of_toInt_eq h)⟩

/-! ## When a call executes -/

theorem decideAction_executes (p : Task) (regs : Registers) (nr ret : UInt32)
    (from? : Option SeccompFilter) (l : Log) :
    (decideAction p regs nr ret from? l).1 = .execute ↔
      actionRank ret = actionRank retAllow ∨ actionRank ret = actionRank retLog := by
  have hallow : ret &&& retActionFull = retAllow ↔ actionRank ret = actionRank retAllow :=
    action_eq_iff (b := retAllow)
  have hlog : ret &&& retActionFull = retLog ↔ actionRank ret = actionRank retLog :=
    action_eq_iff (b := retLog)
  rw [← hallow, ← hlog]
  unfold decideAction killThread
  -- the branches in the order of the source: only the first two let the call through
  by_cases h₁ : ret &&& retActionFull = retAllow
  · simp [h₁]
  by_cases h₂ : ret &&& retActionFull = retLog
  · rw [if_neg h₁, if_pos h₂]
    exact ⟨fun _ => Or.inr h₂, fun _ => rfl⟩
  simp only [h₁, h₂, if_false, or_self, iff_false]
  split
  · simp
  split
  · simp
  split
  · simp
  split
  · split <;> simp
  · simp

/-- Outside strict mode a call executes exactly when `ALLOW` or `LOG` wins. -/
theorem executes_iff {p : Task} (hm : p.mode ≠ .strict) (regs : Registers) (nr : UInt32) (l : Log) :
    Executes p regs nr l ↔
      actionRank (runFilters (seccompData nr regs) p.chain).1 = actionRank retAllow ∨
        actionRank (runFilters (seccompData nr regs) p.chain).1 = actionRank retLog := by
  unfold Executes seccompSyscallEnter
  rw [if_neg hm]
  exact decideAction_executes _ _ _ _ _ _

theorem rank_log_lt_allow : actionRank retLog < actionRank retAllow := by decide

/-- `ALLOW` wins exactly when no answer ranks below it. -/
theorem allow_wins_iff (data : Vector UInt32 16) (chain : List SeccompFilter) :
    actionRank (runFilters data chain).1 = actionRank retAllow ↔
      ∀ f ∈ chain, actionRank retAllow ≤ actionRank (seccompRun f data) := by
  constructor
  · intro h f hf
    exact h ▸ runFilters_le hf
  · intro h
    refine Int.le_antisymm (runFilters_foldl_spec data chain (retAllow, none)).1 ?_
    rcases runFilters_from data chain with hw | ⟨f, hf, hw⟩
    · exact hw ▸ Int.le_refl _
    · rw [hw]
      exact h f hf

/-- `LOG` wins exactly when it is answered and nothing ranks below it. -/
theorem log_wins_iff (data : Vector UInt32 16) (chain : List SeccompFilter) :
    actionRank (runFilters data chain).1 = actionRank retLog ↔
      (∃ f ∈ chain, actionRank (seccompRun f data) = actionRank retLog) ∧
        ∀ f ∈ chain, actionRank retLog ≤ actionRank (seccompRun f data) := by
  constructor
  · intro h
    refine ⟨?_, fun f hf => h ▸ runFilters_le hf⟩
    rcases runFilters_from data chain with hw | ⟨f, hf, hw⟩
    · rw [hw] at h
      exact absurd h (Int.ne_of_gt rank_log_lt_allow)
    · exact ⟨f, hf, hw ▸ h⟩
  · rintro ⟨⟨f, hf, hlog⟩, hall⟩
    refine Int.le_antisymm (hlog ▸ runFilters_le hf) ?_
    rcases runFilters_from data chain with hw | ⟨g, hg, hw⟩
    · rw [hw]
      exact Int.le_of_lt rank_log_lt_allow
    · rw [hw]
      exact hall g hg

/-! ## Pushing a filter -/

/-- `f` answers `LOG` to a call that every filter of `chain` ranks above `LOG` and that one of them
ranks below `ALLOW`: the answers that killed it are actions without a name. -/
def LogOverUnknown (data : Vector UInt32 16) (chain : List SeccompFilter) (f : SeccompFilter) :
    Prop :=
  actionRank (seccompRun f data) = actionRank retLog ∧
    (∀ g ∈ chain, actionRank retLog < actionRank (seccompRun g data)) ∧
    ∃ g ∈ chain, actionRank (seccompRun g data) < actionRank retAllow

/-- **Pushing a filter keeps a refused call refused, except where it answers `LOG` over an action
without a name.** -/
theorem push_relaxes_iff (p : Task) (hm : p.mode ≠ .strict) (f : SeccompFilter) (regs : Registers)
    (nr : UInt32) (l : Log) :
    (¬ Executes p regs nr l → ¬ Executes (p.push f) regs nr l) ↔
      ¬ LogOverUnknown (seccompData nr regs) p.chain f := by
  have hpush : (p.push f).mode ≠ .strict := by simp [Task.push]
  rw [executes_iff hm, executes_iff hpush]
  simp only [allow_wins_iff, log_wins_iff, Task.push, List.mem_cons, forall_eq_or_imp,
    exists_eq_or_imp]
  constructor
  · rintro hkeep ⟨hlog, habove, g, hg, hbelow⟩
    refine hkeep ?_ (Or.inr ⟨Or.inl hlog, by omega, fun g hg => Int.le_of_lt (habove g hg)⟩)
    rintro (hall | ⟨⟨g', hg', heq⟩, -⟩)
    · have := hall g hg
      omega
    · have := habove g' hg'
      omega
  · rintro hno hold (⟨-, hall⟩ | ⟨hex, hf, hall⟩)
    · exact hold (Or.inl hall)
    -- the winner on the pushed chain is `LOG`; no old filter answered it, or it won before
    have hnone : ∀ g ∈ p.chain,
        actionRank (seccompRun g (seccompData nr regs)) ≠ actionRank retLog :=
      fun g hg heq => hold (Or.inr ⟨⟨g, hg, heq⟩, hall⟩)
    rcases hex with heq | ⟨g, hg, heq⟩
    · refine hno ⟨heq, fun g hg => ?_, ?_⟩
      · have h₁ := hall g hg
        have h₂ := hnone g hg
        omega
      · by_contra hnot
        exact hold (Or.inl fun g hg => Int.not_lt.mp fun h => hnot ⟨g, hg, h⟩)
    · exact hnone g hg heq

/-- The one-instruction filter that answers `k` to every call. -/
def answers (k : UInt32) (hk : seccompValidate true [⟨0x06, 0, 0, k⟩] = 0) : SeccompFilter :=
  ⟨[⟨0x06, 0, 0, k⟩], false, hk⟩

/-- A thread whose only filter answers `0x7ffd0000`. -/
def unknownTask : Task :=
  ⟨1, "init", .filter, [answers 0x7ffd0000 (by decide)], 1⟩

/-- A `getpid` from the first user page. -/
def someRegs : Registers := ⟨0x08048000, 0, 0, 0, 0, 0, 0⟩

theorem push_relaxes_iff_kill :
    unknownTask.mode ≠ .strict ∧
      ((¬ Executes unknownTask someRegs 20 ⟨64, []⟩ →
        ¬ Executes (unknownTask.push (answers 0 (by decide))) someRegs 20 ⟨64, []⟩) ↔
      ¬ LogOverUnknown (seccompData 20 someRegs) unknownTask.chain (answers 0 (by decide))) :=
  ⟨by decide, push_relaxes_iff unknownTask (by decide) (answers 0 (by decide)) someRegs 20 ⟨64, []⟩⟩

/-- The answer `0x7ffd0000` kills the caller; with a filter answering `LOG` pushed on top of it the
call executes. -/
theorem push_log_relaxes :
    (seccompSyscallEnter unknownTask someRegs 20 ⟨64, []⟩).1 = .procGroupExit sigsys ∧
      (seccompSyscallEnter (unknownTask.push (answers retLog (by decide))) someRegs 20
        ⟨64, []⟩).1 = .execute := by
  decide

end MaeroOS.Seccomp
