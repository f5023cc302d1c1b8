import MaeroOS.SysV.SemAtomic

/-!
# The accounts of the semaphores

What an adjustment is worth is decided by the history: minus what its process has added to the
semaphore with `SEM_UNDO`, since the set was made or the semaphore was last set. `undone` is that
sum, read off the labels of a run. `account_step` says what one step does to an amount and to the
sum, and `semaphore_accounts` that the two agree in every run whose `semop` segments are all or
nothing.
-/

namespace MaeroOS.SysV

open Lib (Run Ledger run_play)

/-! ## The sum -/

/-- The slot an id names. -/
def idSlot (id : Int) : Option SemSlot := (idSplit semmni semmni_pos id).map Prod.fst

/-- The step starts the account of a process on a semaphore anew: a new set, a value set, or the
exit of the process. -/
def UndoKey.resets (k : UndoKey) : SemEvent × Reply → Bool
  | (.semget .., .created slot _) => slot = k.slot
  | (.setval _ id num _, r) => r = .ret 0 ∧ idSlot id = some k.slot ∧ num = k.num
  | (.setall _ id _, r) => r = .ret 0 ∧ idSlot id = some k.slot
  | (.setallWoken _ slot _ _, r) => r = .ret 0 ∧ slot = k.slot
  | (.exit tgid, _) => tgid = k.tgid
  | _ => false

/-- What the step adds with `SEM_UNDO`, if it is a `semop` of the process that succeeds. -/
def UndoKey.adds (k : UndoKey) : SemEvent × Reply → Int
  | (.semop call, r) =>
      match call.operation with
      | some op =>
          if r = .ret 0 ∧ op.tgid = k.tgid ∧ op.slot = k.slot then
            opSum (op.ops.filter SemBuf.undo) k.num
          else 0
      | none => 0
  | _ => 0

/-- **The successful `SEM_UNDO` operations of a process on a semaphore**, since the set was made or
the semaphore was last set. The sequence number of the key plays no part. -/
def undone (k : UndoKey) : List (SemEvent × Reply) → Int
  | [] => 0
  | l :: tr => if k.resets l then 0 else undone k tr + k.adds l

/-! ## Steps -/

/-- What `k` is worth after the step, and that it was there before if the step does not reset it. -/
def Accounted (k : UndoKey) (st : SemState) (l : SemEvent × Reply) (st' : SemState) : Prop :=
  st'.undos.amount k = (if k.resets l = true then 0 else st.undos.amount k - k.adds l) ∧
    (k.resets l = false → k.Live st)

variable {st st' : SemState} {k : UndoKey}

theorem UndoKey.Live.of_shape
    (h : SameShape (st.sets k.slot) (st'.sets k.slot)) (hlive : k.Live st') : k.Live st := by
  unfold UndoKey.Live at hlive ⊢
  rwa [h.used, h.seq, h.nsems] at hlive

/-- The step `e` with the result `res` is accounted for. -/
def Books (k : UndoKey) (st : SemState) (e : SemEvent) (res : Reply × SemState) : Prop :=
  k.Live res.2 → Accounted k st (e, res.1) res.2

variable {e : SemEvent} {r : Reply}

/-- A step that resets and adds nothing, and keeps shapes and amounts. -/
theorem Books.of_same (hresets : k.resets (e, r) = false) (hadds : k.adds (e, r) = 0)
    (hshape : SameShape (st.sets k.slot) (st'.sets k.slot))
    (hamount : st'.undos.amount k = st.undos.amount k) : Books k st e (r, st') := by
  refine fun hlive => ⟨?_, fun _ => hlive.of_shape hshape⟩
  rw [hresets, hadds, hamount, Int.sub_zero]
  rfl

/-- A step that clears the amounts it resets and keeps the others. -/
theorem Books.of_clear (hadds : k.adds (e, r) = 0)
    (hshape : k.resets (e, r) = false → SameShape (st.sets k.slot) (st'.sets k.slot))
    (hamount : st'.undos.amount k = if k.resets (e, r) = true then 0 else st.undos.amount k) :
    Books k st e (r, st') := by
  refine fun hlive => ⟨?_, fun hr => hlive.of_shape (hshape hr)⟩
  rw [hamount, hadds, Int.sub_zero]

theorem semRun_shape (st : SemState) (op : Operation) (slot : SemSlot) :
    SameShape (st.sets slot) ((semRun st op).2.sets slot) := by
  have houtcome := semRun_outcome st op
  generalize (semRun st op).1 = r, (semRun st op).2 = st' at houtcome
  cases houtcome with
  | fault htry | error he hfault hok | refused he htry hbatch => exact SameShape.refl _
  | sleep htry => exact setSems_shape st op.slot (List.length_modify ..) slot
  | applied htry hbatch => exact setSems_shape _ op.slot (applyOps_length ..) slot

theorem semSegment_shape (st : SemState) (call : SemCall) (slot : SemSlot) :
    SameShape (st.sets slot) ((semSegment st call).2.sets slot) := by
  have hcount : ∀ slot' blk, SameShape (st.sets slot) ((st.countOn slot' blk false).sets slot) :=
    fun slot' blk => setSems_shape st slot' (List.length_modify ..) slot
  have hok := semBegin_ok st call
  unfold semSegment
  revert hok
  cases semBegin st call with
  | ended r st₁ =>
    rintro ⟨-, rfl | ⟨slot', blk, rfl⟩⟩
    · exact SameShape.refl _
    · exact hcount slot' blk
  | tries st₁ op =>
    rintro ⟨-, -, -, -, rfl | ⟨blk, rfl⟩⟩
    · exact semRun_shape _ op slot
    · exact (hcount op.slot blk).trans (semRun_shape _ op slot)

/-- A segment that succeeds was about a set that is there. -/
theorem semSegment_success {call : SemCall} (h : (semSegment st call).1 = .ret 0) :
    ∃ op, call.operation = some op ∧ (st.sets op.slot).perm.seq = op.seq := by
  have hok := semBegin_ok st call
  unfold semSegment at h
  revert h hok
  cases semBegin st call with
  | ended r st₁ =>
    rintro ⟨⟩ ⟨⟨hr, -⟩ | ⟨e, he, hr⟩, -⟩
    · cases hr
    · cases hr
      exact absurd he (by decide)
  | tries st₁ op =>
    rintro - ⟨hop, -, hseq, -⟩
    exact ⟨op, hop, hseq⟩

/-- A segment that is all or nothing and does not succeed touches nothing. -/
theorem AllOrNothing.untouched {op : Option Operation} {r : Reply}
    (h : AllOrNothing st op r st') (hr : r ≠ .ret 0) : Untouched st st' := by
  cases r with
  | ret e =>
    rcases h with ⟨rfl, _⟩ | ⟨_, h⟩
    · exact absurd rfl hr
    · exact h
  | sleep op blk => exact h
  | created slot id | fault => exact h.elim

/-- A `semop` that is all or nothing: it subtracts from the amount what it adds to the sum. -/
theorem semop_books (call : SemCall)
    (hatomic : AllOrNothing st call.operation (semSegment st call).1 (semSegment st call).2) :
    Books k st (.semop call) (semSegment st call) := by
  intro hlive
  have hlive' := hlive.of_shape (semSegment_shape st call k.slot)
  refine ⟨?_, fun _ => hlive'⟩
  show _ = st.undos.amount k - k.adds (.semop call, (semSegment st call).1)
  by_cases hret : (semSegment st call).1 = .ret 0
  · obtain ⟨op, hop, hseq⟩ := semSegment_success hret
    rw [hret, hop] at hatomic
    rcases hatomic with ⟨_, o, ho, happlied⟩ | ⟨hneg, _⟩
    · cases ho
      rw [happlied.undo k]
      congr 1
      -- the sequence number of a live key is that of its set
      have hkey : k.slot = op.slot → k.seq = op.seq := by
        intro hslot
        rw [← hseq, ← hslot, hlive'.2.1]
      simp only [Operation.undoSum, UndoKey.adds, hop, hret]
      grind
    · exact absurd hneg (by decide)
  · have hadds : k.adds (.semop call, (semSegment st call).1) = 0 := by
      cases hop : call.operation with
      | none => simp [UndoKey.adds, hop]
      | some op => simp [UndoKey.adds, hop, hret]
    rw [(hatomic.untouched hret).undo k, hadds, Int.sub_zero]

section Steps

variable {st : SemState} {k : UndoKey} (hinv : SemInv st)

include hinv

theorem semget_books (c : Cred) (key nsems : Int) (flag : UInt32) (mem : Bool) :
    Books k st (.semget c key nsems flag mem) (semget st c key nsems flag mem) := by
  rcases semget_cases st c key nsems flag mem with ⟨r, heq⟩ | ⟨slot, _, heq⟩
  · rw [heq]
    exact .of_same rfl rfl (SameShape.refl _) rfl
  · rw [heq]
    refine .of_clear rfl (fun hr => ?_) ?_
    · have hne : k.slot ≠ slot := fun he => by simp [UndoKey.resets, he] at hr
      show SameShape (st.sets k.slot) (Function.update st.sets slot _ k.slot)
      rw [Function.update_of_ne hne]
      exact SameShape.refl _
    · refine Eq.trans ((undoClear_spec hinv.ledger slot none).2 k) ?_
      simp [UndoKey.resets, eq_comm]

theorem rmid_books (c : Cred) (id : Int) : Books k st (.rmid c id) (semRmid st c id) := by
  rcases semRmid_cases st c id with ⟨r, _, heq⟩ | ⟨slot, _, heq⟩
  · rw [heq]
    exact .of_same rfl rfl (SameShape.refl _) rfl
  · rw [heq]
    intro hlive
    -- the set of a live key is not the one that has gone
    have hne : k.slot ≠ slot := by
      rintro rfl
      have := hlive.1
      simp [semRemove] at this
    refine Books.of_same rfl rfl ?_ ?_ hlive
    · show SameShape (st.sets k.slot) (Function.update st.sets slot _ k.slot)
      rw [Function.update_of_ne hne]
      exact SameShape.refl _
    · show (st.undoClear slot none).undos.amount k = _
      rw [(undoClear_spec hinv.ledger slot none).2 k, if_neg fun h => hne h.1]

theorem setval_books (c : Cred) (id num arg : Int) : Books k st (.setval c id num arg)
    (semSetval st c id num arg) := by
  rcases semSetval_cases st c id num arg with ⟨r, hr, heq⟩ | ⟨slot, hid, hnum, _, _, heq⟩
  · rw [heq]
    have hresets : k.resets (.setval c id num arg, .ret r) = false := by
      simp [UndoKey.resets, Int.ne_of_lt hr]
    exact .of_same hresets rfl (SameShape.refl _) rfl
  · rw [heq]
    refine .of_clear rfl (fun _ => setSems_shape st slot (List.length_modify ..) k.slot) ?_
    refine Eq.trans ((undoClear_spec hinv.ledger slot (some num.toNat)).2 k) ?_
    have hslot : idSlot id = some slot := by rw [idSlot, (semById_eq_some hid).2]; rfl
    have hiff : (k.slot = slot ∧ (some num.toNat = none ∨ some num.toNat = some k.num)) ↔
        k.resets (.setval c id num arg, .ret 0) = true := by
      simp only [UndoKey.resets, hslot, decide_eq_true_eq, Option.some.injEq]
      grind
    simp only [hiff]

/-- `SETALL`, under any label that resets the whole slot if it succeeds. -/
theorem setallFinish_books (c : Cred) (slot : SemSlot) (seq : Nat) (vals : Nat → UInt16)
    (hadds : ∀ r, k.adds (e, r) = 0)
    (hresets : ∀ r, k.resets (e, r) = true ↔ r = .ret 0 ∧ slot = k.slot) :
    Books k st e (semSetallFinish st c slot seq vals) := by
  rcases semSetallFinish_cases st c slot seq vals with ⟨r, hr, heq⟩ | ⟨_, _, _, heq⟩
  · rw [heq]
    have hfail : k.resets (e, .ret r) = false := by
      rw [Bool.eq_false_iff, Ne, hresets]
      rintro ⟨h, _⟩
      cases h
      exact absurd hr (by decide)
    exact .of_same hfail (hadds _) (SameShape.refl _) rfl
  · rw [heq]
    refine .of_clear (hadds _) (fun _ => setSems_shape st slot List.length_mapIdx k.slot) ?_
    refine Eq.trans ((undoClear_spec hinv.ledger slot none).2 k) ?_
    simp only [hresets, true_or, and_true, true_and, eq_comm]

theorem setall_books (c : Cred) (id : Int) (vals : Option (Nat → UInt16)) :
    Books k st (.setall c id vals) (semSetall st c id vals) := by
  rcases semSetall_cases st c id vals with ⟨r, hr, heq⟩ | ⟨slot, vs, hid, heq⟩
  · rw [heq]
    have hresets : k.resets (.setall c id vals, .ret r) = false := by
      simp [UndoKey.resets, Int.ne_of_lt hr]
    exact .of_same hresets rfl (SameShape.refl _) rfl
  · rw [heq]
    have hslot : idSlot id = some slot := by rw [idSlot, (semById_eq_some hid).2]; rfl
    exact setallFinish_books hinv c slot _ vs (fun _ => rfl)
      (fun r => by simp [UndoKey.resets, hslot])

theorem exit_books (tgid : Nat) : Books k st (.exit tgid) (.ret 0, semExit st tgid) := by
  refine .of_clear rfl (fun _ => (SemInv.undoAll_spec tgid st.undos st.sets k.slot).1) ?_
  refine Eq.trans ((Ledger.close_spec hinv.ledger fun k => decide (k.tgid = tgid)).2 k) ?_
  simp [UndoKey.resets, eq_comm]

/-- **One step**: it resets an account, or adds to it what it subtracts from the amount. -/
theorem account_step (e : SemEvent) (hsound : ∀ call, e = .semop call →
    AllOrNothing st call.operation (semSegment st call).1 (semSegment st call).2) :
    Books k st e (e.apply st) := by
  cases e with
  | semget c key nsems flag mem => exact semget_books hinv c key nsems flag mem
  | semop call => exact semop_books call (hsound call rfl)
  | rmid c id => exact rmid_books hinv c id
  | ipcSet c slot uid gid mode =>
    have hshape : SameShape (st.sets k.slot) ((semIpcSet st c slot uid gid mode).2.sets k.slot) ∧
        (semIpcSet st c slot uid gid mode).2.undos = st.undos := by
      unfold semIpcSet
      split
      · exact ⟨SameShape.refl _, rfl⟩
      refine ⟨?_, rfl⟩
      rw [sets_setSet]
      split
      · next heq =>
        rw [heq]
        exact ⟨rfl, rfl, rfl, rfl⟩
      · exact SameShape.refl _
    exact .of_same rfl rfl hshape.1 (congrArg (Ledger.amount · k) hshape.2)
  | setval c id num arg => exact setval_books hinv c id num arg
  | setall c id vals => exact setall_books hinv c id vals
  | setallWoken c slot seq vals =>
    exact setallFinish_books hinv c slot seq vals (fun _ => rfl) (fun r => by simp [UndoKey.resets])
  | exit tgid => exact exit_books hinv tgid

end Steps

/-! ## Runs -/

/-- A `semop` step meets the condition for being all or nothing. -/
def SemopSound (st : SemState) (l : SemEvent × Reply) : Prop :=
  ∀ call, l.1 = .semop call → call.Sound st

/-- The amounts are minus the sums of the history. -/
theorem amount_eq_undone {tr : List (SemEvent × Reply)}
    (hrun : Run (semSystem.restrict SemopSound) tr st) :
    ∀ k : UndoKey, k.Live st → st.undos.amount k = -undone k tr := by
  refine Run.invariant_history (P := fun tr st => ∀ k : UndoKey, k.Live st →
    st.undos.amount k = -undone k tr) ?_ ?_ hrun
  · rintro st rfl k ⟨hused, _⟩
    exact absurd hused Bool.false_ne_true
  · rintro tr st ⟨e, r⟩ st' hrun hacc ⟨⟨happly, _⟩, hsound⟩ k hlive
    have hinv := SemInv.of_run hrun.of_restrict
    have hstep := account_step hinv e
      (fun call hcall => segment_atomic hinv (hsound call hcall)) (k := k)
    have happly' : e.apply st = (r, st') := happly
    rw [happly'] at hstep
    obtain ⟨hamount, hbefore⟩ := hstep hlive
    rw [hamount]
    show _ = -(if k.resets (e, r) = true then 0 else undone k tr + k.adds (e, r))
    cases hr : k.resets (e, r) with
    | true => rfl
    | false =>
      rw [hacc k (hbefore hr)]
      simp only [Bool.false_eq_true, if_false]
      omega

/-- What holds of the semaphores after the history `tr`. -/
structure Accounts (tr : List (SemEvent × Reply)) (st : SemState) : Prop where
  /-- The semaphores of a set have values in range. -/
  value : ∀ slot, (st.sets slot).used = true → ∀ num < (st.sets slot).nsems,
    ∃ v, st.value slot num = some v ∧ InRange v
  /-- A process has one entry for a semaphore at most. -/
  single : ∀ (i j : Nat) (k k' : UndoKey) (a a' : Int), st.undos[i]? = some (some (k, a)) →
    st.undos[j]? = some (some (k', a')) → k.tgid = k'.tgid → k.slot = k'.slot →
      k.num = k'.num → i = j
  /-- An entry is in range, and it is minus the sum. -/
  entry : ∀ k a, some (k, a) ∈ st.undos → -semvmx ≤ a ∧ a ≤ semvmx ∧ a = -undone k tr
  /-- A semaphore without an entry has nothing to undo. -/
  absent : ∀ k : UndoKey, k.Live st → k ∉ Ledger.keys st.undos → undone k tr = 0
  /-- An entry is for a semaphore of the set that is in the slot. -/
  live : ∀ k a, some (k, a) ∈ st.undos → k.Live st

/-- **The accounts of the semaphores are right** after every run whose `semop` segments meet the
condition. -/
theorem semaphore_accounts {tr : List (SemEvent × Reply)} {st : SemState}
    (hrun : Run (semSystem.restrict SemopSound) tr st) : Accounts tr st := by
  have hinv := SemInv.of_run hrun.of_restrict
  have hamount := amount_eq_undone hrun
  have hlive : ∀ k a, some (k, a) ∈ st.undos → k.Live st := fun k a ha =>
    hinv.live k ((Ledger.amount_ne_zero hinv.ledger).mpr (Ledger.mem_keys.mpr ⟨a, ha⟩))
  constructor
  · intro slot hused num hnum
    have hlt : num < (st.sets slot).sems.length := (hinv.length slot hused).symm ▸ hnum
    refine ⟨_, by rw [SemState.value, List.getElem?_eq_getElem hlt]; rfl, Int.natCast_nonneg _, ?_⟩
    exact hinv.range slot _ (List.getElem_mem hlt)
  · intro i j k k' a a' hi hj htgid hslot hnum
    have hk := hlive k a (List.mem_of_getElem? hi)
    have hk' := hlive k' a' (List.mem_of_getElem? hj)
    have heq : k = k' := by
      obtain ⟨tgid, slot, seq, num⟩ := k
      obtain ⟨tgid', slot', seq', num'⟩ := k'
      subst htgid hslot hnum
      have hseq : seq = seq' := hk.2.1.symm.trans hk'.2.1
      rw [hseq]
    exact Ledger.index_unique hinv.ledger.nodup hi (heq ▸ hj)
  · intro k a ha
    obtain ⟨_, hlo, hhi⟩ := hinv.ledger.bounded k a ha
    refine ⟨hlo, hhi, ?_⟩
    rw [← hamount k (hlive k a ha), Ledger.amount, Ledger.lookup_of_mem hinv.ledger.nodup ha]
    rfl
  · intro k hk hnot
    have hzero : st.undos.amount k = 0 := by
      by_contra hne
      exact hnot ((Ledger.amount_ne_zero hinv.ledger).mp hne)
    have := hamount k hk
    omega
  · exact hlive

/-- A new set whose semaphore has been raised by 1 with `SEM_UNDO`. -/
theorem semaphore_accounts_post :
    ∃ tr st, Run (semSystem.restrict SemopSound) tr st ∧
      some (leakKey, -1) ∈ st.undos ∧ undone leakKey tr = 1 ∧ Accounts tr st := by
  let st := (SemEvent.apply semBoot (.semget root ipcPrivate 1 0o600 true)).2
  let call : SemCall := .start root 128 1 (some #v[⟨0, 1, true, false⟩])
  have hret : (semSegment st call).1 = .ret 0 := by decide +kernel
  have hget : Run (semSystem.restrict SemopSound)
      [(.semget root ipcPrivate 1 0o600 true, .created ⟨0, by decide⟩ 128)] st :=
    .step (.init rfl) ⟨⟨rfl, by decide⟩, nofun⟩
  have hrun : Run (semSystem.restrict SemopSound)
      [(.semop call, .ret 0), (.semget root ipcPrivate 1 0o600 true, .created ⟨0, by decide⟩ 128)]
      (semSegment st call).2 :=
    .step hget ⟨⟨Prod.ext hret rfl, by simp⟩, fun call h => by
      cases h
      exact ⟨trivial, fun op hop => by cases hop; exact Or.inl (by decide)⟩⟩
  exact ⟨_, _, hrun, by decide +kernel, by decide +kernel, semaphore_accounts hrun⟩

/-- After the call whose adjustments are refused, the entry of the first semaphore is no longer
minus the sum. -/
theorem semaphore_accounts_leak :
    ∃ tr st, Run semSystem tr st ∧ some (leakKey, 32766) ∈ st.undos ∧
      undone leakKey tr = -32767 := by
  exact run_play SemEvent.apply (· = .fault) (leakSetup ++ [.semop leakCall]) semBoot
    (fun _ _ _ hbad => ⟨rfl, hbad⟩) (.init rfl) (by decide +kernel)

end MaeroOS.SysV
