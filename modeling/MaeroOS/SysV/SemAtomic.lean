import MaeroOS.SysV.SemInv

/-!
# All or nothing

What one segment of `do_semtimedop` does to the values and to the adjustments. The values are all
changed or none is: `sem_try` has seen every intermediate value before the first one is written. The
adjustments are added before that, one at a time, and a refused one makes the call take back those
it has added, in the order it added them. Taking back can itself be refused, and the call does not
look: an amount at the bound may not grow even if the next step would shrink it again, and an entry
that was given back may meanwhile belong to another semaphore. `semop_atomic` is about the calls
whose adjustments can be taken back.
-/

namespace MaeroOS.SysV

open Lib (Run Ledger run_play)

/-! ## What a call may do -/

/-- The value of a semaphore, if the set has it. -/
def SemState.value (st : SemState) (slot : SemSlot) (num : Nat) : Option Int :=
  (st.sets slot).sems[num]?.map fun sv => (sv.val : Int)

/-- Every operation has been applied. -/
structure Applied (st : SemState) (op : Operation) (st' : SemState) : Prop where
  known : ∀ o ∈ op.ops, (st.value op.slot o.num).isSome
  value : ∀ num, st'.value op.slot num = (st.value op.slot num).map (· + opSum op.ops num)
  between : ∀ pre, pre <+: op.ops → ∀ num v, st.value op.slot num = some v →
    InRange (v + opSum pre num)
  others : ∀ slot, slot ≠ op.slot → ∀ num, st'.value slot num = st.value slot num
  undo : ∀ k, st'.undos.amount k = st.undos.amount k - op.undoSum k

/-- Every value and every adjustment is as it was. -/
structure Untouched (st st' : SemState) : Prop where
  value : ∀ slot num, st'.value slot num = st.value slot num
  undo : ∀ k, st'.undos.amount k = st.undos.amount k

/-- All of the operations, or none: a segment that returns 0 has applied them all, one that returns
an error or goes to sleep has changed nothing. -/
def AllOrNothing (st : SemState) (op : Option Operation) : Reply → SemState → Prop
  | .ret r, st' => (r = 0 ∧ ∃ o, op = some o ∧ Applied st o st') ∨ (r < 0 ∧ Untouched st st')
  | .sleep _ _, st' => Untouched st st'
  | .created _ _, _ => False
  | .fault, _ => False

/-- The condition on a segment: a call that wakes up finds its semaphores, and the adjustments of
the call can be taken back. -/
def SemCall.Sound (st : SemState) (call : SemCall) : Prop :=
  call.Known st ∧
    ∀ op, call.operation = some op → Ledger.Reversible semvmx st.undos (undoPostings op)

theorem Untouched.refl (st : SemState) : Untouched st st := ⟨fun _ _ => rfl, fun _ => rfl⟩

/-- Being all or nothing is a matter of values and amounts only. -/
theorem Untouched.allOrNothing {st st₁ : SemState} (h : Untouched st st₁) {op : Option Operation}
    {r : Reply} {st' : SemState} (hatomic : AllOrNothing st₁ op r st') :
    AllOrNothing st op r st' := by
  have huntouched : Untouched st₁ st' → Untouched st st' := fun hu =>
    ⟨fun slot num => by rw [hu.value, h.value], fun k => by rw [hu.undo, h.undo]⟩
  have happlied : ∀ o, Applied st₁ o st' → Applied st o st' := by
    rintro o ⟨hk, hv, hb, ho, hu⟩
    simp only [h.value, h.undo] at hk hv hb ho hu
    exact ⟨hk, hv, hb, ho, hu⟩
  cases r with
  | ret r =>
    rcases hatomic with ⟨hr, o, ho, ha⟩ | ⟨he, hu⟩
    · exact .inl ⟨hr, o, ho, happlied o ha⟩
    · exact .inr ⟨he, huntouched hu⟩
  | sleep o blk => exact huntouched hatomic
  | created slot id | fault => exact hatomic

/-! ## One segment -/

theorem value_setSems (st : SemState) (slot : SemSlot) (sems : List SemVal) (slot' : SemSlot)
    (num : Nat) :
    (st.setSems slot sems).value slot' num =
      if slot' = slot then sems[num]?.map fun sv => (sv.val : Int) else st.value slot' num := by
  rw [SemState.value, SemState.setSems, sets_setSet]
  split
  · rfl
  · rfl

/-- Counting a waiter touches no value. -/
theorem untouched_countOn (st : SemState) (slot : SemSlot) (blk : SemBuf) (more : Bool) :
    Untouched st (st.countOn slot blk more) := by
  refine ⟨fun slot' num => ?_, fun k => rfl⟩
  rw [SemState.countOn, value_setSems]
  split
  · next heq =>
    subst heq
    rw [List.getElem?_modify, SemState.value, Option.map_eq_map, Option.map_map]
    congr 1
    funext sv
    simp only [Function.comp, countWaiter]
    grind
  · rfl

section Run

variable {st : SemState} {op : Operation} (hinv : SemInv st)
  (htry : semTry (st.sets op.slot).sems [] op.ops = .ok)

include hinv htry

/-- A call whose adjustments have all been added applies its operations. -/
theorem applied_of_success (hbatch : (undoBatch st.undos op).1 = none) :
    Applied st op (SemState.setSems { st with undos := (undoBatch st.undos op).2 } op.slot
      (applyOps op.tgid op.ops (st.sets op.slot).sems)) := by
  obtain ⟨hpre, hnum⟩ := hinv.semTry_ok htry
  constructor
  · intro o ho
    simpa [SemState.value] using hnum o ho
  · intro num
    rw [value_setSems, if_pos rfl, SemState.value]
    cases hsv : (st.sets op.slot).sems[num]? with
    | none =>
      have hnone : (applyOps op.tgid op.ops (st.sets op.slot).sems)[num]? = none := by
        rw [List.getElem?_eq_none_iff, applyOps_length]
        exact List.getElem?_eq_none_iff.mp hsv
      rw [hnone]
      rfl
    | some sv =>
      obtain ⟨sv', hsv', hval⟩ := applyOps_val op.tgid op.ops _ hpre num sv hsv
      rw [hsv']
      exact congrArg some hval
  · intro pre hp num v hv
    obtain ⟨sv, hsv, rfl⟩ := Option.map_eq_some_iff.mp hv
    exact hpre pre hp num sv hsv
  · intro slot hne num
    rw [value_setSems, if_neg hne]
    rfl
  · exact (undoBatch_spec hinv.ledger (op_small hpre hnum)).2 hbatch

/-- A call whose adjustments are refused touches nothing if they can be taken back. -/
theorem untouched_of_refusal (hrev : Ledger.Reversible semvmx st.undos (undoPostings op))
    {r : Ledger.Refusal}
    (hbatch : (undoBatch st.undos op).1 = some r) :
    Untouched st { st with undos := (undoBatch st.undos op).2 } := by
  obtain ⟨hpre, hnum⟩ := hinv.semTry_ok htry
  have hrefused : (undoBatch st.undos op).1 ≠ none := by simp [hbatch]
  exact ⟨fun slot num => rfl,
    Ledger.batch_atomic hinv.ledger (small_undoPostings (op_small hpre hnum)) hrev hrefused⟩

end Run

/-- The loop body is all or nothing. -/
theorem semRun_allOrNothing {st : SemState} {op : Operation} (hinv : SemInv st)
    (hnum : ∀ o ∈ op.ops, o.num < (st.sets op.slot).sems.length)
    (hrev : Ledger.Reversible semvmx st.undos (undoPostings op)) :
    AllOrNothing st (some op) (semRun st op).1 (semRun st op).2 := by
  have houtcome := semRun_outcome st op
  generalize (semRun st op).1 = r, (semRun st op).2 = st' at houtcome
  cases houtcome with
  | fault htry => exact semTry_ne_fault hnum htry
  | error he hfault hok => exact Or.inr ⟨he, Untouched.refl st⟩
  | sleep htry => exact untouched_countOn st op.slot _ true
  | refused he htry hbatch => exact Or.inr ⟨he, untouched_of_refusal hinv htry hrev hbatch⟩
  | applied htry hbatch => exact Or.inl ⟨rfl, op, rfl, applied_of_success hinv htry hbatch⟩

/-- A segment that meets the condition is all or nothing. -/
theorem segment_atomic {st : SemState} (hinv : SemInv st) {call : SemCall}
    (hsound : call.Sound st) :
    AllOrNothing st call.operation (semSegment st call).1 (semSegment st call).2 := by
  obtain ⟨hknown, hrev⟩ := hsound
  have hok := semBegin_ok st call
  unfold semSegment
  revert hok
  cases semBegin st call with
  | ended r st₁ =>
    rintro ⟨hr, hst⟩
    have huntouched : Untouched st st₁ := by
      rcases hst with rfl | ⟨slot, blk, rfl⟩
      · exact Untouched.refl _
      · exact untouched_countOn st slot blk false
    rcases hr with ⟨rfl, hfault⟩ | ⟨e, he, rfl⟩
    · exact hfault hknown
    · exact Or.inr ⟨he, huntouched⟩
  | tries st₁ op =>
    rintro ⟨hop, hused, -, hnum, hst⟩
    replace hnum := hnum hknown (hinv.length op.slot hused)
    rw [hop]
    rcases hst with rfl | ⟨blk, rfl⟩
    · exact semRun_allOrNothing hinv hnum (hrev op hop)
    · -- counting the waiter out changes no number of semaphores and no adjustment
      have hlen : ((st.countOn op.slot blk false).sets op.slot).sems.length =
          (st.sets op.slot).sems.length := by
        simp [SemState.countOn, SemState.setSems, sets_setSet]
      exact (untouched_countOn st op.slot blk false).allOrNothing
        (semRun_allOrNothing (hinv.countOn op.slot blk false) (fun o ho => hlen ▸ hnum o ho)
          (hrev op hop))

/-- Two semaphores at the maximum are taken to 0 with `SEM_UNDO`, then one is raised by 1
without. -/
def leakSetup : List SemEvent :=
  [ .semget root ipcPrivate 2 0o600 true,
    .setall root 128 (some fun _ => 32767),
    .semop (.start root 128 2 (some #v[⟨0, -32767, true, false⟩, ⟨1, -32767, true, false⟩])),
    .semop (.start root 128 1 (some #v[⟨1, 1, false, false⟩])) ]

/-- Up and down on the first, which is fine, then down on the second, whose adjustment is
refused. -/
def leakCall : SemCall :=
  .start root 128 3 (some #v[⟨0, 1, true, false⟩, ⟨0, -1, true, false⟩, ⟨1, -1, true, false⟩])

def leakKey : UndoKey := ⟨1, ⟨0, semmni_pos⟩, 1, 0⟩

/-- Up on the first, then down on the second, whose adjustment is refused. -/
def refusedCall : SemCall :=
  .start root 128 2 (some #v[⟨0, 1, true, false⟩, ⟨1, -1, true, false⟩])

end MaeroOS.SysV
