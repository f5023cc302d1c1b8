import MaeroOS.SysV.Sem

/-!
# The invariant of the semaphores

`sem_try` sees every intermediate value before `do_semtimedop` writes the first one, so the 16-bit
arithmetic of the loop that writes them never wraps (`applyOps_val`). The rest of the invariant is
about the adjustments: the table is a good ledger, and an amount belongs to a semaphore of a set
that is there under the sequence number of the key.
-/

namespace MaeroOS.SysV

open List
open Lib (Run Ledger)

/-! ## Sums of operations -/

@[simp] theorem opSum_nil (num : Nat) : opSum [] num = 0 := rfl

theorem opSum_cons (o : SemBuf) (ops : List SemBuf) (num : Nat) :
    opSum (o :: ops) num = (if o.num = num then o.op else 0) + opSum ops num := by
  unfold opSum
  by_cases h : o.num = num
  · simp [h]
  · simp [h]

theorem opSum_append (ops ops' : List SemBuf) (num : Nat) :
    opSum (ops ++ ops') num = opSum ops num + opSum ops' num := by
  simp [opSum]

/-! ## Trying -/

/-- The semaphore can hold this value. -/
def InRange (v : Int) : Prop := 0 ≤ v ∧ v ≤ semvmx

/-- Every semaphore of the list has a value it can hold after the operations `ops`. -/
def RangeAfter (sems : List SemVal) (ops : List SemBuf) : Prop :=
  ∀ num sv, sems[num]? = some sv → InRange ((sv.val : Int) + opSum ops num)

/-- One operation that `sem_try` passes. -/
theorem rangeAfter_snoc {sems : List SemVal} {done : List SemBuf} {o : SemBuf} {sv : SemVal}
    (hdone : RangeAfter sems done) (hsv : sems[o.num]? = some sv)
    (hlo : 0 ≤ (sv.val : Int) + opSum done o.num + o.op)
    (hhi : (sv.val : Int) + opSum done o.num + o.op ≤ semvmx) : RangeAfter sems (done ++ [o]) := by
  intro num sv' hsv'
  rw [opSum_append, opSum_cons, opSum_nil]
  have hrange := hdone num sv' hsv'
  by_cases h : o.num = num
  · subst h
    rw [hsv] at hsv'
    cases hsv'
    rw [if_pos rfl]
    exact ⟨by omega, by omega⟩
  · rw [if_neg h]
    exact ⟨by have := hrange.1; omega, by have := hrange.2; omega⟩

/-- **`sem_try` has seen every intermediate value.** -/
theorem semTry_ok : ∀ (rest done : List SemBuf) (sems : List SemVal),
    semTry sems done rest = .ok → RangeAfter sems done →
    (∀ pre, pre <+: rest → RangeAfter sems (done ++ pre)) ∧ ∀ o ∈ rest, o.num < sems.length := by
  intro rest
  induction rest with
  | nil =>
    intro done sems _ hdone
    refine ⟨fun pre hpre => ?_, nofun⟩
    rw [prefix_nil.mp hpre, append_nil]
    exact hdone
  | cons o rest ih =>
    intro done sems htry hdone
    unfold semTry at htry
    rcases hsv : sems[o.num]? with _ | sv
    · simp [hsv] at htry
    simp only [hsv] at htry
    have hv := hdone o.num sv hsv
    -- whichever test the operation passes, its value is in range and the rest is tried
    have hstep : semTry sems (done ++ [o]) rest = .ok ∧ RangeAfter sems (done ++ [o]) := by
      split at htry
      · split at htry
        · cases htry
        · exact ⟨htry, rangeAfter_snoc hdone hsv (by have := hv.1; omega) (by omega)⟩
      · split at htry
        · split at htry
          · cases htry
          · exact ⟨htry, rangeAfter_snoc hdone hsv (by have := hv.1; omega)
              (by have := hv.2; omega)⟩
        · split at htry
          · cases htry
          · exact ⟨htry, rangeAfter_snoc hdone hsv (by omega) (by have := hv.2; omega)⟩
    obtain ⟨hpre, hnum⟩ := ih (done ++ [o]) sems hstep.1 hstep.2
    refine ⟨fun pre hpre' => ?_, ?_⟩
    · cases pre with
      | nil => simpa using hdone
      | cons o' pre =>
        obtain ⟨rfl, htail⟩ := cons_prefix_cons.mp hpre'
        simpa using hpre pre htail
    · intro o' ho'
      rcases mem_cons.mp ho' with rfl | ho'
      · exact (List.getElem?_eq_some_iff.mp hsv).1
      · exact hnum o' ho'

theorem semTry_ne_fault {sems : List SemVal} {done rest : List SemBuf}
    (h : ∀ o ∈ rest, o.num < sems.length) : semTry sems done rest ≠ .fault := by
  fun_induction semTry sems done rest with
  | case2 done o rest hnone =>
    exact absurd (h o mem_cons_self) (Nat.not_lt.mpr (List.getElem?_eq_none_iff.mp hnone))
  | case4 done o rest sv hsv v hpos hle ih | case6 done o rest sv hsv v hpos hzero hv ih
  | case8 done o rest sv hsv v hpos hzero hle ih =>
      exact ih fun o' ho' => h o' (mem_cons_of_mem o ho')
  | case1 | case3 | case5 | case7 => nofun

/-- The operations of a call that passes are no larger than a value. -/
theorem op_small {sems : List SemVal} {ops : List SemBuf}
    (hpre : ∀ pre, pre <+: ops → RangeAfter sems pre) (hnum : ∀ o ∈ ops, o.num < sems.length) :
    ∀ o ∈ ops, -semvmx ≤ o.op ∧ o.op ≤ semvmx := by
  intro o ho
  obtain ⟨pre, suf, rfl⟩ := append_of_mem ho
  obtain ⟨sv, hsv⟩ : ∃ sv, sems[o.num]? = some sv := ⟨_, List.getElem?_eq_getElem (hnum o ho)⟩
  have h₁ := hpre pre (prefix_append _ _) o.num sv hsv
  have h₂ := hpre (pre ++ [o]) (by simp) o.num sv hsv
  rw [opSum_append, opSum_cons, opSum_nil, if_pos rfl] at h₂
  obtain ⟨h₁l, h₁h⟩ := h₁
  obtain ⟨h₂l, h₂h⟩ := h₂
  omega

/-! ## Applying -/

theorem applyOps_length (tgid : Nat) (ops : List SemBuf) : ∀ sems : List SemVal,
    (applyOps tgid ops sems).length = sems.length := by
  induction ops with
  | nil => exact fun _ => rfl
  | cons o ops ih =>
    intro sems
    show (applyOps tgid ops (sems.modify o.num _)).length = _
    rw [ih, length_modify]

/-- The values after the loop, given that no step of it leaves the range. -/
theorem applyOps_val (tgid : Nat) : ∀ (ops : List SemBuf) (sems : List SemVal),
    (∀ pre, pre <+: ops → RangeAfter sems pre) →
    ∀ num sv, sems[num]? = some sv →
      ∃ sv', (applyOps tgid ops sems)[num]? = some sv' ∧
        (sv'.val : Int) = (sv.val : Int) + opSum ops num := by
  intro ops
  induction ops with
  | nil => exact fun sems _ num sv hsv => ⟨sv, hsv, by simp⟩
  | cons o ops ih =>
    intro sems hpre num sv hsv
    show ∃ sv', (applyOps tgid ops (sems.modify o.num _))[num]? = some sv' ∧ _
    set f : SemVal → SemVal := fun sv =>
      { sv with val := (((sv.val : Int) + o.op) % 65536).toNat, pid := tgid } with hf
    -- the value one operation leaves
    have hone : ∀ num sv, sems[num]? = some sv → ∃ sv₁, (sems.modify o.num f)[num]? = some sv₁ ∧
        (sv₁.val : Int) = (sv.val : Int) + if o.num = num then o.op else 0 := by
      intro num sv hsv
      have hrange := hpre [o] (by simp) num sv hsv
      rw [opSum_cons, opSum_nil] at hrange
      rw [List.getElem?_modify, hsv]
      by_cases h : o.num = num
      · rw [if_pos h] at hrange
        rw [if_pos h]
        refine ⟨f sv, by simp [h], ?_⟩
        obtain ⟨hlo, hhi⟩ := hrange
        have : semvmx = 32767 := rfl
        show ((((sv.val : Int) + o.op) % 65536).toNat : Int) = _
        omega
      · exact ⟨sv, by simp [h], by simp [h]⟩
    have hpre₁ : ∀ pre, pre <+: ops → RangeAfter (sems.modify o.num f) pre := by
      intro pre hpre' num sv₁ hsv₁
      have hlt : num < sems.length := by
        have := (List.getElem?_eq_some_iff.mp hsv₁).1
        rwa [length_modify] at this
      obtain ⟨sv₁', hsv₁', hval⟩ := hone num _ (List.getElem?_eq_getElem hlt)
      rw [hsv₁] at hsv₁'
      cases hsv₁'
      have := hpre (o :: pre) (cons_prefix_cons.mpr ⟨rfl, hpre'⟩) num _
        (List.getElem?_eq_getElem hlt)
      rw [opSum_cons] at this
      rw [hval]
      exact ⟨by have := this.1; omega, by have := this.2; omega⟩
    obtain ⟨sv₁, hsv₁, hval₁⟩ := hone num sv hsv
    obtain ⟨sv', hsv', hval'⟩ := ih _ hpre₁ num sv₁ hsv₁
    refine ⟨sv', hsv', ?_⟩
    rw [hval', hval₁, opSum_cons]
    omega

/-! ## Adjustments -/

/-- What the operations of `op` with `SEM_UNDO` add up to, on the semaphore of an adjustment. -/
def Operation.undoSum (op : Operation) (k : UndoKey) : Int :=
  if k.tgid = op.tgid ∧ k.slot = op.slot ∧ k.seq = op.seq then
    opSum (op.ops.filter SemBuf.undo) k.num
  else 0

/-- A call adds minus what its operations add up to. -/
theorem total_undoPostings (op : Operation) (k : UndoKey) :
    Ledger.total (undoPostings op) k = -op.undoSum k := by
  unfold undoPostings Operation.undoSum
  induction op.ops.filter SemBuf.undo with
  | nil => simp
  | cons o ops ih =>
    rw [map_cons, Ledger.total_cons, ih, opSum_cons]
    obtain ⟨tgid, slot, seq, num⟩ := k
    grind

section Batch

variable {undos : Ledger UndoKey} {op : Operation} (hok : Ledger.Ok semvmx undos)
  (hsmall : ∀ o ∈ op.ops, -semvmx ≤ o.op ∧ o.op ≤ semvmx)

include hok hsmall

omit hok in
theorem small_undoPostings : Ledger.Small semvmx (undoPostings op) := by
  intro p hp
  obtain ⟨o, ho, rfl⟩ := mem_map.mp hp
  have := hsmall o (mem_filter.mp ho).1
  show -semvmx ≤ -o.op ∧ -o.op ≤ semvmx
  omega

/-- What the adjustments are afterwards: `batch_spec` for the postings of a call. -/
theorem undoBatch_spec :
    Ledger.Ok semvmx (undoBatch undos op).2 ∧
      ((undoBatch undos op).1 = none →
        ∀ k, Ledger.amount (undoBatch undos op).2 k = Ledger.amount undos k - op.undoSum k) := by
  obtain ⟨hok', htotal, -⟩ :=
    Ledger.batch_spec hok (small_undoPostings hsmall) (fun _ h => absurd h not_mem_nil)
  refine ⟨hok', fun hnone k => (htotal hnone k).trans ?_⟩
  rw [total_undoPostings]
  rfl

/-- A call only gives amounts to semaphores it operates on. -/
theorem undoBatch_key {k : UndoKey} (h : Ledger.amount (undoBatch undos op).2 k ≠ 0) :
    Ledger.amount undos k ≠ 0 ∨ ∃ o ∈ op.ops, k = ⟨op.tgid, op.slot, op.seq, o.num⟩ := by
  obtain ⟨-, -, hothers⟩ :=
    Ledger.batch_spec hok (small_undoPostings hsmall) (fun _ h => absurd h not_mem_nil)
  by_cases hk : k ∈ (undoPostings op).map Prod.fst
  · obtain ⟨p, hp, rfl⟩ := mem_map.mp hk
    obtain ⟨o, ho, rfl⟩ := mem_map.mp hp
    exact Or.inr ⟨o, (mem_filter.mp ho).1, rfl⟩
  · exact Or.inl fun hzero => h ((hothers k hk).trans hzero)

end Batch

/-! ## What the operations do

One case lemma for each: it fails and leaves the state alone, or it does this.
-/

/-- The operations a call is about. -/
def SemCall.operation : SemCall → Option Operation
  | .start c id _ uops =>
      match idSplit semmni semmni_pos id, uops with
      | some (slot, seq), some ops => some ⟨slot, seq, c.tgid, ops.toList⟩
      | _, _ => none
  | .woken op _ _ => some op

section Cases

variable (st : SemState) (c : Cred)

theorem semById_eq_some {st : SemState} {id : Int} {slot : SemSlot}
    (h : st.semById id = some slot) : (st.sets slot).used = true ∧
      idSplit semmni semmni_pos id = some (slot, (st.sets slot).perm.seq) := by
  unfold SemState.semById at h
  split at h
  · cases h
  next slot' seq hid =>
  split at h
  · next hthere =>
    cases h
    exact ⟨hthere.1, by rw [hid, hthere.2]⟩
  · cases h

theorem freeSlot_eq_some {st : SemState} {slot : SemSlot} (h : st.freeSlot = some slot) :
    (st.sets slot).used = false := by
  have := List.find?_some h
  simpa using this

theorem semget_cases (key nsems : Int) (flag : UInt32) (mem : Bool) :
    (∃ r, semget st c key nsems flag mem = (.ret r, st)) ∨
      ∃ slot, (st.sets slot).used = false ∧
        semget st c key nsems flag mem =
          (.created slot (idOf slot st.seqNext), semCreate st c key nsems.toNat flag slot) := by
  unfold semget
  split
  · -- an existing set is only looked at
    split
    · exact Or.inl ⟨_, rfl⟩
    split
    · exact Or.inl ⟨_, rfl⟩
    split
    · exact Or.inl ⟨_, rfl⟩
    · exact Or.inl ⟨_, rfl⟩
  · split
    · exact Or.inl ⟨_, rfl⟩
    split
    · exact Or.inl ⟨_, rfl⟩
    split
    · exact Or.inl ⟨_, rfl⟩
    split
    · exact Or.inl ⟨_, rfl⟩
    next slot hfree =>
    split
    · exact Or.inl ⟨_, rfl⟩
    · exact Or.inr ⟨slot, freeSlot_eq_some hfree, rfl⟩

theorem semRmid_cases (id : Int) : (∃ r, r < 0 ∧ semRmid st c id = (.ret r, st)) ∨
      ∃ slot, st.semById id = some slot ∧ semRmid st c id = (.ret 0, semRemove st slot) := by
  unfold semRmid
  split
  · exact Or.inl ⟨_, by decide, rfl⟩
  next slot hid =>
  split
  · exact Or.inl ⟨_, by decide, rfl⟩
  · exact Or.inr ⟨slot, hid, rfl⟩

theorem semSetval_cases (id num arg : Int) :
    (∃ r, r < 0 ∧ semSetval st c id num arg = (.ret r, st)) ∨
      ∃ slot, st.semById id = some slot ∧ 0 ≤ num ∧ 0 ≤ arg ∧ arg ≤ semvmx ∧
        semSetval st c id num arg = (.ret 0, (st.setSems slot
          ((st.sets slot).sems.modify num.toNat fun sv =>
            { sv with val := arg.toNat, pid := c.tgid })).undoClear slot (some num.toNat)) := by
  unfold semSetval
  split
  · exact Or.inl ⟨_, by decide, rfl⟩
  next slot hid =>
  split
  · exact Or.inl ⟨_, by decide, rfl⟩
  split
  · exact Or.inl ⟨_, by decide, rfl⟩
  next hnum =>
  split
  · exact Or.inl ⟨_, by decide, rfl⟩
  · next harg => exact Or.inr ⟨slot, hid, by omega, by omega, by omega, rfl⟩

theorem semSetallFinish_cases (slot : SemSlot) (seq : Nat) (vals : Nat → UInt16) :
    (∃ r, r < 0 ∧ semSetallFinish st c slot seq vals = (.ret r, st)) ∨
      ((st.sets slot).used = true ∧ (st.sets slot).perm.seq = seq ∧
        (∀ i < (st.sets slot).nsems, ((vals i).toNat : Int) ≤ semvmx) ∧
        semSetallFinish st c slot seq vals = (.ret 0, (st.setSems slot
          ((st.sets slot).sems.mapIdx fun i sv =>
            { sv with val := (vals i).toNat, pid := c.tgid })).undoClear slot none)) := by
  unfold semSetallFinish
  split
  · exact Or.inl ⟨_, by decide, rfl⟩
  next hthere =>
  split
  · exact Or.inl ⟨_, by decide, rfl⟩
  next hvals =>
  obtain ⟨hused, hseq⟩ := not_or.mp hthere
  refine Or.inr ⟨eq_true_of_ne_false hused, not_not.mp hseq, fun i hi => ?_, rfl⟩
  by_contra hgt
  exact hvals (any_eq_true.mpr ⟨i, mem_range.mpr hi, by simpa using hgt⟩)

theorem semSetall_cases (id : Int) (vals : Option (Nat → UInt16)) :
    (∃ r, r < 0 ∧ semSetall st c id vals = (.ret r, st)) ∨
      ∃ slot vs, st.semById id = some slot ∧
        semSetall st c id vals = semSetallFinish st c slot (st.sets slot).perm.seq vs := by
  unfold semSetall semSetallBegin
  cases hid : st.semById id with
  | none => exact Or.inl ⟨_, by decide, rfl⟩
  | some slot =>
    by_cases hperm : ipcperms c (st.sets slot).perm 0o222 = false
    · simp only [hperm, if_true]
      exact Or.inl ⟨_, by decide, rfl⟩
    · simp only [hperm, Bool.true_eq_false, if_false]
      cases vals with
      | none => exact Or.inl ⟨_, by decide, rfl⟩
      | some vs => exact Or.inr ⟨slot, vs, rfl, rfl⟩

/-- How the loop body of `do_semtimedop` ends. -/
inductive RunOutcome (st : SemState) (op : Operation) : Reply → SemState → Prop
  | fault (htry : semTry (st.sets op.slot).sems [] op.ops = .fault) : RunOutcome st op .fault st
  | error {e : Int} (he : e < 0) (hfault : semTry (st.sets op.slot).sems [] op.ops ≠ .fault)
      (hok : semTry (st.sets op.slot).sems [] op.ops ≠ .ok) : RunOutcome st op (.ret e) st
  | sleep {blk : SemBuf} (htry : semTry (st.sets op.slot).sems [] op.ops = .block blk) :
      RunOutcome st op (.sleep op blk) (st.countOn op.slot blk true)
  | refused {r : Ledger.Refusal} {e : Int} (he : e < 0)
      (htry : semTry (st.sets op.slot).sems [] op.ops = .ok)
      (hbatch : (undoBatch st.undos op).1 = some r) :
      RunOutcome st op (.ret e) { st with undos := (undoBatch st.undos op).2 }
  | applied (htry : semTry (st.sets op.slot).sems [] op.ops = .ok)
      (hbatch : (undoBatch st.undos op).1 = none) :
      RunOutcome st op (.ret 0)
        (SemState.setSems { st with undos := (undoBatch st.undos op).2 } op.slot
          (applyOps op.tgid op.ops (st.sets op.slot).sems))

theorem semRun_outcome (op : Operation) : RunOutcome st op (semRun st op).1 (semRun st op).2 := by
  unfold semRun
  cases htry : semTry (st.sets op.slot).sems [] op.ops with
  | fault => exact .fault htry
  | range => exact .error (by decide) (by simp [htry]) (by simp [htry])
  | block blk =>
    dsimp only
    split
    · exact .error (by decide) (by simp [htry]) (by simp [htry])
    · exact .sleep htry
  | ok =>
    -- the two components of the batch, back in terms of `undoBatch`
    have hcases := @RunOutcome.refused st op
    have happlied := RunOutcome.applied htry
    generalize undoBatch st.undos op = b at hcases happlied
    obtain ⟨refusal, undos⟩ := b
    cases refusal with
    | none => exact happlied rfl
    | some r =>
      cases r with
      | bound | full => exact hcases (by decide) htry rfl

/-- A call that wakes up finds its semaphores in the set under the slot and the sequence number it
remembers. -/
def SemCall.Known (st : SemState) : SemCall → Prop
  | .start .. => True
  | .woken op blk _ => (st.sets op.slot).used = true → (st.sets op.slot).perm.seq = op.seq →
      ∀ o ∈ blk :: op.ops, o.num < (st.sets op.slot).sems.length

/-- How a segment begins: it is over before its operations are tried, or it tries those it was
called with, on a set that is there. -/
def Begun.Ok (st : SemState) (call : SemCall) : Begun → Prop
  | ended r st₁ => (r = .fault ∧ ¬ call.Known st ∨ ∃ e, e < 0 ∧ r = .ret e) ∧
      (st₁ = st ∨ ∃ slot blk, st₁ = st.countOn slot blk false)
  | tries st₁ op => call.operation = some op ∧ (st.sets op.slot).used = true ∧
      (st.sets op.slot).perm.seq = op.seq ∧
      (call.Known st → (st.sets op.slot).sems.length = (st.sets op.slot).nsems →
        ∀ o ∈ op.ops, o.num < (st.sets op.slot).sems.length) ∧
      (st₁ = st ∨ ∃ blk, st₁ = st.countOn op.slot blk false)

theorem semBegin_ok (call : SemCall) : (semBegin st call).Ok st call := by
  have herr : ∀ e : Int, e < 0 → (Begun.ended (.ret e) st).Ok st call :=
    fun e he => ⟨Or.inr ⟨e, he, rfl⟩, Or.inl rfl⟩
  cases call with
  | start c id nops uops =>
    show (semStart st c id nops uops).Ok st _
    unfold semStart
    split
    · exact herr _ (by decide)
    split
    · exact herr _ (by decide)
    split
    · exact herr _ (by decide)
    split
    · exact herr _ (by decide)
    next ops _ slot hid =>
    split
    · exact herr _ (by decide)
    next hnums =>
    split
    · exact herr _ (by decide)
    obtain ⟨hused, hsplit⟩ := semById_eq_some hid
    refine ⟨by simp [SemCall.operation, hsplit], hused, rfl, fun _ hlen o ho => ?_, Or.inl rfl⟩
    rw [hlen]
    by_contra hge
    exact hnums (any_eq_true.mpr ⟨o, ho, by simpa using hge⟩)
  | woken op blk w =>
    show (semResume st op blk w).Ok st _
    unfold semResume
    split
    · exact herr _ (by decide)
    next hthere =>
    obtain ⟨hused, hseq⟩ := not_or.mp hthere
    replace hused := eq_true_of_ne_false hused
    replace hseq := not_not.mp hseq
    split
    · next hge =>
      exact ⟨Or.inl ⟨rfl, fun hknown =>
        absurd (hknown hused hseq blk mem_cons_self) (Nat.not_lt.mpr hge)⟩, Or.inl rfl⟩
    cases w with
    | woken =>
      exact ⟨rfl, hused, hseq, fun hknown _ o ho => hknown hused hseq o (mem_cons_of_mem blk ho),
        Or.inr ⟨blk, rfl⟩⟩
    | intr | timeout => exact ⟨Or.inr ⟨_, by decide, rfl⟩, Or.inr ⟨_, _, rfl⟩⟩

end Cases

/-! ## The invariant -/

/-- The semaphore of an adjustment exists. -/
def UndoKey.Live (st : SemState) (k : UndoKey) : Prop :=
  (st.sets k.slot).used = true ∧ (st.sets k.slot).perm.seq = k.seq ∧ k.num < (st.sets k.slot).nsems

/-- No value is above the maximum. -/
def SemSet.Bounded (s : SemSet) : Prop := ∀ sv ∈ s.sems, (sv.val : Int) ≤ semvmx

structure SemInv (st : SemState) : Prop where
  length : ∀ slot, (st.sets slot).used = true → (st.sets slot).sems.length = (st.sets slot).nsems
  range : ∀ slot, (st.sets slot).Bounded
  ledger : Ledger.Ok semvmx st.undos
  live : ∀ k, st.undos.amount k ≠ 0 → k.Live st

theorem forall_mem_modify {α : Type} {p : α → Prop} {l : List α} {i : Nat} {f : α → α}
    (h : ∀ x ∈ l, p x) (hf : ∀ x, p x → p (f x)) : ∀ x ∈ l.modify i f, p x := by
  intro x hx
  obtain ⟨j, hj⟩ := mem_iff_getElem?.mp hx
  rw [List.getElem?_modify] at hj
  obtain ⟨y, hy, rfl⟩ := Option.map_eq_some_iff.mp hj
  have hp := h y (mem_of_getElem? hy)
  split
  · exact hf y hp
  · exact hp

/-- The set is the same but for values, waiters and permissions. -/
structure SameShape (s s' : SemSet) : Prop where
  used : s'.used = s.used
  seq : s'.perm.seq = s.perm.seq
  nsems : s'.nsems = s.nsems
  length : s'.sems.length = s.sems.length

theorem SameShape.refl (s : SemSet) : SameShape s s := ⟨rfl, rfl, rfl, rfl⟩

theorem SameShape.trans {s₁ s₂ s₃ : SemSet} (h : SameShape s₁ s₂) (h' : SameShape s₂ s₃) :
    SameShape s₁ s₃ :=
  ⟨h'.used.trans h.used, h'.seq.trans h.seq, h'.nsems.trans h.nsems, h'.length.trans h.length⟩

theorem sets_setSet (st : SemState) (slot : SemSlot) (s : SemSet) (slot' : SemSlot) :
    (st.setSet slot s).sets slot' = if slot' = slot then s else st.sets slot' :=
  Function.update_apply _ _ _ _

theorem setSems_shape (st : SemState) (slot : SemSlot) {sems : List SemVal}
    (hlength : sems.length = (st.sets slot).sems.length) (slot' : SemSlot) :
    SameShape (st.sets slot') ((st.setSems slot sems).sets slot') := by
  rw [SemState.setSems, sets_setSet]
  split
  · next heq =>
    subst heq
    exact ⟨rfl, rfl, rfl, hlength⟩
  · exact SameShape.refl _

/-- What `undo_clear` leaves. -/
theorem undoClear_spec {st : SemState} (hok : Ledger.Ok semvmx st.undos) (slot : SemSlot)
    (num : Option Nat) : Ledger.Ok semvmx (st.undoClear slot num).undos ∧
      ∀ k, (st.undoClear slot num).undos.amount k =
        if k.slot = slot ∧ (num = none ∨ num = some k.num) then 0 else st.undos.amount k := by
  obtain ⟨hok', hamount⟩ := Ledger.close_spec hok
    fun k => decide (k.slot = slot ∧ (num = none ∨ num = some k.num))
  refine ⟨hok', fun k => (hamount k).trans ?_⟩
  simp only [decide_eq_true_eq]

namespace SemInv

variable {st st' : SemState}

theorem boot : SemInv semBoot := by
  obtain ⟨hok, hamount⟩ : Ledger.Ok semvmx semBoot.undos ∧ ∀ k, semBoot.undos.amount k = 0 :=
    Ledger.replicate_spec semvmx semUndoMax
  constructor
  · exact nofun
  · exact nofun
  · exact hok
  · exact fun k hk => absurd (hamount k) hk

variable (h : SemInv st)

include h

/-- A state whose sets have the same shape, with amounts only where there were some or where there
is a semaphore. -/
theorem transfer (hshape : ∀ slot, SameShape (st.sets slot) (st'.sets slot))
    (hrange : ∀ slot, (st'.sets slot).Bounded) (hok : Ledger.Ok semvmx st'.undos)
    (hkeys : ∀ k, st'.undos.amount k ≠ 0 → st.undos.amount k ≠ 0 ∨ k.Live st) : SemInv st' := by
  refine ⟨fun slot hused => ?_, hrange, hok, fun k hk => ?_⟩
  · obtain ⟨hu, _, hn, hl⟩ := hshape slot
    rw [hl, hn]
    exact h.length slot (hu ▸ hused)
  · obtain ⟨hu, hs, hn, _⟩ := hshape k.slot
    have hlive : k.Live st := (hkeys k hk).elim (h.live k) id
    unfold UndoKey.Live at hlive ⊢
    rwa [hu, hs, hn]

/-- One set is given another of the same shape. -/
theorem setSet {slot : SemSlot} {s : SemSet} (hshape : SameShape (st.sets slot) s)
    (hrange : s.Bounded) : SemInv (st.setSet slot s) := by
  refine h.transfer (fun slot' => ?_) (fun slot' => ?_) h.ledger fun k hk => Or.inl hk
  · rw [sets_setSet]
    split
    · next heq => exact heq ▸ hshape
    · exact SameShape.refl _
  · rw [sets_setSet]
    split
    · exact hrange
    · exact h.range slot'

/-- One set is given as many other semaphores. -/
theorem setSems {slot : SemSlot} {sems : List SemVal}
    (hlength : sems.length = (st.sets slot).sems.length)
    (hrange : ∀ sv ∈ sems, (sv.val : Int) ≤ semvmx) : SemInv (st.setSems slot sems) :=
  h.setSet ⟨rfl, rfl, rfl, hlength⟩ hrange

theorem undoClear (slot : SemSlot) (num : Option Nat) : SemInv (st.undoClear slot num) := by
  obtain ⟨hok, hamount⟩ := undoClear_spec h.ledger slot num
  refine h.transfer (fun slot' => SameShape.refl _) h.range hok fun k hk =>
    Or.inl fun hzero => hk ?_
  rw [hamount k, hzero, ite_self]

/-- A slot is given a set of its own, or none, and its adjustments are cleared. -/
theorem replace {slot : SemSlot} {s : SemSet} (hlength : s.used = true → s.sems.length = s.nsems)
    (hrange : s.Bounded) (hsets : st'.sets = Function.update st.sets slot s)
    (hundos : st'.undos = (st.undoClear slot none).undos) : SemInv st' := by
  obtain ⟨hok, hamount⟩ := undoClear_spec h.ledger slot none
  have hother : ∀ slot', slot' ≠ slot → st'.sets slot' = st.sets slot' := by
    intro slot' hne
    rw [hsets, Function.update_of_ne hne]
  have hself : st'.sets slot = s := by rw [hsets, Function.update_self]
  refine ⟨fun slot' => ?_, fun slot' => ?_, hundos ▸ hok, fun k hk => ?_⟩
  · by_cases heq : slot' = slot
    · rw [heq, hself]
      exact hlength
    · rw [hother slot' heq]
      exact h.length slot'
  · by_cases heq : slot' = slot
    · rw [heq, hself]
      exact hrange
    · rw [hother slot' heq]
      exact h.range slot'
  · -- what is left belongs to another slot
    rw [hundos, hamount k] at hk
    have hne : k.slot ≠ slot := fun heq => hk (if_pos ⟨heq, Or.inl rfl⟩)
    have hlive := h.live k fun hzero => hk (by rw [hzero, ite_self])
    unfold UndoKey.Live at hlive ⊢
    rwa [hother k.slot hne]

/-! ## Its steps -/

theorem semget (c : Cred) (key nsems : Int) (flag : UInt32) (mem : Bool) :
    SemInv (SysV.semget st c key nsems flag mem).2 := by
  rcases semget_cases st c key nsems flag mem with ⟨r, heq⟩ | ⟨slot, _, heq⟩
  · rwa [heq]
  rw [heq]
  refine h.replace (fun _ => length_replicate) (fun sv hsv => ?_) rfl rfl
  rw [(mem_replicate.mp hsv).2]
  decide

theorem semRmid (c : Cred) (id : Int) : SemInv (SysV.semRmid st c id).2 := by
  rcases semRmid_cases st c id with ⟨r, _, heq⟩ | ⟨slot, _, heq⟩
  · rwa [heq]
  · rw [heq]
    exact h.replace (fun hused => by cases hused) (fun sv hsv => absurd hsv not_mem_nil) rfl rfl

theorem semIpcSet (c : Cred) (slot : SemSlot) (uid gid mode : UInt32) :
    SemInv (SysV.semIpcSet st c slot uid gid mode).2 := by
  unfold SysV.semIpcSet
  split
  · exact h
  · exact h.setSet ⟨rfl, rfl, rfl, rfl⟩ (h.range slot)

theorem semSetval (c : Cred) (id num arg : Int) : SemInv (SysV.semSetval st c id num arg).2 := by
  rcases semSetval_cases st c id num arg with ⟨r, _, heq⟩ | ⟨slot, _, _, _, hmax, heq⟩
  · rwa [heq]
  rw [heq]
  apply SemInv.undoClear
  apply h.setSems (length_modify ..)
  refine forall_mem_modify (h.range slot) fun sv _ => ?_
  show (arg.toNat : Int) ≤ semvmx
  omega

theorem semSetallFinish (c : Cred) (slot : SemSlot) (seq : Nat)
    (vals : Nat → UInt16) : SemInv (SysV.semSetallFinish st c slot seq vals).2 := by
  rcases semSetallFinish_cases st c slot seq vals with ⟨r, _, heq⟩ | ⟨hused, _, hvals, heq⟩
  · rwa [heq]
  rw [heq]
  apply SemInv.undoClear
  apply h.setSems length_mapIdx
  intro sv hsv
  obtain ⟨i, hi, rfl⟩ := mem_mapIdx.mp hsv
  exact hvals i (h.length slot hused ▸ hi)

theorem semSetall (c : Cred) (id : Int) (vals : Option (Nat → UInt16)) :
    SemInv (SysV.semSetall st c id vals).2 := by
  rcases semSetall_cases st c id vals with ⟨r, _, heq⟩ | ⟨slot, vs, _, heq⟩
  · rwa [heq]
  · rw [heq]
    exact h.semSetallFinish ..

omit h in
/-- One adjustment given back keeps shape and bounds. -/
theorem undoOne_spec (sets : SemSlot → SemSet) (k : UndoKey) (adj : Int) (slot : SemSlot) :
    SameShape (sets slot) (undoOne sets k adj slot) ∧
      ((sets slot).Bounded → (undoOne sets k adj slot).Bounded) := by
  unfold undoOne
  split
  · exact ⟨SameShape.refl _, id⟩
  rw [Function.update_apply]
  split
  · next heq =>
    subst heq
    refine ⟨⟨rfl, rfl, rfl, length_modify ..⟩, fun hb => forall_mem_modify hb fun sv _ => ?_⟩
    show ((max 0 (min semvmx ((sv.val : Int) + adj))).toNat : Int) ≤ semvmx
    have : (0 : Int) ≤ semvmx := by decide
    omega
  · exact ⟨SameShape.refl _, id⟩

omit h in
theorem undoAll_spec (tgid : Nat) :
    ∀ (t : Ledger UndoKey) (sets : SemSlot → SemSet) (slot : SemSlot),
    SameShape (sets slot) (undoAll tgid t sets slot) ∧
      ((sets slot).Bounded → (undoAll tgid t sets slot).Bounded) := by
  intro t
  induction t with
  | nil => exact fun sets slot => ⟨SameShape.refl _, id⟩
  | cons e t ih =>
    intro sets slot
    match e with
    | none => exact ih sets slot
    | some (k, adj) =>
      unfold undoAll
      split
      · obtain ⟨hshape, hbound⟩ := undoOne_spec sets k adj slot
        obtain ⟨hshape', hbound'⟩ := ih (undoOne sets k adj) slot
        exact ⟨hshape.trans hshape', hbound' ∘ hbound⟩
      · exact ih sets slot

theorem semExit (tgid : Nat) : SemInv (SysV.semExit st tgid) := by
  obtain ⟨hok, hamount⟩ := Ledger.close_spec h.ledger fun k => decide (k.tgid = tgid)
  refine h.transfer (fun slot => (undoAll_spec tgid _ _ slot).1)
    (fun slot => (undoAll_spec tgid _ _ slot).2 (h.range slot)) hok
    fun k hk => Or.inl fun hzero => hk ?_
  exact (hamount k).trans (by rw [hzero, ite_self])

theorem countOn (slot : SemSlot) (blk : SemBuf) (more : Bool) :
    SemInv (st.countOn slot blk more) := by
  apply h.setSems (length_modify ..)
  refine forall_mem_modify (h.range slot) fun sv hsv => ?_
  unfold countWaiter
  split
  · exact hsv
  · exact hsv

/-- No value is out of range before the first operation. -/
theorem rangeAfter_nil (slot : SemSlot) : RangeAfter (st.sets slot).sems [] := by
  intro num sv hsv
  have := h.range slot sv (mem_of_getElem? hsv)
  rw [opSum_nil]
  exact ⟨by omega, by omega⟩

/-- What a call that passes `sem_try` may rely on. -/
theorem semTry_ok {op : Operation} (htry : semTry (st.sets op.slot).sems [] op.ops = .ok) :
    (∀ pre, pre <+: op.ops → RangeAfter (st.sets op.slot).sems pre) ∧
      ∀ o ∈ op.ops, o.num < (st.sets op.slot).sems.length := by
  simpa using SysV.semTry_ok op.ops [] _ htry (h.rangeAfter_nil op.slot)

theorem semRun {op : Operation} (hused : (st.sets op.slot).used = true)
    (hseq : (st.sets op.slot).perm.seq = op.seq) : SemInv (SysV.semRun st op).2 := by
  -- adding the adjustments, or taking them back
  have hundos : semTry (st.sets op.slot).sems [] op.ops = .ok →
      SemInv { st with undos := (undoBatch st.undos op).2 } := by
    intro htry
    obtain ⟨hpre, hnum⟩ := h.semTry_ok htry
    obtain ⟨hok, _⟩ := undoBatch_spec h.ledger (op_small hpre hnum)
    refine h.transfer (fun slot => SameShape.refl _) h.range hok fun k hk => ?_
    refine (undoBatch_key h.ledger (op_small hpre hnum) hk).imp_right ?_
    rintro ⟨o, ho, rfl⟩
    exact ⟨hused, hseq, h.length op.slot hused ▸ hnum o ho⟩
  have houtcome := semRun_outcome st op
  generalize (SysV.semRun st op).1 = r, (SysV.semRun st op).2 = st' at houtcome
  cases houtcome with
  | fault htry | error he hfault hok => exact h
  | sleep htry => exact h.countOn op.slot _ true
  | refused he htry hbatch => exact hundos htry
  | applied htry hbatch =>
    obtain ⟨hpre, hnum⟩ := h.semTry_ok htry
    apply (hundos htry).setSems (applyOps_length ..)
    intro sv' hsv'
    obtain ⟨num, hnum'⟩ := mem_iff_getElem?.mp hsv'
    have hlt : num < (st.sets op.slot).sems.length := by
      have := (List.getElem?_eq_some_iff.mp hnum').1
      rwa [applyOps_length] at this
    obtain ⟨sv'', hsv'', hval⟩ := applyOps_val op.tgid op.ops _ hpre num _
      (List.getElem?_eq_getElem hlt)
    rw [hnum'] at hsv''
    cases hsv''
    rw [hval]
    exact (hpre op.ops (prefix_refl _) num _ (List.getElem?_eq_getElem hlt)).2

theorem semSegment (call : SemCall) : SemInv (SysV.semSegment st call).2 := by
  have hok := semBegin_ok st call
  unfold SysV.semSegment
  revert hok
  cases semBegin st call with
  | ended r st₁ =>
    rintro ⟨-, rfl | ⟨slot, blk, rfl⟩⟩
    · exact h
    · exact h.countOn slot blk false
  | tries st₁ op =>
    rintro ⟨-, hused, hseq, -, rfl | ⟨blk, rfl⟩⟩
    · exact h.semRun hused hseq
    · obtain ⟨hused', hseq', _, _⟩ := setSems_shape st op.slot (length_modify ..) op.slot
      exact (h.countOn op.slot blk false).semRun (hused'.trans hused) (hseq'.trans hseq)

/-- **Every step keeps the invariant.** -/
theorem apply (e : SemEvent) : SemInv (e.apply st).2 := by
  cases e with
  | semget c key nsems flag mem => exact h.semget c key nsems flag mem
  | semop call => exact h.semSegment call
  | rmid c id => exact h.semRmid c id
  | ipcSet c slot uid gid mode => exact h.semIpcSet c slot uid gid mode
  | setval c id num arg => exact h.semSetval c id num arg
  | setall c id vals => exact h.semSetall c id vals
  | setallWoken c slot seq vals => exact h.semSetallFinish c slot seq vals
  | exit tgid => exact h.semExit tgid

omit h

/-- **The invariant holds in every run.** -/
theorem of_run {tr : List (SemEvent × Reply)} (hrun : Run semSystem tr st) : SemInv st := by
  refine Run.invariant ?_ ?_ hrun
  · rintro st rfl
    exact boot
  · rintro st l st' hinv ⟨heq, _⟩
    have := hinv.apply l.1
    rwa [heq] at this

end SemInv

end MaeroOS.SysV
