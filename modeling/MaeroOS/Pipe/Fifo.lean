import MaeroOS.Pipe.Inv

/-!
# Pipes are first in, first out

`pipe_fifo`: in every run in which no two calls are in a copy of the same direction at once, what
the reads have returned is a prefix of what the writes have made readable, and every call has moved
exactly the bytes it reports, and sleeps or fails only for a reason (`calls_rest`). The Big Kernel
Lock keeps the copies apart unless one of them sleeps; `copies_overlap` is a run in which one does,
and two readers get the same byte.
-/

namespace MaeroOS.Pipe

open Function
open Lib (System Run)
open Lib.Ring

variable {s s' : PipeState} {c : Nat} {env : Env} {tr : List (PipeEvent × Env)} {k : Call}

/-! ## Where a stretch of a call ends -/

/-- A result that is not a count says what happened. -/
inductive Honest (env : Env) (p : PipeBuf) : Int → Prop
  | count {ret : Int} : 0 ≤ ret → Honest env p ret
  | eagain : Honest env p (-11)
  | eintr : env.sig → Honest env p (-4)
  | efault {n k : Nat} : env.copy n = .fault k → Honest env p (-14)
  | epipe : p.nreaders = 0 → Honest env p (-32)

/-- A call has returned, or it sleeps: in a copy that sleeps, or because it may block, no signal is
pending, and there is nothing to read or no room while the other end is open. -/
def Rests (env : Env) (p : PipeBuf) : Call → Prop
  | .new => False
  | .reading _ nonblock => p.count = 0 ∧ p.nwriters ≠ 0 ∧ ¬ nonblock ∧ ¬ env.sig
  | .writing _ _ nonblock => p.count = pipeBufSize ∧ p.nreaders ≠ 0 ∧ ¬ nonblock ∧ ¬ env.sig
  | .copyOut .. | .copyIn .. => ∃ n k, env.copy n = .sleep k
  | .readDone ret | .writeDone ret => Honest env p ret

/-- A stretch of call `c` ends where the call rests, with the other calls where they were. -/
def Ends (env : Env) (s : PipeState) (c : Nat) (s' : PipeState) : Prop :=
  ∃ k, s'.calls = update s.calls c k ∧ Rests env s'.pipe k

variable {t : PipeState} {len n put tail take head fuel : Nat} {nonblock : Bool}
  {got stored : List UInt8}

theorem Ends.from (h : Ends env t c s') (hcalls : t.calls = update s.calls c k) :
    Ends env s c s' := by
  obtain ⟨k', hcalls', hrests⟩ := h
  exact ⟨k', by rw [hcalls', hcalls, update_idem], hrests⟩

theorem Honest.countOr {p : PipeBuf} {err : Int} (h : Honest env p err) :
    Honest env p (countOr n err) := by
  unfold Pipe.countOr
  split
  · exact .count (by omega)
  · exact h

theorem pipeTryFree_calls : (pipeTryFree s).calls = s.calls ∧ (pipeTryFree s).pipe.nreaders =
    s.pipe.nreaders := by
  unfold pipeTryFree
  split_ifs <;> exact ⟨rfl, rfl⟩

theorem pipeLeave_calls :
    (pipeLeave s c k).calls = update s.calls c k ∧ (pipeLeave s c k).pipe.nreaders =
      s.pipe.nreaders := by
  unfold pipeLeave
  split
  · exact pipeTryFree_calls
  · exact ⟨rfl, rfl⟩

theorem readCopy_ends : Ends env s c (readCopy env s c take head got) := by
  unfold readCopy
  split
  · exact ⟨_, pipeLeave_calls.1, .count (by omega)⟩
  · next hk => exact ⟨_, pipeLeave_calls.1, .efault hk⟩
  · next k hk => exact ⟨_, rfl, 0, k, hk⟩

theorem readLoop_ends (hc : s.calls c = .reading len nonblock) :
    Ends env s c (readLoop env s c len nonblock) := by
  unfold readLoop
  split_ifs with hcount hwriters hblock hsig
  · exact ⟨_, pipeLeave_calls.1, .count le_rfl⟩
  · exact ⟨_, pipeLeave_calls.1, .eagain⟩
  · exact ⟨_, pipeLeave_calls.1, .eintr hsig⟩
  · exact ⟨_, (update_eq_self c _).symm, hc ▸ ⟨hcount, hwriters, hblock, hsig⟩⟩
  · exact readCopy_ends.from rfl

/-- The copies of a pass end the stretch, or the loop of `pipe_write` goes on with their bytes in
the ring. -/
theorem writeCopy_ends :
    (∃ t, writeCopy env s c len n put tail nonblock stored = (t, none) ∧ Ends env s c t) ∨
      ∃ t, writeCopy env s c len n put tail nonblock stored = (t, some (n + put)) ∧
        t.calls = update s.calls c (.writing len (n + put) nonblock) ∧
          t.pipe.count = s.pipe.count + put := by
  unfold writeCopy
  split
  · exact .inr ⟨_, rfl, rfl, rfl⟩
  · next hk => exact .inl ⟨_, rfl, _, pipeLeave_calls.1, (Honest.efault hk).countOr⟩
  · next k hk => exact .inl ⟨_, rfl, _, rfl, n, k, hk⟩

/-- The loop of `pipe_write` ends: each pass writes at least one byte, so it never runs out of
`fuel`. -/
theorem writeLoop_ends (hc : s.calls c = .writing len n nonblock)
    (hcount : s.pipe.count ≤ pipeBufSize)
    (hfuel : len - n < fuel) : Ends env s c (writeLoop env c len nonblock fuel s n) := by
  induction fuel generalizing s n with
  | zero => omega
  | succ fuel ih =>
    unfold writeLoop writeFull
    split_ifs with hlen hfull hreaders hblock hsig
    · exact ⟨_, pipeLeave_calls.1, .count (by omega)⟩
    · exact ⟨_, pipeLeave_calls.1, (Honest.epipe (pipeLeave_calls.2.trans hreaders)).countOr⟩
    · exact ⟨_, pipeLeave_calls.1, Honest.eagain.countOr⟩
    · exact ⟨_, pipeLeave_calls.1, (Honest.eintr hsig).countOr⟩
    · exact ⟨_, (update_eq_self c _).symm, hc ▸ ⟨hfull, hreaders, hblock, hsig⟩⟩
    · have hput : 0 < writePut s len n ∧ writePut s len n ≤ pipeBufSize - s.pipe.count := by
        unfold writePut
        omega
      obtain ⟨t, heq, hends⟩ | ⟨t, heq, hcalls, hadd⟩ := writeCopy_ends
      · rw [heq]
        exact hends.from rfl
      · rw [heq]
        have hadd : t.pipe.count = s.pipe.count + writePut s len n := hadd
        exact ((ih (by rw [hcalls, update_self]) (by omega) (by omega)).from hcalls).from rfl

/-! ## The property -/

namespace Call

/-- The bytes a call reports to have written: its result, or its count so far. -/
def written : Call → Nat
  | writing _ n _ => n
  | copyIn _ n _ _ _ _ => n
  | writeDone ret => ret.toNat
  | _ => 0

/-- The bytes a call reports to have read; an error is a report of none. -/
def taken : Call → Nat
  | readDone ret => ret.toNat
  | _ => 0

theorem Ok.accounts {p : PipeBuf} {log : List Entry} (h : k.Ok p log c) :
    committed c log = k.written ∧ consumed c log = k.taken := by
  cases k <;> simp only [Ok, written, taken] at h ⊢ <;> grind

end Call

/-- A pipe at work: its indices are in range; reads have returned a prefix of what was made
readable; each call has made readable, or taken out and returned, exactly the bytes it reports; and
no call works on a pipe that is freed. -/
structure PipeOk (s : PipeState) : Prop where
  head_lt : s.pipe.head < pipeBufSize
  count_le : s.pipe.count ≤ pipeBufSize
  fifo : received s.log <+: sent s.log
  writes : ∀ c, committed c s.log = (s.calls c).written
  reads : ∀ c, consumed c s.log = (s.calls c).taken
  delivered : ∀ c n bytes, Entry.consume c n bytes ∈ s.log → bytes.length = n
  alive : s.freed = true → ∀ c, ¬ (s.calls c).InProgress

theorem PipeInv.ok (h : PipeInv s) : PipeOk s where
  head_lt := h.bytes.head_lt
  count_le := h.bytes.count_le
  fifo := ⟨_, h.bytes.stream.symm⟩
  writes c := (h.bytes.calls c).accounts.1
  reads c := (h.bytes.calls c).accounts.2
  delivered := h.bytes.delivered
  alive hf := h.held.not_inProgress (h.held.freed hf).2.2

/-- The steps in which no two copies of the same direction overlap. -/
def alonePipes : System PipeState (PipeEvent × Env) := pipeSystem.restrict fun s e => e.1.Alone s

theorem run_inv (hr : Run alonePipes tr s) : PipeInv s := by
  refine hr.invariant (P := PipeInv) ?_ ?_
  · rintro s ⟨data, rfl | rfl⟩
    · exact newPipe_inv rfl rfl rfl
    · exact newPipe_inv rfl rfl rfl
  · rintro s e s' hs ⟨hstep, halone⟩
    exact apply_inv hs halone hstep

/-- **A pipe is first in, first out**, under any interleaving of readers, writers, signals, closes
and faulting buffers in which copies of the same direction do not overlap. -/
theorem pipe_fifo {tr : List (PipeEvent × Env)} (hr : Run alonePipes tr s) : PipeOk s :=
  (run_inv hr).ok

/-! ## Calls sleep for a reason -/

/-- The call whose stretch an event is. -/
def PipeEvent.caller (s : PipeState) : PipeEvent → Option Nat
  | read .. | write .. => some s.next
  | woken c => some c
  | _ => none

theorem apply_ends {e : PipeEvent} (h : PipeInv s) (hs : e.apply env s = some s')
    (hc : e.caller s = some c) : Ends env s c s' := by
  cases e with
  | read len nonblock =>
    cases hc
    obtain ⟨-, ⟨⟩⟩ := Option.ite_none_right_eq_some.mp hs
    unfold pipeRead
    split
    · exact ⟨_, rfl, .count le_rfl⟩
    · exact (readLoop_ends (update_self ..)).from rfl
  | write len nonblock =>
    cases hc
    obtain ⟨-, ⟨⟩⟩ := Option.ite_none_right_eq_some.mp hs
    unfold pipeWrite
    split
    · exact ⟨_, rfl, .count le_rfl⟩
    split
    · next hreaders => exact Ends.from ⟨_, pipeLeave_calls.1,
        .epipe (pipeLeave_calls.2.trans hreaders)⟩ rfl
    · exact Ends.from (writeLoop_ends (update_self ..) h.bytes.count_le (by omega)) rfl
  | woken c =>
    cases hc
    simp only [PipeEvent.apply, wake] at hs
    split at hs <;> cases hs
    · next hk => exact readLoop_ends hk
    · exact readCopy_ends
    · next hk => exact writeLoop_ends hk h.bytes.count_le (by omega)
    · next len n put tail nonblock stored hk =>
      have hok := h.bytes.calls c
      rw [hk] at hok
      obtain ⟨-, -, -, -, hroom, -⟩ := hok
      unfold writeResume
      obtain ⟨t, heq, hends⟩ | ⟨t, heq, hcalls, hadd⟩ := writeCopy_ends
      · rw [heq]
        exact hends
      · rw [heq]
        exact (writeLoop_ends (by rw [hcalls, update_self]) (by omega) (by omega)).from hcalls
  | _ => cases hc

/-- **A call sleeps or fails only for a reason**: wherever a stretch of it ends in such a run, it
has returned what happened or has to wait, and the other calls are where they were. -/
theorem calls_rest {e : PipeEvent} (hr : Run alonePipes tr s) (hs : e.apply env s = some s')
    (hc : e.caller s = some c) : Ends env s c s' :=
  apply_ends (run_inv hr) hs hc

/-! ## Copies that do not sleep

Then no call is ever found in a copy, and every step meets the condition. -/

/-- No call is in a copy. -/
def Idle (s : PipeState) : Prop := ∀ c, ¬ (s.calls c).IsCopyOut ∧ ¬ (s.calls c).IsCopyIn

theorem apply_calls {e : PipeEvent} (hs : e.apply env s = some s') (hc : e.caller s = none) :
    s'.calls = s.calls := by
  cases e with
  | read | write | woken => cases hc
  | addReader | addWriter =>
    obtain ⟨-, ⟨⟩⟩ := Option.ite_none_right_eq_some.mp hs
    rfl
  | closeRead | closeWrite =>
    obtain ⟨-, ⟨⟩⟩ := Option.ite_none_right_eq_some.mp hs
    exact pipeTryFree_calls.1
  | fifoFree =>
    obtain ⟨-, ⟨⟩⟩ := Option.ite_none_right_eq_some.mp hs
    unfold pipeFifoFree
    split <;> rfl

/-- Every event whose copy does not sleep leaves no call in a copy. -/
theorem apply_idle {e : PipeEvent} (hcopy : ∀ n k, env.copy n ≠ .sleep k) (hinv : PipeInv s)
    (h : Idle s) (hs : e.apply env s = some s') : Idle s' := by
  intro c
  cases hcall : e.caller s with
  | none =>
    rw [apply_calls hs hcall]
    exact h c
  | some d =>
    obtain ⟨k, hcalls, hk⟩ := apply_ends hinv hs hcall
    rw [hcalls]
    by_cases hcd : c = d
    · subst hcd
      rw [update_self]
      cases k <;> simp_all [Rests, Call.IsCopyOut, Call.IsCopyIn]
    · rw [update_of_ne hcd]
      exact h c

theorem Idle.alone {e : PipeEvent} (h : Idle s) : e.Alone s := by
  cases e with
  | read => exact fun _ c => (h c).1
  | write => exact fun _ c => (h c).2
  | woken c =>
    simp only [PipeEvent.Alone]
    split
    · exact fun _ c => (h c).1
    · exact fun _ c => (h c).2
    · trivial
  | _ => trivial

/-- A run in which no copy sleeps is one in which no two copies overlap. -/
theorem run_alone (hr : Run (pipeSystem.restrict fun _ e => ∀ n k, e.2.copy n ≠ .sleep k) tr s) :
    Run alonePipes tr s ∧ Idle s := by
  induction hr with
  | init hs =>
    refine ⟨.init hs, ?_⟩
    obtain ⟨data, rfl | rfl⟩ := hs <;> exact fun _ => ⟨id, id⟩
  | step _ hstep ih =>
    exact ⟨.step ih.1 ⟨hstep.1, ih.2.alone⟩, apply_idle hstep.2 (run_inv ih.1) ih.2 hstep.1⟩

/-- So if no copy sleeps, the pipe is first in, first out in every run. -/
theorem pipe_ok_of_awake
    (hr : Run (pipeSystem.restrict fun _ e => ∀ n k, e.2.copy n ≠ .sleep k) tr s) : PipeOk s :=
  (run_inv (run_alone hr).1).ok

/-! ## Runs -/

/-- No signal, and a caller's buffer that is full of sevens. -/
def calm (copy : UserCopy) : Env := ⟨false, fun _ => copy, fun _ => 7⟩

/-- A read finds nothing and sleeps. -/
theorem calls_rest_reading : ∃ s s', (PipeEvent.read 1 false).apply (calm .done) s = some s' ∧ Ends
    (calm .done) s 0 s' :=
  ⟨newPipe (pipeAlloc fun _ => 0), _, rfl,
    calls_rest (e := .read 1 false) (.init ⟨_, .inl rfl⟩) rfl rfl⟩

/-- Two bytes are written; the copy of a read sleeps before its first byte, while one more is
written. -/
theorem pipe_fifo_sleeping_copy : ∃ tr s, Run alonePipes tr s ∧ sent s.log = [7, 7, 7] ∧
    received s.log = [7] ∧ PipeOk s := by
  have h0 : Run alonePipes [] (newPipe (pipeAlloc fun _ => 0)) := .init ⟨_, .inl rfl⟩
  have h1 := h0.step (e := (PipeEvent.write 2 false, calm .done)) ⟨rfl, fun _ _ => id⟩
  have h2 := h1.step (e := (PipeEvent.read 1 false, calm (.sleep 0))) ⟨rfl, fun _ c =>
    match c with
    | 0 => id
    | _ + 1 => id⟩
  have h3 := h2.step (e := (PipeEvent.write 1 false, calm .done)) ⟨rfl, fun _ c =>
    match c with
    | 0 => id
    | 1 => id
    | _ + 2 => id⟩
  have h4 := h3.step (e := (PipeEvent.woken 1, calm .done)) ⟨rfl, trivial⟩
  exact ⟨_, _, h4, rfl, rfl, pipe_fifo h4⟩

/-- A byte is written, the copy of a read sleeps, another read takes the byte, and the first goes
on. -/
def overlapping : List (PipeEvent × Env) :=
  [(.write 1 false, calm .done), (.read 1 false, calm (.sleep 0)), (.read 1 false, calm .done),
    (.woken 1, calm .done)]

/-- **Two readers get the same byte** when the copy of one sleeps, and the count of the ring
wraps. -/
theorem copies_overlap : ∃ tr s, Run pipeSystem tr s ∧ sent s.log = [7] ∧ received s.log = [7, 7] ∧
    ¬ received s.log <+: sent s.log ∧ pipeBufSize < s.pipe.count := by
  exact Lib.run_drive (fun s (e : PipeEvent × Env) => e.1.apply e.2 s) overlapping
    (newPipe (pipeAlloc fun _ => 0)) (fun _ _ _ _ h => h) (.init ⟨_, .inl rfl⟩) (by decide +kernel)

end MaeroOS.Pipe
