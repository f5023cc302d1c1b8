import MaeroOS.Pipe.Basic
import MaeroOS.Lib.Table

/-!
# The invariant of a pipe

What the readers have got and what is in the ring is what the writers have sent (`Stream.stream`).
The invariant ties each call to the ring by the place it is at (`Call.Ok`): a copy out of the ring
reads at the head, a copy into it writes behind the last byte. Both cannot be said of two calls at
once, so that a step keeps the invariant if a copy starts only while no other call sleeps in one of
the same direction (`PipeEvent.Alone`).

`Stream.move` is the one lemma about a call that changes the ring. The pins (`Held`) are what keeps
`pipe_try_free` from emptying a FIFO under a call.
-/

namespace MaeroOS.Pipe

open Function (update_of_ne update_self)
open Lib.Ring

/-! ## Copies in two runs -/

section Runs

variable {data : Nat → UInt8} {p len i k : Nat}

/-- The two runs are one run around the ring. -/
theorem runCell_eq (hp : p < pipeBufSize) (hlen : len ≤ pipeBufSize) (hi : i < len) :
    runCell p len i = (p + i) % pipeBufSize := by
  unfold runCell firstRun
  split
  · rw [Nat.mod_eq_of_lt (by omega)]
  · rw [Nat.mod_eq_sub_mod (by omega), Nat.mod_eq_of_lt (by omega)]
    omega

theorem runBytes_eq (hp : p < pipeBufSize) (hlen : len ≤ pipeBufSize) (hik : i + k ≤ len) :
    runBytes data p len i k = window pipeBufSize data (p + i) k := by
  refine List.map_congr_left fun j hj => ?_
  have hj := List.mem_range.mp hj
  rw [runCell_eq hp hlen (by omega), Nat.add_assoc]

theorem runStore_eq (hp : p < pipeBufSize) (hlen : len ≤ pipeBufSize) :
    ∀ {bs : List UInt8} {data : Nat → UInt8} {i : Nat}, i + bs.length ≤ len →
      runStore data p len i bs = store pipeBufSize data (p + i) bs := by
  intro bs
  induction bs with
  | nil => intros; rfl
  | cons b bs ih =>
    intro data i hik
    rw [List.length_cons] at hik
    rw [runStore, store, ih (by omega), runCell_eq hp hlen (by omega), Nat.add_assoc]

@[simp] theorem length_userBytes {buf : Nat → UInt8} : (userBytes buf i k).length = k := by
  simp [userBytes]

end Runs

/-! ## The invariant -/

namespace Call

/-- Copying to the user. -/
def IsCopyOut : Call → Prop
  | copyOut .. => True
  | _ => False

/-- Copying from the user. -/
def IsCopyIn : Call → Prop
  | copyIn .. => True
  | _ => False

/-- What holds of call `c` at its place: what it has done to the pipe so far is what it knows of,
and a copy is at the right end of the ring. -/
def Ok (p : PipeBuf) (log : List Entry) (c : Nat) : Call → Prop
  | new => committed c log = 0 ∧ consumed c log = 0
  | reading _ _ => committed c log = 0 ∧ consumed c log = 0
  | copyOut take head got =>
      committed c log = 0 ∧ consumed c log = 0 ∧ head = p.head ∧ take ≤ p.count ∧
        got.length ≤ take ∧ window pipeBufSize p.data p.head got.length = got
  | writing len n _ => committed c log = n ∧ consumed c log = 0 ∧ n ≤ len
  | copyIn len n put tail _ stored =>
      committed c log = n ∧ consumed c log = 0 ∧ tail = (p.head + p.count) % pipeBufSize ∧
        n + put ≤ len ∧ p.count + put ≤ pipeBufSize ∧ stored.length ≤ put ∧
        window pipeBufSize p.data (p.head + p.count) stored.length = stored
  | readDone ret => committed c log = 0 ∧ consumed c log = ret.toNat
  | writeDone ret => committed c log = ret.toNat ∧ consumed c log = 0

end Call

/-- The bytes: those sent are those received and those in the ring, and every call is where it
should be. -/
structure Stream (s : PipeState) : Prop where
  head_lt : s.pipe.head < pipeBufSize
  count_le : s.pipe.count ≤ pipeBufSize
  stream : sent s.log = received s.log ++ window pipeBufSize s.pipe.data s.pipe.head s.pipe.count
  calls : ∀ c, (s.calls c).Ok s.pipe s.log c
  delivered : ∀ c n bytes, Entry.consume c n bytes ∈ s.log → bytes.length = n
  oneReader : ∀ c c', (s.calls c).IsCopyOut → (s.calls c').IsCopyOut → c = c'
  oneWriter : ∀ c c', (s.calls c).IsCopyIn → (s.calls c').IsCopyIn → c = c'

/-- How many calls are in progress. -/
def inProgress (s : PipeState) : Nat :=
  ∑ c ∈ Finset.range s.next, if (s.calls c).InProgress then 1 else 0

/-- The pins: one for each call in progress, and a pipe that is freed has none and no descriptor. -/
structure Held (s : PipeState) : Prop where
  fresh : ∀ c, s.next ≤ c → s.calls c = .new
  pins : s.pipe.pins = inProgress s
  freed : s.freed = true → s.pipe.nreaders ≤ 0 ∧ s.pipe.nwriters ≤ 0 ∧ s.pipe.pins = 0

structure PipeInv (s : PipeState) : Prop where
  bytes : Stream s
  held : Held s

variable {s s' : PipeState} {c : Nat} {k : Call} {env : Env}

/-! ## One call moves -/

section Moves

variable (h : Stream s)

include h

/-- Only the ring, the calls and the log matter to the bytes. -/
theorem Stream.congr (hdata : s'.pipe.data = s.pipe.data)
    (hhead : s'.pipe.head = s.pipe.head) (hcount : s'.pipe.count = s.pipe.count)
    (hcalls : s'.calls = s.calls) (hlog : s'.log = s.log) : Stream s' := by
  obtain ⟨h1, h2, h3, h4, hd, h5, h6⟩ := h
  have hok : ∀ c (k : Call), k.Ok s.pipe s.log c → k.Ok s'.pipe s'.log c := by
    intro c k hk
    cases k <;> simpa [Call.Ok, hdata, hhead, hcount, hlog] using hk
  refine ⟨hhead ▸ h1, hcount ▸ h2, ?_, ?_, hlog ▸ hd, hcalls ▸ h5, hcalls ▸ h6⟩
  · rw [hlog, hdata, hhead, hcount, h3]
  · intro c
    rw [hcalls]
    exact hok c _ (h4 c)

omit h in
/-- At most one call is in a phase, and the one that changes is in it only if no other is. -/
theorem unique_update {P : Call → Prop} {calls : Nat → Call}
    (h : ∀ c₁ c₂, P (calls c₁) → P (calls c₂) → c₁ = c₂)
    (hk : ∀ c' ≠ c, P (calls c') → ¬ P k) (c₁ c₂ : Nat) (h1 : P (Function.update calls c k c₁))
    (h2 : P (Function.update calls c k c₂)) : c₁ = c₂ := by
  by_cases e1 : c₁ = c <;> by_cases e2 : c₂ = c
  · rw [e1, e2]
  · rw [update_of_ne e2] at h2
    rw [e1, update_self] at h1
    exact absurd h1 (hk c₂ e2 h2)
  · rw [update_of_ne e1] at h1
    rw [e2, update_self] at h2
    exact absurd h2 (hk c₁ e1 h1)
  · rw [update_of_ne e1] at h1
    rw [update_of_ne e2] at h2
    exact h c₁ c₂ h1 h2

/-- **One call moves.** It may change the ring and the log, as long as this does not disturb a call
that is in a copy. -/
theorem Stream.move (hcalls : s'.calls = Function.update s.calls c k)
    (hhead : s'.pipe.head < pipeBufSize) (hcount : s'.pipe.count ≤ pipeBufSize)
    (hstream : sent s'.log =
      received s'.log ++ window pipeBufSize s'.pipe.data s'.pipe.head s'.pipe.count)
    (hk : k.Ok s'.pipe s'.log c)
    (hdelivered : ∀ c n bytes, Entry.consume c n bytes ∈ s'.log → bytes.length = n)
    (hlog : ∀ c' ≠ c, committed c' s'.log = committed c' s.log ∧
      consumed c' s'.log = consumed c' s.log)
    (hout : ∀ c' ≠ c, (s.calls c').IsCopyOut → ¬ k.IsCopyOut ∧ s'.pipe.head = s.pipe.head ∧
      s.pipe.count ≤ s'.pipe.count ∧ ∀ n ≤ s.pipe.count,
        window pipeBufSize s'.pipe.data s.pipe.head n =
        window pipeBufSize s.pipe.data s.pipe.head n)
    (hin : ∀ c' ≠ c, (s.calls c').IsCopyIn → ¬ k.IsCopyIn ∧ s'.pipe.data = s.pipe.data ∧
      s'.pipe.count ≤ s.pipe.count ∧
      (s'.pipe.head + s'.pipe.count) % pipeBufSize = (s.pipe.head + s.pipe.count) % pipeBufSize) :
    Stream s' := by
  refine ⟨hhead, hcount, hstream, ?_, hdelivered, ?_, ?_⟩
  · intro c'
    rw [hcalls]
    by_cases hc : c' = c
    · subst hc
      rwa [update_self]
    · rw [update_of_ne hc]
      have hother := h.calls c'
      obtain ⟨hcom, hcon⟩ := hlog c' hc
      cases hkc : s.calls c' with
      | copyOut take head got =>
        obtain ⟨_, h1, h2, h3⟩ := hout c' hc (by simp [hkc, Call.IsCopyOut])
        rw [hkc] at hother
        obtain ⟨o1, o2, o3, o4, o5, o6⟩ := hother
        refine ⟨hcom.trans o1, hcon.trans o2, o3.trans h1.symm, o4.trans h2, o5, ?_⟩
        rw [h1, h3 _ (o5.trans o4), o6]
      | copyIn len n put tail nonblock stored =>
        obtain ⟨_, h1, h2, h3⟩ := hin c' hc (by simp [hkc, Call.IsCopyIn])
        rw [hkc] at hother
        obtain ⟨o1, o2, o3, o4, o5, o6, o7⟩ := hother
        refine ⟨hcom.trans o1, hcon.trans o2, o3.trans h3.symm, o4, by omega, o6, ?_⟩
        rw [← window_mod, h3, window_mod, h1, o7]
      | _ =>
        rw [hkc] at hother
        simpa only [Call.Ok, hcom, hcon] using hother
  · rw [hcalls]
    exact unique_update h.oneReader fun c' hc hp => (hout c' hc hp).1
  · rw [hcalls]
    exact unique_update h.oneWriter fun c' hc hp => (hin c' hc hp).1

/-- No other call copies out. -/
theorem Stream.no_reader (hc : s.calls c = .copyOut take head got) :
    ∀ c' ≠ c, ¬ (s.calls c').IsCopyOut :=
  fun c' hne h' => hne (h.oneReader c' c h' (by simp [hc, Call.IsCopyOut]))

/-- One call moves, and the ring and the log stay. -/
theorem Stream.setCall (hk : k.Ok s.pipe s.log c)
    (hout : k.IsCopyOut → ∀ c' ≠ c, ¬ (s.calls c').IsCopyOut)
    (hin : k.IsCopyIn → ∀ c' ≠ c, ¬ (s.calls c').IsCopyIn) : Stream (s.setCall c k) := by
  refine h.move rfl h.head_lt h.count_le h.stream hk h.delivered (fun _ _ => ⟨rfl, rfl⟩) ?_ ?_
  · exact fun c' hne hc' => ⟨fun hk => hout hk c' hne hc', rfl, le_rfl, fun _ _ => rfl⟩
  · exact fun c' hne hc' => ⟨fun hk => hin hk c' hne hc', rfl, le_rfl, rfl⟩

/-- A call moves that is not in a copy afterwards. -/
theorem Stream.setCall_plain (hk : k.Ok s.pipe s.log c) (hout : ¬ k.IsCopyOut)
    (hin : ¬ k.IsCopyIn) : Stream (s.setCall c k) :=
  h.setCall hk (fun h => absurd h hout) (fun h => absurd h hin)

/-- Bytes are taken out of the ring by the call that has copied them. -/
theorem Stream.consume {part got : List UInt8} (hc : s.calls c = .copyOut take head part)
    (hwin : window pipeBufSize s.pipe.data s.pipe.head take = got) :
    Stream (((s.setPipe { s.pipe with
        head := (s.pipe.head + take) % pipeBufSize,
        count := sub32 s.pipe.count take }).note (.consume c take got)).setCall c
          (.readDone take)) := by
  have hok := h.calls c
  rw [hc] at hok
  obtain ⟨hcom, hcon, rfl, htake, -, -⟩ := hok
  have hsub : sub32 s.pipe.count take = s.pipe.count - take := if_pos htake
  have hcount := h.count_le
  apply h.move rfl
  · exact Nat.mod_lt _ (by decide)
  · show sub32 s.pipe.count take ≤ pipeBufSize
    omega
  · show sent s.log = received s.log ++ got ++
      window pipeBufSize s.pipe.data ((s.pipe.head + take) % pipeBufSize) (sub32 s.pipe.count take)
    rw [hsub, window_mod, h.stream, List.append_assoc, ← hwin, ← window_add,
      Nat.add_sub_cancel' htake]
  · refine ⟨hcom, ?_⟩
    show consumed c s.log + (if c = c then take else 0) = (take : Int).toNat
    simp [hcon]
  · intro c' n bytes hmem
    rcases List.mem_cons.mp hmem with heq | hmem
    · cases heq
      rw [← hwin, length_window]
    · exact h.delivered c' n bytes hmem
  · intro c' hne
    refine ⟨rfl, ?_⟩
    show consumed c' s.log + (if c = c' then take else 0) = consumed c' s.log
    simp [Ne.symm hne]
  · exact fun c' hne hc' => absurd hc' (h.no_reader hc c' hne)
  · -- a copy into the ring stays behind the last byte
    intro c' hne hc'
    refine ⟨id, rfl, ?_, ?_⟩
    · show sub32 s.pipe.count take ≤ s.pipe.count
      omega
    · show ((s.pipe.head + take) % pipeBufSize + sub32 s.pipe.count take) % pipeBufSize = _
      rw [hsub, Nat.mod_add_mod, Nat.add_assoc, Nat.add_sub_cancel' htake]

omit h in
/-- What is written last about a call counts. -/
theorem writeCommit_setCall {len n put : Nat} :
    writeCommit (s.setCall c k) c len n put nonblock stored =
      writeCommit s c len n put nonblock stored := by
  simp [writeCommit, PipeState.setCall, PipeState.setPipe, PipeState.note]

omit h in
theorem pipeLeave_setCall {k' : Call} : pipeLeave (s.setCall c k) c k' = pipeLeave s c k' := by
  simp [pipeLeave, PipeState.setCall, PipeState.setPipe]

variable {len n put tail : Nat} (hc : s.calls c = .copyIn len n put tail nonblock stored)

include hc

/-- No other call copies in. -/
theorem Stream.no_writer : ∀ c' ≠ c, ¬ (s.calls c').IsCopyIn :=
  fun c' hne h' => hne (h.oneWriter c' c h' (by simp [hc, Call.IsCopyIn]))

/-- More bytes are copied behind the last byte of the ring, where nobody reads yet. -/
theorem Stream.writeBytes (hi : stored.length + i ≤ put) :
    Stream ((writeBytes env s n put tail stored i).setCall c
      (.copyIn len n put tail nonblock (stored ++ userBytes env.buf (n + stored.length) i))) := by
  have hok := h.calls c
  rw [hc] at hok
  obtain ⟨hcom, hcon, htail, hput, hroom, hlen, hwin⟩ := hok
  have hdata : (Pipe.writeBytes env s n put tail stored i).pipe.data =
      store pipeBufSize s.pipe.data (s.pipe.head + s.pipe.count + stored.length)
        (userBytes env.buf (n + stored.length) i) := by
    show runStore s.pipe.data tail put stored.length _ = _
    rw [runStore_eq (htail ▸ Nat.mod_lt _ (by decide)) (by omega) (by simpa using hi)]
    exact store_mod (by rw [htail, Nat.mod_add_mod])
  have hnew : stored.length + (userBytes env.buf (n + stored.length) i).length ≤ put := by
    simpa using hi
  -- the bytes in the ring, and those of this copy, are left alone
  have hkept : ∀ j ≤ s.pipe.count,
      window pipeBufSize (Pipe.writeBytes env s n put tail stored i).pipe.data s.pipe.head j =
        window pipeBufSize s.pipe.data s.pipe.head j := by
    intro j hj
    rw [hdata, Nat.add_assoc]
    exact window_store_apart (by omega) (by omega)
  apply h.move rfl
  · exact h.head_lt
  · exact h.count_le
  · show sent s.log = received s.log ++ window pipeBufSize _ s.pipe.head s.pipe.count
    rw [PipeState.setCall, hkept _ le_rfl, h.stream]
  · refine ⟨hcom, hcon, htail, hput, hroom, by simpa using hi, ?_⟩
    show window pipeBufSize _ (s.pipe.head + s.pipe.count) _ = _
    rw [PipeState.setCall, hdata, List.length_append, window_add,
      window_store_apart le_rfl (by omega), window_store (by omega), hwin]
  · exact h.delivered
  · exact fun _ _ => ⟨rfl, rfl⟩
  · exact fun c' _ _ => ⟨id, rfl, le_rfl, hkept⟩
  · exact fun c' hne hc' => absurd hc' (h.no_writer hc c' hne)

/-- The bytes of a copy become readable. -/
theorem Stream.commit (hlen : stored.length = put) :
    Stream (writeCommit s c len n put nonblock stored) := by
  have hok := h.calls c
  rw [hc] at hok
  obtain ⟨hcom, hcon, -, hput, hroom, -, hwin⟩ := hok
  apply h.move rfl
  · exact h.head_lt
  · exact hroom
  · show sent s.log ++ stored =
      received s.log ++ window pipeBufSize s.pipe.data s.pipe.head (s.pipe.count + put)
    rw [h.stream, List.append_assoc, window_add, ← hlen, hwin]
  · refine ⟨?_, hcon, hput⟩
    show committed c s.log + (if c = c then stored.length else 0) = n + put
    simp [hcom, hlen]
  · exact fun c' n bytes hmem => h.delivered c' n bytes (List.mem_of_ne_of_mem (by simp) hmem)
  · intro c' hne
    refine ⟨?_, rfl⟩
    show committed c' s.log + (if c = c' then stored.length else 0) = committed c' s.log
    simp [Ne.symm hne]
  · exact fun c' _ _ => ⟨id, rfl, Nat.le_add_right _ _, fun _ _ => rfl⟩
  · exact fun c' hne hc' => absurd hc' (h.no_writer hc c' hne)

end Moves

/-! ## Pins -/

section Pins

/-- Only the calls and the counts of the pipe matter to the pins. -/
theorem Held.congr (h : Held s) (hcalls : s'.calls = s.calls) (hnext : s'.next = s.next)
    (hpins : s'.pipe.pins = s.pipe.pins)
    (hfreed : s'.freed = true → s'.pipe.nreaders ≤ 0 ∧ s'.pipe.nwriters ≤ 0 ∧ s'.pipe.pins = 0) :
    Held s' := by
  refine ⟨fun c hc => ?_, ?_, hfreed⟩
  · rw [hcalls]
    exact h.fresh c (hnext ▸ hc)
  · rw [hpins, h.pins, inProgress, inProgress, hcalls, hnext]

theorem Held.lt_next (h : Held s) (hc : s.calls c ≠ .new) : c < s.next := by
  by_contra hlt
  exact hc (h.fresh c (Nat.le_of_not_lt hlt))

/-- How the number of calls in progress changes with one call. -/
theorem inProgress_setCall (hc : c < s.next) :
    inProgress (s.setCall c k) + (if (s.calls c).InProgress then 1 else 0) =
      inProgress s + if k.InProgress then 1 else 0 :=
  Lib.Table.sum_update_of_mem (fun k : Call => if k.InProgress then 1 else 0) s.calls
    (Finset.mem_range.mpr hc) k

/-- A call in progress goes on. -/
theorem Held.setCall (h : Held s) (hc : (s.calls c).InProgress) (hk : k.InProgress) :
    Held (s.setCall c k) := by
  have hlt : c < s.next := h.lt_next fun he => by simp [he, Call.InProgress] at hc
  have hcount := inProgress_setCall (k := k) hlt
  rw [if_pos hc, if_pos hk] at hcount
  refine ⟨fun c' hc' => ?_, ?_, h.freed⟩
  · show Function.update s.calls c k c' = .new
    rw [update_of_ne (by have : s.next ≤ c' := hc'; omega)]
    exact h.fresh c' hc'
  · show s.pipe.pins = _
    rw [h.pins]
    omega

/-- Nothing is in progress on a pipe without pins. -/
theorem Held.not_inProgress (h : Held s) (hpins : s.pipe.pins = 0) (c : Nat) :
    ¬ (s.calls c).InProgress := by
  intro hc
  have hlt : c < s.next := h.lt_next fun he => by simp [he, Call.InProgress] at hc
  have hsum : inProgress s = 0 := by rw [← h.pins, hpins]
  have hzero := Finset.sum_eq_zero_iff.mp hsum c (Finset.mem_range.mpr hlt)
  simp [hc] at hzero

/-- `pipe_try_free` empties a FIFO or frees the pipe only when no call is in progress. -/
theorem pipeTryFree_inv (h : PipeInv s) : PipeInv (pipeTryFree s) := by
  unfold pipeTryFree
  split
  · next hends =>
    split
    · exact h
    next hpins =>
    have hpins : s.pipe.pins = 0 := by omega
    split
    · -- the log is the calls' account; emptying the FIFO is on nobody's
      have hidle := h.held.not_inProgress hpins
      refine ⟨⟨Nat.zero_lt_succ _, Nat.zero_le _, rfl, fun c => ?_,
        fun c n bytes hmem => h.bytes.delivered c n bytes (List.mem_of_ne_of_mem (by simp) hmem),
          ?_, ?_⟩,
        h.held.congr rfl rfl rfl h.held.freed⟩
      · have hc := h.bytes.calls c
        have hi := hidle c
        show (s.calls c).Ok _ (.emptied :: s.log) c
        revert hc hi
        cases s.calls c <;> simp [Call.Ok, Call.InProgress, committed, consumed]
      · intro c c' hc
        have hi := hidle c
        revert hc hi
        show (s.calls c).IsCopyOut → _
        cases s.calls c <;> simp [Call.IsCopyOut, Call.InProgress]
      · intro c c' hc
        have hi := hidle c
        revert hc hi
        show (s.calls c).IsCopyIn → _
        cases s.calls c <;> simp [Call.IsCopyIn, Call.InProgress]
    · exact ⟨h.bytes.congr rfl rfl rfl rfl rfl,
        h.held.congr rfl rfl rfl fun _ => ⟨hends.1, hends.2, hpins⟩⟩
  · exact h

/-- The end of a call. -/
theorem pipeLeave_inv (hbytes : Stream (s.setCall c k)) (hheld : Held s)
    (hc : (s.calls c).InProgress) (hk : ¬ k.InProgress) : PipeInv (pipeLeave s c k) := by
  have hlt : c < s.next := hheld.lt_next fun he => by simp [he, Call.InProgress] at hc
  have hcount := inProgress_setCall (k := k) hlt
  rw [if_pos hc, if_neg hk] at hcount
  have hleft : PipeInv ((s.setPipe { s.pipe with pins := s.pipe.pins - 1 }).setCall c k) := by
    refine ⟨hbytes.congr rfl rfl rfl rfl rfl, fun c' hc' => ?_, ?_, fun hf => ?_⟩
    · show Function.update s.calls c k c' = .new
      rw [update_of_ne (by have : s.next ≤ c' := hc'; omega)]
      exact hheld.fresh c' hc'
    · show s.pipe.pins - 1 = inProgress (s.setCall c k)
      rw [hheld.pins]
      omega
    · obtain ⟨h1, h2, h3⟩ := hheld.freed hf
      exact ⟨h1, h2, by show s.pipe.pins - 1 = 0; omega⟩
  unfold pipeLeave
  split
  · exact pipeTryFree_inv hleft
  · exact hleft

/-- A call in progress ends without having done anything more to the ring. -/
theorem PipeInv.leave (h : PipeInv s) (hc : (s.calls c).InProgress) (hok : k.Ok s.pipe s.log c)
    (hk : ¬ k.InProgress) : PipeInv (pipeLeave s c k) := by
  refine pipeLeave_inv (h.bytes.setCall_plain hok ?_ ?_) h.held hc hk
  · cases k <;> simp_all [Call.IsCopyOut, Call.InProgress]
  · cases k <;> simp_all [Call.IsCopyIn, Call.InProgress]

end Pins

/-! ## Reading -/

section Reading

variable {take head len : Nat} {got : List UInt8} {nonblock : Bool}

theorem readCopy_inv (h : PipeInv s) (hc : s.calls c = .copyOut take head got) :
    PipeInv (readCopy env s c take head got) := by
  have hok := h.bytes.calls c
  rw [hc] at hok
  obtain ⟨hcom, hcon, rfl, htake, hlen, hwin⟩ := hok
  have hprog : (s.calls c).InProgress := by simp [hc, Call.InProgress]
  have hcount := h.bytes.count_le
  -- the bytes copied so far, and `i` more
  have hmore : ∀ i, got.length + i ≤ take →
      got ++ runBytes s.pipe.data s.pipe.head take got.length i =
        window pipeBufSize s.pipe.data s.pipe.head (got.length + i) := by
    intro i hi
    rw [runBytes_eq h.bytes.head_lt (by omega) hi, window_add, hwin]
  unfold readCopy
  split
  · have hall : window pipeBufSize s.pipe.data s.pipe.head take =
        got ++ runBytes s.pipe.data s.pipe.head take got.length (take - got.length) := by
      rw [hmore _ (by omega), Nat.add_sub_cancel' hlen]
    exact pipeLeave_inv (h.bytes.consume hc hall) (h.held.congr rfl rfl rfl h.held.freed)
      hprog (by simp [Call.InProgress])
  · exact h.leave hprog ⟨hcom, hcon⟩ (by simp [Call.InProgress])
  · next i _ =>
    have hi : got.length + min i (take - got.length) ≤ take := by omega
    refine ⟨h.bytes.setCall ?_ (fun _ => h.bytes.no_reader hc) (fun hk => absurd hk id),
      h.held.setCall hprog (by simp [Call.InProgress])⟩
    refine ⟨hcom, hcon, rfl, htake, ?_, ?_⟩
    · rw [hmore _ hi, length_window]
      exact hi
    · rw [hmore _ hi, length_window]

theorem readLoop_inv (h : PipeInv s) (hc : s.calls c = .reading len nonblock)
    (halone : s.pipe.count ≠ 0 → ∀ c, ¬ (s.calls c).IsCopyOut) :
    PipeInv (readLoop env s c len nonblock) := by
  have hok := h.bytes.calls c
  rw [hc] at hok
  obtain ⟨hcom, hcon⟩ := hok
  have hprog : (s.calls c).InProgress := by simp [hc, Call.InProgress]
  have hleave : ∀ ret : Int, ret ≤ 0 → PipeInv (pipeLeave s c (.readDone ret)) := fun ret hret =>
    h.leave hprog ⟨hcom, by rw [hcon, Int.toNat_of_nonpos hret]⟩ (by simp [Call.InProgress])
  unfold readLoop
  split
  · split
    · exact hleave 0 le_rfl
    split
    · exact hleave (-11) (by decide)
    split
    · exact hleave (-4) (by decide)
    · exact h
  · next hcount =>
    apply readCopy_inv
    · refine ⟨h.bytes.setCall ?_ (fun _ c' _ => halone hcount c') (fun hk => absurd hk id),
        h.held.setCall hprog (by simp [Call.InProgress])⟩
      exact ⟨hcom, hcon, rfl, min_le_right _ _, Nat.zero_le _, rfl⟩
    · exact update_self ..

end Reading

/-! ## Writing -/

section Writing

variable {len n put tail : Nat} {stored : List UInt8} {nonblock : Bool}

variable (h : PipeInv s)

include h

/-- A write that ends reports what it has written. -/
theorem PipeInv.leave_writing (hc : (s.calls c).InProgress) {err : Int}
    (hcom : committed c s.log = n) (hcon : consumed c s.log = 0) (herr : err ≤ 0) :
    PipeInv (pipeLeave s c (.writeDone (countOr n err))) := by
  refine h.leave hc ⟨?_, hcon⟩ (by simp [Call.InProgress])
  unfold countOr
  split
  · rw [hcom, Int.toNat_natCast]
  · rw [hcom, Int.toNat_of_nonpos herr]
    omega

theorem writeFull_inv (hc : s.calls c = .writing len n nonblock) :
    PipeInv (writeFull env s c n nonblock) := by
  have hok := h.bytes.calls c
  rw [hc] at hok
  obtain ⟨hcom, hcon, -⟩ := hok
  have hleave : ∀ err : Int, err ≤ 0 → PipeInv (pipeLeave s c (.writeDone (countOr n err))) :=
    fun err herr => h.leave_writing (by simp [hc, Call.InProgress]) hcom hcon herr
  unfold writeFull
  split
  · exact hleave (-32) (by decide)
  split
  · exact hleave (-11) (by decide)
  split
  · exact hleave (-4) (by decide)
  · exact h

/-- What a copy into the ring comes to: the call sleeps or ends, or it is back at its loop and
nobody copies into the ring. -/
theorem writeCopy_inv (env : Env) (hc : s.calls c = .copyIn len n put tail nonblock stored) :
    let r := writeCopy env s c len n put tail nonblock stored
    PipeInv r.1 ∧ ∀ n', r.2 = some n' → n' = n + put ∧ r.1.calls c = .writing len n' nonblock ∧
      ∀ c', ¬ (r.1.calls c').IsCopyIn := by
  have hok := h.bytes.calls c
  rw [hc] at hok
  obtain ⟨hcom, hcon, -, -, -, hlen, -⟩ := hok
  have hprog : (s.calls c).InProgress := by simp [hc, Call.InProgress]
  -- the state in which `i` more bytes are copied
  have hbytes : ∀ i, stored.length + i ≤ put →
      PipeInv ((writeBytes env s n put tail stored i).setCall c
        (.copyIn len n put tail nonblock (stored ++ userBytes env.buf (n + stored.length) i))) :=
    fun i hi => ⟨h.bytes.writeBytes hc hi,
      (h.held.setCall hprog (by simp [Call.InProgress])).congr rfl rfl rfl h.held.freed⟩
  unfold writeCopy
  split
  · have hall := hbytes (put - stored.length) (by omega)
    have hcommit := hall.bytes.commit (update_self ..) (by simp; omega)
    rw [writeCommit_setCall] at hcommit
    refine ⟨⟨hcommit, (h.held.setCall hprog (by simp [Call.InProgress])).congr rfl rfl rfl
      h.held.freed⟩, ?_⟩
    intro n' hn
    cases hn
    refine ⟨rfl, update_self .., fun c' => ?_⟩
    show ¬ (Function.update s.calls c _ c').IsCopyIn
    by_cases hcc : c' = c
    · rw [hcc, update_self]
      exact id
    · rw [update_of_ne hcc]
      exact h.bytes.no_writer hc c' hcc
  · next i _ =>
    have hpart := hbytes (min i (put - stored.length)) (by omega)
    have hleave : PipeInv (pipeLeave _ c (.writeDone (countOr n (-14)))) :=
      hpart.leave_writing (by simp [PipeState.setCall, Call.InProgress]) hcom hcon (by decide)
    rw [pipeLeave_setCall] at hleave
    exact ⟨hleave, nofun⟩
  · next i _ => exact ⟨hbytes _ (by omega), nofun⟩

theorem writeLoop_inv {fuel : Nat} (hc : s.calls c = .writing len n nonblock)
    (halone : s.pipe.count ≠ pipeBufSize → ∀ c, ¬ (s.calls c).IsCopyIn) :
    PipeInv (writeLoop env c len nonblock fuel s n) := by
  induction fuel generalizing s n with
  | zero => exact h
  | succ fuel ih =>
    have hok := h.bytes.calls c
    rw [hc] at hok
    obtain ⟨hcom, hcon, hn⟩ := hok
    have hprog : (s.calls c).InProgress := by simp [hc, Call.InProgress]
    unfold writeLoop
    split
    · exact h.leave hprog ⟨by rw [hcom, Int.toNat_natCast], hcon⟩ (by simp [Call.InProgress])
    next hlen =>
    split
    · exact writeFull_inv h hc
    next hfull =>
    have hcount := h.bytes.count_le
    have hstart : PipeInv (s.setCall c
        (.copyIn len n (writePut s len n) (writeTail s) nonblock [])) := by
      refine ⟨h.bytes.setCall ?_ (fun hk => absurd hk id) (fun _ c' _ => halone hfull c'),
        h.held.setCall hprog (by simp [Call.InProgress])⟩
      refine ⟨hcom, hcon, rfl, ?_, ?_, Nat.zero_le _, rfl⟩
      · unfold writePut
        omega
      · unfold writePut
        omega
    obtain ⟨hinv, hnext⟩ := writeCopy_inv hstart env (update_self ..)
    split
    · next s' heq =>
      rw [heq] at hinv
      exact hinv
    · next s' n' heq =>
      rw [heq] at hinv hnext
      obtain ⟨-, hcalls, hnone⟩ := hnext n' rfl
      exact ih hinv hcalls fun _ => hnone

theorem writeResume_inv (hc : s.calls c = .copyIn len n put tail nonblock stored) :
    PipeInv (writeResume env s c len n put tail nonblock stored) := by
  obtain ⟨hinv, hnext⟩ := writeCopy_inv h env hc
  unfold writeResume
  split
  · next s' heq =>
    rw [heq] at hinv
    exact hinv
  · next s' n' heq =>
    rw [heq] at hinv hnext
    obtain ⟨-, hcalls, hnone⟩ := hnext n' rfl
    exact writeLoop_inv hinv hcalls fun _ => hnone

end Writing

/-! ## Every event -/

section Events

theorem inProgress_begin : inProgress (begin s k) = inProgress s + if k.InProgress then 1
    else 0 := by
  show ∑ c ∈ Finset.range (s.next + 1),
    (if (Function.update s.calls s.next k c).InProgress then 1 else 0) = _
  rw [Finset.sum_range_succ, update_self]
  congr 1
  refine Finset.sum_congr rfl fun c hc => ?_
  rw [update_of_ne (Finset.mem_range.mp hc).ne]

theorem Held.fresh_begin (h : Held s) : ∀ c, (begin s k).next ≤ c → (begin s k).calls c = .new := by
  intro c hc
  have hlt : s.next + 1 ≤ c := hc
  show Function.update s.calls s.next k c = .new
  rw [update_of_ne (by omega)]
  exact h.fresh c (by omega)

variable (h : PipeInv s)

include h

theorem PipeInv.new_call : committed s.next s.log = 0 ∧ consumed s.next s.log = 0 := by
  have hok := h.bytes.calls s.next
  rwa [h.held.fresh s.next le_rfl] at hok

/-- A call that returns at once. -/
theorem begin_inv (hok : k.Ok s.pipe s.log s.next) (hk : ¬ k.InProgress) : PipeInv (begin s k) := by
  refine ⟨Stream.congr (h.bytes.setCall_plain hok ?_ ?_) rfl rfl rfl rfl rfl,
    h.held.fresh_begin, ?_, h.held.freed⟩
  · cases k <;> simp_all [Call.IsCopyOut, Call.InProgress]
  · cases k <;> simp_all [Call.IsCopyIn, Call.InProgress]
  · rw [inProgress_begin, if_neg hk]
    exact h.held.pins

/-- A call that pins the pipe, on a pipe that is not freed. -/
theorem pin_inv (hok : k.Ok s.pipe s.log s.next) (hout : ¬ k.IsCopyOut)
    (hin : ¬ k.IsCopyIn) (hk : k.InProgress) (hfreed : s.freed ≠ true) : PipeInv (pin s k) := by
  refine ⟨Stream.congr (h.bytes.setCall_plain hok hout hin) rfl rfl rfl rfl rfl,
    h.held.fresh_begin, ?_, fun hf => absurd hf hfreed⟩
  show s.pipe.pins + 1 = inProgress (begin s k)
  rw [inProgress_begin, if_pos hk, h.held.pins]

omit h in
/-- Whether a call is in a copy is as it was, for the calls there were. -/
theorem pin_alone {P : Call → Prop} (hk : ¬ P k) (h : ∀ c, ¬ P (s.calls c)) :
    ∀ c, ¬ P ((pin s k).calls c) := by
  intro c
  show ¬ P (Function.update s.calls s.next k c)
  by_cases hc : c = s.next
  · rwa [hc, update_self]
  · rw [update_of_ne hc]
    exact h c

variable {len : Int} {nonblock : Bool}

theorem pipeRead_inv (hopen : 0 < s.pipe.nreaders)
    (halone : s.pipe.count ≠ 0 → ∀ c, ¬ (s.calls c).IsCopyOut) :
    PipeInv (pipeRead env s len nonblock) := by
  have hnew := h.new_call
  have hfreed : s.freed ≠ true := fun hf => by
    have := (h.held.freed hf).1
    omega
  unfold pipeRead
  split
  · exact begin_inv h ⟨hnew.1, hnew.2⟩ id
  · refine readLoop_inv (pin_inv h hnew id id trivial hfreed) (update_self ..) fun hcount => ?_
    exact pin_alone id (halone hcount)

theorem pipeWrite_inv (hopen : 0 < s.pipe.nwriters)
    (halone : s.pipe.count ≠ pipeBufSize → ∀ c, ¬ (s.calls c).IsCopyIn) :
    PipeInv (pipeWrite env s len nonblock) := by
  have hnew := h.new_call
  have hfreed : s.freed ≠ true := fun hf => by
    have := (h.held.freed hf).2.1
    omega
  have hpin : PipeInv (pin s (.writing len.toNat 0 nonblock)) :=
    pin_inv h ⟨hnew.1, hnew.2, Nat.zero_le _⟩ id id trivial hfreed
  unfold pipeWrite
  split
  · exact begin_inv h ⟨hnew.1, hnew.2⟩ id
  split
  · refine hpin.leave ?_ ⟨hnew.1, hnew.2⟩ id
    show (Function.update s.calls s.next _ s.next).InProgress
    rw [update_self]
    trivial
  · refine writeLoop_inv hpin (update_self ..) fun hcount => ?_
    exact pin_alone id (halone hcount)

/-- The condition on a step: a copy out of the ring, or into it, does not start while another call
sleeps in one. -/
def PipeEvent.Alone (s : PipeState) : PipeEvent → Prop
  | read .. => s.pipe.count ≠ 0 → ∀ c, ¬ (s.calls c).IsCopyOut
  | write .. => s.pipe.count ≠ pipeBufSize → ∀ c, ¬ (s.calls c).IsCopyIn
  | woken c =>
      match s.calls c with
      | .reading .. => s.pipe.count ≠ 0 → ∀ c, ¬ (s.calls c).IsCopyOut
      | .writing .. => s.pipe.count ≠ pipeBufSize → ∀ c, ¬ (s.calls c).IsCopyIn
      | _ => True
  | _ => True

theorem wake_inv (halone : (PipeEvent.woken c).Alone s) (hs : wake env s c = some s') :
    PipeInv s' := by
  unfold wake at hs
  simp only [PipeEvent.Alone] at halone
  cases hc : s.calls c with
  | reading len nonblock =>
    rw [hc] at hs halone
    cases hs
    exact readLoop_inv h hc halone
  | copyOut take head got =>
    rw [hc] at hs
    cases hs
    exact readCopy_inv h hc
  | writing len n nonblock =>
    rw [hc] at hs halone
    cases hs
    exact writeLoop_inv h hc halone
  | copyIn len n put tail nonblock stored =>
    rw [hc] at hs
    cases hs
    exact writeResume_inv h hc
  | new | readDone | writeDone => simp [hc] at hs

/-- A descriptor is opened on a pipe that is not freed. -/
theorem setEnds_inv (r w : Int) (fifo : Bool) (hfreed : s.freed = true → r ≤ 0 ∧ w ≤ 0) :
    PipeInv (s.setPipe { s.pipe with nreaders := r, nwriters := w, fifo := fifo }) :=
  ⟨h.bytes.congr rfl rfl rfl rfl rfl, h.held.congr rfl rfl rfl fun hf =>
    ⟨(hfreed hf).1, (hfreed hf).2, (h.held.freed hf).2.2⟩⟩

/-- **Every event keeps the invariant.** -/
theorem apply_inv {e : PipeEvent} (halone : e.Alone s) (hs : e.apply env s = some s') :
    PipeInv s' := by
  have hends := h.held.freed
  cases e with
  | read len nonblock =>
    obtain ⟨hopen, ⟨⟩⟩ := Option.ite_none_right_eq_some.mp hs
    exact pipeRead_inv h hopen halone
  | write len nonblock =>
    obtain ⟨hopen, ⟨⟩⟩ := Option.ite_none_right_eq_some.mp hs
    exact pipeWrite_inv h hopen halone
  | woken c => exact wake_inv h halone hs
  | addReader =>
    obtain ⟨hopen, ⟨⟩⟩ := Option.ite_none_right_eq_some.mp hs
    refine setEnds_inv h _ _ _ fun hf => ⟨?_, (hends hf).2.1⟩
    have := (hends hf).1
    rcases hopen with hopen | hopen
    · omega
    · simp [hf] at hopen
  | addWriter =>
    obtain ⟨hopen, ⟨⟩⟩ := Option.ite_none_right_eq_some.mp hs
    refine setEnds_inv h _ _ _ fun hf => ⟨(hends hf).1, ?_⟩
    have := (hends hf).2.1
    rcases hopen with hopen | hopen
    · omega
    · simp [hf] at hopen
  | closeRead =>
    obtain ⟨-, ⟨⟩⟩ := Option.ite_none_right_eq_some.mp hs
    refine pipeTryFree_inv (setEnds_inv h _ _ _ fun hf => ⟨?_, (hends hf).2.1⟩)
    have := (hends hf).1
    omega
  | closeWrite =>
    obtain ⟨-, ⟨⟩⟩ := Option.ite_none_right_eq_some.mp hs
    refine pipeTryFree_inv (setEnds_inv h _ _ _ fun hf => ⟨(hends hf).1, ?_⟩)
    have := (hends hf).2.1
    omega
  | fifoFree =>
    obtain ⟨⟨hr, hw, -, -⟩, rfl⟩ : (s.pipe.nreaders ≤ 0 ∧ s.pipe.nwriters ≤ 0 ∧
        s.pipe.fifo = true ∧ s.freed = false) ∧ pipeFifoFree s = s' := by
      simpa [PipeEvent.apply] using hs
    unfold pipeFifoFree
    split
    · exact setEnds_inv h _ _ _ fun _ => ⟨le_rfl, le_rfl⟩
    next hpins =>
    exact ⟨h.bytes.congr rfl rfl rfl rfl rfl, h.held.congr rfl rfl rfl fun _ =>
      ⟨hr, hw, Nat.le_zero.mp (Nat.le_of_not_lt hpins)⟩⟩

omit h

theorem newPipe_inv {p : PipeBuf} (hhead : p.head = 0) (hcount : p.count = 0) (hpins : p.pins = 0) :
    PipeInv (newPipe p) := by
  refine ⟨⟨?_, ?_, ?_, fun c => ⟨rfl, rfl⟩, by simp [newPipe], ?_, ?_⟩, fun _ _ => rfl, ?_, ?_⟩
  · simp [newPipe, hhead]
  · simp [newPipe, hcount]
  · simp [newPipe, hcount, sent, received]
  · exact fun _ _ hc => absurd hc id
  · exact fun _ _ hc => absurd hc id
  · simp [newPipe, hpins, inProgress]
  · simp [newPipe]

end Events

end MaeroOS.Pipe
