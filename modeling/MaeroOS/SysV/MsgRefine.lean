import MaeroOS.SysV.MsgQueue

/-!
# Message queues keep their messages

What the message queues are for: a queue is a list of messages, `msgsnd` puts one at its end, and
`msgrcv` takes out the one its selector is after. `SpecStep` says that for one step, with nothing in
it about nodes and pointers, and `message_queues` that every step is one, in every run whose copies
stand.

`do_msgrcv` finds a message, copies it to the user and then unlinks it, by the pointers it has found
before. If the copy sleeps, another call can change the queue meanwhile. A copy *stands* if the
search, done again when it goes on, finds the same message in the same place. `msgrcv_copy_loses`
shows what happens if it does not.
-/

namespace MaeroOS.SysV

open List (mem_cons not_mem_nil)
open Function (update_apply update_of_ne update_self)
open Lib (System Run IsList run_play)

/-! ## What a step should do -/

/-- `x`, between `pre` and `post`, is what `msgrcv` returns: the oldest message, the oldest that
matches a positive selector, or for a negative one the oldest of the smallest type up to its
absolute value. -/
def Picks (args : RcvArgs) (pre : List Message) (x : Message) (post : List Message) : Prop :=
  if args.type = 0 then pre = []
  else if 0 < args.type then args.Matches x ∧ ∀ y ∈ pre, ¬ args.Matches y
  else
    x.type ≤ -args.type ∧ (∀ y ∈ pre, y.type ≤ -args.type → x.type < y.type) ∧
      ∀ y ∈ post, y.type ≤ -args.type → x.type ≤ y.type

/-- The queues before and after a step that ends with `r`. A call that fails or sleeps changes
nothing; `sends` is the message a `msgsnd` was called with, `args` what a `msgrcv` was called
with. -/
def SpecStep (sends : Option Message) (args : Option RcvArgs) (r : MsgReply)
    (before after : MsgSlot → List Message) : Prop :=
  match r with
  | .ret _ => after = before
  | .sleep => after = before
  | .created slot _ => after = Function.update before slot []
  | .sent slot x => sends = some x ∧ after = Function.update before slot (before slot ++ [x])
  | .received slot x type data => ∃ a, args = some a ∧ ∃ pre post, before slot = pre ++ x :: post ∧
      Picks a pre x post ∧ type = x.type ∧ data = x.data.take a.sz ∧
      (x.data.length ≤ a.sz ∨ a.noerror = true) ∧ after = Function.update before slot (pre ++ post)
  | .removed slot => after = Function.update before slot []
  | .fault => False
  | .hang => False
  | .disabled => False

/-- What a `msgsnd` was called with. -/
def MsgEvent.sends (st : MsgState) : MsgEvent → Option Message
  | msgsnd _ _ _ _ (some type) _ (some data) _ => some ⟨st.allocs, type, data.toList⟩
  | sndWoken t _ =>
      match st.calls t with
      | some (.sending _ _ _ msg) => some msg
      | _ => none
  | _ => none

/-- What a `msgrcv` was called with. -/
def MsgEvent.args (st : MsgState) : MsgEvent → Option RcvArgs
  | msgrcv _ _ _ _ args _ => some args
  | rcvWoken t _ _ =>
      match st.calls t with
      | some (.receiving _ _ args) => some args
      | _ => none
  | rcvCopied t _ =>
      match st.calls t with
      | some (.copying f) => some f.args
      | _ => none
  | _ => none

/-- The search, done again, finds the same message where it was. -/
def RcvCopy.Stands (st : MsgState) (f : RcvCopy) : Prop :=
  ∃ p, rcvScan st f.args st.allocs (st.queues f.slot).head none none none =
    .done (some (f.m, ⟨p, f.msg⟩)) f.mprev

/-- The condition on a step: if it is a copy that has slept and goes on, it stands. -/
def MsgEvent.Stands (st : MsgState) : MsgEvent → Prop
  | rcvCopied t _ => ∀ f, st.calls t = some (.copying f) → f.Stands st
  | _ => True

theorem Found.picks {args : RcvArgs} {pre post : List Message} {x : Message}
    (h : Found args pre x post) : Picks args pre x post := by
  unfold Picks
  by_cases h₀ : args.type = 0
  · rw [if_pos h₀]
    -- every message matches, and none may be passed over
    refine List.eq_nil_iff_forall_not_mem.mpr fun y hy => ?_
    have := (h.first y hy (by simp [RcvArgs.Matches, h₀])).1
    omega
  · rw [if_neg h₀]
    by_cases hpos : 0 < args.type
    · rw [if_pos hpos]
      refine ⟨h.hit, fun y hy hm => ?_⟩
      have := (h.first y hy hm).1
      omega
    · rw [if_neg hpos]
      have hneg : args.type < 0 := by omega
      have hmatch : ∀ y : Message, args.Matches y ↔ y.type ≤ -args.type := by
        simp [RcvArgs.Matches, h₀, hpos]
      refine ⟨(hmatch x).mp h.hit, fun y hy hle => ?_, fun y hy hle => ?_⟩
      · exact (h.first y hy ((hmatch y).mpr hle)).2
      · exact h.least hneg y hy ((hmatch y).mpr hle)

/-! ## The invariant, step by step -/

/-- The messages of all queues. -/
def MsgState.all (st : MsgState) (ls : MsgSlot → List MsgPtr) (slot : MsgSlot) : List Message :=
  st.messages (ls slot)

variable {slot : MsgSlot} {ls : MsgSlot → List MsgPtr}

theorem all_update {st st' : MsgState} {l : List MsgPtr}
    (h : ∀ slot', slot' ≠ slot → st'.messages (ls slot') = st.messages (ls slot')) :
    st'.all (Function.update ls slot l) = Function.update (st.all ls) slot (st'.messages l) := by
  funext slot'
  unfold MsgState.all
  by_cases heq : slot' = slot
  · subst heq
    rw [update_self, update_self]
  · rw [update_of_ne heq, update_of_ne heq, h slot' heq]

/-- The numbers accepted, after a step that ends with `r`. -/
def sentWith (r : MsgReply) (sent : List Nat) : List Nat :=
  match r with
  | .sent _ x => x.stamp :: sent
  | _ => sent

/-- The numbers returned, after a step that ends with `r`. -/
def receivedWith (r : MsgReply) (received : List Nat) : List Nat :=
  match r with
  | .received _ x _ _ => x.stamp :: received
  | _ => received

/-- A node that is nobody's: in no queue, held by no call, its message not accepted yet. -/
structure Loose (st : MsgState) (ls : MsgSlot → List MsgPtr) (sent : List Nat) (m : MsgPtr)
    (msg : Message) : Prop where
  node : st.nodes m = some ⟨none, msg⟩
  out : ∀ slot, m ∉ ls slot
  free : ∀ t msg', ¬ st.Holds t m msg'
  fresh : msg.stamp ∉ sent

namespace MsgInv

variable {st st' : MsgState} {ls : MsgSlot → List MsgPtr} {sent received : List Nat} {m : MsgPtr}
  {msg : Message}

theorem boot : MsgInv msgBoot (fun _ => []) [] [] := by
  refine ⟨⟨fun slot => ⟨rfl, rfl, ?_, fun _ => rfl, ?_, ?_, Nat.zero_le _⟩, ?_, ?_⟩,
    ⟨?_, ?_, ?_⟩, ?_⟩
  · simp
  · simp [msgBoot]
  · simp [msgBoot]
  · simp
  · exact fun a x hx => absurd hx (by simp [MsgState.message, msgBoot])
  · rintro t m msg ⟨slot, seq, h⟩
    cases h
  · rintro t t' m msg msg' ⟨slot, seq, h⟩
    cases h
  · intro t f h
    cases h
  · have hno : ∀ a x, msgBoot.message a ≠ some x := fun a x hx => by
      simp [MsgState.message, msgBoot] at hx
    refine ⟨fun a x hx => absurd hx (hno a x), fun a b x y hx => absurd hx (hno a x), ?_,
      List.nodup_nil, List.nodup_nil, ?_, ?_, ?_, ?_⟩
    · simp
    · simp
    · simp
    · exact fun _ _ _ _ => not_mem_nil
    · simp

/-! ### Calls -/

theorem calls_setCall (st : MsgState) (t : Tid) (f : Option MsgFrame) (t' : Tid) :
    (st.setCall t f).calls t' = if t' = t then f else st.calls t' :=
  update_apply ..

theorem holds_setCall {t t' : Tid} {f : Option MsgFrame} : (st.setCall t f).Holds t' m msg ↔
      if t' = t then ∃ slot seq, f = some (.sending slot seq m msg) else st.Holds t' m msg := by
  unfold MsgState.Holds
  rw [calls_setCall]
  split
  · rfl
  · rfl

variable (h : MsgInv st ls sent received)

include h

/-- A thread leaves its call, or goes to sleep in one. -/
theorem setCall (t : Tid) (f : Option MsgFrame)
    (hsend : ∀ slot seq m msg, f = some (.sending slot seq m msg) → Loose st ls sent m msg)
    (hcopy : ∀ g, f = some (.copying g) → g.Ok) : MsgInv (st.setCall t f) ls sent received := by
  refine ⟨⟨fun slot => (h.lists.queue slot).congr fun _ _ => rfl, h.lists.apart, h.lists.small⟩,
    ⟨fun t' m msg hheld => ?_, fun t₁ t₂ m msg msg' h₁ h₂ => ?_, fun t' g hg => ?_⟩, ?_⟩
  · rw [holds_setCall] at hheld
    split at hheld
    · obtain ⟨slot, seq, hf⟩ := hheld
      have hloose := hsend slot seq m msg hf
      exact ⟨hloose.node, hloose.out⟩
    · exact h.calls.held t' m msg hheld
  · rw [holds_setCall] at h₁ h₂
    split at h₁
    · next ht₁ =>
      split at h₂
      · next ht₂ => rw [ht₁, ht₂]
      · obtain ⟨slot, seq, hf⟩ := h₁
        exact absurd h₂ ((hsend slot seq m msg hf).free t₂ msg')
    · split at h₂
      · obtain ⟨slot, seq, hf⟩ := h₂
        exact absurd h₁ ((hsend slot seq m msg' hf).free t₁ msg)
      · exact h.calls.holder t₁ t₂ m msg msg' h₁ h₂
  · rw [calls_setCall] at hg
    split at hg
    · exact hcopy g hg
    · exact h.calls.copying t' g hg
  · refine { h.stamps with unsent := fun t' m msg hheld => ?_ }
    rw [holds_setCall] at hheld
    split at hheld
    · obtain ⟨slot, seq, hf⟩ := hheld
      exact (hsend slot seq m msg hf).fresh
    · exact h.stamps.unsent t' m msg hheld

/-- A thread leaves its call. -/
theorem endCall (t : Tid) : MsgInv (st.setCall t none) ls sent received :=
  h.setCall t none (fun _ _ _ _ hf => by cases hf) fun _ hf => by cases hf

/-- The message of a call that has left it. -/
theorem loose_of_held {t : Tid} (hheld : st.Holds t m msg) :
    Loose (st.setCall t none) ls sent m msg := by
  obtain ⟨hnode, hout⟩ := h.calls.held t m msg hheld
  refine ⟨hnode, hout, fun t' msg' hheld' => ?_, h.stamps.unsent t m msg hheld⟩
  rw [holds_setCall] at hheld'
  split at hheld'
  · obtain ⟨_, _, hf⟩ := hheld'
    cases hf
  · next ht => exact ht (h.calls.holder t' t m msg' msg hheld' hheld)

/-! ### Nodes -/

omit h in
/-- The calls after a change of nodes that are not theirs. -/
theorem callsOk (h : CallsOk st ls) {ls' : MsgSlot → List MsgPtr} (hcalls : st'.calls = st.calls)
    (hnodes : ∀ t m msg, st.Holds t m msg → st'.nodes m = st.nodes m ∧ ∀ slot, m ∉ ls' slot) :
    CallsOk st' ls' := by
  have hholds : ∀ t m msg, st'.Holds t m msg → st.Holds t m msg := fun t m msg hheld => by
    rw [MsgState.Holds, hcalls] at hheld
    exact hheld
  refine ⟨fun t m msg hheld => ?_, fun t t' m msg msg' h₁ h₂ => ?_, fun t f hf => ?_⟩
  · obtain ⟨hsame, hout⟩ := hnodes t m msg (hholds t m msg hheld)
    exact ⟨hsame.trans (h.held t m msg (hholds t m msg hheld)).1, hout⟩
  · exact h.holder t t' m msg msg' (hholds _ _ _ h₁) (hholds _ _ _ h₂)
  · exact h.copying t f (hcalls ▸ hf)

omit h in
theorem messages_free (hloose : Loose st ls sent m msg) (slot : MsgSlot) :
    (st.free m).messages (ls slot) = st.messages (ls slot) := by
  refine messages_congr fun a ha => ?_
  have hne : a ≠ m := fun he => hloose.out slot (he ▸ ha)
  rw [message_free, if_neg hne]

/-- A node that is nobody's is freed. -/
theorem free (hloose : Loose st ls sent m msg) : MsgInv (st.free m) ls sent received := by
  have hmessage : ∀ a x, (st.free m).message a = some x → st.message a = some x := by
    intro a x hx
    rw [message_free] at hx
    split at hx
    · cases hx
    · exact hx
  refine ⟨⟨fun slot => (h.lists.queue slot).free (hloose.out slot), h.lists.apart,
    fun a x hx => h.lists.small a x (hmessage a x hx)⟩,
      callsOk h.calls rfl fun t m' msg' hheld => ?_, ?_⟩
  · refine ⟨nodes_free_of_ne st fun he => ?_, (h.calls.held t m' msg' hheld).2⟩
    exact hloose.free t msg' (he ▸ hheld)
  · exact
      { h.stamps with
        old := fun a x hx => h.stamps.old a x (hmessage a x hx)
        unique := fun a b x y hx hy => h.stamps.unique a b x y (hmessage a x hx) (hmessage b y hy)
        queued := fun slot x hx => h.stamps.queued slot x (messages_free hloose slot ▸ hx)
        gone := fun s hs a x hx => h.stamps.gone s hs a x (hmessage a x hx) }

omit h in
/-- The messages after an allocation: the others, and the new one with a new number. -/
theorem message_alloc (st : MsgState) (m : MsgPtr) (type : Int) (data : List UInt8) (a : MsgPtr) :
    (st.alloc m type data).message a = if a = m then some ⟨st.allocs, type, data⟩
      else st.message a := by
  have hnodes : (st.alloc m type data).nodes a =
      if a = m then some ⟨none, ⟨st.allocs, type, data⟩⟩ else st.nodes a := update_apply ..
  rw [MsgState.message, hnodes]
  split
  · rfl
  · rfl

theorem alloc (type : Int) {data : List UInt8} (hm : st.nodes m = none)
    (hlen : data.length ≤ msgmax) : MsgInv (st.alloc m type data) ls sent received ∧
      Loose (st.alloc m type data) ls sent m ⟨st.allocs, type, data⟩ ∧
      (st.alloc m type data).all ls = st.all ls := by
  have hout : ∀ slot, m ∉ ls slot := fun slot hin => by
    have := (h.lists.queue slot).live m hin
    rw [hm] at this
    cases this
  have hne : ∀ slot, ∀ a ∈ ls slot, a ≠ m := fun slot a ha he => hout slot (he ▸ ha)
  have hkeep : ∀ {a}, a ≠ m → (st.alloc m type data).nodes a = st.nodes a := fun ha =>
    update_of_ne ha ..
  have hheld : ∀ t m' msg', st.Holds t m' msg' → m' ≠ m := by
    rintro t m' msg' hheld rfl
    have := (h.calls.held t m' msg' hheld).1
    rw [hm] at this
    cases this
  have hmessages : ∀ slot, (st.alloc m type data).messages (ls slot) = st.messages (ls slot) :=
    fun slot =>
    messages_congr fun a ha => by rw [message_alloc, if_neg (hne slot a ha)]
  have hold : ∀ a x, st.message a = some x → x.stamp ≠ st.allocs := fun a x hx =>
    Nat.ne_of_lt (h.stamps.old a x hx)
  refine ⟨⟨⟨fun slot => (h.lists.queue slot).congr fun a ha => hkeep (hne slot a ha),
    h.lists.apart, ?_⟩,
    callsOk h.calls rfl fun t m' msg' hh =>
      ⟨hkeep (hheld t m' msg' hh), (h.calls.held t m' msg' hh).2⟩, ?_⟩,
    ⟨update_self .., hout, fun t msg' hh => hheld t m msg' hh rfl, ?_⟩, funext hmessages⟩
  · intro a x hx
    rw [message_alloc] at hx
    split at hx
    · cases hx
      exact hlen
    · exact h.lists.small a x hx
  · refine
      { h.stamps with
        old := fun a x hx => ?_
        unique := fun a b x y hx hy hxy => ?_
        sentOld := fun s hs => Nat.lt_succ_of_lt (h.stamps.sentOld s hs)
        queued := fun slot x hx => h.stamps.queued slot x (hmessages slot ▸ hx)
        gone := fun s hs a x hx => ?_ }
    · rw [message_alloc] at hx
      split at hx
      · cases hx
        exact Nat.lt_succ_self _
      · exact Nat.lt_succ_of_lt (h.stamps.old a x hx)
    · rw [message_alloc] at hx hy
      split at hx
      · next ha =>
        cases hx
        split at hy
        · next hb => rw [ha, hb]
        · exact absurd hxy.symm (hold b y hy)
      · split at hy
        · cases hy
          exact absurd hxy (hold a x hx)
        · exact h.stamps.unique a b x y hx hy hxy
    · rw [message_alloc] at hx
      split at hx
      · cases hx
        exact (Nat.ne_of_lt (h.stamps.sentOld s (h.stamps.receivedSent s hs))).symm
      · exact h.stamps.gone s hs a x hx
  · exact fun hin => lt_irrefl _ (h.stamps.sentOld _ hin)

/-! ### Queues -/

/-- A message of no one is linked: it is accepted now. -/
theorem enqueue (hloose : Loose st ls sent m msg)
    (hused : (st.queues slot).used = true) (hfull : (st.queues slot).full msg.data.length = false) :
    ∃ st', msgEnqueue st slot m msg.data.length = some st' ∧
      MsgInv st' (Function.update ls slot (ls slot ++ [m])) (msg.stamp :: sent) received ∧
      st'.all (Function.update ls slot (ls slot ++ [m])) =
        Function.update (st.all ls) slot (st.all ls slot ++ [msg]) := by
  obtain ⟨st', heq, hlists, hmessage, hkeep, hcalls, hallocs⟩ :=
    msgEnqueue_spec h.lists hused hloose.node hloose.out hfull
  have hmessages : ∀ l, st'.messages l = st.messages l :=
    fun l => messages_congr fun a _ => hmessage a
  have hmsg : st.message m = some msg := message_eq_some.mpr ⟨_, hloose.node, rfl⟩
  have hnew : st'.messages (ls slot ++ [m]) = st.messages (ls slot) ++ [msg] := by
    rw [hmessages, messages_append, messages_cons hloose.node, messages_nil]
  refine ⟨st', heq, ⟨hlists, callsOk h.calls hcalls fun t m' msg' hheld => ?_, ?_⟩, ?_⟩
  · obtain ⟨_, hout⟩ := h.calls.held t m' msg' hheld
    refine ⟨hkeep m' hout, fun slot' hin => ?_⟩
    rw [update_apply] at hin
    split at hin
    · rcases List.mem_append.mp hin with hin | hin
      · exact hout slot hin
      · exact hloose.free t msg' (List.mem_singleton.mp hin ▸ hheld)
    · exact hout slot' hin
  · refine
      { old := fun a x hx => hallocs ▸ h.stamps.old a x (hmessage a ▸ hx)
        unique := fun a b x y hx hy => h.stamps.unique a b x y (hmessage a ▸ hx) (hmessage b ▸ hy)
        sentOld := fun s hs => ?_
        sentOnce := List.nodup_cons.mpr ⟨hloose.fresh, h.stamps.sentOnce⟩
        receivedOnce := h.stamps.receivedOnce
        receivedSent := fun s hs => List.mem_cons_of_mem _ (h.stamps.receivedSent s hs)
        queued := fun slot' x hx => ?_
        unsent := fun t m' msg' hheld hin => ?_
        gone := fun s hs a x hx => h.stamps.gone s hs a x (hmessage a ▸ hx) }
    · rw [hallocs]
      rcases mem_cons.mp hs with rfl | hs
      · exact h.stamps.old m msg hmsg
      · exact h.stamps.sentOld s hs
    · rw [update_apply] at hx
      split at hx
      · rw [hnew] at hx
        rcases List.mem_append.mp hx with hx | hx
        · exact List.mem_cons_of_mem _ (h.stamps.queued slot x hx)
        · rw [List.mem_singleton.mp hx]
          exact List.mem_cons_self
      · exact List.mem_cons_of_mem _ (h.stamps.queued slot' x (hmessages _ ▸ hx))
    · -- another call's message has another number
      have hheld' : st.Holds t m' msg' := by
        rw [MsgState.Holds, hcalls] at hheld
        exact hheld
      rcases mem_cons.mp hin with heq | hin
      · have hnode := (h.calls.held t m' msg' hheld').1
        have hmm := h.stamps.unique m' m msg' msg (message_eq_some.mpr ⟨_, hnode, rfl⟩) hmsg heq
        exact hloose.free t msg' (hmm ▸ hheld')
      · exact h.stamps.unsent t m' msg' hheld' hin
  · rw [all_update fun slot' _ => hmessages (ls slot'), hnew]
    rfl

/-- A message of a queue is unlinked: it is returned now. -/
theorem dequeue {pre post : List MsgPtr} {x : MsgNode} {mprev : Option MsgPtr}
    (hsplit : ls slot = pre ++ m :: post)
    (hx : st.nodes m = some x) (hprev : mprev = pre.getLast?) :
    ∃ st', msgDequeue st slot m x mprev = some st' ∧
      MsgInv st' (Function.update ls slot (pre ++ post)) sent (x.msg.stamp :: received) ∧
      st'.all (Function.update ls slot (pre ++ post)) =
        Function.update (st.all ls) slot (st.messages pre ++ st.messages post) := by
  obtain ⟨st', heq, hlists, hmessage, hkeep, hcalls, hallocs⟩ :=
    msgDequeue_spec h.lists hsplit hx hprev
  have hmsg : st.message m = some x.msg := message_eq_some.mpr ⟨x, hx, rfl⟩
  have hold : ∀ {a y}, st'.message a = some y → a ≠ m ∧ st.message a = some y := by
    intro a y hy
    rw [hmessage] at hy
    split at hy
    · cases hy
    · next hne => exact ⟨hne, hy⟩
  have hin : m ∈ ls slot := by simp [hsplit]
  have hmessages : ∀ l, m ∉ l → st'.messages l = st.messages l := fun l hl =>
    messages_congr fun a ha => by
      have hne : a ≠ m := fun he => hl (he ▸ ha)
      rw [hmessage, if_neg hne]
  have hother : ∀ slot', slot' ≠ slot → st'.messages (ls slot') = st.messages (ls slot') :=
    fun slot' hne => hmessages _ fun hin' => hne (h.lists.apart slot' slot m hin' hin)
  have hnodup := (h.lists.queue slot).list.nodup
  have hnew : st'.messages (pre ++ post) = st.messages pre ++ st.messages post := by
    rw [hmessages _ (by rw [hsplit] at hnodup; grind), messages_append]
  have hsub : ∀ y ∈ st.messages pre ++ st.messages post, y ∈ st.messages (ls slot) := by
    intro y hy
    rw [hsplit, messages_append, messages_cons hx]
    grind
  have hxin : x.msg ∈ st.messages (ls slot) := mem_messages.mpr ⟨m, hin, hmsg⟩
  refine ⟨st', heq, ⟨hlists, callsOk h.calls hcalls fun t m' msg' hheld => ?_, ?_⟩, ?_⟩
  · obtain ⟨_, hout⟩ := h.calls.held t m' msg' hheld
    refine ⟨hkeep m' hout, fun slot' hin' => ?_⟩
    rw [update_apply] at hin'
    split at hin'
    · exact hout slot (by rw [hsplit]; grind)
    · exact hout slot' hin'
  · refine
      { old := fun a y hy => hallocs ▸ h.stamps.old a y (hold hy).2
        unique := fun a b y z hy hz => h.stamps.unique a b y z (hold hy).2 (hold hz).2
        sentOld := fun s hs => hallocs ▸ h.stamps.sentOld s hs
        sentOnce := h.stamps.sentOnce
        receivedOnce := List.nodup_cons.mpr
          ⟨fun hin' => h.stamps.gone _ hin' m x.msg hmsg rfl, h.stamps.receivedOnce⟩
        receivedSent := fun s hs => ?_
        queued := fun slot' y hy => ?_
        unsent := fun t m' msg' hheld => ?_
        gone := fun s hs a y hy heq => ?_ }
    · rcases mem_cons.mp hs with rfl | hs
      · exact h.stamps.queued slot x.msg hxin
      · exact h.stamps.receivedSent s hs
    · rw [update_apply] at hy
      split at hy
      · rw [hnew] at hy
        exact h.stamps.queued slot y (hsub y hy)
      · next hne => exact h.stamps.queued slot' y (hother slot' hne ▸ hy)
    · rw [MsgState.Holds, hcalls] at hheld
      exact h.stamps.unsent t m' msg' hheld
    · -- the node that had the number is gone, and no other has it
      obtain ⟨hne, hy'⟩ := hold hy
      rcases mem_cons.mp hs with rfl | hs
      · exact hne (h.stamps.unique a m y x.msg hy' hmsg heq)
      · exact h.stamps.gone s hs a y hy' heq
  · rw [all_update hother, hnew]

/-- A queue and its messages are removed. -/
theorem remove (slot : MsgSlot) :
    ∃ nodes, freeChain st.allocs st.nodes (st.queues slot).head = .ok nodes ∧
      MsgInv (MsgState.setQueue { st with nodes := nodes } slot
        { st.queues slot with used := false, head := none, tail := none })
        (Function.update ls slot []) sent received ∧
      (MsgState.setQueue { st with nodes := nodes } slot
        { st.queues slot with used := false, head := none, tail := none }).all
        (Function.update ls slot []) = Function.update (st.all ls) slot [] := by
  obtain ⟨nodes, heq, hlists, hmessage, hkeep⟩ :=
    msgRemove_spec h.lists (length_le_allocs h.lists h.stamps slot)
  set st' := MsgState.setQueue { st with nodes := nodes } slot
    { st.queues slot with used := false, head := none, tail := none }
  have hmessage' : ∀ a, st'.message a = if a ∈ ls slot then none else st.message a := hmessage
  have hold : ∀ {a y}, st'.message a = some y → st.message a = some y := by
    intro a y hy
    rw [hmessage'] at hy
    split at hy
    · cases hy
    · exact hy
  have hother : ∀ slot', slot' ≠ slot → st'.messages (ls slot') = st.messages (ls slot') :=
    fun slot' hne => messages_congr fun a ha => by
      have hnot : a ∉ ls slot := fun hin => hne (h.lists.apart slot' slot a ha hin)
      rw [hmessage', if_neg hnot]
  refine ⟨nodes, heq, ⟨hlists, callsOk h.calls rfl fun t m' msg' hheld => ?_, ?_⟩, ?_⟩
  · obtain ⟨_, hout⟩ := h.calls.held t m' msg' hheld
    refine ⟨hkeep m' (hout slot), fun slot' hin => ?_⟩
    rw [update_apply] at hin
    split at hin
    · exact absurd hin not_mem_nil
    · exact hout slot' hin
  · refine
      { h.stamps with
        old := fun a y hy => h.stamps.old a y (hold hy)
        unique := fun a b y z hy hz => h.stamps.unique a b y z (hold hy) (hold hz)
        queued := fun slot' y hy => ?_
        gone := fun s hs a y hy => h.stamps.gone s hs a y (hold hy) }
    rw [update_apply] at hy
    split at hy
    · exact absurd hy not_mem_nil
    · next hne => exact h.stamps.queued slot' y (hother slot' hne ▸ hy)
  · rw [all_update hother]
    rfl

/-- The header of a queue changes: permissions, limits, or a new queue in a free slot. -/
theorem header {q : MsgQueue} (seqNext : Nat) (hq : QueueOk st q (ls slot)) :
    MsgInv { st.setQueue slot q with seqNext := seqNext } ls sent received := by
  refine ⟨⟨fun slot' => ?_, h.lists.apart, h.lists.small⟩,
    callsOk h.calls rfl fun t m msg hheld => ?_, ?_⟩
  · show QueueOk _ ((st.setQueue slot q).queues slot') _
    by_cases hs : slot' = slot
    · subst hs
      rw [queues_setQueue_self]
      exact hq.congr fun _ _ => rfl
    · rw [queues_setQueue_of_ne _ _ hs]
      exact (h.lists.queue slot').congr fun _ _ => rfl
  · exact ⟨rfl, (h.calls.held t m msg hheld).2⟩
  · exact { h.stamps with }

end MsgInv

/-! ## The calls -/

/-- A step keeps the invariant and does what it should. -/
def Stepped (before : MsgSlot → List Message) (sent received : List Nat) (sends : Option Message)
    (args : Option RcvArgs) (p : MsgReply × MsgState) : Prop :=
  ∃ ls, MsgInv p.2 ls (sentWith p.1 sent) (receivedWith p.1 received) ∧
    SpecStep sends args p.1 before (p.2.all ls)

variable {st : MsgState}

theorem msqById_used {id : Int} (hid : st.msqById id = some slot) :
    (st.queues slot).used = true := by
  unfold MsgState.msqById at hid
  split at hid
  · cases hid
  split at hid
  · next hthere =>
    cases hid
    exact hthere.1
  · cases hid

/-- The message queues whose copies stand. -/
def standingSystem : System MsgState (MsgEvent × MsgReply) :=
  msgSystem.restrict fun st l => l.1.Stands st

section Calls

variable {st : MsgState} {ls : MsgSlot → List MsgPtr} {sent received : List Nat}
  {sends : Option Message} {args : Option RcvArgs} (h : MsgInv st ls sent received)

include h

theorem Stepped.ret (r : Int) : Stepped (st.all ls) sent received sends args (.ret r, st) :=
  ⟨ls, h, rfl⟩

/-- The message of a call that gives up. -/
theorem Stepped.drop {m : MsgPtr} {msg : Message} (hloose : Loose st ls sent m msg) (r : Int) :
    Stepped (st.all ls) sent received sends args (.ret r, st.free m) :=
  ⟨ls, h.free hloose, funext (MsgInv.messages_free hloose)⟩

theorem sndTry_stepped {m : MsgPtr} {msg : Message} (hloose : Loose st ls sent m msg)
    (hused : (st.queues slot).used = true) (t : Tid) (nowait : Bool) :
    Stepped (st.all ls) sent received (some msg) args (sndTry st t slot m msg nowait) := by
  unfold sndTry
  split
  · split
    · exact .drop h hloose _
    refine ⟨ls, h.setCall t _ (fun slot seq m' msg' hf => ?_) nofun, rfl⟩
    cases hf
    exact hloose
  · next hfull =>
    obtain ⟨st', heq, hinv, hall⟩ := h.enqueue hloose hused (Bool.eq_false_iff.mpr hfull)
    rw [heq]
    exact ⟨_, hinv, rfl, hall⟩

theorem msgsnd_stepped (t : Tid) (c : Cred) (id : Int) (sz : UInt32) (type : Option Int)
    (mem : Option MsgPtr) (data : Option (Vector UInt8 sz.toNat)) (nowait : Bool) :
    (msgsnd st t c id sz type mem data nowait).1 = .disabled ∨
      Stepped (st.all ls) sent received (MsgEvent.sends st (.msgsnd t c id sz type mem data nowait))
        args (msgsnd st t c id sz type mem data nowait) := by
  unfold msgsnd
  split
  · exact Or.inr (.ret h _)
  next hsz =>
  rcases type with _ | type
  · exact Or.inr (.ret h _)
  dsimp only
  split
  · exact Or.inr (.ret h _)
  rcases mem with _ | m
  · exact Or.inr (.ret h _)
  dsimp only
  split
  · exact Or.inl rfl
  next hfree =>
  rcases data with _ | data
  · exact Or.inr (.ret h _)
  cases hid : st.msqById id with
  | none => exact Or.inr (.ret h _)
  | some slot =>
    dsimp only
    split
    · exact Or.inr (.ret h _)
    have hm : st.nodes m = none := by
      by_contra hne
      exact hfree (Or.inl hne)
    have hlen : data.toList.length ≤ msgmax := by
      rw [Vector.length_toList]
      omega
    obtain ⟨hinv, hloose, hall⟩ := h.alloc type hm hlen
    rw [← hall]
    exact Or.inr (sndTry_stepped hinv hloose (msqById_used hid) t nowait)

theorem sndWoken_stepped (t : Tid) (w : Wake) : (sndWoken st t w).1 = .disabled ∨
      Stepped (st.all ls) sent received (MsgEvent.sends st (.sndWoken t w)) args
        (sndWoken st t w) := by
  unfold sndWoken
  split
  · next slot seq m msg hcall =>
    have hloose := h.loose_of_held ⟨slot, seq, hcall⟩
    have hend := h.endCall t
    have hsends : MsgEvent.sends st (.sndWoken t w) = some msg := by simp [MsgEvent.sends, hcall]
    rw [hsends]
    refine Or.inr ?_
    split
    · exact Stepped.drop hend hloose _
    next hthere =>
    have hused : (st.queues slot).used = true := by
      by_contra hno
      exact hthere (Or.inl (Bool.eq_false_iff.mpr hno))
    cases w with
    | woken => exact sndTry_stepped hend hloose hused t false
    | intr | timeout => exact Stepped.drop hend hloose _
  · exact Or.inl rfl

/-- The copy of a message that is where it was found. -/
theorem rcvCopy_stepped {f : RcvCopy} (hok : f.Ok) {x : MsgNode} (hmsg : x.msg = f.msg)
    (hscan : Scanned st f.args (ls f.slot) (some (f.m, x)) f.mprev) (t : Tid) (cp : Copy) :
    Stepped (st.all ls) sent received sends (some f.args) (rcvCopy st t f cp) := by
  obtain ⟨pre, post, hsplit, hx, hprev, hfound⟩ := hscan
  have htype : f.type.getD x.msg.type = x.msg.type := by
    rcases hok.type with heq | heq
    · rw [heq]
      rfl
    · rw [heq, hmsg]
      rfl
  obtain ⟨rest, hrest⟩ := hok.got
  have hchunk : ∀ j, f.chunk x j = rest.take j := by
    intro j
    rw [RcvCopy.chunk, hmsg, ← hrest, List.drop_left]
  unfold rcvCopy
  rw [hx]
  cases cp with
  | fault => exact ⟨ls, h.endCall t, rfl⟩
  | sleep j =>
    refine ⟨ls, h.setCall t _ nofun (fun g hg => ?_), rfl⟩
    cases hg
    refine ⟨Or.inr (by rw [htype, hmsg]), ?_, hok.n, hok.fits⟩
    show f.got ++ f.chunk x j <+: f.msg.data.take f.n
    rw [hchunk, ← hrest]
    exact (List.prefix_append_right_inj _).mpr (List.take_prefix j rest)
  | done =>
    obtain ⟨st', heq, hinv, hall⟩ := h.dequeue hsplit hx hprev
    have hdata : f.got ++ f.chunk x f.n = x.msg.data.take f.args.sz := by
      have hlen : rest.length ≤ f.n := by
        have := congrArg List.length hrest
        rw [List.length_append, List.length_take] at this
        omega
      rw [hchunk, List.take_of_length_le hlen, hrest, hok.n, ← hmsg, Nat.min_comm,
        ← List.take_eq_take_min]
    simp only [heq]
    refine ⟨_, hinv.endCall t, f.args, rfl, st.messages pre, st.messages post, ?_,
      hfound.picks, htype, hdata, hmsg ▸ hok.fits, hall⟩
    show st.messages (ls f.slot) = _
    rw [hsplit, messages_append, messages_cons hx]

/-- The search finds what it should. -/
theorem scanned (slot : MsgSlot) (a : RcvArgs) :
    ∃ m mprev, rcvScan st a st.allocs (st.queues slot).head none none none = .done m mprev ∧
      Scanned st a (ls slot) m mprev :=
  rcvScan_spec (ls slot) [] (h.lists.queue slot).list (h.lists.queue slot).live
    (length_le_allocs h.lists h.stamps slot) rfl nofun
    fun hne => absurd rfl hne

theorem rcvTry_stepped (t : Tid) (slot : MsgSlot) (a : RcvArgs) (cp : Copy) :
    Stepped (st.all ls) sent received sends (some a) (rcvTry st t slot a cp) := by
  obtain ⟨m, mprev, heq, hscan⟩ := scanned h slot a
  unfold rcvTry
  rw [heq]
  cases m with
  | none =>
    dsimp only
    split
    · exact .ret h _
    · exact ⟨ls, h.setCall t _ nofun nofun, rfl⟩
  | some m =>
    obtain ⟨m, x⟩ := m
    dsimp only
    split
    · exact .ret h _
    next hfits =>
    refine rcvCopy_stepped (x := x) h ⟨Or.inl rfl, List.nil_prefix, rfl, ?_⟩ rfl hscan t cp
    show x.msg.data.length ≤ a.sz ∨ a.noerror = true
    grind

theorem msgrcv_stepped (t : Tid) (c : Cred) (id : Int) (copy : Bool) (a : RcvArgs) (cp : Copy) :
    (msgrcv st t c id copy a cp).1 = .disabled ∨
      Stepped (st.all ls) sent received sends (some a) (msgrcv st t c id copy a cp) := by
  unfold msgrcv
  split
  · exact Or.inl rfl
  refine Or.inr ?_
  split
  · exact .ret h _
  split
  · exact .ret h _
  split
  · exact .ret h _
  split
  · exact .ret h _
  · exact rcvTry_stepped h ..

theorem rcvWoken_stepped (t : Tid) (w : Wake) (cp : Copy) : (rcvWoken st t w cp).1 = .disabled ∨
      Stepped (st.all ls) sent received sends (MsgEvent.args st (.rcvWoken t w cp))
        (rcvWoken st t w cp) := by
  unfold rcvWoken
  split
  · next slot seq a hcall =>
    have hend := h.endCall t
    have hargs : MsgEvent.args st (.rcvWoken t w cp) = some a := by simp [MsgEvent.args, hcall]
    rw [hargs]
    refine Or.inr ?_
    split
    · exact Stepped.ret hend _
    cases w with
    | woken => exact rcvTry_stepped hend t slot a cp
    | intr | timeout => exact Stepped.ret hend _
  · exact Or.inl rfl

theorem rcvCopied_stepped (t : Tid) (cp : Copy) (hstands : MsgEvent.Stands st (.rcvCopied t cp)) :
    (rcvCopied st t cp).1 = .disabled ∨
      Stepped (st.all ls) sent received sends (MsgEvent.args st (.rcvCopied t cp))
        (rcvCopied st t cp) := by
  unfold rcvCopied
  split
  · next f hcall =>
    have hargs : MsgEvent.args st (.rcvCopied t cp) = some f.args := by simp [MsgEvent.args, hcall]
    rw [hargs]
    obtain ⟨p, hp⟩ := hstands f hcall
    obtain ⟨m, mprev, heq, hscan⟩ := scanned h f.slot f.args
    rw [heq] at hp
    cases hp
    exact Or.inr (rcvCopy_stepped (h.endCall t) (h.calls.copying t f hcall) rfl hscan t cp)
  · exact Or.inl rfl

theorem msgget_stepped (c : Cred) (key : Int) (flag : UInt32) :
    Stepped (st.all ls) sent received sends args (msgget st c key flag) := by
  unfold msgget
  split
  · split
    · exact .ret h _
    split
    · exact .ret h _
    · exact .ret h _
  · split
    · exact .ret h _
    split
    · exact .ret h _
    next slot hfree =>
    have hunused : (st.queues slot).used = false := by
      have := List.find?_some hfree
      simpa using this
    have hnil := (h.lists.queue slot).unused hunused
    refine ⟨ls, h.header _ (hnil ▸ ⟨rfl, rfl, ?_, fun _ => rfl, fun _ => rfl, fun _ => rfl, ?_⟩),
      ?_⟩
    · exact nofun
    · exact Nat.zero_le _
    · have hempty : st.all ls slot = [] := by
        show st.messages (ls slot) = []
        rw [hnil]
        rfl
      show st.all ls = Function.update (st.all ls) slot []
      rw [← hempty, Function.update_eq_self]

theorem msgRmid_stepped (c : Cred) (id : Int) : Stepped (st.all ls) sent received sends args
    (msgRmid st c id) := by
  unfold msgRmid
  split
  · exact .ret h _
  next slot _ =>
  split
  · exact .ret h _
  obtain ⟨nodes, heq, hinv, hall⟩ := h.remove slot
  rw [heq]
  exact ⟨_, hinv, hall⟩

theorem msgIpcSet_stepped (c : Cred) (slot : MsgSlot) (uid gid mode qbytes : UInt32) :
    Stepped (st.all ls) sent received sends args (msgIpcSet st c slot uid gid mode qbytes) := by
  unfold msgIpcSet
  split
  · exact .ret h _
  split
  · exact .ret h _
  have hq := h.lists.queue slot
  exact ⟨ls, h.header st.seqNext { hq with }, rfl⟩

/-- **One step** keeps the invariant and does what it should, if the copy it goes on with stands. -/
theorem apply_stepped (e : MsgEvent) (hstands : e.Stands st) : (e.apply st).1 = .disabled ∨
      Stepped (st.all ls) sent received (e.sends st) (e.args st) (e.apply st) := by
  cases e with
  | msgget c key flag => exact Or.inr (msgget_stepped h c key flag)
  | msgsnd t c id sz type mem data nowait => exact msgsnd_stepped h t c id sz type mem data nowait
  | sndWoken t w => exact sndWoken_stepped h t w
  | msgrcv t c id copy a cp => exact msgrcv_stepped h t c id copy a cp
  | rcvWoken t w cp => exact rcvWoken_stepped h t w cp
  | rcvCopied t cp => exact rcvCopied_stepped h t cp hstands
  | rmid c id => exact Or.inr (msgRmid_stepped h c id)
  | ipcSet c slot uid gid mode qbytes =>
      exact Or.inr (msgIpcSet_stepped h c slot uid gid mode qbytes)

/-- So does a step of the queues whose copies stand. -/
theorem stepped_of_step {e : MsgEvent} {r : MsgReply} {st' : MsgState}
    (hstep : standingSystem.step st (e, r) st') :
    Stepped (st.all ls) sent received (e.sends st) (e.args st) (r, st') := by
  obtain ⟨⟨happly, hgood⟩, hstands⟩ := hstep
  have happly' : e.apply st = (r, st') := happly
  have hcases := apply_stepped h e hstands
  rw [happly'] at hcases
  exact hcases.resolve_left fun hr => hgood (Or.inr (Or.inr hr))

end Calls

/-! ## Runs -/

/-- The numbers of the messages accepted in a history. -/
def sentBy (tr : List (MsgEvent × MsgReply)) : List Nat := tr.foldr (fun l => sentWith l.2) []

/-- The numbers of the messages returned in a history. -/
def receivedBy (tr : List (MsgEvent × MsgReply)) : List Nat :=
  tr.foldr (fun l => receivedWith l.2) []

variable {received sent : List Nat}

/-- The nodes are those the head leads to. -/
theorem MsgInv.nodesOf_eq (h : MsgInv st ls sent received) (slot : MsgSlot) :
    st.nodesOf slot = ls slot :=
  (h.lists.queue slot).list.follow_eq (length_le_allocs h.lists h.stamps slot)

theorem MsgInv.contents_eq (h : MsgInv st ls sent received) : st.contents = st.all ls := by
  funext slot
  rw [MsgState.contents, h.nodesOf_eq]
  rfl

theorem MsgInv.of_run {tr : List (MsgEvent × MsgReply)}
    (hrun : Run standingSystem tr st) : ∃ ls, MsgInv st ls (sentBy tr) (receivedBy tr) := by
  refine Run.invariant_history (P := fun tr st => ∃ ls, MsgInv st ls (sentBy tr) (receivedBy tr))
    ?_ ?_ hrun
  · rintro st rfl
    exact ⟨_, MsgInv.boot⟩
  · rintro tr st ⟨e, r⟩ st' _ ⟨ls, hinv⟩ hstep
    obtain ⟨ls', hinv', -⟩ := stepped_of_step hinv hstep
    exact ⟨ls', hinv'⟩

/-- What holds of the message queues after the history `tr`. -/
structure MessagesOk (tr : List (MsgEvent × MsgReply)) (st : MsgState) : Prop where
  /-- A queue's list ends, and its tail is the last node, if there is one. -/
  list : ∀ slot, IsList st.next (st.queues slot).head (st.nodesOf slot)
  tail : ∀ slot, (st.queues slot).tail = (st.nodesOf slot).getLast?
  /-- Its counters are right. -/
  cbytes : ∀ slot, (st.queues slot).used = true → (st.queues slot).cbytes = bytes (st.contents slot)
  qnum : ∀ slot, (st.queues slot).used = true → (st.queues slot).qnum = (st.contents slot).length
  /-- No message is returned twice, and none that was not accepted. -/
  sentOnce : (sentBy tr).Nodup
  receivedOnce : (receivedBy tr).Nodup
  receivedSent : ∀ s ∈ receivedBy tr, s ∈ sentBy tr
  /-- What comes next does to the queues what it should, and uses no freed message. -/
  step : ∀ e r st', standingSystem.step st (e, r) st' →
    SpecStep (e.sends st) (e.args st) r st.contents st'.contents
  safe : ∀ e : MsgEvent, e.Stands st → (e.apply st).1 ≠ .fault ∧ (e.apply st).1 ≠ .hang
  /-- A search comes back without a message just if none matches. -/
  search : ∀ slot a, ∃ m mprev,
    rcvScan st a st.allocs (st.queues slot).head none none none = .done m mprev ∧
      (m = none ↔ ∀ y ∈ st.contents slot, ¬ a.Matches y)

/-- **Message queues neither lose, duplicate nor reorder messages**, in every run whose copies
stand. -/
theorem message_queues {tr : List (MsgEvent × MsgReply)} {st : MsgState}
    (hrun : Run standingSystem tr st) : MessagesOk tr st := by
  obtain ⟨ls, hinv⟩ := MsgInv.of_run hrun
  have hnodes := hinv.nodesOf_eq
  have hcontents := hinv.contents_eq
  constructor
  · exact fun slot => hnodes slot ▸ (hinv.lists.queue slot).list
  · exact fun slot => hnodes slot ▸ (hinv.lists.queue slot).tail
  · intro slot hused
    rw [hcontents]
    exact (hinv.lists.queue slot).cbytes hused
  · intro slot hused
    rw [hcontents, (hinv.lists.queue slot).qnum hused]
    exact (length_messages (hinv.lists.queue slot).live).symm
  · exact hinv.stamps.sentOnce
  · exact hinv.stamps.receivedOnce
  · exact hinv.stamps.receivedSent
  · intro e r st' hstep
    obtain ⟨ls', hinv', hspec⟩ := stepped_of_step hinv hstep
    rwa [hcontents, hinv'.contents_eq]
  · intro e hstands
    rcases apply_stepped hinv e hstands with hr | ⟨ls', _, hspec⟩
    · simp [hr]
    constructor
    · intro hr
      rw [hr] at hspec
      exact hspec
    · intro hr
      rw [hr] at hspec
      exact hspec
  · intro slot a
    obtain ⟨m, mprev, heq, hscan⟩ := scanned hinv slot a
    refine ⟨m, mprev, heq, ?_⟩
    rw [hcontents]
    cases m with
    | none => exact ⟨fun _ => hscan, fun _ => rfl⟩
    | some m =>
      obtain ⟨m, x⟩ := m
      obtain ⟨pre, post, hsplit, hx, _, hfound⟩ := hscan
      have hin : x.msg ∈ st.all ls slot :=
        mem_messages.mpr ⟨m, by simp [hsplit], message_eq_some.mpr ⟨x, hx, rfl⟩⟩
      constructor
      · intro hno
        cases hno
      · intro hno
        exact absurd hfound.hit (hno x.msg hin)

/-- The oldest message, whatever its type. -/
def anyMessage : RcvArgs := ⟨100, 0, false, false, false⟩

/-- A new queue gets two messages, and the second is received by its type. -/
def typedRun : List MsgEvent :=
  [ .msgget root ipcPrivate 0o600,
    .msgsnd 1 root 64 1 (some 5) (some 0) (some #v[1]) false,
    .msgsnd 1 root 64 1 (some 2) (some 1) (some #v[2]) false,
    .msgrcv 2 root 64 false { anyMessage with type := -4 } .done ]

theorem message_queues_typed :
    ∃ tr st, Run standingSystem tr st ∧ receivedBy tr = [1] ∧ sentBy tr = [1, 0] ∧
      st.contents ⟨0, by decide⟩ = [⟨0, 5, [1]⟩] ∧ MessagesOk tr st := by
  have hstep : ∀ e ∈ typedRun, ∀ s, ¬ MsgReply.bad (e.apply s).1 →
      standingSystem.step s (e, (e.apply s).1) (e.apply s).2 := by
    intro e he s hbad
    refine ⟨⟨rfl, hbad⟩, ?_⟩
    simp only [typedRun, mem_cons, not_mem_nil, or_false] at he
    rcases he with rfl | rfl | rfl | rfl
    · trivial
    · trivial
    · trivial
    · trivial
  obtain ⟨tr, st, hrun, hrest⟩ : ∃ tr st, Run standingSystem tr st ∧ receivedBy tr = [1] ∧
      sentBy tr = [1, 0] ∧ st.contents ⟨0, by decide⟩ = [⟨0, 5, [1]⟩] :=
    run_play MsgEvent.apply MsgReply.bad typedRun msgBoot hstep (.init rfl) (by decide +kernel)
  exact ⟨tr, st, hrun, hrest.1, hrest.2.1, hrest.2.2, message_queues hrun⟩

/-- Two messages are sent. A receiver finds the first and sleeps in its copy; another one receives
it. A third message is sent and gets the memory of the first. Then the copy goes on. -/
def losingRun : List MsgEvent :=
  [ .msgget root ipcPrivate 0o600,
    .msgsnd 1 root 64 1 (some 1) (some 0) (some #v[1]) false,
    .msgsnd 1 root 64 1 (some 2) (some 1) (some #v[2]) false,
    .msgrcv 2 root 64 false anyMessage (.sleep 0),
    .msgrcv 3 root 64 false anyMessage .done,
    .msgsnd 1 root 64 1 (some 3) (some 0) (some #v[3]) false,
    .rcvCopied 2 .done ]

/-- The second message is lost: it has not been returned, but the queue is empty. Its counters still
count it, and the copy has returned the type of the first message with the data of the third. -/
theorem msgrcv_copy_loses :
    ∃ tr st, Run msgSystem tr st ∧ sentBy tr = [2, 1, 0] ∧ receivedBy tr = [2, 0] ∧
      st.contents ⟨0, by decide⟩ = [] ∧ (st.queues ⟨0, by decide⟩).used = true ∧
      (st.queues ⟨0, by decide⟩).qnum = 1 ∧ (st.queues ⟨0, by decide⟩).cbytes = 1 ∧
      tr.head?.map Prod.snd = some (.received ⟨0, by decide⟩ ⟨2, 3, [3]⟩ 1 [3]) := by
  exact run_play MsgEvent.apply MsgReply.bad losingRun msgBoot (fun _ _ _ hbad => ⟨rfl, hbad⟩)
    (.init rfl) (by decide +kernel)

end MaeroOS.SysV
