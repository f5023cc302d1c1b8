import Mathlib.Data.Finset.Card
import MaeroOS.SysV.Msg

/-!
# The invariant of the message queues

`MsgInv st ls sent received` is what holds between the state, the nodes `ls` of each queue in order,
and the numbers of the messages accepted and returned so far. Its update lemmas say what linking and
unlinking a node do; the search of `do_msgrcv` is described by `rcvScan_spec`.
-/

namespace MaeroOS.SysV

open Function List
open Lib (IsList follow)

/-! ## Contents -/

/-- The message of a node. -/
def MsgState.message (st : MsgState) (a : MsgPtr) : Option Message := (st.nodes a).map MsgNode.msg

/-- The messages of some nodes, in order. -/
def MsgState.messages (st : MsgState) (l : List MsgPtr) : List Message := l.filterMap st.message

/-- The nodes of a queue, from its head on. -/
def MsgState.nodesOf (st : MsgState) (slot : MsgSlot) : List MsgPtr :=
  follow st.next st.allocs (st.queues slot).head

/-- **The messages of a queue**, oldest first. -/
def MsgState.contents (st : MsgState) (slot : MsgSlot) : List Message :=
  st.messages (st.nodesOf slot)

/-- The bytes the messages take. -/
def bytes (ms : List Message) : Nat := (ms.map fun x => x.data.length).sum

@[simp] theorem bytes_nil : bytes [] = 0 := rfl

@[simp] theorem bytes_cons (x : Message) (ms : List Message) :
    bytes (x :: ms) = x.data.length + bytes ms := by
  simp [bytes]

@[simp] theorem bytes_append (ms ms' : List Message) :
    bytes (ms ++ ms') = bytes ms + bytes ms' := by
  simp [bytes]

variable {msg : Message}

section Messages

variable {st st' : MsgState} {l l' : List MsgPtr} {a : MsgPtr} {x : MsgNode}

theorem message_eq_some : st.message a = some msg ↔ ∃ x, st.nodes a = some x ∧ x.msg = msg := by
  simp [MsgState.message]

@[simp] theorem messages_nil : st.messages [] = [] := rfl

theorem messages_cons (hx : st.nodes a = some x) : st.messages (a :: l) = x.msg :: st.messages l :=
  filterMap_cons_some (message_eq_some.mpr ⟨x, hx, rfl⟩)

theorem messages_append : st.messages (l ++ l') = st.messages l ++ st.messages l' :=
  filterMap_append

theorem messages_congr (h : ∀ a ∈ l, st'.message a = st.message a) :
    st'.messages l = st.messages l :=
  filterMap_congr h

theorem mem_messages : msg ∈ st.messages l ↔ ∃ a ∈ l, st.message a = some msg :=
  mem_filterMap

theorem length_messages (h : ∀ a ∈ l, (st.nodes a).isSome = true) :
    (st.messages l).length = l.length := by
  induction l with
  | nil => rfl
  | cons a l ih =>
    obtain ⟨x, hx⟩ := Option.isSome_iff_exists.mp (h a mem_cons_self)
    rw [messages_cons hx, length_cons, length_cons,
      ih fun b hb => h b (mem_cons_of_mem a hb)]

end Messages

/-! ## The invariant -/

/-- The queue threads the nodes `l`, and counts them right. -/
structure QueueOk (st : MsgState) (q : MsgQueue) (l : List MsgPtr) : Prop where
  list : IsList st.next q.head l
  tail : q.tail = l.getLast?
  live : ∀ a ∈ l, (st.nodes a).isSome = true
  unused : q.used = false → l = []
  cbytes : q.used = true → q.cbytes = bytes (st.messages l)
  qnum : q.used = true → q.qnum = l.length
  few : l.length ≤ msgPerQueue

structure ListsOk (st : MsgState) (ls : MsgSlot → List MsgPtr) : Prop where
  queue : ∀ slot, QueueOk st (st.queues slot) (ls slot)
  apart : ∀ slot slot', ∀ a ∈ ls slot, a ∈ ls slot' → slot = slot'
  small : ∀ a x, st.message a = some x → x.data.length ≤ msgmax

/-- The thread sleeps with the message `m` of its own. -/
def MsgState.Holds (st : MsgState) (t : Tid) (m : MsgPtr) (msg : Message) : Prop :=
  ∃ slot seq, st.calls t = some (.sending slot seq m msg)

/-- A copy on its way has passed on what it found. -/
structure RcvCopy.Ok (f : RcvCopy) : Prop where
  type : f.type = none ∨ f.type = some f.msg.type
  got : f.got <+: f.msg.data.take f.n
  n : f.n = min f.msg.data.length f.args.sz
  fits : f.msg.data.length ≤ f.args.sz ∨ f.args.noerror = true

/-- A message that waits to be linked belongs to one call, and is in no queue. -/
structure CallsOk (st : MsgState) (ls : MsgSlot → List MsgPtr) : Prop where
  held : ∀ t m msg, st.Holds t m msg → st.nodes m = some ⟨none, msg⟩ ∧ ∀ slot, m ∉ ls slot
  holder : ∀ t t' m msg msg', st.Holds t m msg → st.Holds t' m msg' → t = t'
  copying : ∀ t f, st.calls t = some (.copying f) → f.Ok

/-- Numbers are given out once; what has been accepted is in its queue until it is returned, and
then it is nowhere. -/
structure StampsOk (st : MsgState) (ls : MsgSlot → List MsgPtr) (sent received : List Nat) :
    Prop where
  old : ∀ a x, st.message a = some x → x.stamp < st.allocs
  unique : ∀ a b x y, st.message a = some x → st.message b = some y → x.stamp = y.stamp → a = b
  sentOld : ∀ s ∈ sent, s < st.allocs
  sentOnce : sent.Nodup
  receivedOnce : received.Nodup
  receivedSent : ∀ s ∈ received, s ∈ sent
  queued : ∀ slot, ∀ x ∈ st.messages (ls slot), x.stamp ∈ sent
  unsent : ∀ t m msg, st.Holds t m msg → msg.stamp ∉ sent
  gone : ∀ s ∈ received, ∀ a x, st.message a = some x → x.stamp ≠ s

structure MsgInv (st : MsgState) (ls : MsgSlot → List MsgPtr) (sent received : List Nat) :
    Prop where
  lists : ListsOk st ls
  calls : CallsOk st ls
  stamps : StampsOk st ls sent received

/-! ## One queue -/

namespace QueueOk

variable {st st' : MsgState} {q : MsgQueue} {l : List MsgPtr}

/-- Only the nodes of the queue matter. -/
theorem congr (h : QueueOk st q l) (hnodes : ∀ a ∈ l, st'.nodes a = st.nodes a) :
    QueueOk st' q l := by
  have hmessages : st'.messages l = st.messages l :=
    messages_congr fun a ha => by rw [MsgState.message, MsgState.message, hnodes a ha]
  refine ⟨h.list.congr fun a ha => ?_, h.tail, fun a ha => ?_, h.unused, ?_, h.qnum, h.few⟩
  · rw [MsgState.next, MsgState.next, hnodes a ha]
  · rw [hnodes a ha]
    exact h.live a ha
  · rw [hmessages]
    exact h.cbytes

/-- The bytes are within what 32 bits hold, with room to spare. -/
theorem bytes_le (h : QueueOk st q l)
    (hsmall : ∀ a x, st.message a = some x → x.data.length ≤ msgmax) :
    bytes (st.messages l) ≤ msgPerQueue * msgmax := by
  have hsum : ∀ ms : List Message, (∀ x ∈ ms, x.data.length ≤ msgmax) →
      bytes ms ≤ ms.length * msgmax := by
    intro ms hms
    induction ms with
    | nil => simp
    | cons x ms ih =>
      have hx := hms x mem_cons_self
      have htail := ih fun y hy => hms y (mem_cons_of_mem x hy)
      rw [bytes_cons, length_cons, Nat.succ_mul]
      omega
  have hbound := hsum (st.messages l) fun x hx => by
    obtain ⟨a, _, ha⟩ := mem_messages.mp hx
    exact hsmall a x ha
  rw [length_messages h.live] at hbound
  exact hbound.trans (Nat.mul_le_mul_right _ h.few)

end QueueOk

variable {st st' : MsgState} {l post pre : List MsgPtr}

/-- One queue has changed, and so have its nodes. -/
theorem ListsOk.update {ls : MsgSlot → List MsgPtr} (h : ListsOk st ls) {slot : MsgSlot}
    (hqueues : ∀ slot', slot' ≠ slot → st'.queues slot' = st.queues slot')
    (hnodes : ∀ slot', slot' ≠ slot → ∀ a ∈ ls slot', st'.nodes a = st.nodes a)
    (hmessage : ∀ a x, st'.message a = some x → st.message a = some x)
    (hnew : QueueOk st' (st'.queues slot) l)
    (hapart : ∀ a ∈ l, ∀ slot', slot' ≠ slot → a ∉ ls slot') :
    ListsOk st' (Function.update ls slot l) := by
  refine ⟨fun slot' => ?_, fun s s' a ha ha' => ?_, fun a x hx => h.small a x (hmessage a x hx)⟩
  · by_cases heq : slot' = slot
    · subst heq
      rw [update_self]
      exact hnew
    · rw [update_of_ne heq, hqueues slot' heq]
      exact (h.queue slot').congr (hnodes slot' heq)
  · rw [update_apply] at ha ha'
    split at ha
    · next hs =>
      split at ha'
      · next hs' => rw [hs, hs']
      · next hs' => exact absurd ha' (hapart a ha s' hs')
    · next hs =>
      split at ha'
      · exact absurd ha (hapart a ha' s hs)
      · exact h.apart s s' a ha ha'

/-! ## Linking and unlinking -/

section

variable (st)

@[simp] theorem queues_setQueue_self (slot : MsgSlot) (q : MsgQueue) :
    (st.setQueue slot q).queues slot = q :=
  update_self ..

theorem queues_setQueue_of_ne {slot slot' : MsgSlot} (q : MsgQueue)
    (h : slot' ≠ slot) : (st.setQueue slot q).queues slot' = st.queues slot' :=
  update_of_ne h ..

theorem nodes_setNext (a : MsgPtr) (p : Option MsgPtr) (b : MsgPtr) :
    (st.setNext a p).nodes b =
      if b = a then (st.nodes a).map fun x => { x with next := p } else st.nodes b :=
  update_apply ..

variable {st} in
theorem nodes_setNext_of_ne {a b : MsgPtr} (p : Option MsgPtr) (hb : b ≠ a) :
    (st.setNext a p).nodes b = st.nodes b := by
  rw [nodes_setNext, if_neg hb]

theorem message_setNext (a : MsgPtr) (p : Option MsgPtr) (b : MsgPtr) :
    (st.setNext a p).message b = st.message b := by
  rw [MsgState.message, nodes_setNext]
  split
  · next hb =>
    rw [hb, Option.map_map]
    rfl
  · rfl

theorem isSome_setNext (a : MsgPtr) (p : Option MsgPtr) (b : MsgPtr) :
    ((st.setNext a p).nodes b).isSome = (st.nodes b).isSome := by
  rw [nodes_setNext]
  split
  · next hb => rw [hb, Option.isSome_map]
  · rfl

variable {a m : MsgPtr}

variable {st} in
theorem next_setNext (p : Option MsgPtr) (h : st.nodes a ≠ none) :
    (st.setNext a p).next = update st.next a p := by
  funext b
  obtain ⟨x, hx⟩ := Option.ne_none_iff_exists'.mp h
  rw [MsgState.next, nodes_setNext, update_apply, hx]
  split
  · rfl
  · rfl

theorem nodes_free (m a : MsgPtr) :
    (st.free m).nodes a = if a = m then none else st.nodes a :=
  update_apply ..

theorem nodes_free_of_ne (h : a ≠ m) : (st.free m).nodes a = st.nodes a := by
  rw [nodes_free, if_neg h]

theorem message_free (m a : MsgPtr) :
    (st.free m).message a = if a = m then none else st.message a := by
  rw [MsgState.message, nodes_free]
  split
  · rfl
  · rfl

end

variable {q : MsgQueue}

/-- Freeing a node that is not in the queue. -/
theorem QueueOk.free (h : QueueOk st q l) (hm : m ∉ l) : QueueOk (st.free m) q l :=
  h.congr fun _ ha => nodes_free_of_ne st fun he => hm (he ▸ ha)

section Queue

variable {st : MsgState} {ls : MsgSlot → List MsgPtr} {slot : MsgSlot}

/-- The counters of a queue with one message more. -/
theorem QueueOk.appended (h : QueueOk st q l)
    (hsmall : ∀ a x, st.message a = some x → x.data.length ≤ msgmax) (m : MsgPtr)
    (hlen : msg.data.length ≤ msgmax) (hused : q.used = true)
    (hfull : q.full msg.data.length = false) :
    (q.appended m msg.data.length).cbytes = bytes (st.messages l ++ [msg]) ∧
      (q.appended m msg.data.length).qnum = l.length + 1 ∧ l.length + 1 ≤ msgPerQueue := by
  have hbytes := h.bytes_le hsmall
  have hq := h.qnum hused
  have hroom : q.qnum < msgPerQueue := by
    simp only [MsgQueue.full, decide_eq_false_iff_not, not_or, not_le] at hfull
    exact hfull.2.2
  have hmul : msgPerQueue * msgmax + msgmax < 2 ^ 32 := by decide
  have hper : msgPerQueue < 2 ^ 32 := by decide
  simp only [MsgQueue.appended, h.cbytes hused, bytes_append, bytes_cons, bytes_nil]
  omega

/-- **Linking.** The message becomes the last of the queue; no other node changes but the one
before. -/
theorem msgEnqueue_spec (h : ListsOk st ls)
    (hused : (st.queues slot).used = true) (hm : st.nodes m = some ⟨none, msg⟩)
    (hout : ∀ slot', m ∉ ls slot') (hfull : (st.queues slot).full msg.data.length = false) :
    ∃ st', msgEnqueue st slot m msg.data.length = some st' ∧
      ListsOk st' (update ls slot (ls slot ++ [m])) ∧
      (∀ a, st'.message a = st.message a) ∧
      (∀ a, (∀ slot', a ∉ ls slot') → st'.nodes a = st.nodes a) ∧
      st'.calls = st.calls ∧ st'.allocs = st.allocs := by
  have hq := h.queue slot
  have hmsg : st.message m = some msg := message_eq_some.mpr ⟨_, hm, rfl⟩
  have hnext : st.next m = none := by rw [MsgState.next, hm]; rfl
  obtain ⟨hcb, hqn, hfew⟩ := hq.appended h.small m (h.small m msg hmsg) hused hfull
  have hmessages : st.messages (ls slot ++ [m]) = st.messages (ls slot) ++ [msg] := by
    rw [messages_append, messages_cons hm, messages_nil]
  have happart : ∀ a ∈ ls slot ++ [m], ∀ slot', slot' ≠ slot → a ∉ ls slot' := by
    intro a ha slot' hne hin
    rcases mem_append.mp ha with ha | ha
    · exact hne (h.apart slot' slot a hin ha)
    · exact hout slot' (mem_singleton.mp ha ▸ hin)
  unfold msgEnqueue
  cases htail : (st.queues slot).tail with
  | none =>
    have hnil : ls slot = [] := getLast?_eq_none_iff.mp (hq.tail ▸ htail)
    refine ⟨_, rfl, h.update (fun s hs => queues_setQueue_of_ne _ _ hs) (fun _ _ _ _ => rfl)
      (fun a x hx => hx) ?_ happart, fun _ => rfl, fun _ _ => rfl, rfl, rfl⟩
    rw [queues_setQueue_self]
    rw [hnil] at hqn hfew hmessages hcb ⊢
    refine ⟨⟨rfl, hnext⟩, rfl, ?_, ?_, fun _ => ?_, fun _ => hqn, hfew⟩
    · intro a ha
      rw [mem_singleton.mp ha]
      exact Option.isSome_iff_exists.mpr ⟨_, hm⟩
    · exact fun hno => absurd (hused.symm.trans hno) (by decide)
    · exact hcb.trans (congrArg bytes hmessages).symm
  | some a =>
    obtain ⟨l, hl⟩ := getLast?_eq_some_iff.mp (hq.tail ▸ htail)
    have ha : a ∈ ls slot := by simp [hl]
    have hlive : st.nodes a ≠ none := Option.isSome_iff_ne_none.mp (hq.live a ha)
    simp only [if_neg hlive]
    refine ⟨_, rfl, h.update (fun s hs => queues_setQueue_of_ne _ _ hs) (fun s hs b hb => ?_)
      (fun b x hx => ?_) ?_ happart, fun b => message_setNext st a _ b, fun b hb => ?_, rfl, rfl⟩
    · exact nodes_setNext_of_ne _ fun he => hs (h.apart s slot a (he ▸ hb) ha)
    · exact (message_setNext st a (some m) b).symm.trans hx
    · rw [queues_setQueue_self]
      refine ⟨?_, ?_, fun b hb => ?_, ?_, fun _ => ?_, fun _ => ?_, ?_⟩
      · show IsList (st.setNext a (some m)).next _ _
        have hpush := (hl ▸ hq.list).push_back (b := m) (by rw [← hl]; exact hout slot)
        rw [next_setNext _ hlive, hl]
        rwa [show update st.next m none = st.next from by
          rw [← hnext, update_eq_self]] at hpush
      · simp [MsgQueue.appended]
      · show ((st.setNext a (some m)).nodes b).isSome = true
        rw [isSome_setNext]
        rcases mem_append.mp hb with hb | hb
        · exact hq.live b hb
        · rw [mem_singleton.mp hb, hm]
          rfl
      · exact fun hno => absurd (hused.symm.trans hno) (by decide)
      · show _ = bytes ((st.setNext a (some m)).messages (ls slot ++ [m]))
        rw [hcb, messages_congr fun b _ => message_setNext st a (some m) b, hmessages]
      · rw [hqn, length_append, length_singleton]
      · rw [length_append, length_singleton]
        exact hfew
    · exact nodes_setNext_of_ne _ fun he => hb slot (he ▸ ha)

/-- The fields of a queue without the message `m`. -/
theorem QueueOk.shortened {x : MsgNode} {p : Option MsgPtr} (h : QueueOk st q (pre ++ m :: post))
    (hsmall : ∀ a x, st.message a = some x → x.data.length ≤ msgmax) (hx : st.nodes m = some x)
    (hmessage : ∀ a ∈ pre ++ post, st'.message a = st.message a)
    (hnew : IsList st'.next p (pre ++ post)) :
    QueueOk st' { q.shortened (if q.tail = some m then pre.getLast? else q.tail)
      x.msg.data.length with
      head := p } (pre ++ post) := by
  have hnodup := h.list.nodup
  have hused : q.used = true := by
    cases hu : q.used with
    | true => rfl
    | false => exact absurd (h.unused hu) (by simp)
  have hmessages : bytes (st.messages (pre ++ m :: post)) =
      bytes (st.messages (pre ++ post)) + x.msg.data.length := by
    simp only [messages_append, messages_cons hx, bytes_append, bytes_cons]
    omega
  have hle := h.bytes_le hsmall
  have hbound : msgPerQueue * msgmax < 2 ^ 32 := by decide
  have hper : msgPerQueue < 2 ^ 32 := by decide
  have hlen : (pre ++ m :: post).length = (pre ++ post).length + 1 := by
    simp only [length_append, length_cons]
    omega
  have hfew := h.few
  refine ⟨hnew, ?_, fun a ha => ?_, fun hno => ?_, fun _ => ?_, fun _ => ?_, by omega⟩
  · show (if q.tail = some m then pre.getLast? else q.tail) = _
    rw [h.tail]
    cases post with
    | nil => simp
    | cons b post =>
      -- the last node is not the one that goes
      have hlast : (pre ++ m :: b :: post).getLast? = (pre ++ b :: post).getLast? := by simp
      rw [if_neg fun he => ?_, hlast]
      grind
  · have hlive := h.live a (by grind)
    rw [← Option.isSome_map (f := MsgNode.msg)] at hlive ⊢
    exact (congrArg Option.isSome (hmessage a ha)).trans hlive
  · exact absurd (hused.symm.trans hno) (by decide)
  · show (q.cbytes + 2 ^ 32 - x.msg.data.length) % 2 ^ 32 = _
    rw [h.cbytes hused, hmessages, messages_congr hmessage]
    omega
  · show (q.qnum + 2 ^ 32 - 1) % 2 ^ 32 = _
    rw [h.qnum hused, hlen]
    omega

/-- **Unlinking.** The message leaves its queue and is freed; no other node changes but the one
before. -/
theorem msgDequeue_spec (h : ListsOk st ls) {x : MsgNode}
    {mprev : Option MsgPtr} (hsplit : ls slot = pre ++ m :: post) (hx : st.nodes m = some x)
    (hprev : mprev = pre.getLast?) :
    ∃ st', msgDequeue st slot m x mprev = some st' ∧
      ListsOk st' (update ls slot (pre ++ post)) ∧
      (∀ a, st'.message a = if a = m then none else st.message a) ∧
      (∀ a, (∀ slot', a ∉ ls slot') → st'.nodes a = st.nodes a) ∧
      st'.calls = st.calls ∧ st'.allocs = st.allocs := by
  have hq := h.queue slot
  rw [hsplit] at hq
  have hnodup := hq.list.nodup
  have hm : ∀ a ∈ pre ++ post, a ≠ m := by grind
  have hmslot : m ∈ ls slot := by simp [hsplit]
  have hnext : st.next m = x.next := by rw [MsgState.next, hx]; rfl
  have happart : ∀ a ∈ pre ++ post, ∀ slot', slot' ≠ slot → a ∉ ls slot' := by
    intro a ha slot' hne hin
    exact hne (h.apart slot' slot a hin (by rw [hsplit]; grind))
  -- a node of another queue is none of this one
  have hother : ∀ slot', slot' ≠ slot → ∀ a ∈ ls slot', a ∉ ls slot := fun slot' hne a ha hin =>
    hne (h.apart slot' slot a ha hin)
  unfold msgDequeue
  rcases eq_nil_or_concat' pre with rfl | ⟨l, b, rfl⟩
  · cases hprev
    have hkeep : ∀ q a, a ∉ ls slot → ((st.setQueue slot q).free m).nodes a = st.nodes a :=
      fun q a ha => nodes_free_of_ne _ fun he => ha (he ▸ hmslot)
    refine ⟨_, rfl, h.update (fun s hs => queues_setQueue_of_ne _ _ hs)
      (fun s hs a ha => hkeep _ a (hother s hs a ha)) (fun a y hy => ?_) ?_ happart,
      fun a => message_free _ m a, fun a ha => hkeep _ a (ha slot), rfl, rfl⟩
    · rw [message_free] at hy
      split at hy
      · cases hy
      · exact hy
    · show QueueOk (MsgState.free _ m) ((st.setQueue slot _).queues slot) _
      rw [queues_setQueue_self]
      apply QueueOk.free _ fun hin => hm m hin rfl
      refine hq.shortened h.small hx (fun _ _ => rfl) ?_
      show IsList st.next x.next post
      rw [← hnext]
      exact hq.list.2
  · have hprev' : mprev = some b := by rw [hprev]; simp
    subst hprev'
    have hbslot : b ∈ ls slot := by rw [hsplit]; simp
    have hlive : st.nodes b ≠ none := Option.isSome_iff_ne_none.mp (hq.live b (by simp))
    have hkeep : ∀ q a, a ∉ ls slot →
        (((st.setNext b x.next).setQueue slot q).free m).nodes a = st.nodes a := by
      intro q a ha
      have ham : a ≠ m := fun he => ha (he ▸ hmslot)
      have hab : a ≠ b := fun he => ha (he ▸ hbslot)
      rw [nodes_free_of_ne _ ham]
      exact nodes_setNext_of_ne _ hab
    simp only [if_neg hlive]
    refine ⟨_, rfl, h.update (fun s hs => queues_setQueue_of_ne _ _ hs)
      (fun s hs a ha => hkeep _ a (hother s hs a ha)) (fun a y hy => ?_) ?_ happart,
      fun a => ?_, fun a ha => hkeep _ a (ha slot), rfl, rfl⟩
    · rw [message_free] at hy
      split at hy
      · cases hy
      · exact (message_setNext st b x.next a).symm.trans hy
    · show QueueOk (MsgState.free _ m) ((MsgState.setQueue _ slot _).queues slot) _
      rw [queues_setQueue_self]
      apply QueueOk.free _ fun hin => hm m hin rfl
      have hlist : IsList (st.setNext b x.next).next (st.queues slot).head (l ++ [b] ++ post) := by
        rw [next_setNext _ hlive, ← hnext]
        exact hq.list.remove
      have hshort := hq.shortened h.small hx (fun a _ => message_setNext st b x.next a) hlist
      rw [getLast?_concat] at hshort
      exact hshort.congr fun _ _ => rfl
    · rw [message_free]
      split
      · rfl
      · exact message_setNext st b x.next a

/-- The loop of `msq_remove` frees the nodes of the queue and no others. -/
theorem freeChain_spec : ∀ (l : List MsgPtr) {nodes : MsgPtr → Option MsgNode} {p : Option MsgPtr}
    {fuel : Nat}, IsList (fun a => (nodes a).bind MsgNode.next) p l →
    (∀ a ∈ l, (nodes a).isSome = true) → l.length ≤ fuel →
    freeChain fuel nodes p = .ok fun a => if a ∈ l then none else nodes a := by
  intro l
  induction l with
  | nil =>
    intro nodes p fuel hlist _ _
    cases hlist
    cases fuel with
    | zero | succ fuel => simp [freeChain]
  | cons a l ih =>
    intro nodes p fuel hlist hlive hfuel
    have hnot := (nodup_cons.mp hlist.nodup).1
    obtain ⟨rfl, hrest⟩ := hlist
    obtain ⟨x, hx⟩ := Option.isSome_iff_exists.mp (hlive a mem_cons_self)
    have hne : ∀ b ∈ l, b ≠ a := fun b hb he => hnot (he ▸ hb)
    cases fuel with
    | zero => exact absurd hfuel (by simp)
    | succ fuel =>
      simp only [freeChain, hx]
      have hrest' : IsList (fun b => (update nodes a none b).bind MsgNode.next) x.next l := by
        simp only [hx, Option.bind_some] at hrest
        exact hrest.congr fun b hb => by rw [update_of_ne (hne b hb)]
      rw [ih hrest' (fun b hb => ?_) (by simpa using hfuel)]
      · congr 1
        funext b
        by_cases hb : b = a
        · simp [hb]
        · simp [hb]
      · rw [update_of_ne (hne b hb)]
        exact hlive b (mem_cons_of_mem a hb)

/-- **Removing.** The queue is empty and free, and its nodes are gone. -/
theorem msgRemove_spec (h : ListsOk st ls) (hfuel : (ls slot).length ≤ st.allocs) :
    ∃ nodes, freeChain st.allocs st.nodes (st.queues slot).head = .ok nodes ∧
      ListsOk (MsgState.setQueue { st with nodes := nodes } slot
        { st.queues slot with used := false, head := none, tail := none }) (update ls slot []) ∧
      (∀ a, (nodes a).map MsgNode.msg = if a ∈ ls slot then none else st.message a) ∧
      ∀ a, a ∉ ls slot → nodes a = st.nodes a := by
  have hq := h.queue slot
  have hkeep : ∀ a, a ∉ ls slot → (if a ∈ ls slot then none else st.nodes a) = st.nodes a :=
    fun a ha => if_neg ha
  have hmessage : ∀ a, (if a ∈ ls slot then none else st.nodes a).map MsgNode.msg =
      if a ∈ ls slot then none else st.message a := by
    intro a
    split
    · rfl
    · rfl
  refine ⟨_, freeChain_spec (ls slot) hq.list hq.live hfuel, ?_, hmessage, hkeep⟩
  refine h.update (fun s hs => queues_setQueue_of_ne _ _ hs) (fun s hs a ha => ?_)
    (fun a y hy => ?_) ?_ nofun
  · exact hkeep a fun hin => hs (h.apart s slot a ha hin)
  · have hy' := (hmessage a).symm.trans hy
    split at hy'
    · cases hy'
    · exact hy'
  · rw [queues_setQueue_self]
    have hno : ∀ {p : Prop}, false = true → p := nofun
    exact ⟨rfl, rfl, nofun, fun _ => rfl, hno, hno, Nat.zero_le _⟩

/-- No queue is longer than the number of messages ever allocated. -/
theorem length_le_allocs {sent received : List Nat} (h : ListsOk st ls)
    (hstamps : StampsOk st ls sent received) (slot : MsgSlot) : (ls slot).length ≤ st.allocs := by
  let f : MsgPtr → Nat := fun a => ((st.message a).map Message.stamp).getD 0
  have hmessage : ∀ a ∈ ls slot, ∃ x, st.message a = some x := by
    intro a ha
    obtain ⟨x, hx⟩ := Option.isSome_iff_exists.mp ((h.queue slot).live a ha)
    exact ⟨x.msg, message_eq_some.mpr ⟨x, hx, rfl⟩⟩
  have hf : ∀ {a x}, st.message a = some x → f a = x.stamp := by
    intro a x hx
    show ((st.message a).map Message.stamp).getD 0 = x.stamp
    rw [hx]
    rfl
  rw [← toFinset_card_of_nodup (h.queue slot).list.nodup, ← Finset.card_range st.allocs]
  refine Finset.card_le_card_of_injOn f (fun a ha => ?_) fun a ha b hb hab => ?_
  · obtain ⟨x, hx⟩ := hmessage a (mem_toFinset.mp ha)
    rw [hf hx]
    exact Finset.mem_coe.mpr (Finset.mem_range.mpr (hstamps.old a x hx))
  · obtain ⟨x, hx⟩ := hmessage a (mem_toFinset.mp ha)
    obtain ⟨y, hy⟩ := hmessage b (mem_toFinset.mp hb)
    exact hstamps.unique a b x y hx hy (by rw [← hf hx, ← hf hy, hab])

end Queue

/-! ## The search -/

/-- The message is one the selector is after. -/
def RcvArgs.Matches (args : RcvArgs) (x : Message) : Prop :=
  if args.type = 0 then True
  else if 0 < args.type then (if args.except then x.type ≠ args.type else x.type = args.type)
  else x.type ≤ -args.type

/-- `x`, between `pre` and `post`, is the one to take: an earlier match is passed over only by a
negative selector and for a smaller type, and a negative selector finds no smaller one later. -/
structure Found (args : RcvArgs) (pre : List Message) (x : Message) (post : List Message) :
    Prop where
  hit : args.Matches x
  first : ∀ y ∈ pre, args.Matches y → args.type < 0 ∧ x.type < y.type
  least : args.type < 0 → ∀ y ∈ post, args.Matches y → x.type ≤ y.type

/-- What a search over the nodes `l` has found. -/
def Scanned (st : MsgState) (args : RcvArgs) (l : List MsgPtr) (m : Option (MsgPtr × MsgNode))
    (mprev : Option MsgPtr) : Prop :=
  match m with
  | none => ∀ y ∈ st.messages l, ¬ args.Matches y
  | some (a, x) => ∃ pre post, l = pre ++ a :: post ∧ st.nodes a = some x ∧ mprev = pre.getLast? ∧
      Found args (st.messages pre) x.msg (st.messages post)

variable {args : RcvArgs}

/-- Without a best one so far, a message is taken just if it matches. -/
theorem wants_none {x : Message} : args.wants x none = true ↔ args.Matches x := by
  unfold RcvArgs.wants RcvArgs.Matches
  split
  · simp
  split
  · split
    · simp
    · simp
  · simp

/-- A negative selector replaces the best one so far by a smaller match only. -/
theorem wants_some {x y : Message} (h : args.type < 0) :
    args.wants x (some y) = true ↔ args.Matches x ∧ x.type < y.type := by
  have h₀ : args.type ≠ 0 := by omega
  have h₁ : ¬ 0 < args.type := by omega
  simp [RcvArgs.wants, RcvArgs.Matches, h₀, h₁]

/-- **The search.** From `it` on, after the nodes `seen`, it ends and has found what it should. The
invariant of the loop is the specification itself over what has been seen; the loop goes on with a
message in hand for a negative selector only. -/
theorem rcvScan_spec : ∀ (rest seen : List MsgPtr) {fuel : Nat}
    {it prev : Option MsgPtr} {m : Option (MsgPtr × MsgNode)} {mprev : Option MsgPtr},
    IsList st.next it rest → (∀ a ∈ rest, (st.nodes a).isSome = true) → rest.length ≤ fuel →
    prev = seen.getLast? → Scanned st args seen m mprev → (m ≠ none → args.type < 0) →
    ∃ m' mprev', rcvScan st args fuel it prev m mprev = .done m' mprev' ∧
      Scanned st args (seen ++ rest) m' mprev' := by
  intro rest
  induction rest with
  | nil =>
    intro seen fuel it prev m mprev hlist _ _ _ hseen _
    cases hlist
    refine ⟨m, mprev, ?_, by rwa [append_nil]⟩
    cases fuel with
    | zero | succ fuel => rfl
  | cons a rest ih =>
    intro seen fuel it prev m mprev hlist hlive hfuel hprev hseen hneg
    obtain ⟨rfl, hrest⟩ := hlist
    obtain ⟨x, hx⟩ := Option.isSome_iff_exists.mp (hlive a mem_cons_self)
    have hnext : st.next a = x.next := by rw [MsgState.next, hx]; rfl
    rw [hnext] at hrest
    have hlive' : ∀ b ∈ rest, (st.nodes b).isSome = true :=
      fun b hb => hlive b (mem_cons_of_mem a hb)
    have hmessages : st.messages (seen ++ [a]) = st.messages seen ++ [x.msg] := by
      rw [messages_append, messages_cons hx, messages_nil]
    rcases fuel with _ | fuel
    · exact absurd hfuel (by simp)
    have hfuel' : rest.length ≤ fuel := by simpa using hfuel
    have hgo : ∀ {m' : Option (MsgPtr × MsgNode)} {mprev' : Option MsgPtr},
        Scanned st args (seen ++ [a]) m' mprev' → (m' ≠ none → args.type < 0) →
        ∃ m'' mprev'', rcvScan st args fuel x.next (some a) m' mprev' = .done m'' mprev'' ∧
          Scanned st args (seen ++ a :: rest) m'' mprev'' := by
      intro m' mprev' hscan hneg'
      have hlast : some a = (seen ++ [a]).getLast? := by simp
      have := ih (seen ++ [a]) hrest hlive' hfuel' hlast hscan hneg'
      rwa [append_assoc, singleton_append] at this
    simp only [rcvScan, hx]
    cases m with
    | none =>
      have hnone : ∀ y ∈ st.messages seen, ¬ args.Matches y := hseen
      split
      · next hwants =>
        have hmatch := wants_none.mp hwants
        split
        · -- the first match is the one, and the search stops
          refine ⟨_, _, rfl, seen, rest, rfl, hx, hprev, hmatch, ?_, fun hlt => by omega⟩
          exact fun y hy hm => absurd hm (hnone y hy)
        · next hlt =>
          refine hgo ⟨seen, [], rfl, hx, hprev, hmatch, ?_, ?_⟩ fun _ => by omega
          · exact fun y hy hm => absurd hm (hnone y hy)
          · exact nofun
      · next hwants =>
        refine hgo (fun y hy => ?_) fun hne => absurd rfl hne
        rw [hmessages] at hy
        rcases mem_append.mp hy with hy | hy
        · exact hnone y hy
        · rw [mem_singleton.mp hy]
          exact fun hm => hwants (wants_none.mpr hm)
    | some best =>
      obtain ⟨b, z⟩ := best
      have hlt : args.type < 0 := hneg (by simp)
      obtain ⟨pre, post, rfl, hz, hmprev, hfound⟩ := hseen
      have hsplit : st.messages (pre ++ b :: post) =
          st.messages pre ++ z.msg :: st.messages post := by
        rw [messages_append, messages_cons hz]
      split
      · next hwants =>
        obtain ⟨hmatch, hless⟩ : args.Matches x.msg ∧ x.msg.type < z.msg.type :=
          (wants_some hlt).mp hwants
        rw [if_neg (by omega)]
        refine hgo ⟨pre ++ b :: post, [], rfl, hx, hprev, hmatch, ?_, ?_⟩ fun _ => hlt
        · -- smaller than the best one so far, so smaller than every match so far
          intro y hy hm
          rw [hsplit] at hy
          refine ⟨hlt, ?_⟩
          rcases mem_append.mp hy with hy | hy
          · have := (hfound.first y hy hm).2
            omega
          · rcases mem_cons.mp hy with rfl | hy
            · exact hless
            · have := hfound.least hlt y hy hm
              omega
        · exact nofun
      · next hwants =>
        refine hgo ⟨pre, post ++ [a], by simp, hz, hmprev, hfound.hit, hfound.first, ?_⟩
          fun _ => hlt
        intro _ y hy hm
        rw [messages_append, messages_cons hx, messages_nil] at hy
        rcases mem_append.mp hy with hy | hy
        · exact hfound.least hlt y hy hm
        rw [mem_singleton.mp hy] at hm ⊢
        by_contra hless
        have hless' : x.msg.type < z.msg.type := by omega
        exact hwants ((wants_some hlt).mpr ⟨hm, hless'⟩)

end MaeroOS.SysV
