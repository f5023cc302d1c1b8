import Mathlib.Algebra.Ring.Nat
import MaeroOS.Lib.LinkedList
import MaeroOS.Lib.System
import MaeroOS.SysV.Ipc

/-!
# Message queues

The message queues of `sysvipc.c`. A message is a node on the kernel heap, and a queue threads its
nodes through their `next` fields. A pointer to a node is a number here, and `nodes` says what is
allocated; following a pointer to a node that has been freed is a `fault`, whatever the memory would
hold by then.

A call is cut where it can lose the processor. `do_msgsnd` and `do_msgrcv` wait in `ipc_sleep`. And
the `copy_to_user` of `do_msgrcv` can sleep too, if the page of the user's buffer has to be read
from a file first; the message is then still in its queue, and the call holds pointers into the
list. What a thread in the middle of a call holds on its kernel stack is its `MsgFrame`.

Every message that is allocated gets a number, its `stamp`. The code has no such field: it is here
to say which message is which.
-/

namespace MaeroOS.SysV

open Lib (System)

def msgmni : Nat := 64
def msgmax : Nat := 8192
def msgmnb : Nat := 16384
def msgPerQueue : Nat := 1024

abbrev MsgSlot := Fin msgmni
abbrev MsgPtr := Nat
abbrev Tid := Nat

structure Message where
  stamp : Nat
  type : Int
  data : List UInt8
  deriving DecidableEq, Repr

/-- `sysv_msg_t`; its `len` is the length of the data. -/
structure MsgNode where
  next : Option MsgPtr
  msg : Message
  deriving DecidableEq, Repr

/-- `sysv_msq_t`. -/
structure MsgQueue where
  used : Bool
  perm : IpcPerm
  head : Option MsgPtr
  tail : Option MsgPtr
  cbytes : Nat
  qnum : Nat
  qbytes : Nat
  deriving DecidableEq, Repr

/-- What `msgrcv` is asked for: the size of the buffer, the type selector, and `MSG_EXCEPT`,
`MSG_NOERROR` and `IPC_NOWAIT`. -/
structure RcvArgs where
  sz : Nat
  type : Int
  except : Bool
  noerror : Bool
  nowait : Bool
  deriving DecidableEq, Repr

/-- A `copy_to_user` on its way: the message that was found, the one before it, how much is to be
copied, and what the user has so far. `msg` is what `m` held when it was found. -/
structure RcvCopy where
  slot : MsgSlot
  args : RcvArgs
  m : MsgPtr
  mprev : Option MsgPtr
  msg : Message
  n : Nat
  type : Option Int
  got : List UInt8
  deriving DecidableEq, Repr

/-- A call that sleeps: for room in the queue, with its message (and `msg`, what it was called
with), for a message, or in the middle of copying one out. -/
inductive MsgFrame where
  | sending (slot : MsgSlot) (seq : Nat) (m : MsgPtr) (msg : Message)
  | receiving (slot : MsgSlot) (seq : Nat) (args : RcvArgs)
  | copying (f : RcvCopy)
  deriving DecidableEq, Repr

structure MsgState where
  queues : MsgSlot → MsgQueue
  nodes : MsgPtr → Option MsgNode
  calls : Tid → Option MsgFrame
  seqNext : Nat
  allocs : Nat

/-- How a segment of a call ends. `sent` and `received` are successful returns. The last three are
not ends: a freed node is used, a list does not end, or the event cannot happen in this state. -/
inductive MsgReply where
  | ret (r : Int)
  | created (slot : MsgSlot) (id : Int)
  | sent (slot : MsgSlot) (msg : Message)
  | received (slot : MsgSlot) (msg : Message) (type : Int) (data : List UInt8)
  | removed (slot : MsgSlot)
  | sleep
  | fault
  | hang
  | disabled
  deriving DecidableEq, Repr

namespace MsgState

def setQueue (st : MsgState) (slot : MsgSlot) (q : MsgQueue) : MsgState :=
  { st with queues := Function.update st.queues slot q }

def setCall (st : MsgState) (t : Tid) (f : Option MsgFrame) : MsgState :=
  { st with calls := Function.update st.calls t f }

/-- `kmalloc` gave `m`, and the message has been written to it. -/
def alloc (st : MsgState) (m : MsgPtr) (type : Int) (data : List UInt8) : MsgState :=
  { st with
    nodes := Function.update st.nodes m (some ⟨none, ⟨st.allocs, type, data⟩⟩)
    allocs := st.allocs + 1 }

/-- `kfree`. -/
def free (st : MsgState) (m : MsgPtr) : MsgState :=
  { st with nodes := Function.update st.nodes m none }

/-- The `next` field of a node. -/
def next (st : MsgState) (a : MsgPtr) : Option MsgPtr := (st.nodes a).bind MsgNode.next

/-- `a->next = p`. -/
def setNext (st : MsgState) (a : MsgPtr) (p : Option MsgPtr) : MsgState :=
  { st with nodes := Function.update st.nodes a ((st.nodes a).map fun x => { x with next := p }) }

/-- `msq_by_id`. -/
def msqById (st : MsgState) (id : Int) : Option MsgSlot :=
  match idSplit msgmni (by decide) id with
  | none => none
  | some (slot, seq) =>
      if (st.queues slot).used = true ∧ (st.queues slot).perm.seq = seq then some slot else none

end MsgState

/-! ## msgget -/

def MsgState.msqByKey (st : MsgState) (key : Int) : Option MsgSlot :=
  if key = ipcPrivate then none
  else (List.finRange msgmni).find? fun i =>
    (st.queues i).used = true ∧ (st.queues i).perm.key = key

def MsgState.freeSlot (st : MsgState) : Option MsgSlot :=
  (List.finRange msgmni).find? fun i => (st.queues i).used = false

/-- `do_msgget`. -/
def msgget (st : MsgState) (c : Cred) (key : Int) (flag : UInt32) : MsgReply × MsgState :=
  match st.msqByKey key with
  | some i =>
      if flag &&& ipcCreat ≠ 0 ∧ flag &&& ipcExcl ≠ 0 then (.ret (-eexist), st)
      else if ipcperms c (st.queues i).perm flag = false then (.ret (-eacces), st)
      else (.ret (idOf i (st.queues i).perm.seq), st)
  | none =>
      if key ≠ ipcPrivate ∧ flag &&& ipcCreat = 0 then (.ret (-enoent), st)
      else
        match st.freeSlot with
        | none => (.ret (-enospc), st)
        | some slot =>
            (.created slot (idOf slot st.seqNext),
              { st.setQueue slot
                  ⟨true, permInit c key flag st.seqNext, none, none, 0, 0, msgmnb⟩ with
                seqNext := seqAfter st.seqNext })

/-! ## msgsnd -/

/-- Whether a message of this size has to wait, in 32-bit arithmetic. -/
def MsgQueue.full (q : MsgQueue) (sz : Nat) : Bool :=
  q.qbytes < (q.cbytes + sz) % 2 ^ 32 ∨ q.qbytes < (q.qnum + 1) % 2 ^ 32 ∨ msgPerQueue ≤ q.qnum

/-- The fields of a queue whose last message is now `m`. -/
def MsgQueue.appended (q : MsgQueue) (m : MsgPtr) (sz : Nat) : MsgQueue :=
  { q with tail := some m, cbytes := (q.cbytes + sz) % 2 ^ 32, qnum := (q.qnum + 1) % 2 ^ 32 }

/-- The end of `do_msgsnd`: the message becomes the last one. -/
def msgEnqueue (st : MsgState) (slot : MsgSlot) (m : MsgPtr) (sz : Nat) : Option MsgState :=
  match (st.queues slot).tail with
  | none => some (st.setQueue slot { (st.queues slot).appended m sz with head := some m })
  | some a =>
      if st.nodes a = none then none
      else some ((st.setNext a (some m)).setQueue slot ((st.queues slot).appended m sz))

/-- The loop of `do_msgsnd` and what follows it. -/
def sndTry (st : MsgState) (t : Tid) (slot : MsgSlot) (m : MsgPtr) (msg : Message) (nowait : Bool) :
    MsgReply × MsgState :=
  if (st.queues slot).full msg.data.length then
    if nowait then (.ret (-eagain), st.free m)
    else (.sleep, st.setCall t (some (.sending slot (st.queues slot).perm.seq m msg)))
  else
    match msgEnqueue st slot m msg.data.length with
    | none => (.fault, st)
    | some st' => (.sent slot msg, st')

/-- `do_msgsnd`. The type and the data are `none` if they cannot be read, the node is `none` if
there is no memory. The node is allocated before the data is read, but it is the call's own until it
is linked, so it is of no account that others may have run meanwhile. -/
def msgsnd (st : MsgState) (t : Tid) (c : Cred) (id : Int) (sz : UInt32) (type : Option Int)
    (mem : Option MsgPtr) (data : Option (Vector UInt8 sz.toNat)) (nowait : Bool) :
    MsgReply × MsgState :=
  if 2 ^ 31 ≤ sz.toNat ∨ msgmax < sz.toNat then (.ret (-einval), st)
  else
    match type with
    | none => (.ret (-efault), st)
    | some type =>
        if type < 1 then (.ret (-einval), st)
        else
          match mem with
          | none => (.ret (-enomem), st)
          | some m =>
              if st.nodes m ≠ none ∨ st.calls t ≠ none then (.disabled, st)
              else
                match data with
                | none => (.ret (-efault), st)
                | some data =>
                    match st.msqById id with
                    | none => (.ret (-einval), st)
                    | some slot =>
                        if ipcperms c (st.queues slot).perm 0o222 = false then (.ret (-eacces), st)
                        else
                          sndTry (st.alloc m type data.toList) t slot m
                            ⟨st.allocs, type, data.toList⟩ nowait

/-- `do_msgsnd` after `ipc_sleep`. -/
def sndWoken (st : MsgState) (t : Tid) (w : Wake) : MsgReply × MsgState :=
  match st.calls t with
  | some (.sending slot seq m msg) =>
      if (st.queues slot).used = false ∨ (st.queues slot).perm.seq ≠ seq then
        (.ret (-eidrm), (st.setCall t none).free m)
      else
        match w with
        | .woken => sndTry (st.setCall t none) t slot m msg false
        | .intr => (.ret (-eintr), (st.setCall t none).free m)
        | .timeout => (.ret (-eagain), (st.setCall t none).free m)
  | _ => (.disabled, st)

/-! ## msgrcv -/

inductive ScanResult where
  | done (m : Option (MsgPtr × MsgNode)) (mprev : Option MsgPtr)
  | fault
  | hang

/-- Whether the message is taken, given the best one so far. A negative selector is negated in 64
bits. -/
def RcvArgs.wants (args : RcvArgs) (x : Message) (best : Option Message) : Bool :=
  if args.type = 0 then true
  else if 0 < args.type then
    if args.except then x.type ≠ args.type else x.type = args.type
  else x.type ≤ -args.type ∧ ∀ m ∈ best, x.type < m.type

/-- The search of `do_msgrcv` from `it` on, the node before it being `prev`. -/
def rcvScan (st : MsgState) (args : RcvArgs) : Nat → (it prev : Option MsgPtr) →
    (m : Option (MsgPtr × MsgNode)) → (mprev : Option MsgPtr) → ScanResult
  | _, none, _, m, mprev => .done m mprev
  | 0, some _, _, _, _ => .hang
  | fuel + 1, some a, prev, m, mprev =>
      match st.nodes a with
      | none => .fault
      | some x =>
          if args.wants x.msg (m.map fun y => y.2.msg) then
            if 0 ≤ args.type then .done (some (a, x)) prev
            else rcvScan st args fuel x.next (some a) (some (a, x)) prev
          else rcvScan st args fuel x.next (some a) m mprev

/-- How a `copy_to_user` goes: to its end, into a bad address, or to sleep after `j` more bytes. -/
inductive Copy where
  | done
  | fault
  | sleep (j : Nat)
  deriving DecidableEq, Repr

/-- The fields of a queue that loses a message of length `len`; `tail` is what its tail becomes. -/
def MsgQueue.shortened (q : MsgQueue) (tail : Option MsgPtr) (len : Nat) : MsgQueue :=
  { q with
    tail := tail
    cbytes := (q.cbytes + 2 ^ 32 - len) % 2 ^ 32
    qnum := (q.qnum + 2 ^ 32 - 1) % 2 ^ 32 }

/-- The end of `do_msgrcv`: the message is unlinked and freed. -/
def msgDequeue (st : MsgState) (slot : MsgSlot) (m : MsgPtr) (x : MsgNode) (mprev : Option MsgPtr) :
    Option MsgState :=
  let tail := if (st.queues slot).tail = some m then mprev else (st.queues slot).tail
  let q := (st.queues slot).shortened tail x.msg.data.length
  match mprev with
  | none => some ((st.setQueue slot { q with head := x.next }).free m)
  | some b =>
      if st.nodes b = none then none else some (((st.setNext b x.next).setQueue slot q).free m)

/-- The part of the data that is copied next: up to `j` bytes from where the copy stands. -/
def RcvCopy.chunk (f : RcvCopy) (x : MsgNode) (j : Nat) : List UInt8 :=
  ((x.msg.data.take f.n).drop f.got.length).take j

/-- The copy, and if it gets to its end what follows. -/
def rcvCopy (st : MsgState) (t : Tid) (f : RcvCopy) (cp : Copy) : MsgReply × MsgState :=
  match st.nodes f.m with
  | none => (.fault, st)
  | some x =>
      match cp with
      | .fault => (.ret (-efault), st.setCall t none)
      | .sleep j =>
          (.sleep, st.setCall t (some (.copying
            { f with
              type := some (f.type.getD x.msg.type)
              got := f.got ++ f.chunk x j })))
      | .done =>
          match msgDequeue st f.slot f.m x f.mprev with
          | none => (.fault, st)
          | some st' =>
              (.received f.slot x.msg (f.type.getD x.msg.type) (f.got ++ f.chunk x f.n),
                st'.setCall t none)

/-- The loop body of `do_msgrcv`. No list is longer than the number of messages ever allocated. -/
def rcvTry (st : MsgState) (t : Tid) (slot : MsgSlot) (args : RcvArgs) (cp : Copy) :
    MsgReply × MsgState :=
  match rcvScan st args st.allocs (st.queues slot).head none none none with
  | .fault => (.fault, st)
  | .hang => (.hang, st)
  | .done none _ =>
      if args.nowait then (.ret (-enomsg), st)
      else (.sleep, st.setCall t (some (.receiving slot (st.queues slot).perm.seq args)))
  | .done (some (m, x)) mprev =>
      if args.sz < x.msg.data.length ∧ args.noerror = false then (.ret (-e2big), st)
      else rcvCopy st t ⟨slot, args, m, mprev, x.msg, min x.msg.data.length args.sz, none, []⟩ cp

/-- `do_msgrcv`; `copy` is `MSG_COPY` in the flags. -/
def msgrcv (st : MsgState) (t : Tid) (c : Cred) (id : Int) (copy : Bool) (args : RcvArgs)
    (cp : Copy) : MsgReply × MsgState :=
  if st.calls t ≠ none then (.disabled, st)
  else if 2 ^ 31 ≤ args.sz then (.ret (-einval), st)
  else if copy then (.ret (-enosys), st)
  else
    match st.msqById id with
    | none => (.ret (-einval), st)
    | some slot =>
        if ipcperms c (st.queues slot).perm 0o444 = false then (.ret (-eacces), st)
        else rcvTry st t slot args cp

/-- `do_msgrcv` after `ipc_sleep`. -/
def rcvWoken (st : MsgState) (t : Tid) (w : Wake) (cp : Copy) : MsgReply × MsgState :=
  match st.calls t with
  | some (.receiving slot seq args) =>
      if (st.queues slot).used = false ∨ (st.queues slot).perm.seq ≠ seq then
        (.ret (-eidrm), st.setCall t none)
      else
        match w with
        | .woken => rcvTry (st.setCall t none) t slot args cp
        | .intr => (.ret (-eintr), st.setCall t none)
        | .timeout => (.ret (-eagain), st.setCall t none)
  | _ => (.disabled, st)

/-- `do_msgrcv` after its `copy_to_user` has slept: it goes on where it was. -/
def rcvCopied (st : MsgState) (t : Tid) (cp : Copy) : MsgReply × MsgState :=
  match st.calls t with
  | some (.copying f) => rcvCopy (st.setCall t none) t f cp
  | _ => (.disabled, st)

/-! ## msgctl -/

/-- The loop of `msq_remove`. -/
def freeChain : Nat → (MsgPtr → Option MsgNode) → Option MsgPtr →
    Except MsgReply (MsgPtr → Option MsgNode)
  | _, nodes, none => .ok nodes
  | 0, _, some _ => .error .hang
  | fuel + 1, nodes, some a =>
      match nodes a with
      | none => .error .fault
      | some x => freeChain fuel (Function.update nodes a none) x.next

/-- `IPC_RMID`. -/
def msgRmid (st : MsgState) (c : Cred) (id : Int) : MsgReply × MsgState :=
  match st.msqById id with
  | none => (.ret (-einval), st)
  | some slot =>
      if ipcOwner c (st.queues slot).perm = false then (.ret (-eperm), st)
      else
        match freeChain st.allocs st.nodes (st.queues slot).head with
        | .error r => (r, st)
        | .ok nodes =>
            (.removed slot,
              MsgState.setQueue { st with nodes := nodes } slot
                { st.queues slot with used := false, head := none, tail := none })

/-- `IPC_SET` once its argument has been read; the queue may have changed while that slept. -/
def msgIpcSet (st : MsgState) (c : Cred) (slot : MsgSlot) (uid gid mode qbytes : UInt32) :
    MsgReply × MsgState :=
  if ipcOwner c (st.queues slot).perm = false then (.ret (-eperm), st)
  else if msgmnb < qbytes.toNat ∧ c.euid ≠ 0 then (.ret (-eperm), st)
  else
    (.ret 0, st.setQueue slot
      { st.queues slot with
        perm := permSet (st.queues slot).perm uid gid mode
        qbytes := qbytes.toNat })

/-! ## The system -/

inductive MsgEvent where
  | msgget (c : Cred) (key : Int) (flag : UInt32)
  | msgsnd (t : Tid) (c : Cred) (id : Int) (sz : UInt32) (type : Option Int) (mem : Option MsgPtr)
      (data : Option (Vector UInt8 sz.toNat)) (nowait : Bool)
  | sndWoken (t : Tid) (w : Wake)
  | msgrcv (t : Tid) (c : Cred) (id : Int) (copy : Bool) (args : RcvArgs) (cp : Copy)
  | rcvWoken (t : Tid) (w : Wake) (cp : Copy)
  | rcvCopied (t : Tid) (cp : Copy)
  | rmid (c : Cred) (id : Int)
  | ipcSet (c : Cred) (slot : MsgSlot) (uid gid mode qbytes : UInt32)

def MsgEvent.apply (st : MsgState) : MsgEvent → MsgReply × MsgState
  | msgget c key flag => SysV.msgget st c key flag
  | msgsnd t c id sz type mem data nowait => SysV.msgsnd st t c id sz type mem data nowait
  | sndWoken t w => SysV.sndWoken st t w
  | msgrcv t c id copy args cp => SysV.msgrcv st t c id copy args cp
  | rcvWoken t w cp => SysV.rcvWoken st t w cp
  | rcvCopied t cp => SysV.rcvCopied st t cp
  | rmid c id => msgRmid st c id
  | ipcSet c slot uid gid mode qbytes => msgIpcSet st c slot uid gid mode qbytes

/-- No queues, no messages. -/
def msgBoot : MsgState :=
  ⟨fun _ => ⟨false, ⟨0, 0, 0, 0, 0, 0, 0⟩, none, none, 0, 0, 0⟩, fun _ => none, fun _ => none, 1, 0⟩

/-- The replies that are not the end of a segment. -/
def MsgReply.bad (r : MsgReply) : Prop := r = .fault ∨ r = .hang ∨ r = .disabled

instance : DecidablePred MsgReply.bad := fun r =>
  inferInstanceAs (Decidable (r = .fault ∨ r = .hang ∨ r = .disabled))

/-- The message queues from boot on. -/
def msgSystem : System MsgState (MsgEvent × MsgReply) :=
  System.ofMachine msgBoot MsgEvent.apply MsgReply.bad

end MaeroOS.SysV
