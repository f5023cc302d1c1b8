import MaeroOS.Lib.Ledger
import MaeroOS.Lib.System
import MaeroOS.SysV.Ipc

/-!
# Semaphores

The semaphore sets of `sysvipc.c` with their `SEM_UNDO` adjustments. The table of adjustments is a
`Ledger` keyed by process, set slot, sequence number and semaphore; `undo_add` is its `post`, and
the loop of `do_semtimedop` that adds a call's adjustments and takes them back when one is refused
is its `batch`.

A call that has to wait sleeps with its operations on its kernel stack. It is modelled in segments:
one from the system call to its return or its first sleep, and one from each wake-up to the next.
-/

namespace MaeroOS.SysV

open Lib (System Ledger)

def semmni : Nat := 128

theorem semmni_pos : 0 < semmni := by decide
def semmsl : Nat := 250
def semmns : Nat := semmni * 64
def semopm : Nat := 100
def semvmx : Int := 32767
def semUndoMax : Nat := 1024

abbrev SemSlot := Fin semmni

/-- `sysv_sem_val_t`. -/
structure SemVal where
  val : Nat
  pid : Nat
  ncnt : Nat
  zcnt : Nat
  deriving DecidableEq, Repr

/-- `sysv_semset_t`. -/
structure SemSet where
  used : Bool
  perm : IpcPerm
  nsems : Nat
  sems : List SemVal
  deriving DecidableEq, Repr

/-- What identifies an adjustment of `sysv_undo_t`. -/
structure UndoKey where
  tgid : Nat
  slot : SemSlot
  seq : Nat
  num : Nat
  deriving DecidableEq, Repr

structure SemState where
  sets : SemSlot → SemSet
  undos : Ledger UndoKey
  seqNext : Nat
  total : Nat

/-- `k_sembuf`; `undo` and `nowait` are `SEM_UNDO` and `IPC_NOWAIT` in its flags. -/
structure SemBuf where
  num : Nat
  op : Int
  undo : Bool
  nowait : Bool
  deriving DecidableEq, Repr

/-- The operations of a call on one set. -/
structure Operation where
  slot : SemSlot
  seq : Nat
  tgid : Nat
  ops : List SemBuf
  deriving DecidableEq, Repr

/-- How a segment of a call ends: it returns, it has made a set, it sleeps because of the operation
`blk`, or it uses a semaphore the set does not have. -/
inductive Reply where
  | ret (r : Int)
  | created (slot : SemSlot) (id : Int)
  | sleep (op : Operation) (blk : SemBuf)
  | fault
  deriving DecidableEq, Repr

namespace SemState

def setSet (st : SemState) (slot : SemSlot) (s : SemSet) : SemState :=
  { st with sets := Function.update st.sets slot s }

/-- The semaphores of one set, replaced. -/
def setSems (st : SemState) (slot : SemSlot) (sems : List SemVal) : SemState :=
  st.setSet slot { st.sets slot with sems := sems }

/-- `sem_by_id`. -/
def semById (st : SemState) (id : Int) : Option SemSlot :=
  match idSplit semmni semmni_pos id with
  | none => none
  | some (slot, seq) =>
      if (st.sets slot).used = true ∧ (st.sets slot).perm.seq = seq then some slot else none

/-- `undo_clear`; `num` is `none` for the whole set. -/
def undoClear (st : SemState) (slot : SemSlot) (num : Option Nat) : SemState :=
  { st with undos := st.undos.close fun k => k.slot = slot ∧ (num = none ∨ num = some k.num) }

end SemState

/-! ## semget -/

/-- The set with this key, if it is one to look for. -/
def SemState.semByKey (st : SemState) (key : Int) : Option SemSlot :=
  if key = ipcPrivate then none
  else (List.finRange semmni).find? fun i => (st.sets i).used = true ∧ (st.sets i).perm.key = key

/-- The first slot that is free. -/
def SemState.freeSlot (st : SemState) : Option SemSlot :=
  (List.finRange semmni).find? fun i => (st.sets i).used = false

/-- The end of `do_semget`: a new set of `nsems` semaphores in the slot. -/
def semCreate (st : SemState) (c : Cred) (key : Int) (nsems : Nat) (flag : UInt32)
    (slot : SemSlot) : SemState :=
  SemState.undoClear
    { sets := Function.update st.sets slot
        { used := true
          perm := permInit c key flag st.seqNext
          nsems := nsems
          sems := List.replicate nsems ⟨0, 0, 0, 0⟩ }
      undos := st.undos
      seqNext := seqAfter st.seqNext
      total := st.total + nsems }
    slot none

/-- `do_semget`; `mem` is whether `kmalloc` has memory for the semaphores. -/
def semget (st : SemState) (c : Cred) (key nsems : Int) (flag : UInt32) (mem : Bool) :
    Reply × SemState :=
  match st.semByKey key with
  | some i =>
      if flag &&& ipcCreat ≠ 0 ∧ flag &&& ipcExcl ≠ 0 then (.ret (-eexist), st)
      else if ipcperms c (st.sets i).perm flag = false then (.ret (-eacces), st)
      else if ((st.sets i).nsems : Int) < nsems then (.ret (-einval), st)
      else (.ret (idOf i (st.sets i).perm.seq), st)
  | none =>
      if key ≠ ipcPrivate ∧ flag &&& ipcCreat = 0 then (.ret (-enoent), st)
      else if nsems ≤ 0 ∨ (semmsl : Int) < nsems then (.ret (-einval), st)
      else if semmns < st.total + nsems.toNat then (.ret (-enospc), st)
      else
        match st.freeSlot with
        | none => (.ret (-enospc), st)
        | some slot =>
            if mem = false then (.ret (-enomem), st)
            else (.created slot (idOf slot st.seqNext), semCreate st c key nsems.toNat flag slot)

/-! ## semop -/

/-- The sum of the operations on one semaphore. -/
def opSum (ops : List SemBuf) (num : Nat) : Int :=
  ((ops.filter fun o => o.num = num).map SemBuf.op).sum

inductive TryResult where
  | ok
  | range
  | block (blk : SemBuf)
  | fault
  deriving DecidableEq, Repr

/-- `sem_try` from the operation after `done` on. -/
def semTry (sems : List SemVal) : List SemBuf → List SemBuf → TryResult
  | _, [] => .ok
  | done, o :: rest =>
      match sems[o.num]? with
      | none => .fault
      | some sv =>
          let v := (sv.val : Int) + opSum done o.num
          if 0 < o.op then
            if semvmx < v + o.op then .range else semTry sems (done ++ [o]) rest
          else if o.op = 0 then
            if v ≠ 0 then .block o else semTry sems (done ++ [o]) rest
          else if v + o.op < 0 then .block o
          else semTry sems (done ++ [o]) rest

/-- The adjustments a call adds, in order. -/
def undoPostings (op : Operation) : List (UndoKey × Int) :=
  (op.ops.filter SemBuf.undo).map fun o => (⟨op.tgid, op.slot, op.seq, o.num⟩, -o.op)

/-- Add the adjustments, or take back the ones added before the refused one. -/
def undoBatch (undos : Ledger UndoKey) (op : Operation) : Option Ledger.Refusal × Ledger UndoKey :=
  Ledger.batch semvmx [] (undoPostings op) undos

/-- The loop that changes the values, in 16 bits. -/
def applyOps (tgid : Nat) (ops : List SemBuf) (sems : List SemVal) : List SemVal :=
  ops.foldl (fun sems o =>
    sems.modify o.num fun sv =>
      { sv with val := (((sv.val : Int) + o.op) % 65536).toNat, pid := tgid }) sems

/-- One more, or one less, thread waits for the semaphore of `blk`. -/
def countWaiter (blk : SemBuf) (more : Bool) (sv : SemVal) : SemVal :=
  if blk.op = 0 then { sv with zcnt := if more then (sv.zcnt + 1) % 65536 else sv.zcnt - 1 }
  else { sv with ncnt := if more then (sv.ncnt + 1) % 65536 else sv.ncnt - 1 }

/-- The count of waiters on the semaphore of `blk`, changed. -/
def SemState.countOn (st : SemState) (slot : SemSlot) (blk : SemBuf) (more : Bool) : SemState :=
  st.setSems slot ((st.sets slot).sems.modify blk.num (countWaiter blk more))

/-- The body of the loop of `do_semtimedop`. -/
def semRun (st : SemState) (op : Operation) : Reply × SemState :=
  match semTry (st.sets op.slot).sems [] op.ops with
  | .fault => (.fault, st)
  | .range => (.ret (-erange), st)
  | .block blk =>
      if blk.nowait then (.ret (-eagain), st)
      else (.sleep op blk, st.countOn op.slot blk true)
  | .ok =>
      match undoBatch st.undos op with
      | (some .bound, undos) => (.ret (-erange), { st with undos := undos })
      | (some .full, undos) => (.ret (-enospc), { st with undos := undos })
      | (none, undos) =>
          (.ret 0, SemState.setSems { st with undos := undos } op.slot
            (applyOps op.tgid op.ops (st.sets op.slot).sems))

/-- A segment of `do_semtimedop`: the call itself, with the operations if they can be read, or what
follows the sleep of `op`. -/
inductive SemCall where
  | start (c : Cred) (id : Int) (nops : Nat) (uops : Option (Vector SemBuf nops))
  | woken (op : Operation) (blk : SemBuf) (w : Wake)

/-- How far a segment gets before the loop body: it is over, or it goes on to try its operations. -/
inductive Begun where
  | ended (r : Reply) (st : SemState)
  | tries (st : SemState) (op : Operation)

/-- The permission the operations need: write if `alter`, read otherwise. -/
def semAccess (ops : List SemBuf) : UInt32 :=
  let alter := ops.any fun o => o.op ≠ 0
  if alter then 0o222 else 0o444

/-- What `ipc_sleep` returned decides whether the operations are tried again. -/
def semWoken (st : SemState) (op : Operation) : Wake → Begun
  | .woken => .tries st op
  | .intr => .ended (.ret (-eintr)) st
  | .timeout => .ended (.ret (-eagain)) st

/-- `do_semtimedop` up to its loop. -/
def semStart (st : SemState) (c : Cred) (id : Int) (nops : Nat)
    (uops : Option (Vector SemBuf nops)) : Begun :=
  if nops < 1 then .ended (.ret (-einval)) st
  else if semopm < nops then .ended (.ret (-e2big)) st
  else
    match uops with
    | none => .ended (.ret (-efault)) st
    | some ops =>
        match st.semById id with
        | none => .ended (.ret (-einval)) st
        | some slot =>
            if ops.toList.any fun o => (st.sets slot).nsems ≤ o.num then .ended (.ret (-efbig)) st
            else if ipcperms c (st.sets slot).perm (semAccess ops.toList) = false then
              .ended (.ret (-eacces)) st
            else .tries st ⟨slot, (st.sets slot).perm.seq, c.tgid, ops.toList⟩

/-- The loop of `do_semtimedop` from `ipc_sleep` back to its top. -/
def semResume (st : SemState) (op : Operation) (blk : SemBuf) (w : Wake) : Begun :=
  if (st.sets op.slot).used = false ∨ (st.sets op.slot).perm.seq ≠ op.seq then
    .ended (.ret (-eidrm)) st
  else if (st.sets op.slot).sems.length ≤ blk.num then .ended .fault st
  else semWoken (st.countOn op.slot blk false) op w

/-- A segment up to `sem_try`. -/
def semBegin (st : SemState) : SemCall → Begun
  | .start c id nops uops => semStart st c id nops uops
  | .woken op blk w => semResume st op blk w

/-- A segment of `do_semtimedop`. -/
def semSegment (st : SemState) (call : SemCall) : Reply × SemState :=
  match semBegin st call with
  | .ended r st' => (r, st')
  | .tries st' op => semRun st' op

/-! ## semctl -/

/-- `sem_remove`. -/
def semRemove (st : SemState) (slot : SemSlot) : SemState :=
  { sets := Function.update st.sets slot { st.sets slot with used := false, sems := [] }
    undos := (st.undoClear slot none).undos
    seqNext := st.seqNext
    total := st.total - (st.sets slot).nsems }

/-- `IPC_RMID`. -/
def semRmid (st : SemState) (c : Cred) (id : Int) : Reply × SemState :=
  match st.semById id with
  | none => (.ret (-einval), st)
  | some slot =>
      if ipcOwner c (st.sets slot).perm = false then (.ret (-eperm), st)
      else (.ret 0, semRemove st slot)

/-- `IPC_SET` once its argument has been read; the set may have changed while that slept. -/
def semIpcSet (st : SemState) (c : Cred) (slot : SemSlot) (uid gid mode : UInt32) :
    Reply × SemState :=
  if ipcOwner c (st.sets slot).perm = false then (.ret (-eperm), st)
  else (.ret 0, st.setSet slot
    { st.sets slot with perm := permSet (st.sets slot).perm uid gid mode })

/-- `SETVAL`. -/
def semSetval (st : SemState) (c : Cred) (id num arg : Int) : Reply × SemState :=
  match st.semById id with
  | none => (.ret (-einval), st)
  | some slot =>
      if ipcperms c (st.sets slot).perm 0o222 = false then (.ret (-eacces), st)
      else if num < 0 ∨ ((st.sets slot).nsems : Int) ≤ num then (.ret (-einval), st)
      else if arg < 0 ∨ semvmx < arg then (.ret (-erange), st)
      else (.ret 0, (st.setSems slot ((st.sets slot).sems.modify num.toNat fun sv =>
        { sv with val := arg.toNat, pid := c.tgid })).undoClear slot (some num.toNat))

/-- `SETALL` up to where it reads the values: the set it is about, or an error. -/
def semSetallBegin (st : SemState) (c : Cred) (id : Int) : Except Int (SemSlot × Nat) :=
  match st.semById id with
  | none => .error (-einval)
  | some slot =>
      if ipcperms c (st.sets slot).perm 0o222 = false then .error (-eacces)
      else .ok (slot, (st.sets slot).perm.seq)

/-- `SETALL` after the values have been read: `vals` is the array on the kernel stack. The set is
looked up again by slot and sequence number, since reading may have slept. -/
def semSetallFinish (st : SemState) (c : Cred) (slot : SemSlot) (seq : Nat) (vals : Nat → UInt16) :
    Reply × SemState :=
  if (st.sets slot).used = false ∨ (st.sets slot).perm.seq ≠ seq then (.ret (-eidrm), st)
  else if (List.range (st.sets slot).nsems).any fun i => semvmx < ((vals i).toNat : Int) then
    (.ret (-erange), st)
  else (.ret 0, (st.setSems slot ((st.sets slot).sems.mapIdx fun i sv =>
    { sv with val := (vals i).toNat, pid := c.tgid })).undoClear slot none)

/-- `SETALL` whose read does not sleep; `vals` is `none` if it fails. -/
def semSetall (st : SemState) (c : Cred) (id : Int) (vals : Option (Nat → UInt16)) :
    Reply × SemState :=
  match semSetallBegin st c id, vals with
  | .error e, _ => (.ret e, st)
  | .ok _, none => (.ret (-efault), st)
  | .ok (slot, seq), some vals => semSetallFinish st c slot seq vals

/-! ## exit -/

/-- One adjustment given back, clamped to the values a semaphore can have. -/
def undoOne (sets : SemSlot → SemSet) (k : UndoKey) (adj : Int) : SemSlot → SemSet :=
  if (sets k.slot).used = false ∨ (sets k.slot).perm.seq ≠ k.seq ∨ (sets k.slot).nsems ≤ k.num then
    sets
  else
    Function.update sets k.slot
      { sets k.slot with
        sems := (sets k.slot).sems.modify k.num fun sv =>
          { sv with
            val := (max 0 (min semvmx ((sv.val : Int) + adj))).toNat
            pid := k.tgid } }

/-- The adjustments of a process given back, in table order. -/
def undoAll (tgid : Nat) : Ledger UndoKey → (SemSlot → SemSet) → SemSlot → SemSet
  | [], sets => sets
  | none :: t, sets => undoAll tgid t sets
  | some (k, adj) :: t, sets => undoAll tgid t (if k.tgid = tgid then undoOne sets k adj else sets)

/-- `sysv_sem_exit` for the last thread of the process. -/
def semExit (st : SemState) (tgid : Nat) : SemState :=
  { st with
    sets := undoAll tgid st.undos st.sets
    undos := st.undos.close fun k => k.tgid = tgid }

/-! ## The system -/

inductive SemEvent where
  | semget (c : Cred) (key nsems : Int) (flag : UInt32) (mem : Bool)
  | semop (call : SemCall)
  | rmid (c : Cred) (id : Int)
  | ipcSet (c : Cred) (slot : SemSlot) (uid gid mode : UInt32)
  | setval (c : Cred) (id num arg : Int)
  | setall (c : Cred) (id : Int) (vals : Option (Nat → UInt16))
  | setallWoken (c : Cred) (slot : SemSlot) (seq : Nat) (vals : Nat → UInt16)
  | exit (tgid : Nat)

def SemEvent.apply (st : SemState) : SemEvent → Reply × SemState
  | semget c key nsems flag mem => SysV.semget st c key nsems flag mem
  | semop call => semSegment st call
  | rmid c id => semRmid st c id
  | ipcSet c slot uid gid mode => semIpcSet st c slot uid gid mode
  | setval c id num arg => semSetval st c id num arg
  | setall c id vals => semSetall st c id vals
  | setallWoken c slot seq vals => semSetallFinish st c slot seq vals
  | exit tgid => (.ret 0, semExit st tgid)

/-- No sets and no adjustments. -/
def semBoot : SemState :=
  ⟨fun _ => ⟨false, ⟨0, 0, 0, 0, 0, 0, 0⟩, 0, []⟩, List.replicate semUndoMax none, 1, 0⟩

/-- The semaphores from boot on; a step is labelled with what happened and how it ended. -/
def semSystem : System SemState (SemEvent × Reply) :=
  System.ofMachine semBoot SemEvent.apply (· = .fault)

end MaeroOS.SysV
