import MaeroOS.Lib.System
import MaeroOS.Lib.Table
import MaeroOS.SysV.Ipc

/-!
# Shared memory segments

The segments of `sysvipc.c` and the table of their attachments. Nothing here sleeps but the copies
from and to the user, so each call is one step; `IPC_SET` is cut at its `copy_from_user`, after
which it goes on with the slot it found before.

The address spaces themselves are not modelled: what `mm_shm_attach_at` finds comes with the event,
and the references that page table entries hold on frames are theirs. `refs` counts only those that
the segments hold, among all that `frame_refcount` counts.

Two things are here to say what happens, and are not in the code. A segment gets a number when it is
created, its `stamp`, because slots and sequence numbers come back. And `released` is a log of what
`shm_destroy` has been called on, with the number of attach records that named it then.
-/

namespace MaeroOS.SysV

open Lib (System)
open Lib.Table (holders)

def shmmni : Nat := 128
def shmmax : UInt32 := 32 * 1024 * 1024
def shmall : UInt32 := 16384
def shmUserPages : UInt32 := 4096
def shmAttMax : Nat := 512
def pageSize : UInt32 := 4096

def shmRdonly : UInt32 := 0o10000
def shmRnd : UInt32 := 0o20000
def shmDest : UInt32 := 0o1000
def shmLocked : UInt32 := 0o2000

abbrev ShmSlot := Fin shmmni
abbrev AttSlot := Fin shmAttMax
abbrev Frame := Nat

/-- `sysv_shm_t`. -/
structure ShmSeg where
  used : Bool
  perm : IpcPerm
  size : UInt32
  npages : UInt32
  frames : List Frame
  nattch : Int
  stamp : Nat
  deriving DecidableEq

/-- `IPC_RMID` has been called. -/
def ShmSeg.marked (s : ShmSeg) : Bool := s.perm.mode &&& shmDest ≠ 0

/-- `sysv_shm_att_t`. The record is free if `mm` is 0. -/
structure ShmAtt where
  mm : Nat
  slot : ShmSlot
  seq : Nat
  addr : UInt32
  npages : UInt32
  deriving DecidableEq

/-- The segment that a record names. -/
def ShmAtt.names (a : ShmAtt) : Option (ShmSlot × Nat) :=
  if a.mm = 0 then none else some (a.slot, a.seq)

/-- A call of `shm_destroy`: the segment as it was, and how many records named it. -/
structure Release where
  seg : ShmSeg
  records : Nat
  deriving DecidableEq

structure ShmState where
  segs : ShmSlot → ShmSeg
  atts : AttSlot → ShmAtt
  seqNext : Nat
  pagesTotal : UInt32
  refs : Frame → Nat
  born : Nat
  released : List Release

/-- A process that makes a system call has an address space. -/
structure ShmCaller where
  cred : Cred
  mm : Nat
  mm_ne : mm ≠ 0

namespace ShmState

def setSeg (st : ShmState) (slot : ShmSlot) (s : ShmSeg) : ShmState :=
  { st with segs := Function.update st.segs slot s }

def setAtt (st : ShmState) (i : AttSlot) (a : ShmAtt) : ShmState :=
  { st with atts := Function.update st.atts i a }

/-- How many attach records name the segment. -/
def records (st : ShmState) (slot : ShmSlot) (seq : Nat) : Nat :=
  holders (fun i => (st.atts i).names) (slot, seq)

/-- The slot is not, or no longer, what the record names. -/
def stale (st : ShmState) (a : ShmAtt) : Bool :=
  (st.segs a.slot).used = false ∨ (st.segs a.slot).perm.seq ≠ a.seq

/-- `shm_by_id`. -/
def shmById (st : ShmState) (id : Int) : Option ShmSlot :=
  match idSplit shmmni (by decide) id with
  | none => none
  | some (slot, seq) =>
      if (st.segs slot).used = true ∧ (st.segs slot).perm.seq = seq then some slot else none

def freeSeg (st : ShmState) : Option ShmSlot :=
  (List.finRange shmmni).find? fun i => (st.segs i).used = false

def freeAtt (st : ShmState) : Option AttSlot :=
  (List.finRange shmAttMax).find? fun i => (st.atts i).mm = 0

end ShmState

/-! ## Frames -/

/-- `pmm_frame_incref`. -/
def incref (refs : Frame → Nat) (f : Frame) : Frame → Nat := Function.update refs f (refs f + 1)

/-- `pmm_frame_decref`. -/
def decref (refs : Frame → Nat) (f : Frame) : Frame → Nat := Function.update refs f (refs f - 1)

/-- The loop of `do_shmget` that takes `n` more frames. `alloc i` is what `pmm_alloc_frame` returns
the `i`-th time, 0 if it has none; the frames taken so far are then given back. -/
def takeFrames (alloc : Nat → Frame) : Nat → List Frame → (Frame → Nat) →
    Option (List Frame) × (Frame → Nat)
  | 0, frames, refs => (some frames, refs)
  | n + 1, frames, refs =>
      if alloc frames.length = 0 then (none, frames.foldl decref refs)
      else takeFrames alloc n (frames ++ [alloc frames.length]) (incref refs (alloc frames.length))

/-! ## The end of a segment -/

/-- `shm_destroy`. -/
def shmDestroy (st : ShmState) (slot : ShmSlot) : ShmState :=
  { st.setSeg slot { st.segs slot with frames := [], used := false } with
    pagesTotal := st.pagesTotal - (st.segs slot).npages
    refs :=
      (((st.segs slot).frames.take (st.segs slot).npages.toNat).filter (· ≠ 0)).foldl decref st.refs
    released := ⟨st.segs slot, st.records slot (st.segs slot).perm.seq⟩ :: st.released }

/-- `shm_maybe_destroy`. -/
def shmMaybeDestroy (st : ShmState) (slot : ShmSlot) : ShmState :=
  if (st.segs slot).used = true ∧ (st.segs slot).marked = true ∧ (st.segs slot).nattch ≤ 0 then
    shmDestroy st slot
  else st

/-! ## shmget -/

def ShmState.shmByKey (st : ShmState) (key : Int) : Option ShmSlot :=
  if key = ipcPrivate then none
  else (List.finRange shmmni).find? fun i =>
    (st.segs i).used = true ∧ (st.segs i).perm.key = key ∧ (st.segs i).marked = false

def pagesOf (size : UInt32) : UInt32 := (size + pageSize - 1) / pageSize

/-- The pages of the segments that the user has created. -/
def ShmState.userPages (st : ShmState) (c : Cred) : UInt32 :=
  (List.finRange shmmni).foldl
    (fun n i => if (st.segs i).used = true ∧ (st.segs i).perm.cuid =
      c.euid then n + (st.segs i).npages else n)
    0

/-- The segment is entered in the table. -/
def shmCreate (st : ShmState) (c : Cred) (key : Int) (size flag : UInt32) (slot : ShmSlot)
    (frames : List Frame) : ShmState :=
  { st.setSeg slot
      ⟨true, permInit c key flag st.seqNext, size, pagesOf size, frames, 0, st.born⟩ with
    seqNext := seqAfter st.seqNext
    pagesTotal := st.pagesTotal + pagesOf size
    born := st.born + 1 }

/-- `do_shmget`. `mem` says whether `kmalloc` has memory for the array of frames. -/
def shmget (st : ShmState) (c : Cred) (key : Int) (size flag : UInt32) (mem : Bool)
    (alloc : Nat → Frame) : Int × ShmState :=
  match st.shmByKey key with
  | some i =>
      if flag &&& ipcCreat ≠ 0 ∧ flag &&& ipcExcl ≠ 0 then (-eexist, st)
      else if ipcperms c (st.segs i).perm flag = false then (-eacces, st)
      else if (st.segs i).size < size then (-einval, st)
      else (idOf i (st.segs i).perm.seq, st)
  | none =>
      if key ≠ ipcPrivate ∧ flag &&& ipcCreat = 0 then (-enoent, st)
      else if size < 1 ∨ shmmax < size then (-einval, st)
      else if shmall < st.pagesTotal + pagesOf size then (-enospc, st)
      else if c.euid ≠ 0 ∧ shmUserPages < st.userPages c + pagesOf size then (-enospc, st)
      else
        match st.freeSeg with
        | none => (-enospc, st)
        | some slot =>
            if mem = false then (-enomem, st)
            else
              match takeFrames alloc (pagesOf size).toNat [] st.refs with
              | (none, refs) => (-enomem, { st with refs := refs })
              | (some frames, refs) =>
                  (idOf slot st.seqNext,
                    shmCreate { st with refs := refs } c key size flag slot frames)

/-! ## Attaching and detaching -/

/-- A record is written, and the segment it names counts it. -/
def addRecord (st : ShmState) (i : AttSlot) (a : ShmAtt) : ShmState :=
  (st.setAtt i a).setSeg a.slot { st.segs a.slot with nattch := (st.segs a.slot).nattch + 1 }

/-- The rights an attachment needs. -/
def attachRights (flag : UInt32) : UInt32 := if flag &&& shmRdonly ≠ 0 then 0o444 else 0o666

/-- The address that is asked for, rounded down with `SHM_RND`. -/
def attachAddr (addr flag : UInt32) : UInt32 :=
  if flag &&& shmRnd ≠ 0 then addr &&& ~~~(pageSize - 1) else addr

/-- `do_shmat`. `base` is where `mm_shm_attach_at` has put the pages, 0 if it could not. -/
def shmat (st : ShmState) (c : ShmCaller) (id : Int) (addr flag base : UInt32) : Int × ShmState :=
  match st.shmById id with
  | none => (-einval, st)
  | some slot =>
      if addr ≠ 0 ∧ flag &&& shmRnd = 0 ∧ addr &&& (pageSize - 1) ≠ 0 then (-einval, st)
      else if ipcperms c.cred (st.segs slot).perm (attachRights flag) = false then (-eacces, st)
      else
        match st.freeAtt with
        | none => (-enomem, st)
        | some i =>
            if base = 0 then (if attachAddr addr flag ≠ 0 then -einval else -enomem, st)
            else
              (0, addRecord st i
                ⟨c.mm, slot, (st.segs slot).perm.seq, base, (st.segs slot).npages⟩)

/-- The record is freed. -/
def freeRecord (st : ShmState) (i : AttSlot) : ShmState := st.setAtt i { st.atts i with mm := 0 }

/-- The record is freed, and the segment it names no longer counts it. -/
def uncount (st : ShmState) (i : AttSlot) : ShmState :=
  (freeRecord st i).setSeg (st.atts i).slot
    { st.segs (st.atts i).slot with nattch := (st.segs (st.atts i).slot).nattch - 1 }

/-- What `do_shmdt` and `sysv_shm_mm_release` do with a record. -/
def dropRecord (st : ShmState) (i : AttSlot) : ShmState :=
  if st.stale (st.atts i) then freeRecord st i
  else shmMaybeDestroy (uncount st i) (st.atts i).slot

/-- `do_shmdt`. -/
def shmdt (st : ShmState) (c : ShmCaller) (addr : UInt32) : Int × ShmState :=
  match (List.finRange shmAttMax).find? fun i => (st.atts i).mm = c.mm ∧
    (st.atts i).addr = addr with
  | none => (-einval, st)
  | some i => (0, dropRecord st i)

/-- One round of `sysv_shm_fork`: the record `i` is copied for the child, if there is a free one. -/
def shmForkOne (pm cm : Nat) (st : ShmState) (i : AttSlot) : ShmState :=
  if (st.atts i).mm ≠ pm then st
  else if st.stale (st.atts i) then st
  else
    match st.freeAtt with
    | none => st
    | some j => addRecord st j { st.atts i with mm := cm }

/-- `sysv_shm_fork`. -/
def shmFork (st : ShmState) (pm cm : Nat) : ShmState :=
  if pm = 0 ∨ cm = 0 ∨ pm = cm then st else (List.finRange shmAttMax).foldl (shmForkOne pm cm) st

/-- One round of `sysv_shm_mm_release`. -/
def shmReleaseOne (mm : Nat) (st : ShmState) (i : AttSlot) : ShmState :=
  if (st.atts i).mm ≠ mm then st else dropRecord st i

/-- `sysv_shm_mm_release`. -/
def shmMmRelease (st : ShmState) (mm : Nat) : ShmState :=
  if mm = 0 then st else (List.finRange shmAttMax).foldl (shmReleaseOne mm) st

/-! ## shmctl -/

def ShmState.setPerm (st : ShmState) (slot : ShmSlot) (p : IpcPerm) : ShmState :=
  st.setSeg slot { st.segs slot with perm := p }

/-- The segment is marked, and no longer found by its key. -/
def permDest (p : IpcPerm) : IpcPerm := { p with mode := p.mode ||| shmDest, key := ipcPrivate }

def permLock (p : IpcPerm) (on : Bool) : IpcPerm :=
  { p with mode := if on then p.mode ||| shmLocked else p.mode &&& ~~~shmLocked }

/-- `IPC_RMID`. -/
def shmRmid (st : ShmState) (c : Cred) (id : Int) : Int × ShmState :=
  match st.shmById id with
  | none => (-einval, st)
  | some slot =>
      if ipcOwner c (st.segs slot).perm = false then (-eperm, st)
      else (0, shmMaybeDestroy (st.setPerm slot (permDest (st.segs slot).perm)) slot)

/-- `IPC_SET` from its copy on: `slot` is what `shm_by_id` had found, `d` is what was read. -/
def shmIpcSet (st : ShmState) (c : Cred) (slot : ShmSlot) (d : Option (UInt32 × UInt32 × UInt32)) :
    Int × ShmState :=
  match d with
  | none => (-efault, st)
  | some (uid, gid, mode) =>
      if ipcOwner c (st.segs slot).perm = false then (-eperm, st)
      else (0, st.setPerm slot (permSet (st.segs slot).perm uid gid mode))

/-- `SHM_LOCK` and `SHM_UNLOCK`. -/
def shmLock (st : ShmState) (c : Cred) (id : Int) (on : Bool) : Int × ShmState :=
  match st.shmById id with
  | none => (-einval, st)
  | some slot =>
      if ipcOwner c (st.segs slot).perm = false then (-eperm, st)
      else (0, st.setPerm slot (permLock (st.segs slot).perm on))

/-! ## The system -/

inductive ShmEvent where
  | shmget (c : Cred) (key : Int) (size flag : UInt32) (mem : Bool) (alloc : Nat → Frame)
  | shmat (c : ShmCaller) (id : Int) (addr flag base : UInt32)
  | shmdt (c : ShmCaller) (addr : UInt32)
  | fork (pm cm : Nat)
  | mmRelease (mm : Nat)
  | rmid (c : Cred) (id : Int)
  | ipcSet (c : Cred) (slot : ShmSlot) (d : Option (UInt32 × UInt32 × UInt32))
  | lock (c : Cred) (id : Int) (on : Bool)

def ShmEvent.apply (st : ShmState) : ShmEvent → Int × ShmState
  | .shmget c key size flag mem alloc => SysV.shmget st c key size flag mem alloc
  | .shmat c id addr flag base => SysV.shmat st c id addr flag base
  | .shmdt c addr => SysV.shmdt st c addr
  | .fork pm cm => (0, shmFork st pm cm)
  | .mmRelease mm => (0, shmMmRelease st mm)
  | .rmid c id => shmRmid st c id
  | .ipcSet c slot d => shmIpcSet st c slot d
  | .lock c id on => shmLock st c id on

/-- The tables are zero at boot. -/
def shmBoot : ShmState where
  segs _ := ⟨false, ⟨0, 0, 0, 0, 0, 0, 0⟩, 0, 0, [], 0, 0⟩
  atts _ := ⟨0, ⟨0, by decide⟩, 0, 0, 0⟩
  seqNext := 1
  pagesTotal := 0
  refs _ := 0
  born := 0
  released := []

def shmSystem : System ShmState (ShmEvent × Int) :=
  System.ofMachine shmBoot ShmEvent.apply fun _ => False

end MaeroOS.SysV
