/-!
# System V IPC objects

What shared memory segments, semaphore sets and message queues have in common in `sysvipc.c`: their
ids, their permissions and the error numbers. An id is `seq * n + slot`, so that a removed object's
id does not name the next occupant of its slot, up to the sequence numbers starting over at
`0x7FFF`.
-/

namespace MaeroOS.SysV

def eperm : Int := 1
def enoent : Int := 2
def eintr : Int := 4
def e2big : Int := 7
def eagain : Int := 11
def enomem : Int := 12
def eacces : Int := 13
def efault : Int := 14
def eexist : Int := 17
def einval : Int := 22
def efbig : Int := 27
def enospc : Int := 28
def erange : Int := 34
def enosys : Int := 38
def enomsg : Int := 42
def eidrm : Int := 43

def ipcPrivate : Int := 0
def ipcCreat : UInt32 := 0o1000
def ipcExcl : UInt32 := 0o2000

/-- The caller, as `current_proc` has it. -/
structure Cred where
  tgid : Nat
  euid : UInt32
  egid : UInt32
  groups : List UInt32
  deriving DecidableEq, Repr

/-- The first process, as root. -/
def root : Cred := ⟨1, 0, 0, []⟩

/-- `ipc_perm_t`. -/
structure IpcPerm where
  key : Int
  uid : UInt32
  gid : UInt32
  cuid : UInt32
  cgid : UInt32
  mode : UInt32
  seq : Nat
  deriving DecidableEq, Repr

def inGroup (c : Cred) (gid : UInt32) : Bool := c.egid = gid ∨ gid ∈ c.groups

/-- `ipcperms`: whether `flag`, with rwx bits in any class position, is granted. -/
def ipcperms (c : Cred) (p : IpcPerm) (flag : UInt32) : Bool :=
  let requested := (flag >>> 6) ||| (flag >>> 3) ||| flag
  let granted :=
    if c.euid = p.cuid ∨ c.euid = p.uid then p.mode >>> 6
    else if inGroup c p.cgid ∨ inGroup c p.gid then p.mode >>> 3
    else p.mode
  ¬ (requested &&& ~~~granted &&& 0o7 ≠ 0 ∧ c.euid ≠ 0)

def ipcOwner (c : Cred) (p : IpcPerm) : Bool := c.euid = 0 ∨ c.euid = p.uid ∨ c.euid = p.cuid

/-- `perm_init` and the sequence number the caller sets after it. -/
def permInit (c : Cred) (key : Int) (flag : UInt32) (seq : Nat) : IpcPerm :=
  ⟨key, c.euid, c.egid, c.euid, c.egid, flag &&& 0o777, seq⟩

/-- `perm_set`: new owner ids and the low nine mode bits. -/
def permSet (p : IpcPerm) (uid gid mode : UInt32) : IpcPerm :=
  { p with uid := uid, gid := gid, mode := (p.mode &&& ~~~0o777) ||| (mode &&& 0o777) }

/-- `ID_OF`. -/
def idOf {n : Nat} (slot : Fin n) (seq : Nat) : Int := ((seq * n + slot.val : Nat) : Int)

/-- The slot and the sequence number an id names. -/
def idSplit (n : Nat) (hn : 0 < n) (id : Int) : Option (Fin n × Nat) :=
  if id < 0 then none else some (⟨id.toNat % n, Nat.mod_lt _ hn⟩, id.toNat / n)

/-- The sequence number after this one. -/
def seqAfter (seq : Nat) : Nat := if 0x7FFF ≤ seq + 1 then 1 else seq + 1

/-- What `ipc_sleep` returned. -/
inductive Wake where
  | woken
  | intr
  | timeout
  deriving DecidableEq, Repr

end MaeroOS.SysV
