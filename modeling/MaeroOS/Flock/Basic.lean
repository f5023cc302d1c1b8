import MaeroOS.Lib.RangeList
import MaeroOS.Lib.System

/-!
# Advisory file locks

The lock table of `flock.c`: `flock(2)` locks, POSIX record locks and open-file-description locks,
hashed by file into unsorted lists, with the counts that bound them. A record is a byte range
(`RangeList.Ranged`) with the rest of `flk_t` as its value.

`kmalloc` may fail at each of its calls and the caller's signals and descriptor table are outside
this part of the kernel, so they come in as arguments (`Env`).
-/

namespace MaeroOS.Flock

open Lib (System)
open Lib.RangeList (Ranged)

/-- `LK_FLOCK`, `LK_POSIX`, `LK_OFD`. -/
inductive Kind where
  | flock
  | posix
  | ofd
  deriving DecidableEq, Repr

/-- `F_RDLCK` or `F_WRLCK`: the type a lock can have. -/
inductive LockType where
  | rdlck
  | wrlck
  deriving DecidableEq, Repr

def offMax : Int := 0x7FFFFFFFFFFFFFFF
def lockHash : Nat := 64
def locksMax : Int := 16384
def locksPerUid : Int := 4096
def lockUidSlots : Nat := 64
def enolck : Int := 37
def eagain : Int := 11
def eintr : Int := 4
def ebadf : Int := 9
def einval : Int := 22
def efault : Int := 14
def eoverflow : Int := 75

/-- `fkey_t`: what tells two files apart. -/
structure FKey where
  dev : UInt32
  ino : UInt32
  fs : UInt32
  deriving DecidableEq, Repr

/-- The fields of `flk_t` besides the range and the link. -/
structure LockInfo where
  file : FKey
  kind : Kind
  type : LockType
  owner : UInt32
  pid : Int
  uid : UInt32
  deriving DecidableEq, Repr

/-- `flk_t`: `lo` and `hi` are `start` and `end`. -/
abbrev Flk := Ranged LockInfo

/-- An entry of `lock_uids`. -/
structure UidSlot where
  uid : UInt32
  n : Int
  deriving DecidableEq, Repr

/-- The counts: `nlocks` and `lock_uids`. -/
structure Accounts where
  nlocks : Int
  uids : List UidSlot
  deriving DecidableEq, Repr

structure LockTable where
  hash : Fin lockHash → List Flk
  accounts : Accounts

/-! ## Accounting -/

/-- The slot `lock_charge` uses: the uid's own, else the first free one. -/
def chargeSlot (uid : UInt32) (uids : List UidSlot) : Option Nat :=
  match uids.findIdx? fun s => 0 < s.n ∧ s.uid = uid with
  | some i => some i
  | none => uids.findIdx? fun s => s.n = 0

/-- `lock_charge`; `none` is `-ENOLCK`. -/
def lockCharge (uid : UInt32) (acc : Accounts) : Option Accounts :=
  if locksMax ≤ acc.nlocks then none
  else if uid = 0 then some { acc with nlocks := acc.nlocks + 1 }
  else
    match chargeSlot uid acc.uids with
    | none => none
    | some i =>
        let n := (acc.uids.getD i ⟨0, 0⟩).n
        if locksPerUid ≤ n then none
        else some { nlocks := acc.nlocks + 1, uids := acc.uids.set i ⟨uid, n + 1⟩ }

def lockUncharge (uid : UInt32) (acc : Accounts) : Accounts :=
  let acc := { acc with nlocks := acc.nlocks - 1 }
  if uid = 0 then acc
  else
    match acc.uids.findIdx? fun s => 0 < s.n ∧ s.uid = uid with
    | none => acc
    | some i => { acc with uids := acc.uids.modify i fun s => { s with n := s.n - 1 } }

/-- `flk_alloc` as far as the counts go; `mem` is whether `kmalloc` succeeds. -/
def flkAlloc (uid : UInt32) (mem : Bool) (acc : Accounts) : Except Accounts Accounts :=
  match lockCharge uid acc with
  | none => .error acc
  | some acc' => if mem then .ok acc' else .error (lockUncharge uid acc')

/-! ## Files -/

/-- What `key_of` reads of a `vfs_node_t`, and its address. -/
structure VfsNode where
  addr : UInt32
  dev : UInt32
  inode : UInt32
  readFn : UInt32
  size : UInt64
  deriving DecidableEq, Repr

def keyOf (n : VfsNode) : FKey :=
  if n.inode ≠ 0 then ⟨n.dev, n.inode, n.readFn⟩ else ⟨0xFFFFFFFF, 0, n.addr⟩

def bucket (k : FKey) : Fin lockHash :=
  let h := k.dev * 2654435761 ^^^ k.ino * 40503 ^^^ k.fs
  let h := h ^^^ (h >>> 16)
  ⟨h.toNat % lockHash, Nat.mod_lt _ (by decide)⟩

/-! ## The table -/

/-- A range of a file for an owner, as `set_lock` gets it: within the offsets a file can have, and
not empty. `type` is `none` for `F_UNLCK`. -/
structure Request where
  file : FKey
  kind : Kind
  owner : UInt32
  type : Option LockType
  start : Int
  stop : Int
  start_nonneg : 0 ≤ start
  start_le_stop : start ≤ stop
  stop_le_max : stop ≤ offMax

/-- The records `unlock_range` works on: the owner's locks of that kind on the file. -/
def Request.owns (req : Request) (i : LockInfo) : Bool :=
  i.file = req.file ∧ i.kind = req.kind ∧ i.owner = req.owner

def bsdKind (k : Kind) : Bool := k = .flock

/-- The lock `l` stands in the way of a `type` lock for the request. -/
def conflicts (l : Flk) (req : Request) (type : LockType) : Bool :=
  if l.val.file ≠ req.file ∨ bsdKind l.val.kind ≠ bsdKind req.kind then false
  else if l.val.kind = req.kind ∧ l.val.owner = req.owner then false
  else if l.val.type = .rdlck ∧ type = .rdlck then false
  else l.lo ≤ req.stop ∧ req.start ≤ l.hi

def findConflict (t : LockTable) (req : Request) (type : LockType) : Option Flk :=
  (t.hash (bucket req.file)).find? fun l => conflicts l req type

/-- The walk of `unlock_range` over one list: its result, the list and the counts as it leaves them.
`mem` is whether `kmalloc` has memory for the second half of a split. -/
def unlockWalk (req : Request) (mem : Bool) : List Flk → Accounts → Int × List Flk × Accounts
  | [], acc => (0, [], acc)
  | l :: rest, acc =>
      if req.owns l.val = false ∨ l.hi < req.start ∨ req.stop < l.lo then
        let (r, rest', acc') := unlockWalk req mem rest acc
        (r, l :: rest', acc')
      else if l.lo < req.start ∧ req.stop < l.hi then
        match flkAlloc l.val.uid mem acc with
        | .error acc' => (-enolck, l :: rest, acc')
        -- the two halves; the rest of the list is not looked at
        | .ok acc' =>
            (0, { l with hi := req.start - 1 } :: { l with lo := req.stop + 1 } :: rest, acc')
      else if l.lo < req.start then
        let (r, rest', acc') := unlockWalk req mem rest acc
        (r, { l with hi := req.start - 1 } :: rest', acc')
      else if req.stop < l.hi then
        let (r, rest', acc') := unlockWalk req mem rest acc
        (r, { l with lo := req.stop + 1 } :: rest', acc')
      else unlockWalk req mem rest (lockUncharge l.val.uid acc)

/-- The list of the request's file, and the counts, replaced. -/
def LockTable.setBucket (t : LockTable) (k : FKey) (l : List Flk) (acc : Accounts) : LockTable :=
  ⟨Function.update t.hash (bucket k) l, acc⟩

def unlockRange (t : LockTable) (req : Request) (mem : Bool) : Int × LockTable :=
  let (r, l, acc) := unlockWalk req mem (t.hash (bucket req.file)) t.accounts
  (r, t.setBucket req.file l acc)

/-- The walk of `unlock_all` over one list. -/
def dropWalk (sel : LockInfo → Bool) : List Flk → Accounts → List Flk × Accounts
  | [], acc => ([], acc)
  | l :: rest, acc =>
      if sel l.val then dropWalk sel rest (lockUncharge l.val.uid acc)
      else
        let (rest', acc') := dropWalk sel rest acc
        (l :: rest', acc')

/-- `unlock_all` on one hash list. -/
def dropIn (t : LockTable) (sel : LockInfo → Bool) (i : Fin lockHash) : LockTable :=
  let (l, acc) := dropWalk sel (t.hash i) t.accounts
  ⟨Function.update t.hash i l, acc⟩

/-- `unlock_all` on every hash list. -/
def dropAll (t : LockTable) (sel : LockInfo → Bool) : LockTable :=
  (List.finRange lockHash).foldl (fun t i => dropIn t sel i) t

/-- What a call finds around it: the caller, a pending signal, and `kmalloc`'s answers for the new
record and for a split. -/
structure Env where
  uid : UInt32
  tgid : Int
  signal : Bool
  memNew : Bool
  memSplit : Bool

/-- A call returns, or goes to sleep on `lock_wq`. -/
inductive Outcome where
  | ret (r : Int) (t : LockTable)
  | sleep (t : LockTable)

/-- `set_lock_locked` up to its first sleep, and from a wake-up to the next one. -/
def setLockLocked (t : LockTable) (req : Request) (nb : Bool) (env : Env) : Outcome :=
  match req.type with
  | none =>
      let (r, t') := unlockRange t req env.memSplit
      .ret r t'
  | some type =>
      if (findConflict t req type).isSome then
        if nb then .ret (-eagain) t
        else if env.signal then .ret (-eintr) t
        else .sleep t
      else
        match flkAlloc env.uid env.memNew t.accounts with
        | .error acc => .ret (-enolck) { t with accounts := acc }
        | .ok acc =>
            let (r, t') := unlockRange { t with accounts := acc } req env.memSplit
            if r < 0 then .ret r { t' with accounts := lockUncharge env.uid t'.accounts }
            else
              let n : Flk :=
                ⟨req.start, req.stop, req.file, req.kind, type, req.owner, env.tgid, env.uid⟩
              .ret 0 (t'.setBucket req.file (n :: t'.hash (bucket req.file)) t'.accounts)

/-- A sleeper's next turn: without its descriptor it gets no lock. -/
def setLockWoken (t : LockTable) (req : Request) (fdUnchanged : Bool) (env : Env) : Outcome :=
  if fdUnchanged then setLockLocked t req false env else .ret (-ebadf) t

/-! ## System calls -/

inductive FdType where
  | none
  | file
  | other
  deriving DecidableEq, Repr

/-- What the lock calls read of `proc_file_t`. -/
structure ProcFile where
  type : FdType
  node : Option VfsNode
  offset : UInt64
  fid : UInt32
  readable : Bool
  writable : Bool

/-- `struct flock`, 64-bit or widened. -/
structure KFlock where
  type : Int
  whence : Int
  start : Int
  len : Int
  pid : Int

/-- The inclusive byte range of a `struct flock` whose offsets count from `base`. -/
def flockRange (base start len : Int) : Except Int (Int × Int) :=
  if 0 < start ∧ offMax - start < base then .error (-eoverflow)
  else if base + start < 0 then .error (-einval)
  else if 0 < len then
    if offMax - (base + start) < len - 1 then .error (-eoverflow)
    else .ok (base + start, base + start + len - 1)
  else if len < 0 then
    if len < -(base + start) then .error (-einval)
    else .ok (base + start + len, base + start - 1)
  else .ok (base + start, offMax)

theorem flockRange_ok {base start len lo hi : Int} (hmax : base ≤ offMax)
    (h : flockRange base start len = .ok (lo, hi)) : 0 ≤ lo ∧ lo ≤ hi ∧ hi ≤ offMax := by
  unfold flockRange at h
  split at h
  · cases h
  split at h
  · cases h
  split at h
  · split at h
    · cases h
    · cases h
      omega
  · split at h
    · split at h
      · cases h
      · cases h
        omega
    · cases h
      omega

/-- A `uint64_t` converted to `int64_t`. -/
def toInt64 (x : UInt64) : Int := x.toBitVec.toInt

theorem toInt64_le (x : UInt64) : toInt64 x ≤ offMax := by
  have h := BitVec.toInt_lt (x := x.toBitVec)
  show x.toBitVec.toInt ≤ 0x7FFFFFFFFFFFFFFF
  omega

/-- Where a `struct flock` counts from: the start, the descriptor's offset or the file's size. -/
def flockBase (f : ProcFile) (node : VfsNode) (whence : Int) : Option { b : Int // b ≤ offMax } :=
  if whence = 0 then some ⟨0, by decide⟩
  else if whence = 1 then some ⟨toInt64 f.offset, toInt64_le _⟩
  else if whence = 2 then some ⟨toInt64 node.size, toInt64_le _⟩
  else none

/-- `F_RDLCK`, `F_WRLCK`, `F_UNLCK`; anything else is refused. -/
def lockTypeOf (type : Int) : Option (Option LockType) :=
  if type = 0 then some (some .rdlck)
  else if type = 1 then some (some .wrlck)
  else if type = 2 then some none
  else none

/-- The node of a descriptor that can be locked, or the error for one that cannot. -/
def lockableNode (f : ProcFile) : Except Int VfsNode :=
  match f.type, f.node with
  | .none, _ => .error (-ebadf)
  | .file, some node => .ok node
  | _, _ => .error (-einval)

/-- The identity of the open file description, given one if it has none. -/
def fidOf (f : ProcFile) (newFid : UInt32) : UInt32 := if f.fid = 0 then newFid else f.fid

/-- `flock_fcntl` for `F_SETLK` and its kin up to the call of `set_lock`: the request, or the error.
`uarg` is `none` when the argument cannot be read, `table` the caller's descriptor table, and
`newFid` the identity a descriptor without one gets. -/
def fcntlRequest (f : ProcFile) (ofd : Bool) (uarg : Option KFlock) (table newFid : UInt32) :
    Except Int Request :=
  match uarg with
  | none => .error (-efault)
  | some fl =>
      match lockableNode f with
      | .error e => .error e
      | .ok node =>
          match lockTypeOf fl.type with
          | none => .error (-einval)
          | some type =>
              if ofd = true ∧ fl.pid ≠ 0 then .error (-einval)
              else
                match flockBase f node fl.whence with
                | none => .error (-einval)
                | some base =>
                    match h : flockRange base.1 fl.start fl.len with
                    | .error e => .error e
                    | .ok (lo, hi) =>
                        if type = some .rdlck ∧ f.readable = false then .error (-ebadf)
                        else if type = some .wrlck ∧ f.writable = false then .error (-ebadf)
                        else
                          .ok
                            { file := keyOf node
                              kind := if ofd then .ofd else .posix
                              owner := if ofd then fidOf f newFid else table
                              type := type
                              start := lo
                              stop := hi
                              start_nonneg := (flockRange_ok base.2 h).1
                              start_le_stop := (flockRange_ok base.2 h).2.1
                              stop_le_max := (flockRange_ok base.2 h).2.2 }

/-- `flock_fcntl` for `F_SETLK` (`wait = false`) and `F_SETLKW`. -/
def flockFcntl (t : LockTable) (f : ProcFile) (ofd wait : Bool) (uarg : Option KFlock)
    (table newFid : UInt32) (env : Env) : Outcome :=
  match fcntlRequest f ofd uarg table newFid with
  | .error e => .ret e t
  | .ok req => setLockLocked t req (!wait) env

/-- `LOCK_SH`, `LOCK_EX`, `LOCK_UN`, without `LOCK_NB`. -/
def bsdTypeOf (op : UInt32) : Option (Option LockType) :=
  if op &&& ~~~4 = 1 then some (some .rdlck)
  else if op &&& ~~~4 = 2 then some (some .wrlck)
  else if op &&& ~~~4 = 8 then some none
  else none

/-- The whole file, for the open file description `fid`. -/
def wholeFile (node : VfsNode) (fid : UInt32) (type : Option LockType) : Request where
  file := keyOf node
  kind := .flock
  owner := fid
  type := type
  start := 0
  stop := offMax
  start_nonneg := Int.le_refl _
  start_le_stop := by decide
  stop_le_max := Int.le_refl _

/-- `flock_bsd` with `flock_lock` held. Converting a lock drops the old one first. -/
def bsdLock (t : LockTable) (req : Request) (nb : Bool) (env : Env) : Outcome :=
  match (t.hash (bucket req.file)).find? fun l => req.owns l.val with
  | none => setLockLocked t req nb env
  | some l =>
      if some l.val.type = req.type then .ret 0 t
      else setLockLocked (unlockRange t req env.memSplit).2 req nb env

def flockBsd (t : LockTable) (f : ProcFile) (op newFid : UInt32) (env : Env) : Outcome :=
  if op &&& ~~~(1 ||| 2 ||| 4 ||| 8) ≠ 0 then .ret (-einval) t
  else
    match lockableNode f with
    | .error e => .ret e t
    | .ok node =>
        match bsdTypeOf op with
        | none => .ret (-einval) t
        | some type =>
            if f.fid = 0 ∧ type = none then .ret 0 t
            else bsdLock t (wholeFile node (fidOf f newFid) type) (op &&& 4 ≠ 0) env

def matchPosixClose (k : FKey) (table : UInt32) (l : LockInfo) : Bool :=
  l.kind = .posix ∧ l.owner = table ∧ l.file = k

def matchFid (k : FKey) (fid : UInt32) (l : LockInfo) : Bool :=
  l.kind ≠ .posix ∧ l.owner = fid ∧ l.file = k

def matchTable (table : UInt32) (l : LockInfo) : Bool := l.kind = .posix ∧ l.owner = table

/-- POSIX: closing any descriptor of the file drops the closing table's locks on it. -/
def closePosix (t : LockTable) (k : FKey) : Option UInt32 → LockTable
  | none => t
  | some table => dropIn t (matchPosixClose k table) (bucket k)

/-- `flock_fd_closed`. `table` is the caller's descriptor table if the descriptor is in it, and
`fidInUse` whether another descriptor shares the open file description. -/
def flockFdClosed (t : LockTable) (f : ProcFile) (table : Option UInt32) (fidInUse : Bool) :
    LockTable :=
  match lockableNode f with
  | .error _ => t
  | .ok node =>
      let k := keyOf node
      if t.accounts.nlocks = 0 ∨ t.hash (bucket k) = [] then t
      else
        let t₁ := closePosix t k table
        if f.fid ≠ 0 ∧ (t₁.hash (bucket k)).any (fun l => matchFid k f.fid l.val) = true ∧
            fidInUse = false then
          dropIn t₁ (matchFid k f.fid) (bucket k)
        else t₁

def flockOwnerGone (t : LockTable) (owner : UInt32) : LockTable :=
  if t.accounts.nlocks = 0 then t else dropAll t (matchTable owner)

/-! ## The system -/

inductive Event where
  | fcntl (f : ProcFile) (ofd wait : Bool) (uarg : Option KFlock) (table newFid : UInt32)
      (env : Env)
  | woken (req : Request) (fdUnchanged : Bool) (env : Env)
  | flock (f : ProcFile) (op newFid : UInt32) (env : Env)
  | fdClosed (f : ProcFile) (table : Option UInt32) (fidInUse : Bool)
  | ownerGone (owner : UInt32)

def Event.apply (t : LockTable) : Event → Outcome
  | fcntl f ofd wait uarg table newFid env => flockFcntl t f ofd wait uarg table newFid env
  | woken req fdUnchanged env => setLockWoken t req fdUnchanged env
  | flock f op newFid env => flockBsd t f op newFid env
  | fdClosed f table fidInUse => .ret 0 (flockFdClosed t f table fidInUse)
  | ownerGone owner => .ret 0 (flockOwnerGone t owner)

/-- The table a call leaves, whether it returns or sleeps. -/
def Outcome.table : Outcome → LockTable
  | .ret _ t => t
  | .sleep t => t

def emptyTable : LockTable := ⟨fun _ => [], 0, List.replicate lockUidSlots ⟨0, 0⟩⟩

/-- The lock table from boot on. -/
def system : System LockTable Event where
  init t := t = emptyTable
  step t e t' := (e.apply t).table = t'

end MaeroOS.Flock
