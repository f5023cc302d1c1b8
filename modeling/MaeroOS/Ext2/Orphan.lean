import MaeroOS.Lib.System

/-!
# Unlinked inodes that are still open

An inode of an ext3/ext4 instance loses its last name while descriptors or mappings still hold it.
It lives on as an orphan, and that is recorded twice: in its cached node (`refs` and `orphan`), for
the last close, and on the disk, for a mount after a crash. The record on the disk is a slot of the
orphan file or, when there is no such file or no free slot, the old list that starts at
`s_last_orphan` and goes on through each inode's `i_dtime`.

There is one node for an inode number, and each lookup fills it again from the inode, with the
operations for its type. Those of a directory do not count references.

Operations on an instance run one at a time under its lock, and the device does not fail.
`ext2_close_node` takes the lock only after it has dropped the reference, so a close that has to
release the inode is two steps here, and other operations may come between them (`pending`). A
read-only instance refuses every write.

The model adds what the driver does not keep: a stamp for every file that an inode number was given
to, the descriptors and mappings that hold inodes (`held`), and a log of the deletions, each with
the links, the references and the holders of the inode at that moment.
-/

namespace MaeroOS.Ext2.Orphan

/-- `i_mode & S_IFMT`. -/
inductive FileType where
  | reg
  | dir
  | lnk
  | sock
  | other
  deriving DecidableEq, Repr

/-- The fields of `ext2_inode_t` that deletion and truncation look at. -/
structure Inode where
  /-- `none` when `i_mode` is 0. -/
  type : Option FileType
  links : Nat
  dtime : Nat
  size : Nat
  /-- `x4_is_ext`. -/
  extents : Bool
  /-- The blocks, each with its index in the file. -/
  blocks : List (Nat × Nat)
  /-- Which file this is. -/
  stamp : Nat
  deriving DecidableEq, Repr

def Inode.isDir (i : Inode) : Bool := i.type == some .dir

/-- The cached node of an inode. -/
structure Node where
  refs : Nat
  orphan : Bool
  /-- Whether the node has the operations of a directory; `none` before the first lookup. -/
  dir : Option Bool
  deriving DecidableEq, Repr

/-- A descriptor or a mapping: the inode, which file that was, whether it was opened as a directory,
and whether it may write. -/
structure Handle where
  ino : Nat
  stamp : Nat
  dir : Bool
  write : Bool
  deriving DecidableEq, Repr

/-- A block of the orphan file, and whether it has the magic number of one. -/
structure OrphanBlk where
  ours : Bool
  slots : List Nat
  deriving DecidableEq, Repr

/-- A deletion: of which file, in which inode, with its links, references, holders and blocks. -/
structure Release where
  ino : Nat
  stamp : Nat
  links : Nat
  refs : Nat
  holders : Nat
  blocks : List (Nat × Nat)
  deriving DecidableEq, Repr

structure Geometry where
  firstIno : Nat
  inodesCount : Nat
  blockSize : Nat
  /-- `ext2_max_file`, with extents and without. -/
  maxFile : Bool → Nat

/-- The numbers that are handed out. -/
def Geometry.InRange (geo : Geometry) (ino : Nat) : Prop :=
  geo.firstIno ≤ ino ∧ ino ≤ geo.inodesCount

instance (geo : Geometry) (ino : Nat) : Decidable (geo.InRange ino) := by
  unfold Geometry.InRange
  infer_instance

structure Fs where
  ro : Bool
  rwOk : Bool
  /-- `fs->j != 0`. -/
  journal : Bool
  inode : Nat → Inode
  /-- The inode bitmap. -/
  inUse : Nat → Bool
  node : Nat → Node
  orphanFile : Option (List OrphanBlk)
  lastOrphan : Nat
  held : List Handle
  /-- The inodes of closes that have dropped the last reference and do not have the lock yet. -/
  pending : List Nat
  released : List Release
  born : Nat

/-- How many hold an inode. -/
def holders (s : Fs) (ino : Nat) : Nat := s.held.countP (·.ino == ino)

/-! ## The records on the disk -/

/-- `ext2_write_inode`. -/
def writeInode (s : Fs) (ino : Nat) (i : Inode) : Fs :=
  if s.ro then s else { s with inode := Function.update s.inode ino i }

/-- `x4_orphan_slot`: the first slot that holds `find` gets `repl`. -/
def orphanSlot (find repl : Nat) : List OrphanBlk → Option (List OrphanBlk)
  | [] => none
  | b :: bs =>
      if b.ours = true ∧ find ∈ b.slots then
        some ({ b with slots := b.slots.replace find repl } :: bs)
      else (orphanSlot find repl bs).map (b :: ·)

/-- `x4_orphan_add`; the caller writes the inode. -/
def orphanAdd (s : Fs) (ino : Nat) (i : Inode) : Inode × Fs :=
  if s.ro then (i, s)
  else
    match s.orphanFile.bind (orphanSlot 0 ino) with
    | some file => (i, { s with orphanFile := some file })
    | none => ({ i with dtime := s.lastOrphan }, { s with lastOrphan := ino })

/-- The search of `x4_orphan_del` for the inode whose link is `ino`. -/
def listDel (geo : Geometry) (ino next : Nat) : Nat → Nat → Fs → Option Fs
  | 0, _, _ => none
  | steps + 1, cur, s =>
      if cur = 0 ∨ geo.inodesCount < cur then none
      else if (s.inode cur).dtime = ino then
        some (writeInode s cur { s.inode cur with dtime := next })
      else listDel geo ino next steps (s.inode cur).dtime s

/-- `x4_orphan_del`; the caller writes the inode. -/
def orphanDel (geo : Geometry) (s : Fs) (ino : Nat) (i : Inode) : Inode × Fs :=
  if s.ro then (i, s)
  else
    match s.orphanFile.bind (orphanSlot ino 0) with
    | some file => (i, { s with orphanFile := some file })
    | none =>
        if s.lastOrphan = ino then ({ i with dtime := 0 }, { s with lastOrphan := i.dtime })
        else
          match listDel geo ino i.dtime 4096 s.lastOrphan s with
          | some s' => ({ i with dtime := 0 }, s')
          | none => (i, s)

/-! ## Deletion -/

/-- `ext2_free_inode`. -/
def freeInode (geo : Geometry) (s : Fs) (ino : Nat) : Fs :=
  if ¬ geo.InRange ino ∨ s.ro = true then s
    else { s with inUse := Function.update s.inUse ino false }

/-- The entry of the log for the deletion of an inode. -/
def logRelease (s : Fs) (ino : Nat) (victim : Inode) : Fs :=
  if s.ro then s
  else
    { s with
      released :=
        ⟨ino, victim.stamp, victim.links, (s.node ino).refs, holders s ino, victim.blocks⟩ ::
          s.released }

/-- `ext2_delete_inode`. -/
def deleteInode (geo : Geometry) (s : Fs) (ino : Nat) (victim : Inode) (unorphan : Bool)
    (now : Nat) : Fs :=
  let s := logRelease s ino victim
  let r :=
    if unorphan then orphanDel geo s ino { victim with blocks := [] }
    else ({ victim with blocks := [] }, s)
  freeInode geo (writeInode r.2 ino { r.1 with size := 0, dtime := now }) ino

/-- `ext2_release_orphan`. -/
def releaseOrphan (geo : Geometry) (s : Fs) (ino : Nat) (now : Nat) : Fs :=
  deleteInode geo s ino (s.inode ino) true now

/-! ## The cleanup on a switch to read-write -/

/-- The blocks of a file below index `keep`. -/
def Inode.keepBelow (i : Inode) (keep : Nat) : Inode :=
  { i with blocks := i.blocks.filter fun b => b.1 < keep }

/-- How many blocks `size` bytes take. -/
def Geometry.blocksFor (geo : Geometry) (size : Nat) : Nat :=
  size / geo.blockSize + if size % geo.blockSize = 0 then 0 else 1

/-- `x4_orphan_finish`, with the link to the next orphan. -/
def orphanFinish (geo : Geometry) (s : Fs) (ino : Nat) (now : Nat) : Nat × Fs :=
  let i := s.inode ino
  if ¬ geo.InRange ino then (0, s)
  else if i.type = none ∨ s.inUse ino = false then (i.dtime, s)
  else if i.links = 0 then (i.dtime, deleteInode geo s ino i false now)
  else
    let i' := { i with dtime := 0 }
    (i.dtime, writeInode s ino (if i.type = some .reg then i'.keepBelow (geo.blocksFor i.size)
      else i'))

/-- The slots of the blocks that belong to the orphan file. -/
def slotsOf (file : List OrphanBlk) : List Nat := (file.filter (·.ours)).flatMap (·.slots)

/-- Every slot of these blocks emptied. -/
def emptied (file : List OrphanBlk) : List OrphanBlk :=
  file.map fun b => if b.ours then { b with slots := b.slots.map fun _ => 0 } else b

/-- The part of `x4_orphan_cleanup` that goes through the orphan file. -/
def cleanupFile (geo : Geometry) (s : Fs) (now : Nat) : Fs :=
  match s.orphanFile with
  | none => s
  | some file =>
      { (slotsOf file).foldl (fun s ino => if ino = 0 then s else (orphanFinish geo s ino now).2)
        s with
        orphanFile := some (emptied file) }

/-- The part that follows the old list. -/
def cleanupList (geo : Geometry) (now : Nat) : Nat → Nat → Fs → Fs
  | 0, _, s => { s with lastOrphan := 0 }
  | steps + 1, ino, s =>
      if ino = 0 then { s with lastOrphan := 0 }
      else cleanupList geo now steps (orphanFinish geo s ino now).1
        { (orphanFinish geo s ino now).2 with lastOrphan := (orphanFinish geo s ino now).1 }

/-- `x4_orphan_cleanup`. -/
def orphanCleanup (geo : Geometry) (s : Fs) (now : Nat) : Fs :=
  if s.ro then s else cleanupList geo now geo.inodesCount (cleanupFile geo s now).lastOrphan
    (cleanupFile geo s now)

/-- `ext2_set_ro_locked`. -/
def setRoLocked (geo : Geometry) (s : Fs) (ro : Bool) (now : Nat) : Fs :=
  if ro = s.ro then s
  else if ro then { s with ro := true }
  else if s.rwOk then orphanCleanup geo { s with ro := false } now
  else s

/-! ## References -/

/-- `ext2_make_node`: a lookup fills the node from the inode (`ext2_fill_node`). -/
def makeNode (s : Fs) (ino : Nat) : Fs :=
  { s with node := Function.update s.node ino { s.node ino with dir := some (s.inode ino).isDir } }

/-- `ext2_retain_node`. -/
def retainNode (s : Fs) (ino : Nat) : Fs :=
  { s with node := Function.update s.node ino { s.node ino with refs := (s.node ino).refs + 1 } }

/-- `ext2_close_node` up to the lock. -/
def closeNode (s : Fs) (ino : Nat) : Fs :=
  if (s.node ino).refs = 0 then s
  else if (s.node ino).refs = 1 then
    { s with
      node := Function.update s.node ino { s.node ino with refs := 0, orphan := false }
      pending := if (s.node ino).orphan then ino :: s.pending else s.pending }
  else { s with node :=
    Function.update s.node ino { s.node ino with refs := (s.node ino).refs - 1 } }

/-- `retain_fn` of a node. `ext2_retain_dir` leaves the node alone. -/
def retain (s : Fs) (ino : Nat) (write : Bool) : Fs :=
  let dir := (s.node ino).dir == some true
  let s := { s with held := ⟨ino, (s.inode ino).stamp, dir, write⟩ :: s.held }
  if dir then s else retainNode s ino

/-- `close_fn` of a node. `ext2_close_dir` leaves the node alone. -/
def close (s : Fs) (d : Handle) : Fs :=
  let s := { s with held := s.held.erase d }
  if (s.node d.ino).dir = some true then s else closeNode s d.ino

/-- The rest of `ext2_close_node`, for an inode that was marked. -/
def closeRelease (geo : Geometry) (s : Fs) (ino : Nat) (now : Nat) : Fs :=
  releaseOrphan geo { s with pending := s.pending.erase ino } ino now

/-! ## Names -/

/-- An inode that is handed out by `ext2_alloc_inode`, as `ext2_create` and `ext2_symlink` write
it. -/
def create (s : Fs) (ino : Nat) (type : FileType) (extents : Bool) : Fs :=
  { s with
    inUse := Function.update s.inUse ino true
    inode :=
      Function.update s.inode ino
        ⟨some type, if type = .dir then 2 else 1, 0, 0, extents, [], s.born⟩
    born := s.born + 1 }

/-- `ext2_link`. -/
def link (s : Fs) (ino : Nat) : Fs :=
  let i := s.inode ino
  if i.type = some .dir ∨ i.links = 0 ∨ 65000 ≤ i.links then s
    else writeInode s ino { i with links := i.links + 1 }

/-- `ext2_put_unlinked`. -/
def putUnlinked (geo : Geometry) (s : Fs) (ino : Nat) (victim : Inode) (now : Nat) : Fs :=
  if 0 < (s.node ino).refs then
    let s := { s with node := Function.update s.node ino { s.node ino with orphan := true } }
    writeInode (orphanAdd s ino victim).2 ino (orphanAdd s ino victim).1
  else if s.journal then
    deleteInode geo (writeInode (orphanAdd s ino victim).2 ino (orphanAdd s ino victim).1) ino
      (orphanAdd s ino victim).1 true now
  else deleteInode geo s ino victim false now

/-- What `ext2_unlink` and `ext2_rename` do to an inode that a name no longer leads to. A directory
also loses the link of its own entry. -/
def dropName (geo : Geometry) (s : Fs) (ino : Nat) (now : Nat) : Fs :=
  let i := s.inode ino
  let victim := { i with links := if i.type = some .dir then 0 else i.links - 1 }
  if 0 < victim.links then writeInode s ino victim else putUnlinked geo s ino victim now

/-! ## Contents -/

/-- `ext2_write_node`, as far as the inode is concerned: more blocks, and maybe a larger size. -/
def writeNode (s : Fs) (ino : Nat) (blocks : List (Nat × Nat)) (size : Nat) : Fs :=
  let i := s.inode ino
  writeInode s ino { i with blocks := i.blocks ++ blocks, size := max i.size size }

/-- `ext2_truncate_do`. -/
def truncateDo (geo : Geometry) (s : Fs) (ino size : Nat) : Fs :=
  let i := s.inode ino
  if i.type ≠ some .reg ∨ (i.size < size ∧ geo.maxFile i.extents < size) then s
  else
    let i' :=
      if geo.blocksFor size < geo.blocksFor i.size then i.keepBelow (geo.blocksFor size) else i
    writeInode s ino { i' with size := size }

/-- Whether a shrinking truncate is recorded as an orphan while it goes on. -/
def truncOrphan (geo : Geometry) (s : Fs) (ino size : Nat) : Bool :=
  let i := s.inode ino
  s.journal && !s.ro && i.type == some .reg && i.links != 0 && i.extents &&
    (size / geo.blockSize + 1 < i.size / geo.blockSize) && !(s.node ino).orphan

/-- `ext2_truncate`. -/
def truncate (geo : Geometry) (s : Fs) (ino size : Nat) : Fs :=
  if truncOrphan geo s ino size then
    let r := orphanAdd s ino (s.inode ino)
    let s := truncateDo geo (writeInode r.2 ino r.1) ino size
    let r := orphanDel geo s ino (s.inode ino)
    writeInode r.2 ino r.1
  else truncateDo geo s ino size

/-! ## The instance as a system -/

inductive Event where
  | create (ino : Nat) (type : FileType) (extents : Bool)
  | link (ino : Nat)
  | dropName (ino now : Nat)
  | write (ino : Nat) (blocks : List (Nat × Nat)) (size : Nat)
  | truncate (ino size : Nat)
  | lookup (ino : Nat)
  | open (ino : Nat) (write : Bool)
  | close (d : Handle)
  | release (ino now : Nat)
  | setRo (ro : Bool) (now : Nat)
  deriving DecidableEq, Repr

def exec (geo : Geometry) (s : Fs) : Event → Fs
  | .create ino type extents => create s ino type extents
  | .link ino => link s ino
  | .dropName ino now => dropName geo s ino now
  | .write ino blocks size => writeNode s ino blocks size
  | .truncate ino size => truncate geo s ino size
  | .lookup ino => makeNode s ino
  | .open ino write => retain s ino write
  | .close d => close s d
  | .release ino now => closeRelease geo s ino now
  | .setRo ro now => setRoLocked geo s ro now

/-- When an event can happen. Names are changed on a writable instance only, a name leads to an
inode in use that has links, what is opened was looked up at some time, and `mount_remount` makes an
instance read-only when no descriptor is open for writing. -/
def Enabled (geo : Geometry) (s : Fs) : Event → Prop
  | .create ino _ _ => s.ro = false ∧ s.inUse ino = false ∧ geo.InRange ino
  | .link ino | .dropName ino _ =>
      s.ro = false ∧ s.inUse ino = true ∧ 0 < (s.inode ino).links ∧ geo.InRange ino
  | .write _ _ _ | .truncate _ _ => True
  | .lookup ino => s.inUse ino = true ∧ 0 < (s.inode ino).links
  | .open ino _ => (s.node ino).dir ≠ none
  | .close d => d ∈ s.held
  | .release ino _ => ino ∈ s.pending
  | .setRo ro _ => ro = true → ∀ d ∈ s.held, d.write = false

instance (geo : Geometry) (s : Fs) (e : Event) : Decidable (Enabled geo s e) := by
  cases e <;> unfold Enabled <;> infer_instance

/-- Nothing is open yet. What a crash has left on the disk, in the inodes and in the records, is
arbitrary. -/
structure Mounted (s : Fs) : Prop where
  closed : ∀ ino, s.node ino = ⟨0, false, none⟩
  nobody : s.held = []
  idle : s.pending = []
  log : s.released = []
  stamps : ∀ ino, (s.inode ino).stamp = ino
  born : ∀ ino, s.inUse ino = true → ino < s.born

open Lib (System)

/-- A mounted instance, under any sequence of events. -/
def orphanSystem (geo : Geometry) : System Fs Event where
  init := Mounted
  step s e s' := Enabled geo s e ∧ s' = exec geo s e

end MaeroOS.Ext2.Orphan
