import MaeroOS.Lib.Endian
import MaeroOS.Lib.PtrTree

/-!
# Block-mapped files

The block map of an inode of `fs/ext2.c` without extents: twelve data blocks, and the roots of a
singly, a doubly and a triply indirect tree. `ext2_file_blk` looks a file block up,
`ext2_file_blk_alloc` maps it, and `ext2_free_blocks_from` cuts the file, each with index arithmetic
of its own.

A disk here is what `ext2_read_block` sees, whether a block comes from the running transaction, the
cache or the device. Devices take every write, and there is memory for the buffers of a call; space
may run out.
-/

namespace MaeroOS.Ext2.BlockMap

open Lib (Buf Word)

/-- The sizes of a volume. Sectors are numbered by 32 bits in the driver (`lba`), so a volume has at
most that many. -/
structure Geometry where
  /-- The pointers in a block, `block_size / 4`. -/
  ppb : Nat
  ppb_eq : ppb = 256 ∨ ppb = 512 ∨ ppb = 1024
  blocksCount : Nat
  sectors_le : blocksCount * (ppb / 128) ≤ 2 ^ 32

def Geometry.blockSize (geo : Geometry) : Nat := 4 * geo.ppb

def Geometry.sectorsPerBlock (geo : Geometry) : Nat := geo.ppb / 128

/-- The blocks of a volume, the bits of its bitmaps, and the blocks that were freed so far. -/
structure Disk where
  block : Nat → Buf
  used : Nat → Bool
  freed : List Nat

/-- Whatever block `ext2_alloc_block_goal` picks, it is a free one. -/
structure Allocator (geo : Geometry) where
  pick : (Nat → Bool) → Nat → Option Nat
  pos : ∀ {used goal b}, pick used goal = some b → 0 < b
  lt : ∀ {used goal b}, pick used goal = some b → b < geo.blocksCount
  free : ∀ {used goal b}, pick used goal = some b → used b = false

/-- The part of `ext2_inode_t` that a block map is in: `i_block` and `i_blocks`. -/
structure Inode where
  slot : Nat → Nat
  blocks : Word

variable {geo : Geometry}

/-! ## Blocks -/

/-- `ext2_write_block`, and `ext2_write_data` alike. -/
def writeBlock (d : Disk) (b : Nat) (buf : Buf) : Disk :=
  { d with block := Function.update d.block b buf }

/-- `ext2_alloc_block_goal`: 0 when there is no space. -/
def allocBlockGoal (alloc : Allocator geo) (goal : Nat) (zero : Bool) (d : Disk) : Nat × Disk :=
  match alloc.pick d.used goal with
  | none => (0, d)
  | some b =>
    let d := { d with used := Function.update d.used b true }
    (b, if zero then writeBlock d b fun _ => 0 else d)

def allocBlock (alloc : Allocator geo) (d : Disk) : Nat × Disk := allocBlockGoal alloc 0 true d

def freeBlock (d : Disk) (b : Nat) : Disk :=
  { d with used := Function.update d.used b false, freed := d.freed ++ [b] }

/-- Entry `i` of a table. -/
def word (tbl : Buf) (i : Nat) : Nat := (tbl.le32 (4 * i)).toNat

def setWord (tbl : Buf) (i b : Nat) : Buf := tbl.wle32 (4 * i) (BitVec.ofNat 32 b)

def entry (d : Disk) (b i : Nat) : Nat := word (d.block b) i

/-! ## `ext2_file_blk` -/

def indWord (geo : Geometry) (d : Disk) (blk idx : Nat) : Nat :=
  if blk = 0 then 0 else if idx ≥ geo.ppb then 0 else entry d blk idx

def fileBlk (geo : Geometry) (d : Disk) (ino : Inode) (idx : Nat) : Nat :=
  if idx < 12 then ino.slot idx else
  let idx := idx - 12
  if idx < geo.ppb then indWord geo d (ino.slot 12) idx else
  let idx := idx - geo.ppb
  if idx < geo.ppb * geo.ppb then
    indWord geo d (indWord geo d (ino.slot 13) (idx / geo.ppb)) (idx % geo.ppb)
  else
  let idx := idx - geo.ppb * geo.ppb
  if idx < geo.ppb * geo.ppb * geo.ppb then
    let per2 := geo.ppb * geo.ppb
    let dind := indWord geo d (ino.slot 14) (idx / per2)
    let ind := indWord geo d dind (idx % per2 / geo.ppb)
    indWord geo d ind (idx % geo.ppb)
  else 0

/-! ## `ext2_file_blk_alloc` -/

/-- `ino->i_blocks += fs->st.sectors_per_block`. -/
def countBlock (geo : Geometry) (ino : Inode) : Inode :=
  { ino with blocks := ino.blocks + BitVec.ofNat 32 geo.sectorsPerBlock }

/-- `if (ino->i_blocks >= sectors_per_block) ino->i_blocks -= sectors_per_block`. -/
def uncountBlock (geo : Geometry) (ino : Inode) : Inode :=
  if ino.blocks.toNat ≥ geo.sectorsPerBlock then
    { ino with blocks := ino.blocks - BitVec.ofNat 32 geo.sectorsPerBlock }
  else ino

def setSlot (ino : Inode) (s b : Nat) : Inode := { ino with slot := Function.update ino.slot s b }

/-- `ext2_tbl_root` of an inode's slot. -/
def tblRoot (alloc : Allocator geo) (d : Disk) (ino : Inode) (s : Nat) : Nat × Disk × Inode :=
  if ino.slot s ≠ 0 then (ino.slot s, d, ino) else
  let (nb, d) := allocBlock alloc d
  if nb = 0 then (0, d, ino) else
  (nb, writeBlock d nb fun _ => 0, countBlock geo (setSlot ino s nb))

def tblEntry (alloc : Allocator geo) (d : Disk) (ino : Inode) (tblk i : Nat) (table : Bool) :
    Nat × Disk × Inode :=
  let tbl := d.block tblk
  if word tbl i ≠ 0 then (word tbl i, d, ino) else
  let (nb, d) := allocBlock alloc d
  if nb = 0 then (0, d, ino) else
  let d := if table then writeBlock d nb fun _ => 0 else d
  (nb, writeBlock d tblk (setWord tbl i nb), countBlock geo ino)

/-- The triply indirect range. -/
def allocTriply (alloc : Allocator geo) (d : Disk) (ino : Inode) (t : Nat) : Nat × Disk × Inode :=
  let per2 := geo.ppb * geo.ppb
  if t / per2 ≥ geo.ppb then (0, d, ino) else
  let (blk, d, ino) := tblRoot alloc d ino 14
  if blk = 0 then (0, d, ino) else
  let (blk, d, ino) := tblEntry alloc d ino blk (t / per2) true
  if blk = 0 then (0, d, ino) else
  let (blk, d, ino) := tblEntry alloc d ino blk (t % per2 / geo.ppb) true
  if blk = 0 then (0, d, ino) else
  tblEntry alloc d ino blk (t % geo.ppb) false

/-- The direct range. -/
def allocDirect (alloc : Allocator geo) (d : Disk) (ino : Inode) (idx : Nat) : Nat × Disk × Inode :=
  if ino.slot idx = 0 then
    let (blk, d) := allocBlock alloc d
    if blk = 0 then (0, d, ino) else
    (blk, d, countBlock geo (setSlot ino idx blk))
  else (ino.slot idx, d, ino)

/-- Level 0 of the doubly indirect range: the double-indirect block itself. -/
def doublyRoot (alloc : Allocator geo) (d : Disk) (ino : Inode) : Bool × Disk × Inode :=
  if ino.slot 13 = 0 then
    let (nb, d) := allocBlock alloc d
    if nb = 0 then (false, d, ino) else
    (true, writeBlock d nb fun _ => 0, countBlock geo (setSlot ino 13 nb))
  else (true, d, ino)

/-- Level 1: the indirect block for this slice. -/
def doublyInd (alloc : Allocator geo) (d : Disk) (ino : Inode) (dIdx : Nat) : Nat × Disk × Inode :=
  let tbl := d.block (ino.slot 13)
  if word tbl dIdx = 0 then
    let (indBlk, d) := allocBlock alloc d
    if indBlk = 0 then (0, d, ino) else
    let d := writeBlock d indBlk fun _ => 0
    (indBlk, writeBlock d (ino.slot 13) (setWord tbl dIdx indBlk), countBlock geo ino)
  else (word tbl dIdx, d, ino)

/-- Level 2: the data block. -/
def doublyBlk (alloc : Allocator geo) (d : Disk) (ino : Inode) (indBlk iIdx : Nat) :
    Nat × Disk × Inode :=
  let tbl := d.block indBlk
  if word tbl iIdx = 0 then
    let (blk, d) := allocBlock alloc d
    if blk = 0 then (0, d, ino) else
    (blk, writeBlock d indBlk (setWord tbl iIdx blk), countBlock geo ino)
  else (word tbl iIdx, d, ino)

/-- The doubly indirect range. -/
def allocDoubly (alloc : Allocator geo) (d : Disk) (ino : Inode) (idx : Nat) : Nat × Disk × Inode :=
  if idx ≥ geo.ppb * geo.ppb then (0, d, ino) else
  let (ok, d, ino) := doublyRoot alloc d ino
  if !ok then (0, d, ino) else
  let (indBlk, d, ino) := doublyInd alloc d ino (idx / geo.ppb)
  if indBlk = 0 then (0, d, ino) else
  doublyBlk alloc d ino indBlk (idx % geo.ppb)

/-- What the singly indirect range starts with. -/
structure Singly where
  ok : Bool
  created : Bool
  ind : Buf
  disk : Disk
  ino : Inode

/-- The indirect block, created when it is missing. -/
def singlyRoot (alloc : Allocator geo) (d : Disk) (ino : Inode) : Singly :=
  if ino.slot 12 = 0 then
    let (indBlk, d) := allocBlock alloc d
    if indBlk = 0 then ⟨false, false, fun _ => 0, d, ino⟩ else
    ⟨true, true, fun _ => 0, writeBlock d indBlk fun _ => 0, countBlock geo (setSlot ino 12 indBlk)⟩
  else ⟨true, false, d.block (ino.slot 12), d, ino⟩

/-- The singly indirect range. -/
def allocSingly (alloc : Allocator geo) (d : Disk) (ino : Inode) (idx : Nat) : Nat × Disk × Inode :=
  let ⟨ok, created, ind, d, ino⟩ := singlyRoot alloc d ino
  if !ok then (0, d, ino) else
  if word ind idx = 0 then
    let (blk, d) := allocBlock alloc d
    if blk = 0 then
      if created then (0, freeBlock d (ino.slot 12), uncountBlock geo (setSlot ino 12 0))
        else (0, d, ino)
    else (blk, writeBlock d (ino.slot 12) (setWord ind idx blk), countBlock geo ino)
  else (word ind idx, d, ino)

def fileBlkAlloc (alloc : Allocator geo) (d : Disk) (ino : Inode) (idx : Nat) :
    Nat × Disk × Inode :=
  if idx ≥ 12 + geo.ppb + geo.ppb * geo.ppb then
    allocTriply alloc d ino (idx - 12 - geo.ppb - geo.ppb * geo.ppb)
  else if idx < 12 then allocDirect alloc d ino idx
  else if idx - 12 ≥ geo.ppb then allocDoubly alloc d ino (idx - 12 - geo.ppb)
  else allocSingly alloc d ino (idx - 12)

/-! ## `ext2_free_blocks_from` -/

/-- The variables of the loop in `ext2_free_subtree`. -/
structure Walk where
  tbl : Buf
  dirty : Bool
  any : Bool
  disk : Disk
  freed : Nat

/-- Entry `i` of the table, where `child` frees what the entry names and says whether nothing of it
is left. -/
def freeEntry (base span fromIdx : Nat) (child : Nat → Nat → Disk → Nat → Bool × Disk × Nat)
    (w : Walk) (i : Nat) : Walk :=
  let e := word w.tbl i
  if e = 0 then w else
  let idx := base + i * span
  if idx + span ≤ fromIdx then { w with any := true } else
  let (gone, disk, freed) := child e idx w.disk w.freed
  if gone then { w with tbl := setWord w.tbl i 0, dirty := true, disk, freed }
    else { w with any := true, disk, freed }

/-- `ext2_free_subtree`, with its branch for a data block as level 0. -/
def freeSubtree (geo : Geometry) (fromIdx : Nat) : Nat → Nat → Nat → Disk → Nat → Bool × Disk × Nat
  | 0, blk, _, d, freed => (true, freeBlock d blk, freed + 1)
  | level + 1, blk, base, d, freed =>
    let w :=
      (List.range geo.ppb).foldl
        (freeEntry base (geo.ppb ^ level) fromIdx (freeSubtree geo fromIdx level))
        ⟨d.block blk, false, false, d, freed⟩
    if !w.any then (true, freeBlock w.disk blk, w.freed + 1)
    else if w.dirty then (false, writeBlock w.disk blk w.tbl, w.freed)
    else (false, w.disk, w.freed)

/-- One of the twelve data blocks of the inode. -/
def freeDirect (fromIdx : Nat) (s : Disk × Inode × Nat) (i : Nat) : Disk × Inode × Nat :=
  let (d, ino, freed) := s
  if i ≥ fromIdx ∧ ino.slot i ≠ 0 then (freeBlock d (ino.slot i), setSlot ino i 0, freed + 1) else s

/-- One of its three trees, of which this one starts with file block `base`. -/
def freeTree (geo : Geometry) (fromIdx level base : Nat) (s : Disk × Inode × Nat) :
    Disk × Inode × Nat :=
  let (d, ino, freed) := s
  let slot := 11 + level
  if ino.slot slot ≠ 0 ∧ base + geo.ppb ^ level > fromIdx then
    let (gone, d, freed) := freeSubtree geo fromIdx level (ino.slot slot) base d freed
    (d, if gone then setSlot ino slot 0 else ino, freed)
  else s

def freeBlocksFrom (geo : Geometry) (d : Disk) (ino : Inode) (fromIdx : Nat) : Disk × Inode :=
  let s := (List.range 12).foldl (freeDirect fromIdx) (d, ino, 0)
  let s := freeTree geo fromIdx 1 12 s
  let s := freeTree geo fromIdx 2 (12 + geo.ppb) s
  let (d, ino, freed) := freeTree geo fromIdx 3 (12 + geo.ppb + geo.ppb ^ 2) s
  let sectors := BitVec.ofNat 32 (freed * geo.sectorsPerBlock)
  let blocks := if ino.blocks > sectors then ino.blocks - sectors else 0
  (d, { ino with blocks := if fromIdx = 0 then 0 else blocks })

end MaeroOS.Ext2.BlockMap
