import MaeroOS.Lib.Endian

/-!
# Block allocation on a journaled file system

The block allocator of `fs/ext2.c` on an instance with a journal. Metadata is written into the
running transaction and file data to its place at once, so there are two states of the bitmaps and
descriptors: the one that the driver reads (`run`), and the one of the last commit, which is on the
disk (`com`). Blocks that were freed since then are kept in a list of ranges, and the allocator
passes over them.

What a transaction needs for itself, an entry or a longer list of ranges, may fail to be had
(`Mem`), and the instance stops writing then. `ext2_write_bgd` may fail on its own, for want of a
buffer or of the block that it edits, and nobody looks at its result: the new bitmap stays without
its descriptor. Other reads do not fail, and there is memory for the other buffers of single calls.
-/

namespace MaeroOS.Ext2

open Lib (Buf Word)

/-! ## Bitmaps -/

def bitmapTest (bm : Buf) (i : Nat) : Bool := bm (i / 8) &&& ((1 : BitVec 8) <<< (i % 8)) != 0

def bitmapSet (bm : Buf) (i : Nat) : Buf :=
  Function.update bm (i / 8) (bm (i / 8) ||| ((1 : BitVec 8) <<< (i % 8)))

def bitmapClear (bm : Buf) (i : Nat) : Buf :=
  Function.update bm (i / 8) (bm (i / 8) &&& ~~~((1 : BitVec 8) <<< (i % 8)))

/-! ## The layout -/

/-- What the superblock says, and the largest transaction of the journal. -/
structure Geometry where
  blockSize : Nat
  firstDataBlock : Nat
  blocksCount : Nat
  blocksPerGroup : Nat
  inodesPerGroup : Nat
  inodeSize : Nat
  descSize : Nat
  rsvGdt : Nat
  sparseSuper : Bool
  rBlocks : Word
  hard : Nat
  first_le : firstDataBlock ≤ 1
  group_pos : 0 < blocksPerGroup

/-- `ext2_bgd_t`: where things are, how many blocks are free, and `EXT4_BG_BLOCK_UNINIT`. -/
structure Bgd where
  blockBitmap : Nat
  inodeBitmap : Nat
  inodeTable : Nat
  freeBlocks : BitVec 16
  blockUninit : Bool

/-- The metadata of the allocator: descriptors, and the contents of blocks. -/
structure View where
  bgd : Nat → Bgd
  block : Nat → Buf

namespace Geometry

/-- `ext2_group_count`. -/
def groupCount (geo : Geometry) : Nat :=
  (geo.blocksCount + geo.blocksPerGroup - 1) / geo.blocksPerGroup

/-- The block with the descriptor of a group. -/
def bgdBlk (geo : Geometry) (grp : Nat) : Nat :=
  geo.firstDataBlock + 1 + grp / (geo.blockSize / geo.descSize)

def gdtBlocks (geo : Geometry) : Nat :=
  (geo.groupCount * geo.descSize + geo.blockSize - 1) / geo.blockSize

/-- `x` without its factors `b`. -/
def strip (b : Nat) : Nat → Nat → Nat
  | 0, x => x
  | fuel + 1, x => if x % b = 0 then strip b fuel (x / b) else x

/-- `x4_has_super`. -/
def hasSuper (geo : Geometry) (g : Nat) : Bool :=
  g ≤ 1 || !geo.sparseSuper || strip 3 g g == 1 || strip 5 g g == 1 || strip 7 g g == 1

/-- The first block of a group, and how many blocks it has. -/
def groupStart (geo : Geometry) (grp : Nat) : Nat := geo.firstDataBlock + grp * geo.blocksPerGroup
def groupBlocks (geo : Geometry) (grp : Nat) : Nat :=
  min (geo.blocksCount - geo.groupStart grp) geo.blocksPerGroup

/-- The blocks of the inode table of a group. -/
def tableBlocks (geo : Geometry) : Nat :=
  (geo.inodesPerGroup * geo.inodeSize + geo.blockSize - 1) / geo.blockSize

/-- The group of a block, and its place in it. -/
def groupOf (geo : Geometry) (b : Nat) : Nat := (b - geo.firstDataBlock) / geo.blocksPerGroup
def indexOf (geo : Geometry) (b : Nat) : Nat := (b - geo.firstDataBlock) % geo.blocksPerGroup

end Geometry

/-- The bits of a group's own metadata and of what other groups have in it, in the order in which
`x4_init_block_bitmap` sets them. -/
def initBits (geo : Geometry) (v : View) (grp : Nat) : List Nat :=
  let start := geo.groupStart grp
  let nblk := geo.groupBlocks grp
  (if geo.hasSuper grp then List.range (min (1 + geo.gdtBlocks + geo.rsvGdt) nblk) else []) ++
    (List.range geo.groupCount).flatMap (fun g =>
      ((v.bgd g).blockBitmap :: (v.bgd g).inodeBitmap :: List.range' (v.bgd g).inodeTable
        geo.tableBlocks).filterMap
        fun b => if start ≤ b ∧ b - start < nblk then some (b - start) else none) ++
    List.range' nblk (geo.blockSize * 8 - nblk)

/-- `x4_init_block_bitmap`, before its result is compared with the descriptor. -/
def initBlockBitmap (geo : Geometry) (v : View) (grp : Nat) : Buf :=
  (initBits geo v grp).foldl bitmapSet fun _ => 0

/-- How many blocks of a group are free in a bitmap. -/
def freeIn (geo : Geometry) (grp : Nat) (bm : Buf) : Nat :=
  ((List.range (geo.groupBlocks grp)).filter fun i => !bitmapTest bm i).length

/-- The block bitmap of a group. -/
def blockBitmap (geo : Geometry) (v : View) (grp : Nat) : Buf :=
  if (v.bgd grp).blockUninit then initBlockBitmap geo v grp else v.block (v.bgd grp).blockBitmap

/-- `ext2_get_bitmap`. A bitmap that the layout implies must agree with the count in the
descriptor. -/
def getBitmap (geo : Geometry) (v : View) (grp : Nat) : Option Buf :=
  if (v.bgd grp).blockUninit = true ∧ freeIn geo grp (blockBitmap geo v grp) ≠
    (v.bgd grp).freeBlocks.toNat then none
  else some (blockBitmap geo v grp)

/-! ## The running transaction -/

/-- A direct write to block `blk`, with what was logged and freed at the time. -/
structure Hit where
  blk : Nat
  tblk : List Nat
  freed : List (Nat × Nat)

structure Instance where
  run : View
  com : View
  /-- The blocks of the running transaction. -/
  tblk : List Nat
  /-- `fstart` and `flen`. -/
  freed : List (Nat × Nat)
  fcap : Nat
  ro : Bool
  /-- The number of free blocks in the superblock. -/
  sbFree : Word
  wantReclaim : Bool
  /-- The direct writes since the last commit. -/
  hits : List Hit

/-- Whether there is memory for an entry of the transaction, and to make room for more than so many
ranges, and whether `ext2_write_bgd` gets its buffer and the block with the descriptor of a
group. -/
structure Mem where
  put : Nat → Bool
  grow : Nat → Bool
  bgd : Nat → Bool

/-- `ext2_jnl_abort`. -/
def jnlAbort (s : Instance) : Instance := { s with ro := true }

/-- `ext2_jt_put`. -/
def jtPut (geo : Geometry) (mem : Mem) (s : Instance) (blk : Nat) : Bool × Instance :=
  if blk ∈ s.tblk then (true, s)
  else if geo.hard ≤ s.tblk.length ∨ mem.put blk = false then (false, jnlAbort s)
  else (true, { s with tblk := s.tblk ++ [blk] })

/-- `ext2_write_block` of block `blk`, with which the metadata becomes `v`. -/
def writeBlock (geo : Geometry) (mem : Mem) (s : Instance) (blk : Nat) (v : View) :
    Bool × Instance :=
  if s.ro then (false, s)
  else if (jtPut geo mem s blk).1 then (true, { (jtPut geo mem s blk).2 with run := v })
  else (false, (jtPut geo mem s blk).2)

/-- `ext2_put_bitmap` of a group. -/
def putBitmap (geo : Geometry) (mem : Mem) (s : Instance) (grp : Nat) (bm : Buf) :
    Bool × Instance :=
  writeBlock geo mem s (s.run.bgd grp).blockBitmap
    { s.run with block := Function.update s.run.block (s.run.bgd grp).blockBitmap bm }

/-- `ext2_write_bgd`. -/
def writeBgd (geo : Geometry) (mem : Mem) (s : Instance) (grp : Nat) (d : Bgd) : Instance :=
  if mem.bgd grp then
    (writeBlock geo mem s (geo.bgdBlk grp) { s.run with bgd := Function.update s.run.bgd grp d }).2
  else s

/-- `blk` is in one of the ranges. -/
def freedIn (freed : List (Nat × Nat)) (blk : Nat) : Bool :=
  freed.any fun r => r.1 ≤ blk ∧ blk - r.1 < r.2

/-- `ext2_jt_freed`. -/
def jtFreed (s : Instance) (blk : Nat) : Bool := freedIn s.freed blk

/-- `ext2_jt_freed_add`. A range that follows the last one is joined to it. -/
def jtFreedAdd (mem : Mem) (s : Instance) (blk n : Nat) : Instance :=
  match s.freed.getLast? with
  | some (start, len) =>
      if start + len = blk then { s with freed := s.freed.dropLast ++ [(start, len + n)] } else push
  | none => push
where
  push : Instance :=
    if s.freed.length = s.fcap then
      if mem.grow s.fcap then
        { s with freed := s.freed ++ [(blk, n)], fcap := if s.fcap = 0 then 64 else s.fcap * 2 }
      else jnlAbort s
    else { s with freed := s.freed ++ [(blk, n)] }

/-- `ext2_write_data`. -/
def writeData (geo : Geometry) (s : Instance) (blk : Nat) : Bool × Instance :=
  if s.ro = true ∨ geo.blocksCount ≤ blk then (false, s)
  else (true, { s with hits := s.hits ++ [⟨blk, s.tblk, s.freed⟩] })

/-! ## Freeing -/

/-- One group's part of `ext2_free_range`, `chunk` blocks from `blk` on. -/
def freeChunk (geo : Geometry) (mem : Mem) (s : Instance) (blk chunk : Nat) : Bool × Instance :=
  let grp := geo.groupOf blk
  let bits := List.range' (geo.indexOf blk) chunk
  match getBitmap geo s.run grp with
  | none => (false, s)
  | some bm =>
      let cleared := (bits.filter (bitmapTest bm)).length
      if cleared = 0 then (true, jtFreedAdd mem s blk chunk)
      else
        let p := putBitmap geo mem s grp (bits.foldl bitmapClear bm)
        if p.1 then
          let d := s.run.bgd grp
          let s' := writeBgd geo mem p.2 grp
            { d with blockUninit := false, freeBlocks := d.freeBlocks + BitVec.ofNat 16 cleared }
          (true, jtFreedAdd mem { s' with sbFree := s'.sbFree + BitVec.ofNat 32 cleared } blk chunk)
        else (false, p.2)

/-- The loop of `ext2_free_range`; each round is a group. -/
def freeLoop (geo : Geometry) (mem : Mem) : Nat → Instance → Nat → Nat → Int × Instance
  | 0, s, _, _ => (0, s)
  | fuel + 1, s, blk, n =>
      if n = 0 then (0, s)
      else if blk < geo.firstDataBlock ∨ geo.blocksCount ≤ blk then (-1, s)
      else
        let chunk := min (min (geo.blocksPerGroup - geo.indexOf blk) n) (geo.blocksCount - blk)
        let r := freeChunk geo mem s blk chunk
        if r.1 then freeLoop geo mem fuel r.2 (blk + chunk) (n - chunk) else (-1, r.2)

/-- `ext2_free_range`. -/
def freeRange (geo : Geometry) (mem : Mem) (s : Instance) (blk n : Nat) : Int × Instance :=
  freeLoop geo mem n s blk n

/-- `ext2_free_block`. -/
def freeBlock (geo : Geometry) (mem : Mem) (s : Instance) (blk : Nat) : Int × Instance :=
  freeRange geo mem s blk 1

/-! ## Allocating -/

/-- The search in one group, from bit `i` up to `stop`. Eight blocks that are all in use are skipped
at once. -/
def scanGroup (geo : Geometry) (s : Instance) (grp : Nat) (bm : Buf) (stop : Nat) :
    Nat → Nat → Option Nat
  | 0, _ => none
  | fuel + 1, i =>
      if stop ≤ i then none
      else if i % 8 = 0 ∧ i + 8 ≤ stop ∧ bm (i / 8) = 0xFF then
        scanGroup geo s grp bm stop fuel (i + 8)
      else if geo.blocksCount ≤ geo.groupStart grp + i then none
      else if bitmapTest bm i || jtFreed s (geo.groupStart grp + i) then
        scanGroup geo s grp bm stop fuel (i + 1)
      else some i

/-- One round of the search: the group, its bitmap and the bit. -/
def searchGroup (geo : Geometry) (s : Instance) (grp start stop : Nat) : Option (Nat × Buf × Nat) :=
  if stop ≤ start ∨ (s.run.bgd grp).freeBlocks = 0 then none
  else
    (getBitmap geo s.run grp).bind fun bm =>
      (scanGroup geo s grp bm stop (stop - start) start).map fun i => (grp, bm, i)

/-- Where the search starts: the group of the goal, and the bit in it. -/
def goalGroup (geo : Geometry) (goal : Nat) : Nat :=
  if geo.firstDataBlock ≤ goal ∧ goal < geo.blocksCount then geo.groupOf goal else 0

def goalBit (geo : Geometry) (goal : Nat) : Nat :=
  if geo.firstDataBlock ≤ goal ∧ goal < geo.blocksCount then geo.indexOf goal else 0

/-- The search of `ext2_alloc_block_goal_once`. The head of the goal's group comes last. -/
def findBlock (geo : Geometry) (s : Instance) (goal : Nat) : Option (Nat × Buf × Nat) :=
  (List.range (geo.groupCount + 1)).findSome? fun k =>
    searchGroup geo s ((goalGroup geo goal + k) % geo.groupCount)
      (if k = 0 then goalBit geo goal else 0)
      (if k = geo.groupCount then goalBit geo goal else geo.blocksPerGroup)

/-- `ext2_alloc_block_goal_once`: a block, or 0. A block that cannot be cleared is given back. -/
def allocBlockGoalOnce (geo : Geometry) (mem : Mem) (s : Instance) (goal : Nat) (zero : Bool) :
    Nat × Instance :=
  match findBlock geo s goal with
  | none => (0, s)
  | some (grp, bm, i) =>
      let blk := geo.groupStart grp + i
      let p := putBitmap geo mem s grp (bitmapSet bm i)
      if p.1 then
        let d := s.run.bgd grp
        let s' := writeBgd geo mem p.2 grp
          { d with blockUninit := false, freeBlocks := if d.freeBlocks = 0 then 0
            else d.freeBlocks - 1 }
        let s' := { s' with sbFree := s'.sbFree - 1 }
        if zero then
          let w := writeData geo s' blk
          if w.1 then (blk, w.2) else (0, (freeBlock geo mem w.2 blk).2)
        else (blk, s')
      else (0, p.2)

/-- `ext2_alloc_block_goal`; `reserved` is set for those who may use the reserved blocks. -/
def allocBlockGoal (geo : Geometry) (mem : Mem) (s : Instance) (goal : Nat) (zero reserved : Bool) :
    Nat × Instance :=
  if geo.rBlocks ≠ 0 ∧ s.sbFree ≤ geo.rBlocks ∧ reserved = false then (0, s)
  else
    let r := allocBlockGoalOnce geo mem s goal zero
    if r.1 = 0 ∧ r.2.freed ≠ [] then (0, { r.2 with wantReclaim := true }) else r

/-! ## Committing -/

/-- `ext2_jnl_commit`, as far as the allocator sees it. An instance that has stopped writing loses
the running transaction. -/
def jnlCommit (s : Instance) : Instance :=
  if s.tblk = [] then { s with freed := [], hits := [] }
  else if s.ro then { s with run := s.com, tblk := [], freed := [], hits := [] }
  else { s with com := s.run, tblk := [], freed := [], hits := [] }

end MaeroOS.Ext2
