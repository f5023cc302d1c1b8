import MaeroOS.Ext2.BlockMap
import MaeroOS.Lib.RunMap

/-!
# Extent-mapped files

The extent tree of an inode of `fs/ext2.c`: the root in the 60 bytes of `i_block`, with the extents
themselves or with the numbers of tree blocks. `x4_ext_map` looks a file block up, `x4_ext_alloc`
maps it, and `x4_ext_free_from` cuts the file. Whatever does not lengthen the last extent in place
is done on the list of all extents (`x4_collect`), which is then laid out again (`x4_rebuild`).

As in `MaeroOS.Ext2.BlockMap`, a disk is what `ext2_read_block` sees, devices take every write and
there is memory for the buffers of a call, but space may run out.
-/

namespace MaeroOS.Ext2.Extents

open Lib (Buf Word)
open Lib.RunMap (Run normalise)
export Ext2.BlockMap (Geometry Disk Allocator allocBlockGoal freeBlock writeBlock)

/-- `x4_ext_t`: the file blocks from `start` (`lblk`) on, the disk blocks from `target` (`pblk`) on,
and whether the extent is unwritten. -/
abbrev Ext := Run Bool

/-- `EXT4_EXT_MAX_LEN`. -/
def extMaxLen : Nat := 32768

def extMagic : BitVec 16 := 0xF30A

/-- `i_block` and `i_blocks` of an inode with extents. -/
structure Inode where
  root : Buf
  blocks : Word

/-- The last extent that a lookup found (`xc_lblk`, `xc_len`, `xc_pblk`), with the root and the
generation it was found in. -/
structure Cache where
  gen : Nat
  root : Buf
  lblk : Nat
  len : Nat
  pblk : Nat

/-- What a call reads and writes of an instance. `xgen` counts the changes of trees; the driver has
the last 32 bits of that number, here and in the cache. -/
structure Fs where
  disk : Disk
  xgen : Nat
  cache : Cache

/-- The checksum of tree blocks, if the volume has one: of the first bytes of a block, so many. -/
abbrev Csum := Option (Buf → Nat → Word)

variable {geo : Geometry}

/-! ## Headers and entries -/

def extGet (b : Buf) (o : Nat) : Ext :=
  let len := (b.le16 (o + 4)).toNat
  let unwritten := decide (len > extMaxLen)
  { start := (b.le32 o).toNat
    len := if unwritten then len - extMaxLen else len
    target := if b.le16 (o + 6) ≠ 0 then 0 else (b.le32 (o + 8)).toNat
    tag := unwritten }

def extPut (b : Buf) (o : Nat) (x : Ext) : Buf :=
  let b := b.wle32 o (BitVec.ofNat 32 x.start)
  let b := b.wle16 (o + 4) (BitVec.ofNat 16 (if x.tag then x.len + extMaxLen else x.len))
  let b := b.wle16 (o + 6) 0
  b.wle32 (o + 8) (BitVec.ofNat 32 x.target)

def hdrPut (h : Buf) (entries max depth : Nat) : Buf :=
  let h := h.wle16 0 extMagic
  let h := h.wle16 2 (BitVec.ofNat 16 entries)
  let h := h.wle16 4 (BitVec.ofNat 16 max)
  let h := h.wle16 6 (BitVec.ofNat 16 depth)
  h.wle32 8 0

def hdrEntries (h : Buf) : Nat := (h.le16 2).toNat

def hdrMax (h : Buf) : Nat := (h.le16 4).toNat

def hdrDepth (h : Buf) : Nat := (h.le16 6).toNat

def hdrOk (h : Buf) (room : Nat) : Bool :=
  h.le16 0 == extMagic && hdrEntries h ≤ hdrMax h && 12 + 12 * hdrMax h ≤ room && hdrDepth h ≤ 5

/-- Extent `i` of a leaf. -/
def extAt (node : Buf) (i : Nat) : Ext := extGet node (12 + 12 * i)

/-- First file block, block number, and the high half of it, of entry `i` of an index node. -/
def idxKey (node : Buf) (i : Nat) : Nat := (node.le32 (12 + 12 * i)).toNat

def idxBlk (node : Buf) (i : Nat) : Nat := (node.le32 (12 + 12 * i + 4)).toNat

def idxHi (node : Buf) (i : Nat) : BitVec 16 := node.le16 (12 + 12 * i + 8)

def idxPut (node : Buf) (i key blk : Nat) : Buf :=
  (node.wle32 (12 + 12 * i) (BitVec.ofNat 32 key)).wle32 (12 + 12 * i + 4) (BitVec.ofNat 32 blk)

/-- `x4_ext_tail`. -/
def extTail (geo : Geometry) (csum : Csum) (b : Buf) : Buf :=
  match csum with
  | none => b
  | some crc =>
    let off := 12 + 12 * hdrMax b
    if off + 4 > geo.blockSize then b else b.wle32 off (crc b off)

/-! ## `x4_ext_map` -/

/-- What a walk finds: the block, whether the extent is unwritten, and the extent to remember. -/
structure Found where
  blk : Nat
  unwritten : Bool
  fill : Option Ext

def Found.hole : Found := ⟨0, false, none⟩

def mapLeaf (node : Buf) (lblk : Nat) : Found :=
  match ((List.range (hdrEntries node)).map (extAt node)).find? (·.Has lblk) with
  | none => .hole
  | some x =>
    if x.tag then ⟨0, true, none⟩
    else if x.target = 0 then .hole
    else ⟨x.target + (lblk - x.start), false, some x⟩

/-- The last entry of an index node that starts at or before a file block, plus one. -/
def idxFind (node : Buf) (lblk : Nat) : Nat :=
  ((List.range (hdrEntries node)).takeWhile fun i => idxKey node i ≤ lblk).length

/-- The walk down from a node. -/
def mapNode (geo : Geometry) (d : Disk) (lblk : Nat) : Nat → Buf → Nat → Found
  | 0, _, _ => .hole
  | fuel + 1, node, room =>
    if !hdrOk node room then .hole
    else if hdrDepth node = 0 then mapLeaf node lblk
    else
      let k := idxFind node lblk
      if k = 0 then .hole
      else if idxHi node (k - 1) ≠ 0 then .hole
      else mapNode geo d lblk fuel (d.block (idxBlk node (k - 1))) geo.blockSize

/-- `memcmp(a, b, 60) == 0`. -/
def sameRoot (a b : Buf) : Bool := (List.range 60).all fun i => a i == b i

/-- The cache has the file block. -/
def Cache.hit (fs : Fs) (ino : Inode) (lblk : Nat) : Bool :=
  fs.cache.gen % 2 ^ 32 == fs.xgen % 2 ^ 32 && fs.cache.len != 0 && fs.cache.lblk ≤ lblk &&
    lblk - fs.cache.lblk < fs.cache.len && sameRoot fs.cache.root ino.root

/-- `x4_ext_map`: the block, or 0 for a hole or an unwritten one, and which of these it is. -/
def extMap (geo : Geometry) (fs : Fs) (ino : Inode) (lblk : Nat) : Nat × Bool × Fs :=
  if Cache.hit fs ino lblk then (fs.cache.pblk + (lblk - fs.cache.lblk), false, fs) else
  let found := mapNode geo fs.disk lblk 6 ino.root 60
  let fs := match found.fill with
    | none => fs
    | some x => { fs with cache := ⟨fs.xgen, ino.root, x.start, x.len, x.target⟩ }
  (found.blk, found.unwritten, fs)

/-! ## `x4_collect` -/

/-- The extents below a node, and its tree blocks. -/
def collect (geo : Geometry) (d : Disk) : Nat → Buf → Nat → Option (List Ext × List Nat)
  | 0, _, _ => none
  | fuel + 1, node, room =>
    if !hdrOk node room then none
    else if hdrDepth node = 0 then
      let xs := ((List.range (hdrEntries node)).map (extAt node)).filter (·.len ≠ 0)
      if xs.all (·.target ≠ 0) then some (xs, []) else none
    else
      (List.range (hdrEntries node)).foldlM (fun (acc : List Ext × List Nat) i => do
        if idxHi node i ≠ 0 then none
        else
          let child := idxBlk node i
          let (xs, tb) ← collect geo d fuel (d.block child) geo.blockSize
          return (acc.1 ++ xs, acc.2 ++ child :: tb)) ([], [])

/-! ## `x4_rebuild` -/

/-- The entries that fit into a block. -/
def perBlock (geo : Geometry) : Nat := (geo.blockSize - 12) / 12

/-- Depth, leaves and index blocks of the tree of `n` extents. -/
def shape (geo : Geometry) (n : Nat) : Option (Nat × Nat × Nat) :=
  let per := perBlock geo
  if n ≤ 4 then some (0, 0, 0) else
  let nleaf := (n + per - 1) / per
  if nleaf ≤ 4 then some (1, nleaf, 0) else
  let nidx := (nleaf + per - 1) / per
  if nidx > 4 then none else some (2, nleaf, nidx)

def countBlock (geo : Geometry) (ino : Inode) : Inode :=
  { ino with blocks := ino.blocks + BitVec.ofNat 32 geo.sectorsPerBlock }

def uncountBlock (geo : Geometry) (ino : Inode) : Inode :=
  if ino.blocks.toNat ≥ geo.sectorsPerBlock then
    { ino with blocks := ino.blocks - BitVec.ofNat 32 geo.sectorsPerBlock }
  else ino

/-- `k` more tree blocks, in the order they are taken in; none, with those given back, if there is
no space. -/
def takeBlocks (alloc : Allocator geo) (goal : Nat) : Nat → List Nat → Disk → Inode →
    Option (List Nat) × Disk × Inode
  | 0, taken, d, ino => (some taken, d, ino)
  | k + 1, taken, d, ino =>
    let (b, d) := allocBlockGoal alloc goal false d
    if b = 0 then (none, taken.foldl freeBlock d, ino)
    else takeBlocks alloc goal k (taken ++ [b]) d (countBlock geo ino)

/-- The tree blocks that are no longer needed. -/
def dropBlocks (geo : Geometry) (d : Disk) (ino : Inode) (tb : List Nat) : Disk × Inode :=
  (tb.foldl freeBlock d, (fun ino => uncountBlock geo ino)^[tb.length] ino)

/-- Extents from entry `i` on. -/
def putExts : Nat → List Ext → Buf → Buf
  | _, [], b => b
  | i, x :: xs, b => putExts (i + 1) xs (extPut b (12 + 12 * i) x)

/-- Index entries from entry `i` on. -/
def putIdxs : Nat → List (Nat × Nat) → Buf → Buf
  | _, [], b => b
  | i, (key, blk) :: es, b => putIdxs (i + 1) es (idxPut b i key blk)

/-- Part `j` of a list in parts of `per`. -/
def chunk {α : Type} (per : Nat) (l : List α) (j : Nat) : List α := (l.drop (j * per)).take per

/-- The first file block of extent `i`. -/
def lblkAt (v : List Ext) (i : Nat) : Nat := ((v[i]?).map (·.start)).getD 0

def leafBuf (geo : Geometry) (csum : Csum) (xs : List Ext) : Buf :=
  extTail geo csum (putExts 0 xs (hdrPut (fun _ => 0) xs.length (perBlock geo) 0))

def indexBuf (geo : Geometry) (csum : Csum) (es : List (Nat × Nat)) : Buf :=
  extTail geo csum (putIdxs 0 es (hdrPut (fun _ => 0) es.length (perBlock geo) 1))

/-- Leaf `j` with its first file block, for the level above. -/
def leafEntries (geo : Geometry) (v : List Ext) (blks : List Nat) (nleaf : Nat) :
    List (Nat × Nat) :=
  (List.range nleaf).map fun j => (lblkAt v (j * perBlock geo), (blks[j]?).getD 0)

def indexEntries (geo : Geometry) (v : List Ext) (blks : List Nat) (nleaf nidx : Nat) :
    List (Nat × Nat) :=
  (List.range nidx).map fun u =>
    (lblkAt v (u * perBlock geo * perBlock geo), (blks[nleaf + u]?).getD 0)

def writeLeaves (geo : Geometry) (csum : Csum) (v : List Ext) (blks : List Nat) (nleaf : Nat)
    (d : Disk) : Disk :=
  (List.range nleaf).foldl
    (fun d j => writeBlock d ((blks[j]?).getD 0) (leafBuf geo csum (chunk (perBlock geo) v j))) d

def writeIndexes (geo : Geometry) (csum : Csum) (v : List Ext) (blks : List Nat) (nleaf nidx : Nat)
    (d : Disk) : Disk :=
  (List.range nidx).foldl (fun d u => writeBlock d ((blks[nleaf + u]?).getD 0)
    (indexBuf geo csum (chunk (perBlock geo) (leafEntries geo v blks nleaf) u))) d

/-- The tree of `v` in the blocks `blks`. -/
def layOut (geo : Geometry) (csum : Csum) (v : List Ext) (blks : List Nat) (sh : Nat × Nat × Nat)
    (d : Disk) (ino : Inode) : Disk × Inode :=
  let (depth, nleaf, nidx) := sh
  if depth = 0 then (d, { ino with root := putExts 0 v (hdrPut (fun _ => 0) v.length 4 0) })
  else
    let d := writeLeaves geo csum v blks nleaf d
    if depth = 1 then
      (d, { ino with
            root := putIdxs 0 (leafEntries geo v blks nleaf) (hdrPut (fun _ => 0) nleaf 4 1) })
    else
      let d := writeIndexes geo csum v blks nleaf nidx d
      (d, { ino with
            root := putIdxs 0 (indexEntries geo v blks nleaf nidx)
              (hdrPut (fun _ => 0) nidx 4 2) })

/-- `x4_rebuild` of the extents `v` over the old tree blocks `tb`. -/
def rebuild (alloc : Allocator geo) (csum : Csum) (fs : Fs) (ino : Inode) (v : List Ext)
    (tb : List Nat) (goal : Nat) : Bool × Fs × Inode :=
  match shape geo v.length with
  | none => (false, fs, ino)
  | some sh =>
    let need := sh.2.1 + sh.2.2
    match takeBlocks alloc goal (need - tb.length) [] fs.disk ino with
    | (none, d, ino) => (false, { fs with disk := d }, ino)
    | (some taken, d, ino) =>
      let (d, ino) := dropBlocks geo d ino (tb.drop need)
      let (d, ino) := layOut geo csum v (tb.take need ++ taken) sh d ino
      (true, { fs with disk := d, xgen := fs.xgen + 1 }, ino)

/-! ## `x4_ext_alloc` -/

/-- `x4_normalise`. -/
def normaliseExts (l : List Ext) : List Ext :=
  normalise (fun unwritten => if unwritten then extMaxLen - 1 else extMaxLen) l

/-- The rightmost leaf, with its block (0: the inode). -/
def rightmost (geo : Geometry) (d : Disk) : Nat → Buf → Nat → Option (Buf × Nat)
  | 0, node, leaf => some (node, leaf)
  | fuel + 1, node, leaf =>
    if hdrDepth node = 0 then some (node, leaf)
    else if hdrEntries node = 0 then some (node, leaf)
    else
      let leaf := idxBlk node (hdrEntries node - 1)
      if !hdrOk (d.block leaf) geo.blockSize then none
      else rightmost geo d fuel (d.block leaf) leaf

/-- The last extent of a leaf. -/
def lastExt (node : Buf) : Option Ext :=
  if hdrDepth node = 0 ∧ hdrEntries node > 0 ∧ (extAt node (hdrEntries node - 1)).target ≠ 0 then
    some (extAt node (hdrEntries node - 1))
  else none

/-- Where the new block should be. -/
def allocGoal (last : Option Ext) (lblk : Nat) : Nat :=
  match last with
  | none => 0
  | some x =>
    if lblk < x.start + x.len then x.target
    else (x.target + x.len + (lblk - (x.start + x.len))) % 2 ^ 32

/-- The block right after the last extent, on the disk too. -/
def appends (last : Option Ext) (lblk nb : Nat) : Option Ext :=
  match last with
  | none => none
  | some x =>
    if !x.tag && lblk == x.start + x.len && nb == x.target + x.len && x.len < extMaxLen then
      some { x with len := x.len + 1 }
    else none

/-- The fast path: the last extent is lengthened where it is. -/
def append (geo : Geometry) (csum : Csum) (fs : Fs) (ino : Inode) (node : Buf) (leaf : Nat)
    (x : Ext) : Fs × Inode :=
  let node := extPut node (12 + 12 * (hdrEntries node - 1)) x
  if leaf = 0 then ({ fs with xgen := fs.xgen + 1 }, { ino with root := node })
  else ({ fs with disk := writeBlock fs.disk leaf (extTail geo csum node), xgen := fs.xgen + 1 },
    ino)

/-- The block of an unwritten extent, and the list with that extent split around it. -/
def splitUnwritten (v : List Ext) (lblk : Nat) : Option (Nat × List Ext) :=
  match v.findIdx? fun x => x.tag && decide (x.Has lblk) with
  | none => none
  | some i =>
    match v[i]? with
    | none => none
    | some x =>
      let nb := x.target + (lblk - x.start)
      let before := lblk - x.start
      let after := x.len - before - 1
      let mid : Ext := ⟨lblk, 1, nb, false⟩
      let v := if before ≠ 0 then v.set i { x with len := before } ++ [mid] else v.set i mid
      let v := if after ≠ 0 then v ++ [⟨lblk + 1, after, nb + 1, true⟩] else v
      if nb = 0 then none else some (nb, v)

/-- The way out without a block: a new one is given back. -/
def allocFail (geo : Geometry) (fs : Fs) (ino : Inode) (nb : Nat) (unwritten : Bool) :
    Nat × Fs × Inode :=
  if nb ≠ 0 ∧ !unwritten then
    (0, { fs with disk := freeBlock fs.disk nb },
      { ino with blocks := ino.blocks - BitVec.ofNat 32 geo.sectorsPerBlock })
  else (0, fs, ino)

/-- The general path for a new block. -/
def insertNew (alloc : Allocator geo) (csum : Csum) (fs : Fs) (ino : Inode) (lblk nb : Nat) :
    Nat × Fs × Inode :=
  match collect geo fs.disk 6 ino.root 60 with
  | none => allocFail geo fs ino nb false
  | some (v, tb) =>
    match rebuild alloc csum fs ino (normaliseExts (v ++ [⟨lblk, 1, nb, false⟩])) tb (nb + 1) with
    | (false, fs, ino) => allocFail geo fs ino nb false
    | (true, fs, ino) => (nb, fs, ino)

/-- The general path for an unwritten block, whose contents are undefined until here. -/
def convert (alloc : Allocator geo) (csum : Csum) (fs : Fs) (ino : Inode) (lblk : Nat) :
    Nat × Fs × Inode :=
  match collect geo fs.disk 6 ino.root 60 with
  | none => (0, fs, ino)
  | some (v, tb) =>
    match splitUnwritten v lblk with
    | none => (0, fs, ino)
    | some (nb, v) =>
      let fs := { fs with disk := writeBlock fs.disk nb fun _ => 0 }
      match rebuild alloc csum fs ino (normaliseExts v) tb (nb + 1) with
      | (false, fs, ino) => (0, fs, ino)
      | (true, fs, ino) => (nb, fs, ino)

/-- `x4_ext_alloc`. -/
def extAlloc (alloc : Allocator geo) (csum : Csum) (nozero : Bool) (fs : Fs) (ino : Inode)
    (lblk : Nat) : Nat × Fs × Inode :=
  let (p, unwritten, fs) := extMap geo fs ino lblk
  if p ≠ 0 then (p, fs, ino)
  else if !hdrOk ino.root 60 then (0, fs, ino)
  else
    match rightmost geo fs.disk 6 ino.root 0 with
    | none => (0, fs, ino)
    | some (node, leaf) =>
      if unwritten then convert alloc csum fs ino lblk
      else
        let (nb, d) := allocBlockGoal alloc (allocGoal (lastExt node) lblk) (!nozero) fs.disk
        let fs := { fs with disk := d }
        if nb = 0 then (0, fs, ino)
        else
          let ino := countBlock geo ino
          match appends (lastExt node) lblk nb with
          | some x =>
            let (fs, ino) := append geo csum fs ino node leaf x
            (nb, fs, ino)
          | none => insertNew alloc csum fs ino lblk nb

/-! ## `x4_ext_free_from` -/

/-- `ext2_free_range`. -/
def freeRange (d : Disk) (b n : Nat) : Disk :=
  { d with
    used := fun x => if b ≤ x ∧ x < b + n then false else d.used x
    freed := d.freed ++ List.range' b n }

/-- The extents, last one first, cut back to `from`: what is left, the blocks freed, and whether the
journal asked for a step in between. -/
def cutLoop (due : Nat → Bool) (fromIdx : Nat) : List Ext → Disk → Nat →
    List Ext × Disk × Nat × Bool
  | [], d, now => ([], d, now, false)
  | x :: rest, d, now =>
    if x.start + x.len ≤ fromIdx then (x :: rest, d, now, false)
    else if x.start ≥ fromIdx then
      let d := freeRange d x.target x.len
      let now := now + x.len
      match rest with
      | [] => ([], d, now, false)
      | y :: ys =>
        if y.start + y.len > fromIdx && due (ys.length + 1) then (y :: ys, d, now, true)
        else cutLoop due fromIdx (y :: ys) d now
    else
      let keep := fromIdx - x.start
      ({ x with len := keep } :: rest, freeRange d (x.target + keep) (x.len - keep),
        now + (x.len - keep), false)

/-- One round: the list is cut as far as it goes, and the tree of what is left laid out. -/
def cutRound (alloc : Allocator geo) (csum : Csum) (due : Nat → Bool) (fromIdx : Nat) (fs : Fs)
    (ino : Inode) (v : List Ext) (tb : List Nat) : Bool × Fs × Inode :=
  let (rev, d, now, stepped) := cutLoop due fromIdx v.reverse fs.disk 0
  let sectors := BitVec.ofNat 32 (now * geo.sectorsPerBlock)
  let ino := { ino with blocks := if ino.blocks > sectors then ino.blocks - sectors else 0 }
  let (_, fs, ino) := rebuild alloc csum { fs with disk := d } ino rev.reverse tb 0
  (stepped, fs, ino)

/-- The rounds of `x4_ext_free_from`; `due round i` is what `ext2_jnl_due` says in a round before
extent `i`. -/
def cutRounds (alloc : Allocator geo) (csum : Csum) (due : Nat → Nat → Bool) (fromIdx : Nat) :
    Nat → Fs → Inode → Fs × Inode
  | 0, fs, ino => (fs, ino)
  | fuel + 1, fs, ino =>
    match collect geo fs.disk 6 ino.root 60 with
    | none => (fs, ino)
    | some (v, tb) =>
      match cutRound alloc csum (due fuel) fromIdx fs ino v tb with
      | (false, fs, ino) => (fs, ino)
      | (true, fs, ino) => cutRounds alloc csum due fromIdx fuel fs ino

/-- `x4_ext_free_from`. Every round but the last frees an extent, so there are no more rounds than
extents, and one. -/
def extFreeFrom (alloc : Allocator geo) (csum : Csum) (due : Nat → Nat → Bool) (fs : Fs)
    (ino : Inode) (fromIdx : Nat) : Fs × Inode :=
  match collect geo fs.disk 6 ino.root 60 with
  | none => (fs, ino)
  | some (v, _) => cutRounds alloc csum due fromIdx (v.length + 1) fs ino

end MaeroOS.Ext2.Extents
