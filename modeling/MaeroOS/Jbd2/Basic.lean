import MaeroOS.Lib.Endian

/-!
# The journal of a file system: replay

The journal of `fs/ext2.c` (jbd2): a circular log of descriptor, revoke and commit blocks with a
transaction number each, and the copies of file system blocks that the descriptors announce. Opening
the file system after a crash walks the log twice, first to find its end and the revoke records,
then to write the logged blocks to their places.

A block is a buffer of `blockSize` bytes, a disk a function from block numbers to blocks. Devices do
not fail and memory does not run out, so that a read or write goes wrong only for a block number out
of range. Numbers of blocks and of transactions are 32-bit words as in the log; positions are
numbers.
-/

namespace MaeroOS.Jbd2

open Lib (Buf Word)
open Lib.Buf (be32 wbe32)

abbrev Disk : Type := Nat → Buf

def jbd2Magic : Word := 0xC03B3998

/-- The types of log blocks. -/
def jbd2Descriptor : Word := 1
def jbd2Commit : Word := 2
def jbd2Revoke : Word := 5

/-- The flags of tags. -/
def flagEscape : Word := 1
def flagSameUuid : Word := 2
def flagLastTag : Word := 8

/-- The incompatible features. -/
def incompatRevoke : Word := 0x1
def incompat64bit : Word := 0x2
def incompatAsync : Word := 0x4
def incompatCsum2 : Word := 0x8
def incompatCsum3 : Word := 0x10
def incompatFc : Word := 0x20

/-- `w` has one of the bits `f`. -/
def hasBits (w f : Word) : Bool := w &&& f != 0

/-! ## Checksums -/

/-- One round of the table of `crc32c`. -/
def crcShift (c : Word) : Word := (c >>> 1) ^^^ (0x82F63B78 &&& (0 - (c &&& 1)))

/-- `g_crc32c`. -/
def crcTable (i : Word) : Word := (List.range 8).foldl (fun c _ => crcShift c) i

/-- `crc32c` of the first `n` bytes of a buffer. -/
def crc32c (crc : Word) (b : Buf) (n : Nat) : Word :=
  (List.range n).foldl (fun c i => crcTable ((c ^^^ (b i).setWidth 32) &&& 0xFF) ^^^ (c >>> 8)) crc

/-! ## The journal -/

structure Fs where
  blockSize : Nat
  blocksCount : Nat
  large : 1024 ≤ blockSize

/-- `ext2_jnl_t`, without the running transaction. -/
structure Journal where
  len : Nat
  first : Nat
  seq : Word
  /-- Where the blocks of the journal are. -/
  map : Nat → Nat
  compat : Word
  incompat : Word
  seed : Word
  uuid : Buf
  tagBytes : Nat
  csum : Bool
  cap : Nat
  hard : Nat

/-- `jnl_tag_bytes`. -/
def jnlTagBytes (incompat : Word) : Nat :=
  if hasBits incompat incompatCsum3 then 16
  else if hasBits incompat incompat64bit then (if hasBits incompat incompatCsum2 then 14 else 12)
  else (if hasBits incompat incompatCsum2 then 14 else 12) - 4

/-- `ext2_raw_read_block`. -/
def rawReadBlock (fs : Fs) (disk : Disk) (blk : Nat) : Option Buf :=
  if fs.blocksCount ≤ blk then none else some (disk blk)

/-- `ext2_raw_write_block`. -/
def rawWriteBlock (fs : Fs) (disk : Disk) (blk : Nat) (b : Buf) : Option Disk :=
  if fs.blocksCount ≤ blk then none else some (Function.update disk blk b)

/-- `ext2_jnl_read`. -/
def jnlRead (fs : Fs) (j : Journal) (disk : Disk) (jb : Nat) : Option Buf :=
  if j.len ≤ jb ∨ j.map jb = 0 then none else rawReadBlock fs disk (j.map jb)

/-- `ext2_jnl_write`. -/
def jnlWrite (fs : Fs) (j : Journal) (disk : Disk) (jb : Nat) (b : Buf) : Option Disk :=
  if j.len ≤ jb ∨ j.map jb = 0 then none else rawWriteBlock fs disk (j.map jb) b

/-- The journal superblock with new `s_start` and `s_sequence`. -/
def sbWith (j : Journal) (b : Buf) (start seq : Word) : Buf :=
  let b := wbe32 (wbe32 b 0x18 seq) 0x1C start
  if j.csum then wbe32 b 0xFC (crc32c (BitVec.allOnes 32) (wbe32 b 0xFC 0) 1024) else b

/-- `ext2_jnl_sb`. -/
def jnlSb (fs : Fs) (j : Journal) (disk : Disk) (start seq : Word) : Option Disk :=
  (jnlRead fs j disk 0).bind fun b => jnlWrite fs j disk 0 (sbWith j b start seq)

namespace Journal

/-- `JNEXT`. -/
def next (j : Journal) (p : Nat) : Nat := if j.len ≤ p + 1 then j.first else p + 1

/-- The end of the tags in a descriptor block. -/
def limit (fs : Fs) (j : Journal) : Nat := fs.blockSize - if j.csum then 4 else 0

end Journal

/-! ## Tags -/

structure Tag where
  blk : Word
  flags : Word
  hi : Word
  tcs : Word
  deriving DecidableEq

namespace Tag

def escape (t : Tag) : Bool := hasBits t.flags flagEscape
def sameUuid (t : Tag) : Bool := hasBits t.flags flagSameUuid
def lastTag (t : Tag) : Bool := hasBits t.flags flagLastTag

end Tag

/-- The tag at offset `off` of a descriptor block. -/
def readTag (j : Journal) (b : Buf) (off : Nat) : Tag :=
  if hasBits j.incompat incompatCsum3 then
    { blk := be32 b off, flags := be32 b (off + 4), hi := be32 b (off + 8),
      tcs := be32 b (off + 12) }
  else
    { blk := be32 b off
      flags := (b (off + 6) ++ b (off + 7)).setWidth 32
      hi := if hasBits j.incompat incompat64bit then be32 b (off + 8) else 0
      tcs := (b (off + 4) ++ b (off + 5)).setWidth 32 }

/-- How far the next tag is. -/
def tagSize (j : Journal) (t : Tag) : Nat := j.tagBytes + if t.sameUuid then 0 else 16

/-- The checksum of a logged copy, with the number of its transaction. -/
def copyCsum (fs : Fs) (j : Journal) (seq : Word) (d : Buf) : Word :=
  let c := crc32c (crc32c j.seed (wbe32 (fun _ => 0) 0 seq) 4) d fs.blockSize
  if hasBits j.incompat incompatCsum3 then c else c &&& 0xFFFF

/-- A revoke record. -/
structure Revoke where
  blk : Word
  seq : Word

/-- `jnl_revoked`: by this transaction or a later one. -/
def jnlRevoked (rv : List Revoke) (blk seq : Word) : Bool :=
  rv.any fun r => r.blk = blk ∧ 0 ≤ (r.seq - seq).toInt

/-! ## The walk -/

/-- The variables of `ext2_jnl_scan`; `rvOver` is `rv_over_seq` if `rv_over` is set. -/
structure Scan where
  pos : Nat
  seq : Word
  rv : List Revoke
  committed : Nat
  disk : Disk
  replayed : Nat
  rvOver : Option Word

/-- The copy that belongs to a tag is written to its place, unless it is revoked, damaged or out of
range. A failing read or write ends the tags (`none`). -/
def replayTag (fs : Fs) (j : Journal) (s : Scan) (t : Tag) : Option Scan :=
  (jnlRead fs j s.disk s.pos).bind fun d =>
    if t.hi = 0 ∧ t.blk.toNat < fs.blocksCount ∧ jnlRevoked s.rv t.blk s.seq = false ∧
        (j.csum = true → copyCsum fs j s.seq d = t.tcs) then
      (rawWriteBlock fs s.disk t.blk.toNat (if t.escape then wbe32 d 0 jbd2Magic else d)).map
        fun disk =>
        { s with disk := disk, replayed := s.replayed + 1 }
    else some s

/-- The tags of a descriptor block `b` from offset `off` on; `pass` is set when the log is
replayed. -/
def tagLoop (fs : Fs) (j : Journal) (pass : Bool) (b : Buf) : Nat → Nat → Scan → Scan
  | 0, _, s => s
  | fuel + 1, off, s =>
      if off + j.tagBytes ≤ j.limit fs then
        match if pass then replayTag fs j s (readTag j b off) else some s with
        | none => s
        | some s' =>
            if (readTag j b off).lastTag then { s' with pos := j.next s'.pos }
            else tagLoop fs j pass b fuel (off + tagSize j (readTag j b off))
              { s' with pos := j.next s'.pos }
      else s

/-- The records of a revoke block: 32-bit block numbers, or 64-bit ones of which only small ones
count. -/
def revokeRecords (fs : Fs) (j : Journal) (b : Buf) : List Word :=
  let cnt := min (be32 b 12).toNat fs.blockSize
  if hasBits j.incompat incompat64bit then
    (List.range ((cnt - 16) / 8)).filterMap fun k =>
      if be32 b (16 + 8 * k) = 0 then some (be32 b (16 + 8 * k + 4)) else none
  else (List.range ((cnt - 16) / 4)).map fun k => be32 b (16 + 4 * k)

/-- One revoke record is kept, if there is room. -/
def addRevoke (rvcap : Nat) (s : Scan) (blk : Word) : Scan :=
  if s.rv.length = rvcap then { s with rvOver := s.rvOver.or (some s.seq) }
  else { s with rv := s.rv ++ [⟨blk, s.seq⟩] }

/-- A descriptor block's checksum. -/
def descValid (fs : Fs) (j : Journal) (b : Buf) : Bool :=
  !j.csum || crc32c j.seed (wbe32 b (fs.blockSize - 4) 0) fs.blockSize == be32 b (fs.blockSize - 4)

/-- A commit block's checksum. -/
def commitValid (fs : Fs) (j : Journal) (b : Buf) : Bool :=
  !j.csum || crc32c j.seed (wbe32 b 16 0) fs.blockSize == be32 b 16

/-- A descriptor block as it is read once its checksum has been looked at. -/
def descBody (fs : Fs) (j : Journal) (b : Buf) : Buf :=
  if j.csum then wbe32 b (fs.blockSize - 4) 0 else b

/-- One round of `ext2_jnl_scan`: a control block, or the end of the walk. -/
def scanStep (fs : Fs) (j : Journal) (pass : Bool) (endSeq : Word) (rvcap : Nat) (s : Scan) :
    Option Scan :=
  if pass = true ∧ s.seq = endSeq then none
  else
    (jnlRead fs j s.disk s.pos).bind fun b =>
      if be32 b 0 ≠ jbd2Magic ∨ be32 b 8 ≠ s.seq then none
      else if be32 b 4 = jbd2Descriptor then
        if descValid fs j b then
          some (tagLoop fs j pass (descBody fs j b) fs.blockSize 12 { s with pos := j.next s.pos })
        else none
      else if be32 b 4 = jbd2Commit then
        if pass || commitValid fs j b then
          some { s with committed := if pass then s.committed else s.rv.length
                        seq := s.seq + 1
                        pos := j.next s.pos }
        else none
      else if be32 b 4 = jbd2Revoke then
        let s' := if pass then s else (revokeRecords fs j b).foldl (addRevoke rvcap) s
        some { s' with pos := j.next s.pos }
      else none

/-- The rounds, of which there are at most as many as the journal has blocks. -/
def scanLoop (fs : Fs) (j : Journal) (pass : Bool) (endSeq : Word) (rvcap : Nat) : Nat → Scan → Scan
  | 0, s => s
  | guard + 1, s =>
      match scanStep fs j pass endSeq rvcap s with
      | none => s
      | some s' => scanLoop fs j pass endSeq rvcap guard s'

/-- `ext2_jnl_scan`. At the end of the first pass the revoke records of a torn transaction are
dropped. -/
def jnlScan (fs : Fs) (j : Journal) (pass : Bool) (endSeq : Word) (rvcap : Nat) (s : Scan) : Scan :=
  let s' := scanLoop fs j pass endSeq rvcap j.len { s with committed := s.rv.length }
  if pass then s' else { s' with rv := s'.rv.take s'.committed }

/-- `rvcap`. -/
def revokeCap : Nat := 16384

/-- The result of `ext2_jnl_recover`. -/
structure Recovery where
  code : Int
  disk : Disk
  seq : Word

/-- The two passes over a log that starts at `start` with transaction `seq`, on a disk. -/
def firstPass (fs : Fs) (j : Journal) (disk : Disk) (start : Nat) (seq : Word) : Scan :=
  jnlScan fs j false 0 revokeCap
    { pos := start, seq := seq, rv := [], committed := 0, disk := disk, replayed := 0,
      rvOver := none }

def secondPass (fs : Fs) (j : Journal) (disk : Disk) (start : Nat) (seq : Word) (s : Scan) : Disk :=
  if s.seq = seq then disk
  else (jnlScan fs j true s.seq revokeCap { s with pos := start, seq := seq, disk := disk }).disk

/-- A committed revoke record did not fit. -/
def tooManyRevokes (s : Scan) : Bool :=
  match s.rvOver with
  | some overSeq => (overSeq - s.seq).toInt < 0
  | none => false

/-- `ext2_jnl_recover`. -/
def jnlRecover (fs : Fs) (j : Journal) (disk : Disk) : Recovery :=
  match jnlRead fs j disk 0 with
  | none => ⟨-5, disk, j.seq⟩
  | some b =>
      if be32 b 0x1C = 0 then ⟨0, disk, j.seq⟩
      else
        let s := firstPass fs j disk (be32 b 0x1C).toNat (be32 b 0x18)
        if tooManyRevokes s then ⟨-117, disk, j.seq⟩
        else
          let disk' := secondPass fs j disk (be32 b 0x1C).toNat (be32 b 0x18) s
          match jnlSb fs j disk' 0 s.seq with
          | none => ⟨-1, disk', s.seq⟩
          | some disk'' => ⟨0, disk'', s.seq⟩

end MaeroOS.Jbd2
