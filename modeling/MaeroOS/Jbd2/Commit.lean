import MaeroOS.Jbd2.Basic
import MaeroOS.Lib.Writes

/-!
# The journal of a file system: commit

Opening the journal, and writing a transaction: into the log, then in place. The device is a disk
and the list of the writes that were issued to it, the first one first. A power failure leaves a
disk on which only some first part of them has happened (`crash`).
-/

namespace MaeroOS.Jbd2

open Lib (Buf Word applyWrites)
open Lib.Buf (be32 wbe32 paste)

/-! ## Opening -/

def jbd2SbV1 : Word := 3
def jbd2SbV2 : Word := 4

def compatChecksum : Word := 0x1

/-- `JBD2_INCOMPAT_KNOWN`. -/
def incompatKnown : Word :=
  incompatRevoke ||| incompat64bit ||| incompatAsync ||| incompatCsum2 ||| incompatCsum3 |||
    incompatFc

/-- `EXT2_JT_MAX`, `EXT2_JT_SOFT`. -/
def jtMax : Nat := 4096
def jtSoft : Nat := 1024

/-- The journal inode: its size and where its blocks are (0: nowhere). -/
structure JournalInode where
  size : Word
  map : Nat → Nat

/-- How many tags fit into a descriptor block, at least. -/
def tagsPer (fs : Fs) (tagBytes : Nat) : Nat := (fs.blockSize - 12 - 4 - 16) / tagBytes

/-- The descriptor blocks for which room is kept. -/
def descRoom (fs : Fs) (tagBytes room : Nat) : Nat :=
  (room + tagsPer fs tagBytes - 1) / tagsPer fs tagBytes

/-- The 16 bytes of the journal's UUID. -/
def uuidOf (b : Buf) : Buf := fun i => if i < 16 then b (0x30 + i) else 0

/-- What the journal superblock `b` says, once the features are known. -/
def openWith (fs : Fs) (ino : JournalInode) (b : Buf) (compat incompat : Word) : Option Journal :=
  let csum := hasBits incompat (incompatCsum2 ||| incompatCsum3)
  let len := (be32 b 0x10).toNat
  let first := (be32 b 0x14).toNat
  let tagBytes := jnlTagBytes incompat
  let room := len - first
  if hasBits incompat (~~~incompatKnown) ∨ hasBits compat compatChecksum ∨
      (hasBits incompat incompatCsum2 ∧ hasBits incompat incompatCsum3) then none
  else if csum ∧ crc32c (BitVec.allOnes 32) (wbe32 b 0xFC 0) 1024 ≠ be32 b 0xFC then none
  else if len < 64 ∨ first = 0 ∨ len ≤ first ∨ room < 32 then none
  else if ino.size.toNat / fs.blockSize < len ∨ ∃ i < len, ino.map i = 0 then none
  else if room < descRoom fs tagBytes room + 4 + 16 then none
  else
    let hard := min (room - descRoom fs tagBytes room - 4) jtMax
    some { len := len, first := first, seq := be32 b 0x18, map := ino.map, compat :=
      compat, incompat := incompat
           seed := crc32c (BitVec.allOnes 32) (uuidOf b) 16, uuid := uuidOf b, tagBytes := tagBytes
           csum := csum, cap := min (hard / 2) jtSoft, hard := hard }

/-- `ext2_jnl_open`. A superblock of the first version has no features. -/
def jnlOpen (fs : Fs) (ino : JournalInode) (disk : Disk) : Option Journal :=
  if ino.map 0 = 0 then none
  else
    (rawReadBlock fs disk (ino.map 0)).bind fun b =>
      if be32 b 0 ≠ jbd2Magic ∨ (be32 b 4 ≠ jbd2SbV1 ∧ be32 b 4 ≠ jbd2SbV2) ∨
          (be32 b 0x0C).toNat ≠ fs.blockSize then none
      else if be32 b 4 = jbd2SbV2 then openWith fs ino b (be32 b 0x24) (be32 b 0x28)
      else openWith fs ino b 0 0

/-! ## Devices -/

structure Device where
  disk : Disk
  /-- The writes that were issued. -/
  issued : List (Nat × Buf)

/-- The disk if only the first `n` writes happen. -/
def crash (disk : Disk) (ws : List (Nat × Buf)) (n : Nat) : Disk := applyWrites disk (ws.take n)

namespace Device

/-- A write to block `blk`; `none` for a failing one. -/
def write (fs : Fs) (d : Device) (blk : Nat) (b : Buf) : Option Device :=
  (rawWriteBlock fs d.disk blk b).map fun disk => ⟨disk, d.issued ++ [(blk, b)]⟩

def jnlWrite (fs : Fs) (j : Journal) (d : Device) (jb : Nat) (b : Buf) : Option Device :=
  if j.len ≤ jb ∨ j.map jb = 0 then none else d.write fs (j.map jb) b

/-- `ext2_jnl_sb`. -/
def jnlSb (fs : Fs) (j : Journal) (d : Device) (start seq : Word) : Option Device :=
  (jnlRead fs j d.disk 0).bind fun b => d.jnlWrite fs j 0 (sbWith j b start seq)

end Device

/-! ## Committing -/

/-- A block of the running transaction: `tblk`, `tdata`. -/
structure Entry where
  blk : Word
  data : Buf

/-- The copy of a block for the log: it must not look like a control block. -/
def Entry.copy (e : Entry) : Buf := if be32 e.data 0 = jbd2Magic then wbe32 e.data 0 0 else e.data

/-- The flags of a tag. -/
def Entry.flags (e : Entry) (first : Bool) : Word :=
  (if first then 0 else flagSameUuid) ||| if be32 e.data 0 = jbd2Magic then flagEscape else 0

/-- The checksum of a tag. -/
def Entry.csum (fs : Fs) (j : Journal) (seq : Word) (e : Entry) : Word :=
  if j.csum then crc32c (crc32c j.seed (wbe32 (fun _ => 0) 0 seq) 4) e.copy fs.blockSize else 0

/-- The two low bytes of a word, in big-endian order. -/
def wbe16 (b : Buf) (o : Nat) (v : Word) : Buf :=
  Function.update (Function.update b o (v.extractLsb' 8 8)) (o + 1) (v.extractLsb' 0 8)

/-- The tag for an entry at offset `off`. -/
def putTag (fs : Fs) (j : Journal) (seq : Word) (first : Bool) (e : Entry) (b : Buf)
    (off : Nat) : Buf :=
  let b := wbe32 b off e.blk
  if hasBits j.incompat incompatCsum3 then
    wbe32 (wbe32 (wbe32 b (off + 4) (e.flags first)) (off + 8) 0) (off + 12) (e.csum fs j seq)
  else
    let b := wbe16 (wbe16 b (off + 4) (e.csum fs j seq)) (off + 6) (e.flags first)
    if hasBits j.incompat incompat64bit then wbe32 b (off + 8) 0 else b

/-- What a tag takes: the first one is followed by the journal's UUID. -/
def putSize (j : Journal) (first : Bool) : Nat := j.tagBytes + if first then 16 else 0

/-- A descriptor block in the making: the entries in it, those that are left, and where its last tag
is. -/
structure Desc where
  buf : Buf
  taken : List Entry
  left : List Entry
  lastTag : Nat

/-- The tags of one descriptor block. -/
def descLoop (fs : Fs) (j : Journal) (seq : Word) : Bool → List Entry → Buf → Nat → Nat → Desc
  | _, [], b, _, lastTag => ⟨b, [], [], lastTag⟩
  | first, e :: es, b, off, lastTag =>
      if off + putSize j first ≤ j.limit fs then
        let b := putTag fs j seq first e b off
        let b := if first then paste b (off + j.tagBytes) j.uuid 16 else b
        let r := descLoop fs j seq false es b (off + putSize j first) off
        { r with taken := e :: r.taken }
      else ⟨b, [], e :: es, lastTag⟩

/-- `LAST_TAG` on the last tag. -/
def markLast (j : Journal) (b : Buf) (lastTag : Nat) : Buf :=
  if hasBits j.incompat incompatCsum3 then
    wbe32 b (lastTag + 4) (be32 b (lastTag + 4) ||| flagLastTag)
  else Function.update b (lastTag + 7) (b (lastTag + 7) ||| 8)

/-- `ext2_jnl_block_tail`. -/
def jnlBlockTail (fs : Fs) (j : Journal) (b : Buf) : Buf :=
  if j.csum then wbe32 b (fs.blockSize - 4)
    (crc32c j.seed (wbe32 b (fs.blockSize - 4) 0) fs.blockSize) else b

/-- The header of a control block. -/
def header (type seq : Word) : Buf := wbe32 (wbe32 (wbe32 (fun _ => 0) 0 jbd2Magic) 4 type) 8 seq

/-- The next descriptor block, for as many entries as fit. -/
def nextDesc (fs : Fs) (j : Journal) (seq : Word) (es : List Entry) : Desc :=
  descLoop fs j seq true es (header jbd2Descriptor seq) 12 0

/-- A descriptor block as it is written. -/
def Desc.block (fs : Fs) (j : Journal) (r : Desc) : Buf :=
  jnlBlockTail fs j (markLast j r.buf r.lastTag)

/-- Blocks are written to consecutive positions of the journal. -/
def writeBlocks (fs : Fs) (j : Journal) : List Buf → Nat → Device → Option Device
  | [], _, d => some d
  | b :: bs, pos, d => (d.jnlWrite fs j pos b).bind (writeBlocks fs j bs (pos + 1))

/-- Descriptor blocks, each with its copies; the position behind them. -/
def logLoop (fs : Fs) (j : Journal) (seq : Word) : Nat → List Entry → Nat → Device →
    Option (Nat × Device)
  | 0, _, pos, d => some (pos, d)
  | _, [], pos, d => some (pos, d)
  | fuel + 1, e :: es, pos, d =>
      let r := nextDesc fs j seq (e :: es)
      (writeBlocks fs j (r.block fs j :: r.taken.map Entry.copy) pos d).bind
        (logLoop fs j seq fuel r.left (pos + 1 + r.taken.length))

/-- The commit block. -/
def commitBlock (fs : Fs) (j : Journal) (seq now : Word) : Buf :=
  let b := wbe32 (wbe32 (header jbd2Commit seq) 0x30 0) 0x34 now
  if j.csum then wbe32 b 16 (crc32c j.seed b fs.blockSize) else b

/-- The checkpoint: the blocks in place. -/
def checkpoint (fs : Fs) : List Entry → Device → Option Device
  | [], d => some d
  | e :: es, d => (d.write fs e.blk.toNat e.data).bind (checkpoint fs es)

/-- `ext2_jnl_commit` of a transaction, at the time `now`: `none` if it fails. -/
def jnlCommit (fs : Fs) (j : Journal) (now : Word) (tr : List Entry) (d : Device) : Option Device :=
  if tr.isEmpty then some d
  else
    (d.jnlSb fs j (BitVec.ofNat 32 j.first) j.seq).bind fun d =>
      (logLoop fs j j.seq tr.length tr j.first d).bind fun (pos, d) =>
        (d.jnlWrite fs j pos (commitBlock fs j j.seq now)).bind fun d =>
          (checkpoint fs tr d).bind fun d => d.jnlSb fs j 0 (j.seq + 1)

end MaeroOS.Jbd2
