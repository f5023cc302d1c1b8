import MaeroOS.Vm.Neighbours

/-!
# `mremap`

`sys_mremap` of `proc/syscall.c` with `mremap_move` and `mremap_extend`: a mapping is cut or grown
where it is, or its page table entries are moved to another range. The references the call holds on
backing files while it edits the list are not modelled.
-/

namespace MaeroOS.Vm

open Lib Lib.Segments

/-! ## Pieces -/

/-- `MREMAP_MAX_PIECES`. -/
def mremapMaxPieces : Nat := 32

/-- `struct mremap_tail`: what the extension of a mapping continues. -/
structure MremapTail where
  prot : Prot
  flags : VmaFlags
  file : Option Nat
  off : BitVec 64
  fsize : BitVec 64
deriving DecidableEq, Repr

namespace MremapTail

/-- Shared memory without a file: there is nothing to populate an extension from. -/
def sharedAnon (t : MremapTail) : Bool := t.flags.shared && t.file.isNone

/-- The tail of a mapping that ends at `tail`, from its last node. -/
def ofVma (last : Vma) (tail : Nat) : MremapTail :=
  ⟨last.prot, last.flags, last.file,
    if last.file.isSome then last.fileOff + BitVec.ofNat 64 (tail - last.start) else 0,
    last.fileSize⟩

end MremapTail

/-- What a node becomes when the part of it in `[old, old + len)` is moved to `dest`. -/
def Vma.piece (old len dest : Nat) (v : Vma) : Vma :=
  newVma (dest + (max v.start old - old)) (dest + (min v.stop (old + len) - old)) v.prot
    v.flags v.file (v.fileOff + BitVec.ofNat 64 (max v.start old - v.start)) v.fileSize

/-- The snapshot `mremap_move` takes of the nodes that meet the range. -/
def mremapPieces (old len dest : Nat) (vmas : List Vma) : List Vma :=
  ((vmas.takeWhile (·.start < old + len)).filter (old < ·.stop)).map (Vma.piece old len dest)

namespace Mm

/-- An entry is moved. That mapping it fails is a panic: its table has been reserved. -/
def movePage (old dest : Nat) (s : Mm) (i : Nat) : Mm :=
  let e := s.pt.pteRead (old / pageSize + i)
  if e.mapped then ((s.setPte (old / pageSize + i) Pte.zero).pagingMap (dest / pageSize + i) e.frame
    e.toPteFlags).2 else s

/-- A piece is put at its new place; one that there is no memory for is lost. -/
def insertPiece (s : Mm) (v : Vma) : Mm :=
  let (ok, kmem) := kmalloc s.kmem
  if ok then { s with owner := vmaInsert s.owner v, kmem } else { s with kmem }

/-- `mremap_move`; `false` is `-ENOMEM`. -/
def mremapMove (s : Mm) (old len dest : Nat) : Bool × Mm :=
  let pieces := mremapPieces old len dest s.owner.vmas
  if mremapMaxPieces < pieces.length then (false, s)
  else
    match s.pagingReserveRange dest (dest + len) with
    | (false, s) => (false, s)
    | (true, s) =>
        let s :=
          (List.range (len / pageSize)).foldl (movePage old dest) (s.removeRange old (old + len))
        (true, pieces.foldl insertPiece s)

/-- `mremap_extend`; `false` is `-ENOMEM`. -/
def mremapExtend (s : Mm) (start stop : Nat) (t : MremapTail) : Bool × Mm :=
  if t.sharedAnon then (false, s)
  else
    let (ok, kmem) := kmalloc s.kmem
    if ok then
      (true, { s with owner := vmaInsert s.owner (newVma start stop t.prot t.flags t.file
        t.off t.fsize), kmem })
    else (false, { s with kmem })

end Mm

/-! ## The call -/

/-- The arguments of `mremap`; `badFlags` says that there are flags besides `MREMAP_MAYMOVE` and
`MREMAP_FIXED`. -/
structure MremapArgs where
  oldAddr : Nat
  oldSize : Nat
  newSize : Nat
  mayMove : Bool
  fixed : Bool
  badFlags : Bool
  newAddr : Nat
deriving DecidableEq, Repr

/-- The walk over the old range: from each node to its end, as far as there are nodes. Each step is
to another node, so the length of the list is enough. -/
def mremapCovered (vmas : List Vma) (stop : Nat) : Nat → Nat → Bool
  | 0, a => stop ≤ a
  | n + 1, a =>
      if a < stop then
        match vmaFind vmas a with
        | none => false
        | some c => mremapCovered vmas stop n c.stop
      else true

/-- The checks of `MREMAP_FIXED`. -/
def mremapBadDest (old oldSize newSize dest : Nat) : Option Errno :=
  if dest < userMinAddr then some .eperm
  else if dest % pageSize ≠ 0 ∨ u32 (dest + newSize) < dest ∨ userStackBase < u32 (dest + newSize) ∨
      dest < old + oldSize ∧ old < u32 (dest + newSize) then some .einval
  else none

namespace Mm

/-- The checks of `mremap`, and what an extension would continue. -/
def mremapStart (s : Mm) (a : MremapArgs) : Except Errno MremapTail :=
  let oldSize := pageUp a.oldSize
  let stop := u32 (a.oldAddr + oldSize)
  if a.oldAddr % pageSize ≠ 0 then .error .einval
  else if a.badFlags then .error .einval
  else if a.fixed ∧ a.mayMove = false then .error .einval
  else if a.newSize = 0 then .error .einval
  else if stop < a.oldAddr ∨ kernelVma < stop then .error .einval
  else if oldSize = 0 then .error .einval
  else if mremapCovered s.owner.vmas stop s.owner.vmas.length a.oldAddr = false then .error .efault
  else
    match vmaFind s.owner.vmas (stop - pageSize) with
    | none => .error .efault
    | some last => .ok (.ofVma last stop)

/-- `MREMAP_FIXED`: what is at the destination goes, the mapping moves there and is cut or grown. -/
def mremapFixed (s : Mm) (old oldSize newSize dest : Nat) (t : MremapTail) : Ret × Mm :=
  match mremapBadDest old oldSize newSize dest with
  | some err => (.error err, s)
  | none =>
      let mv := min oldSize newSize
      match (s.unmapRange dest (dest + newSize)).mremapMove old mv dest with
      | (false, s) => (.error .enomem, s)
      | (true, s) =>
          let s := if mv < oldSize then s.unmapRange (old + mv) (old + oldSize) else s
          if mv < newSize then
            match s.mremapExtend (dest + mv) (dest + newSize) t with
            | (false, s) => (.error .enomem, s)
            | (true, s) => (.ok dest, s)
          else (.ok dest, s)

/-- A mapping that grows moves to a gap. -/
def mremapTo (s : Mm) (old oldSize newSize dest : Nat) (t : MremapTail) : Ret × Mm :=
  match s.mremapMove old oldSize dest with
  | (false, s) => (.error .enomem, s)
  | (true, s) =>
      match s.mremapExtend (dest + oldSize) (dest + newSize) t with
      | (false, s) => (.error .enomem, s.unmapRange dest (dest + newSize))
      | (true, s) => (.ok dest, s)

/-- The gap for a mapping that grows. -/
def mremapGap (s : Mm) (newSize : Nat) : Option Nat :=
  (s.vmaGapFind newSize (if 0x100000 ≤ newSize then 0x100000 else pageSize)).or
    (s.vmaGapFind newSize pageSize)

/-- There is room for `grow` more bytes at `tail`. -/
def mremapRoom (s : Mm) (tail grow : Nat) : Bool :=
  tail < u32 (tail + grow) && u32 (tail + grow) ≤ mmapTop && s.vmaRangeFree tail grow

/-- A mapping that grows does so where it is, if there is room. -/
def mremapGrow (s : Mm) (old oldSize newSize : Nat) (mayMove : Bool) (t : MremapTail) : Ret × Mm :=
  if s.mremapRoom (old + oldSize) (newSize - oldSize) ∧ t.sharedAnon = false then
    match s.mremapExtend (old + oldSize) (old + newSize) t with
    | (false, s) => (.error .enomem, s)
    | (true, s) => (.ok old, s)
  else if mayMove = false then (.error .enomem, s)
  else if t.sharedAnon then (.error .enomem, s)
  else
    match s.mremapGap newSize with
    | none => (.error .enomem, s)
    | some dest => s.mremapTo old oldSize newSize dest t

/-- `sys_mremap`. -/
def sysMremap (s : Mm) (a : MremapArgs) : Ret × Mm :=
  let oldSize := pageUp a.oldSize
  let newSize := pageUp a.newSize
  match s.mremapStart a with
  | .error err => (.error err, s)
  | .ok t =>
      if a.fixed then s.mremapFixed a.oldAddr oldSize newSize a.newAddr t
      else if newSize ≤ oldSize then
        (.ok a.oldAddr, if newSize < oldSize then s.unmapRange (a.oldAddr + newSize)
          (a.oldAddr + oldSize) else s)
      else s.mremapGrow a.oldAddr oldSize newSize a.mayMove t

end Mm

end MaeroOS.Vm
