import Mathlib.Algebra.Group.Nat.Defs
import MaeroOS.Vm.Vma

/-!
# An address space and the frames behind it

Page tables (`arch/i686/mm/paging.c`), the reference counts of frames (`mm/pmm.c`), the registry of
shared file mappings and the free-space search (`proc/syscall.c`), as the memory system calls use
them. `Mm` is what one call sees: the record `mmap_owner` resolves to, the page tables that are
loaded, and what all address spaces share.

Whether there is memory is up to the environment. `kmem` has the answers of `kmalloc`, and
`Frames.supply` those of the frame allocator: an answer that is not a free frame is none at all.

* Page tables are walked page by page. That the source skips the span of an absent table makes no
  difference, since no page of it is mapped.
* TLBs are not modelled, nor are the batches in which frames are given back after a flush.
* The accessed and dirty bits are left out. `ro` is not in the entry: it says that the entry
  descends from a shared mapping that may not be written through.
-/

namespace MaeroOS.Vm

/-! ## Addresses -/

def u32 (n : Nat) : Nat := n % 2 ^ 32

/-- `(n + PAGE_SIZE - 1) & ~(PAGE_SIZE - 1)` in 32 bits. -/
def pageUp (n : Nat) : Nat := u32 (n + pageSize - 1) / pageSize * pageSize

/-- `n & ~(PAGE_SIZE - 1)`. -/
def pageDown (n : Nat) : Nat := n / pageSize * pageSize

/-- `KERNEL_VMA`, which is `USER_STACK_TOP` too. -/
def kernelVma : Nat := 0xC0000000

def userStackBase : Nat := 0xBFFC0000
def userMinAddr : Nat := 0x10000

/-- `USER_STACK_TOP` less 8 MiB. -/
def stackGrowFloor : Nat := 0xBF800000

def mmapFloor : Nat := 0x40000000

/-- `MMAP_TOP`, which is `SIGPAGE_VA`. -/
def mmapTop : Nat := 0xBF7FF000

/-- The pages a loop from `start` to `stop` visits. -/
def pagesOf (start stop : Nat) : List Nat :=
  List.range' (start / pageSize) ((stop - start + pageSize - 1) / pageSize)

inductive Errno
  | eperm | enxio | ebadf | enomem | eacces | efault | eexist | enodev | einval | eoverflow
deriving DecidableEq, Repr

abbrev Ret := Except Errno Nat

/-! ## Frames -/

/-- The bytes of a page. -/
abbrev Page := Nat → UInt8

def zeroPage : Page := fun _ => 0

/-- `PMM_REF_SATURATED`. -/
def pmmRefSaturated : Nat := 65535

/-- `PMM_REF_LIMIT`. -/
def pmmRefLimit : Nat := 60000

/-- The frames below `total` are RAM. -/
structure Frames where
  total : Nat
  refs : Nat → Nat
  used : Nat → Bool
  data : Nat → Page
  supply : List (Option Nat)

namespace Frames

/-- `pmm_alloc_frame` and `pmm_alloc_user_frame`: `none` is 0. A stale count is reset. -/
def alloc (fr : Frames) : Option Nat × Frames :=
  match fr.supply with
  | [] => (none, fr)
  | none :: rest => (none, { fr with supply := rest })
  | some f :: rest =>
      if f ≠ 0 ∧ f < fr.total ∧ fr.used f = false then
        (some f, { fr with used := Function.update fr.used f true
                           refs := Function.update fr.refs f 0
                           supply := rest })
      else (none, { fr with supply := rest })

/-- `pmm_free_frame`. -/
def free (fr : Frames) (f : Nat) : Frames :=
  if f < fr.total then { fr with used := Function.update fr.used f false } else fr

/-- `pmm_frame_incref`. -/
def incref (fr : Frames) (f : Nat) : Frames :=
  if f < fr.total ∧ fr.refs f <
    pmmRefSaturated then { fr with refs := Function.update fr.refs f (fr.refs f + 1) } else fr

/-- `pmm_frame_decref`. -/
def decref (fr : Frames) (f : Nat) : Frames :=
  if f < fr.total ∧ 0 < fr.refs f ∧ fr.refs f < pmmRefSaturated then
    let fr' := { fr with refs := Function.update fr.refs f (fr.refs f - 1) }
    if fr.refs f = 1 then fr'.free f else fr'
  else fr

/-- `pmm_frame_refcount`. -/
def refcount (fr : Frames) (f : Nat) : Nat := if f < fr.total then fr.refs f else 0

/-- A frame is filled through a temporary mapping. -/
def fill (fr : Frames) (f : Nat) (page : Page) : Frames :=
  { fr with data := Function.update fr.data f page }

end Frames

/-! ## Page tables -/

/-- The flag bits of an entry. -/
structure PteFlags where
  present : Bool
  writable : Bool
  user : Bool
  nocache : Bool
  wrprot : Bool
  cow : Bool
  shared : Bool
  protnone : Bool
  nx : Bool
  ro : Bool
deriving DecidableEq, Repr

def PteFlags.none : PteFlags :=
  ⟨false, false, false, false, false, false, false, false, false, false⟩

/-- `pte_t`. -/
structure Pte extends PteFlags where
  frame : Nat
deriving DecidableEq, Repr

namespace Pte

/-- The entry 0. -/
def zero : Pte := ⟨.none, 0⟩

/-- `pte_mapped`. -/
def mapped (e : Pte) : Bool := e.present || e.protnone

@[simp] theorem mapped_zero : zero.mapped = false := rfl

end Pte

/-- The tables of an address space: which of them there are, with their frames, and the entry of
each page. `perTable` is `PT_ENTRIES`. -/
structure PageTables where
  perTable : Nat
  table : Nat → Option Nat
  entry : Nat → Pte
  perTable_pos : 0 < perTable

namespace PageTables

/-- `pde_present` of a page. -/
def pdePresent (pt : PageTables) (p : Nat) : Bool := (pt.table (p / pt.perTable)).isSome

/-- `pte_read`; `pte_get` where the table is there. -/
def pteRead (pt : PageTables) (p : Nat) : Pte := if pt.pdePresent p then pt.entry p else Pte.zero

/-- The entry of a page if it owns a frame. -/
def owned (pt : PageTables) (p : Nat) : Option Pte :=
  if (pt.pteRead p).mapped then some (pt.pteRead p) else none

/-- `pte_set`. -/
def pteSet (pt : PageTables) (p : Nat) (e : Pte) : PageTables :=
  { pt with entry := Function.update pt.entry p e }

/-- A new table, with its entries zeroed. -/
def addTable (pt : PageTables) (t f : Nat) : PageTables :=
  { pt with table := Function.update pt.table t (some f)
            entry := fun p => if p / pt.perTable = t then Pte.zero else pt.entry p }

/-- `first_mapped_page`: the first page of the range that owns a frame. -/
def firstMappedPage (pt : PageTables) (start stop : Nat) : Option Nat :=
  (pagesOf start stop).find? fun p => (pt.pteRead p).mapped

end PageTables

/-- `pte_flags_for`. -/
def pteFlagsFor (prot : Prot) (shared : Bool) : PteFlags :=
  if prot = Prot.none then { PteFlags.none with user := true, shared, protnone := true, nx := true }
  else { PteFlags.none with user := true, shared, present := true, nx := !prot.exec, writable :=
    prot.write }

/-! ## Files -/

/-- What the memory calls see of files: the size, the bytes (0 past the end), whether the file is a
memfd, and whether a process has it open. -/
structure Files where
  size : Nat → BitVec 64
  byte : Nat → Nat → UInt8
  shmem : Nat → Bool
  openFd : Nat → Bool

/-- `struct shmap_entry`. -/
structure ShmapEntry where
  node : Nat
  frames : Nat → Nat
  npages : Nat
  mayWrite : Bool

/-- The framebuffer: where it is, if there is one, its length, the frame of each of its pages, and
whether it is RAM. -/
structure Framebuffer where
  phys : Nat
  size : Nat
  pagePhys : Nat → Nat
  cached : Bool

/-! ## What a call sees -/

structure Mm where
  owner : Owner
  pt : PageTables
  frames : Frames
  /-- The slots of `shmaps`. -/
  shmaps : List (Option ShmapEntry)
  files : Files
  fb : Framebuffer
  kmem : Kmem
  /-- `read_implies_exec` of the caller. -/
  rie : Bool
  /-- `proc_stack_exec` of the caller. -/
  stackExec : Bool

namespace Mm

/-- An address space without mappings, page tables and frames. -/
def empty : Mm where
  owner := ⟨[], 0⟩
  pt := ⟨1024, fun _ => none, fun _ => Pte.zero, by decide⟩
  frames := ⟨0, fun _ => 0, fun _ => false, fun _ => zeroPage, []⟩
  shmaps := []
  files := ⟨fun _ => 0, fun _ _ => 0, fun _ => false, fun _ => false⟩
  fb := ⟨0, 0, fun _ => 0, false⟩
  kmem := []
  rie := false
  stackExec := false

def setPte (s : Mm) (p : Nat) (e : Pte) : Mm := { s with pt := s.pt.pteSet p e }

def incref (s : Mm) (f : Nat) : Mm := { s with frames := s.frames.incref f }

def decref (s : Mm) (f : Nat) : Mm := { s with frames := s.frames.decref f }

def fill (s : Mm) (f : Nat) (page : Page) : Mm := { s with frames := s.frames.fill f page }

def allocFrame (s : Mm) : Option Nat × Mm :=
  let (f, frames) := s.frames.alloc
  (f, { s with frames })

/-! ### Mapping pages -/

/-- `paging_reserve_table` of the table with index `t`. -/
def reserveTable (s : Mm) (t : Nat) : Bool × Mm :=
  if (s.pt.table t).isSome then (true, s)
  else
    match s.allocFrame with
    | (some f, s) => (true, { s with pt := s.pt.addTable t f })
    | (none, s) => (false, s)

def reserveTables : List Nat → Mm → Bool × Mm
  | [], s => (true, s)
  | t :: ts, s =>
      match s.reserveTable t with
      | (true, s) => reserveTables ts s
      | (false, s) => (false, s)

/-- `paging_reserve_range`: the tables from the one of `start` on, up to `stop`. -/
def pagingReserveRange (s : Mm) (start stop : Nat) : Bool × Mm :=
  let span := s.pt.perTable * pageSize
  reserveTables (List.range' (start / span) ((stop - start / span * span + span - 1) / span)) s

/-- `paging_map` of page `p`. -/
def pagingMap (s : Mm) (p f : Nat) (flags : PteFlags) : Bool × Mm :=
  match s.reserveTable (p / s.pt.perTable) with
  | (true, s) => (true, s.setPte p { flags with frame := f })
  | (false, s) => (false, s)

/-- A fresh frame with the given contents is mapped at a page, as most callers do it. -/
def mapFresh (s : Mm) (p : Nat) (page : Page) (flags : PteFlags) : Bool × Mm :=
  match s.allocFrame with
  | (none, s) => (false, s)
  | (some f, s) =>
      match ((s.incref f).fill f page).pagingMap p f flags with
      | (true, s) => (true, s)
      | (false, s) => (false, s.decref f)

/-! ### Unmapping -/

/-- One page of `unmap_pages`. -/
def unmapPage (s : Mm) (p : Nat) : Mm :=
  if (s.pt.pteRead p).mapped then (s.setPte p Pte.zero).decref (s.pt.pteRead p).frame else s

/-- `unmap_pages`. -/
def unmapPages (s : Mm) (start stop : Nat) : Mm := (pagesOf start stop).foldl unmapPage s

def setVmas (s : Mm) (vmas : List Vma) : Mm := { s with owner := { s.owner with vmas } }

/-- `vma_remove_range` on the list of the owner. -/
def removeRange (s : Mm) (start stop : Nat) : Mm :=
  let (vmas, kmem) := vmaRemoveRange s.owner.vmas s.kmem start stop
  { s.setVmas vmas with kmem }

/-- `unmap_range`. -/
def unmapRange (s : Mm) (start stop : Nat) : Mm := (s.removeRange start stop).unmapPages start stop

/-- `vma_add` to the list of the owner. -/
def addVma (s : Mm) (start stop : Nat) (prot : Prot) (flags : VmaFlags) (file : Option Nat)
    (off : BitVec 64) : Bool × Mm :=
  match vmaAdd s.owner s.kmem start stop prot flags file off (s.files.size (file.getD 0)) with
  | (some owner, kmem) => (true, { s with owner, kmem })
  | (none, kmem) => (false, { s with kmem })

/-! ### Free ranges -/

/-- `vma_range_free`. -/
def vmaRangeFree (s : Mm) (va length : Nat) : Bool :=
  let stop := u32 (va + length)
  decide (va ≤ stop) && (s.owner.vmas.takeWhile (·.start < stop)).all (·.stop ≤ va) &&
    (s.pt.firstMappedPage va stop).isNone

end Mm

/-- The next multiple of `align` in 32 bits. -/
def alignUp (lo align : Nat) : Nat := u32 (lo + align - 1) / align * align

/-- A range of `length` bytes at `alignUp lo align` does not wrap and ends below `MMAP_TOP`. -/
def gapFits (length align lo : Nat) : Bool :=
  let a := alignUp lo align
  lo ≤ a ∧ a ≤ u32 (a + length) ∧ u32 (a + length) ≤ mmapTop

/-- The inner loop of `vma_gap_find_inner`: the first range of `length` bytes at or after `lo` that
no VMA meets. -/
def gapScan (length align : Nat) : List Vma → Nat → Option Nat
  | [], lo => if gapFits length align lo then some (alignUp lo align) else none
  | v :: rest, lo =>
      if v.stop ≤ lo then gapScan length align rest lo
      else if gapFits length align lo = false then none
      else if alignUp lo align + length ≤ v.start then some (alignUp lo align)
      else gapScan length align rest v.stop

namespace Mm

/-- The outer loop: ranges in which a page is mapped are skipped. -/
def gapFrom (s : Mm) (length align : Nat) : Nat → Nat → Option Nat
  | 0, _ => none
  | guard + 1, cur =>
      match gapScan length align s.owner.vmas cur with
      | none => none
      | some cand =>
          match s.pt.firstMappedPage cand (cand + length) with
          | none => some cand
          | some p => gapFrom s length align guard (p * pageSize + pageSize)

/-- `vma_gap_find`: `none` is 0. -/
def vmaGapFind (s : Mm) (length align : Nat) : Option Nat :=
  if length = 0 then none else s.gapFrom length (max align pageSize) 100000 mmapFloor

end Mm

end MaeroOS.Vm
