import MaeroOS.Lib.Bitmap
import MaeroOS.Lib.System

/-!
# The physical memory manager

The frame allocator of `mm/pmm.c`: a bitmap with one bit per frame of 4 KiB (set: used), two zones
(below 4 GiB and above) with a cursor each, a ring in which freed frames wait before they are free,
and reference counts.

A `for` loop over frames is a fold over the range it walks. A loop that stops early or skips has its
own recursion, on what is left of the range.

`Memory` is the allocator together with what its callers did, which no code reads: the frames that
are allocated, and those that were freed, newest first.
-/

namespace MaeroOS.Pmm

open Lib (Bitmap System)

def pageSize : Nat := 4096

/-- `PMM_MAX_FRAMES`: 16 GiB. -/
def pmmMaxFrames : Nat := 4194304

/-- `PMM_LOW_FRAMES`: the frames below 4 GiB. -/
def pmmLowFrames : Nat := 1048576

/-- `PMM_REF_SATURATED`. -/
def pmmRefSaturated : Nat := 65535

/-- `PMM_QUARANTINE`. -/
def pmmQuarantine : Nat := 512

def u32 (n : Nat) : Nat := n % 2 ^ 32

def u64 (n : Nat) : Nat := n % 2 ^ 64

/-- `n - 1` in 32 bits. -/
def dec32 (n : Nat) : Nat := u32 (n + (2 ^ 32 - 1))

/-- The variables of `pmm.c`. -/
structure PmmState where
  bitmap : Bitmap
  total : Nat
  used : Nat
  lastAlloc : Nat
  lastHigh : Nat
  lowTotal : Nat
  highUsed : Nat
  ram : Nat
  highRam : Nat
  refcount : Nat → Nat
  refcountFrames : Nat
  quar : Nat → Nat
  quarN : Nat
  quarPos : Nat

namespace PmmState

/-! ## Single frames and regions -/

/-- `pmm_mark_used`. -/
def markUsed (s : PmmState) (i : Nat) : PmmState :=
  if s.bitmap.test i then s
  else { s with bitmap := s.bitmap.set i
                used := u32 (s.used + 1)
                highUsed := if pmmLowFrames ≤ i then u32 (s.highUsed + 1) else s.highUsed }

/-- `pmm_mark_free`. -/
def markFree (s : PmmState) (i : Nat) : PmmState :=
  if s.bitmap.test i then
    { s with bitmap := s.bitmap.clear i
             used := dec32 s.used
             highUsed := if pmmLowFrames ≤ i then dec32 s.highUsed else s.highUsed }
  else s

/-- The frames from `start` on that are below `stop` and exist. -/
def frames (s : PmmState) (start stop : Nat) : List Nat :=
  List.range' start (min stop s.total - start)

/-- One frame of `pmm_free_region`: it is RAM if it was not free before. -/
def freeRam (s : PmmState) (i : Nat) : PmmState :=
  if s.bitmap.test i then
    { s with ram := u32 (s.ram + 1)
             highRam := if pmmLowFrames ≤ i then u32 (s.highRam + 1) else s.highRam }.markFree i
  else s.markFree i

/-- `pmm_free_region`: only the frames that are in the region as a whole. -/
def freeRegion (s : PmmState) (addr len : Nat) : PmmState :=
  (s.frames (u32 (u64 (addr + pageSize - 1) / pageSize)) (u32 (u64 (addr + len) / pageSize))).foldl
    freeRam s

/-- `pmm_used_region`: every frame that meets the region. -/
def usedRegion (s : PmmState) (addr len : Nat) : PmmState :=
  (s.frames (addr / pageSize) (u32 (addr + len + pageSize - 1) / pageSize)).foldl markUsed s

end PmmState

/-! ## Boot -/

/-- `multiboot_mmap_entry_t`. -/
structure MmapEntry where
  addr : Nat
  len : Nat
  available : Bool

/-- What `pmm_init` reads: the multiboot information (with the entries of the memory map, if it has
one) and where it, the kernel and the bitmap lie. -/
structure BootInfo where
  /-- `mem_lower`, `mem_upper`, with `MULTIBOOT_FLAG_MEM`. -/
  mem : Option (Nat × Nat)
  /-- The memory map, with `MULTIBOOT_FLAG_MMAP`. -/
  mmap : Option (List MmapEntry)
  mmapAddr : Nat
  mmapLength : Nat
  mbiPhys : Nat
  kernelStart : Nat
  kernelEnd : Nat
  bitmapPhys : Nat
  pagingPae : Bool

namespace BootInfo

/-- `sizeof(multiboot_info_t)`. -/
def mbiSize : Nat := 110

/-- `total_mem_kb / 4`. -/
def memFrames (mb : BootInfo) : Nat :=
  match mb.mem with
  | some (_, upper) => u32 (1024 + upper) / 4
  | none => 1024 / 4

/-- The first walk of the memory map: the end of the last available region. -/
def mmapFrames (total : Nat) (e : MmapEntry) : Nat :=
  if e.available then max total (min (u64 (e.addr + e.len) / pageSize) pmmMaxFrames) else total

/-- `pmm_total`. -/
def total (mb : BootInfo) : Nat :=
  let n := min ((mb.mmap.getD []).foldl mmapFrames mb.memFrames) pmmMaxFrames
  if mb.pagingPae then n else min n pmmLowFrames

/-- `pmm_bitmap_size`, rounded up to whole pages. -/
def bitmapSize (mb : BootInfo) : Nat := ((mb.total + 7) / 8 + pageSize - 1) / pageSize * pageSize

end BootInfo

namespace PmmState

/-- Everything is used. -/
def full (total : Nat) : PmmState where
  bitmap := fun w => if w < (total + 31) / 32 then BitVec.allOnes 32 else 0
  total := total
  used := total
  lastAlloc := 0
  lastHigh := min total pmmLowFrames
  lowTotal := min total pmmLowFrames
  highUsed := total - min total pmmLowFrames
  ram := 0
  highRam := 0
  refcount := fun _ => 0
  refcountFrames := 0
  quar := fun _ => 0
  quarN := 0
  quarPos := 0

/-- The available regions are freed. -/
def freeAvailable (s : PmmState) (mb : BootInfo) : PmmState :=
  match mb.mmap, mb.mem with
  | some es, _ => es.foldl (fun s e => if e.available then s.freeRegion e.addr e.len else s) s
  | none, some (lower, upper) =>
      (s.freeRegion 0x1000 (u64 (lower * 1024 + (2 ^ 64 - 0x1000)))).freeRegion 0x100000
        (upper * 1024)
  | none, none => s

end PmmState

/-- `pmm_init`. -/
def pmmInit (mb : BootInfo) : PmmState :=
  let s := (PmmState.full mb.total).freeAvailable mb
  let s := s.usedRegion 0 0x100000
  let s := s.usedRegion mb.kernelStart (mb.kernelEnd - mb.kernelStart)
  let s := s.usedRegion mb.bitmapPhys mb.bitmapSize
  let s := s.usedRegion mb.mbiPhys BootInfo.mbiSize
  if mb.mmap.isSome then s.usedRegion mb.mmapAddr mb.mmapLength else s

namespace PmmState

/-! ## Allocation -/

/-- `pmm_alloc_uaf_check`: a stale count is reset. -/
def uafCheck (s : PmmState) (i : Nat) : PmmState :=
  if i < s.refcountFrames ∧ s.refcount i ≠ 0 then
    { s with refcount := Function.update s.refcount i 0 }
  else s

/-- A frame is handed out. -/
def take (s : PmmState) (i : Nat) : PmmState := (s.markUsed i).uafCheck i

/-- One pass of `pmm_scan` from `idx` to `stop`: the first free frame. Words that are fully used are
skipped. -/
def scanPass (b : Bitmap) (stop : Nat) : Nat → Nat → Option Nat
  | 0, _ => none
  | fuel + 1, idx =>
      if idx < stop then
        if idx % 32 = 0 ∧ idx + 32 ≤ stop ∧ b (idx / 32) = BitVec.allOnes 32 then
          scanPass b stop fuel (idx + 32)
        else if b.test idx then scanPass b stop fuel (idx + 1)
        else some idx
      else none

/-- The cursor of `pmm_scan`, put back into the zone. -/
def scanStart (lo hi cursor : Nat) : Nat := if cursor < lo ∨ hi ≤ cursor then lo else cursor

/-- The frame that `pmm_scan` finds: from the cursor to the end, then from the beginning. -/
def scanFind (b : Bitmap) (lo hi cursor : Nat) : Option Nat :=
  (scanPass b hi (hi - cursor) cursor).or (scanPass b cursor (cursor - lo) lo)

/-- `pmm_scan`: the frame, the cursor and the allocator. -/
def pmmScan (s : PmmState) (lo hi cursor : Nat) : Option Nat × Nat × PmmState :=
  match scanFind s.bitmap lo hi (scanStart lo hi cursor) with
  | some idx => (some idx, idx, s.take idx)
  | none => (none, scanStart lo hi cursor, s)

/-- `pmm_alloc_frame`: a physical address, or 0. -/
def pmmAllocFrame (s : PmmState) : Nat × PmmState :=
  match s.pmmScan 0 s.lowTotal s.lastAlloc with
  | (some idx, cursor, s') => (u32 (idx * pageSize), { s' with lastAlloc := cursor })
  | (none, cursor, s') => (0, { s' with lastAlloc := cursor })

/-- `pmm_alloc_user_frame`: above 4 GiB if there is a frame. -/
def pmmAllocUserFrame (s : PmmState) : Nat × PmmState :=
  if s.lowTotal < s.total then
    match s.pmmScan s.lowTotal s.total s.lastHigh with
    | (some idx, cursor, s') => (u64 (idx * pageSize), { s' with lastHigh := cursor })
    | (none, cursor, s') => { s' with lastHigh := cursor }.pmmAllocFrame
  else s.pmmAllocFrame

/-- The search of `pmm_alloc_contig`, with the length of the run of free frames before `idx`. -/
def contigLoop (b : Bitmap) (n hi : Nat) : Nat → Nat → Nat → Option Nat
  | 0, _, _ => none
  | fuel + 1, idx, run =>
      if idx < hi then
        if b.test idx then contigLoop b n hi fuel (idx + 1) 0
        else if run + 1 = n then some (idx + 1 - n)
        else contigLoop b n hi fuel (idx + 1) (run + 1)
      else none

/-- The end of the range that `pmm_alloc_contig` searches. -/
def contigEnd (s : PmmState) (limit : Nat) : Nat := min limit s.lowTotal

/-- `pmm_alloc_contig`. -/
def pmmAllocContig (s : PmmState) (n limit : Nat) : Nat × PmmState :=
  if n = 0 then (0, s)
  else
    match contigLoop s.bitmap n (s.contigEnd limit) (s.contigEnd limit) 1 0 with
    | some found => (u32 (found * pageSize), (List.range' found n).foldl take s)
    | none => (0, s)

/-! ## Freeing and reference counts -/

/-- The frame of a physical address. -/
def frameOf (phys : Nat) : Nat := u32 (phys / pageSize)

/-- `pmm_free_frame`: the frame goes into the ring, and once that is full the oldest one in it gets
free. -/
def pmmFreeFrame (s : PmmState) (phys : Nat) : PmmState :=
  if s.total ≤ frameOf phys then s
  else if s.quarN < pmmQuarantine then
    { s with quar := Function.update s.quar s.quarN (frameOf phys), quarN := s.quarN + 1 }
  else
    { s with quar := Function.update s.quar s.quarPos (frameOf phys)
             quarPos := (s.quarPos + 1) % pmmQuarantine }.markFree (s.quar s.quarPos)

/-- `pmm_reserve_region`. -/
def pmmReserveRegion (s : PmmState) (phys size : Nat) : PmmState := s.usedRegion phys size

/-- `pmm_refcount_init`, with memory for the counts or without. -/
def pmmRefcountInit (s : PmmState) (memory : Bool) : PmmState :=
  if memory then { s with refcount := fun _ => 0, refcountFrames := s.total } else s

/-- `pmm_frame_incref`. -/
def pmmFrameIncref (s : PmmState) (phys : Nat) : PmmState :=
  if frameOf phys < s.refcountFrames ∧ s.refcount (frameOf phys) < pmmRefSaturated then
    { s with refcount := Function.update s.refcount (frameOf phys) (s.refcount (frameOf phys) + 1) }
  else s

/-- `pmm_frame_refcount`. -/
def pmmFrameRefcount (s : PmmState) (phys : Nat) : Nat :=
  if s.refcountFrames ≤ frameOf phys then 0 else s.refcount (frameOf phys)

/-- The first half of `pmm_frame_decref`, under the lock: `do_free`, and the count. -/
def countDown (s : PmmState) (i : Nat) : Bool × PmmState :=
  if i < s.refcountFrames ∧ 0 < s.refcount i ∧ s.refcount i < pmmRefSaturated then
    (s.refcount i - 1 == 0, { s with refcount := Function.update s.refcount i (s.refcount i - 1) })
  else (false, s)

/-- `pmm_frame_decref`: whether the frame is released, and the allocator. -/
def pmmFrameDecref (s : PmmState) (phys : Nat) : Bool × PmmState :=
  match s.countDown (frameOf phys) with
  | (true, s') => (true, s'.pmmFreeFrame phys)
  | (false, s') => (false, s')

end PmmState

/-! ## Runs -/

/-- The allocator, the frames that are allocated and those that were freed, newest first. -/
structure Memory where
  pmm : PmmState
  allocated : Finset Nat
  frees : List Nat

inductive PmmEvent
  | allocFrame
  | allocUserFrame
  | allocContig (n limit : Nat)
  | freeFrame (phys : Nat)
  | incref (phys : Nat)
  | decref (phys : Nat)
  | refcountInit (memory : Bool)
  | reserveRegion (phys size : Nat)

namespace Memory

/-- An allocator returned `addr`, the first of `n` frames, or 0. -/
def returned (s : Memory) (n : Nat) (r : Nat × PmmState) : Memory :=
  { s with pmm := r.2
           allocated := if r.1 = 0 then s.allocated
                        else s.allocated ∪ Finset.Ico (r.1 / pageSize) (r.1 / pageSize + n) }

/-- A frame was released. -/
def released (s : Memory) (phys : Nat) (pmm : PmmState) : Memory where
  pmm := pmm
  allocated := s.allocated.erase (PmmState.frameOf phys)
  frees := PmmState.frameOf phys :: s.frees

def apply (s : Memory) : PmmEvent → Memory
  | .allocFrame => s.returned 1 s.pmm.pmmAllocFrame
  | .allocUserFrame => s.returned 1 s.pmm.pmmAllocUserFrame
  | .allocContig n limit => s.returned n (s.pmm.pmmAllocContig n limit)
  | .freeFrame phys => s.released phys (s.pmm.pmmFreeFrame phys)
  | .incref phys => { s with pmm := s.pmm.pmmFrameIncref phys }
  | .decref phys =>
      match s.pmm.pmmFrameDecref phys with
      | (true, pmm) => s.released phys pmm
      | (false, pmm) => { s with pmm := pmm }
  | .refcountInit memory => { s with pmm := s.pmm.pmmRefcountInit memory }
  | .reserveRegion phys size => { s with pmm := s.pmm.pmmReserveRegion phys size }

/-- `pmm_free_frame` is called, also by `pmm_frame_decref`, only for a frame that is allocated. The
reference counts are set up once. -/
def Allowed (s : Memory) : PmmEvent → Prop
  | .freeFrame phys => PmmState.frameOf phys ∈ s.allocated
  | .decref phys => (s.pmm.pmmFrameDecref phys).1 = true → PmmState.frameOf phys ∈ s.allocated
  | .refcountInit _ => s.pmm.refcountFrames = 0
  | _ => True

end Memory

/-- Every machine may boot, and every call may follow. -/
def pmmSystem : System Memory PmmEvent where
  init s := ∃ mb, s = ⟨pmmInit mb, ∅, []⟩
  step s e s' := s.Allowed e ∧ s' = s.apply e

end MaeroOS.Pmm
