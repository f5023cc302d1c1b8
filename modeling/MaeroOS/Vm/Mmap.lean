import MaeroOS.Vm.Space

/-!
# The memory system calls

`mmap2`, `munmap` and `mprotect` of `proc/syscall.c`, with the registry of shared file mappings they
use and the population of pages on a fault. A call takes the `Mm` it finds and answers with a value
or an error and the `Mm` it leaves.
-/

namespace MaeroOS.Vm

/-! ## The registry of shared file mappings -/

/-- `SHMAP_MAX_PAGES`. -/
def shmapMaxPages : Nat := 0x100000

namespace ShmapEntry

/-- `shmap_peek`: 0 if the page has no frame yet. -/
def peek (e : ShmapEntry) (pg : Nat) : Nat := if pg < e.npages then e.frames pg else 0

/-- The entry of a node nothing is mapped of. -/
def fresh (node : Nat) : ShmapEntry := ⟨node, fun _ => 0, 0, false⟩

/-- The table of frames is copied to a longer one. -/
def grow (e : ShmapEntry) (newn : Nat) : ShmapEntry :=
  { e with frames := fun pg => if pg < e.npages then e.frames pg else 0
           npages := newn }

/-- The length of the table that has room for a page. -/
def grown (e : ShmapEntry) (pg : Nat) : Nat :=
  let newn := if e.npages ≠ 0 then e.npages * 2 else 16
  min (max newn (pg + 16)) shmapMaxPages

end ShmapEntry

namespace Mm

/-- `shmap_lookup`: the slot of the node. -/
def shmapLookup (s : Mm) (node : Nat) : Option Nat :=
  s.shmaps.findIdx? fun e => e.any (·.node = node)

/-- The entry in a slot. -/
def shmapAt (s : Mm) (i : Nat) : Option ShmapEntry := s.shmaps[i]?.join

def setShmap (s : Mm) (i : Nat) (e : Option ShmapEntry) : Mm :=
  { s with shmaps := s.shmaps.set i e }

/-- `shmap_unmapped`: only the registry has references to the frames. -/
def shmapUnmapped (s : Mm) (e : ShmapEntry) : Bool :=
  (List.range e.npages).all fun pg => e.frames pg = 0 || s.frames.refcount (e.frames pg) ≤ 1

/-- `shmap_release`. -/
def shmapRelease (s : Mm) (i : Nat) (e : ShmapEntry) : Mm :=
  ((List.range e.npages).foldl (fun s pg => if e.frames pg ≠ 0 then s.decref (e.frames pg) else s)
    s).setShmap i none

/-- `shmap_lookup_fresh`: an entry that is only a stale copy of the file is dropped. -/
def shmapLookupFresh (s : Mm) (node : Nat) : Option Nat × Mm :=
  match s.shmapLookup node with
  | none => (none, s)
  | some i =>
      match s.shmapAt i with
      | none => (none, s)
      | some e =>
          if s.files.shmem node = false ∧ e.mayWrite = false ∧ s.shmapUnmapped e = true then
            (none, s.shmapRelease i e)
          else (some i, s)

/-- The search for a slot whose entry is dead (`shmap_try_reclaim`). -/
def shmapReclaim (s : Mm) : List Nat → Option Nat × Mm
  | [] => (none, s)
  | i :: is =>
      match s.shmapAt i with
      | none => shmapReclaim s is
      | some e =>
          if s.files.openFd e.node = false ∧ s.shmapUnmapped e = true then
            (some i, s.shmapRelease i e)
          else shmapReclaim s is

/-- `shmap_get`. -/
def shmapGet (s : Mm) (node : Nat) : Option Nat × Mm :=
  match s.shmapLookupFresh node with
  | (some i, s) => (some i, s)
  | (none, s) =>
      match s.shmaps.findIdx? (·.isNone) with
      | some i => (some i, s.setShmap i (some (.fresh node)))
      | none =>
          match s.shmapReclaim (List.range s.shmaps.length) with
          | (some i, s) => (some i, s.setShmap i (some (.fresh node)))
          | (none, s) => (none, s)

/-- The first half of `shmap_frame`: the table of frames has room for the page. -/
def shmapRoom (s : Mm) (i : Nat) (e : ShmapEntry) (pg : Nat) : Option ShmapEntry × Mm :=
  if pg < e.npages then (some e, s)
  else
    let (ok, kmem) := kmalloc s.kmem
    let s := { s with kmem }
    if ok then (some (e.grow (e.grown pg)), s.setShmap i (some (e.grow (e.grown pg))))
      else (none, s)

/-- The bytes of page `pg` of a file. -/
def filePage (s : Mm) (node pg : Nat) : Page := fun k => s.files.byte node (pg * pageSize + k)

/-- `shmap_frame`: the frame of a page of the file, which the first touch allocates and fills. -/
def shmapFrame (s : Mm) (i node pg : Nat) : Option Nat × Mm :=
  if shmapMaxPages ≤ pg then (none, s)
  else
    match s.shmapAt i with
    | none => (none, s)
    | some e =>
        match s.shmapRoom i e pg with
        | (none, s) => (none, s)
        | (some e, s) =>
            if e.frames pg ≠ 0 then (some (e.frames pg), s)
            else
              match s.allocFrame with
              | (none, s) => (none, s)
              | (some f, s) =>
                  let page := if s.files.shmem node then zeroPage else s.filePage node pg
                  (some f, ((s.incref f).fill f page).setShmap i
                    (some { e with frames := Function.update e.frames pg f }))

/-! ## Pages on demand -/

/-- What `vma_populate_page` fills a page of a file mapping with: the shared frame if there is one,
or the file. -/
def populateData (s : Mm) (v : Vma) (node : Nat) (entry : Option ShmapEntry) (addr : Nat) : Page :=
  let foff := (v.fileOff + BitVec.ofNat 64 (addr - v.start)).toNat
  let sf := match entry with
    | some e => if foff / pageSize < shmapMaxPages then e.peek (foff / pageSize) else 0
    | none => 0
  if sf ≠ 0 then s.frames.data sf
  else fun k => if foff + k < v.fileSize.toNat then s.files.byte node (foff + k) else 0

/-- `vma_populate_page`: page `p` of a private mapping. -/
def vmaPopulatePage (s : Mm) (v : Vma) (p : Nat) : Bool × Mm :=
  if (s.pt.pteRead p).mapped then (true, s)
  else
    match s.allocFrame with
    | (none, s) => (false, s)
    | (some f, s) =>
        let s := s.incref f
        let (page, s) := match v.file with
          | none => (zeroPage, s)
          | some node =>
              let (slot, s) := s.shmapLookupFresh node
              (s.populateData v node (slot.bind s.shmapAt) (p * pageSize), s)
        match (s.fill f page).pagingMap p f (pteFlagsFor v.prot false) with
        | (true, s) => (true, s)
        | (false, s) => (false, s.decref f)

/-- `vma_handle_fault`. -/
def vmaHandleFault (s : Mm) (addr : Nat) : Bool × Mm :=
  match vmaFind s.owner.vmas (pageDown addr) with
  | none => (false, s)
  | some v => if v.prot = Prot.none ∨ v.flags.shared = true then (false, s)
      else s.vmaPopulatePage v (addr / pageSize)

end Mm

/-! ## `mmap` -/

inductive NodeKind
  | file | fb0 | alsa
deriving DecidableEq, Repr

/-- An open descriptor, as `mmap` looks at it. -/
structure FdInfo where
  node : Nat
  kind : NodeKind
  readable : Bool
  /-- Opened `O_RDWR`. -/
  rdwr : Bool
deriving DecidableEq, Repr

/-- The arguments of `mmap2`. `fd` is what the descriptor names, if it names a file. -/
structure MmapArgs where
  addr : Nat
  length : Nat
  prot : Prot
  anon : Bool
  shared : Bool
  fixed : Bool
  noreplace : Bool
  fd : Option FdInfo
  pgoff : Nat
deriving DecidableEq, Repr

/-- `proc_prot_adjust`. -/
def protAdjust (rie : Bool) (prot : Prot) : Prot :=
  if rie ∧ prot.read then { prot with exec := true } else prot

/-- The checks on the descriptor and the offset. `length` is in whole pages. -/
def MmapArgs.checkFd (a : MmapArgs) (prot : Prot) (length : Nat) : Except Errno (Option FdInfo) :=
  if a.anon then .ok none
  else
    match a.fd with
    | none => .error .ebadf
    | some fd =>
        if fd.kind = .alsa then .error .enxio
        else if fd.readable = false then .error .eacces
        else if a.shared ∧ prot.write ∧ fd.rdwr = false then .error .eacces
        else if fd.kind = .fb0 ∧ prot.write ∧ fd.rdwr = false then .error .eacces
        else if 0xFFFFFFFF < a.pgoff + length / pageSize then .error .eoverflow
        else if a.shared ∧ fd.kind ≠ .fb0 ∧ shmapMaxPages < a.pgoff + length / pageSize then
          .error .enomem
        else .ok (some fd)

/-- `VMA_F_NOWRITE` of the new mapping. -/
def MmapArgs.nowrite (a : MmapArgs) (fd : Option FdInfo) : Bool :=
  match fd with
  | none => false
  | some fd => (a.shared || fd.kind = .fb0) && !fd.rdwr

namespace Mm

/-- The choice of the address. `MAP_FIXED` replaces what is there. -/
def mmapPlace (s : Mm) (a : MmapArgs) (length : Nat) : Ret × Mm :=
  if a.fixed ∨ a.noreplace then
    if a.addr % pageSize ≠ 0 then (.error .einval, s)
    else if a.addr < userMinAddr then (.error .eperm, s)
    else if u32 (a.addr + length) < a.addr ∨ userStackBase < u32 (a.addr + length) then
      (.error .enomem, s)
    else if a.noreplace then
      if s.vmaRangeFree a.addr length then (.ok a.addr, s) else (.error .eexist, s)
    else (.ok a.addr, s.unmapRange a.addr (a.addr + length))
  else
    let hint := pageDown a.addr
    if hint ≠ 0 ∧ mmapFloor ≤ hint ∧ hint < u32 (hint + length) ∧ u32 (hint + length) ≤ mmapTop ∧
        s.vmaRangeFree hint length then (.ok hint, s)
    else
      let align := if a.anon ∧ 0x100000 ≤ length then 0x100000 else pageSize
      match (s.vmaGapFind length align).or (if align ≠ pageSize then s.vmaGapFind length pageSize
        else none) with
      | some va => (.ok va, s)
      | none => (.error .enomem, s)

/-- The loops that map a range page by page stop at the first failure. -/
def mapLoop (one : Nat → Mm → Bool × Mm) : List Nat → Mm → Bool × Mm
  | [], s => (true, s)
  | i :: is, s =>
      match one i s with
      | (true, s) => mapLoop one is s
      | (false, s) => (false, s)

end Mm

/-- Where `mmap` is when it is done but for the undoing: it has its answer, or it has to unmap the
range and answer with `-ENOMEM`. -/
inductive MmapEnd
  | done (ret : Ret) (s : Mm)
  | undo (va stop : Nat) (s : Mm)

def MmapEnd.finish : MmapEnd → Ret × Mm
  | .done ret s => (ret, s)
  | .undo va stop s => (.error .enomem, s.unmapRange va stop)

namespace Mm

/-- A mapping is populated at once; it is undone if a page could not be mapped. -/
def mapOrUndo (s : Mm) (va stop : Nat) (one : Nat → Mm → Bool × Mm) : MmapEnd :=
  match mapLoop one (List.range ((stop - va) / pageSize)) s with
  | (true, s) => .done (.ok va) s
  | (false, s) => .undo va stop s

/-- `fb_flags`. -/
def fb0Flags (cached : Bool) (prot : Prot) (nowrite : Bool) : PteFlags :=
  { PteFlags.none with present := true, user := true, shared := true, nx := true, nocache := !cached
                       writable := prot.write, ro := nowrite }

/-- A page of the framebuffer is mapped. -/
def mapFb0Page (va : Nat) (prot : Prot) (nowrite : Bool) (i : Nat) (s : Mm) : Bool × Mm :=
  let f := if pmmRefLimit ≤ s.frames.refcount (s.fb.pagePhys i) then 0 else s.fb.pagePhys i
  if f = 0 then (false, s)
  else
    let s := if s.fb.cached then s.incref f else s
    match s.pagingMap (va / pageSize + i) f (fb0Flags s.fb.cached prot nowrite) with
    | (true, s) => (true, s)
    | (false, s) => (false, if s.fb.cached then s.decref f else s)

def mmapFb0 (s : Mm) (va length : Nat) (prot : Prot) (nowrite : Bool) : MmapEnd :=
  if s.fb.phys = 0 then .done (.error .enodev) s
  else
    let stop := va + min length (pageUp s.fb.size)
    match s.addVma va stop prot { VmaFlags.none with shared := true, nowrite } none 0 with
    | (false, s) => .done (.error .enomem) s
    | (true, s) => s.mapOrUndo va stop (mapFb0Page va prot nowrite)

/-- A page of a file's shared frames is mapped. -/
def mapSharedPage (va slot node pgoff : Nat) (flags : PteFlags) (i : Nat) (s : Mm) : Bool × Mm :=
  match s.shmapFrame slot node (pgoff + i) with
  | (none, s) => (false, s)
  | (some f, s) =>
      if pmmRefLimit ≤ s.frames.refcount f then (false, s)
      else
        match (s.incref f).pagingMap (va / pageSize + i) f flags with
        | (true, s) => (true, s)
        | (false, s) => (false, s.decref f)

def mmapShared (s : Mm) (va length node pgoff : Nat) (prot : Prot) (nowrite : Bool) : MmapEnd :=
  match s.shmapGet node with
  | (none, s) => .done (.error .enomem) s
  | (some slot, s) =>
      let s := if prot.write ∨ nowrite = false then
          s.setShmap slot ((s.shmapAt slot).map fun e => { e with mayWrite := true })
        else s
      match s.addVma va (va + length) prot { VmaFlags.none with shared := true, nowrite }
        none 0 with
      | (false, s) => .done (.error .enomem) s
      | (true, s) => s.mapOrUndo va (va + length)
          (mapSharedPage va slot node pgoff { pteFlagsFor prot true with ro := nowrite })

def mmapSharedAnon (s : Mm) (va length : Nat) (prot : Prot) : MmapEnd :=
  match s.addVma va (va + length) prot { VmaFlags.none with shared := true } none 0 with
  | (false, s) => .done (.error .enomem) s
  | (true, s) => s.mapOrUndo va (va + length)
      (fun i s => s.mapFresh (va / pageSize + i) zeroPage (pteFlagsFor prot true))

/-- A private mapping is recorded; its pages come with the first touch. -/
def mmapPrivate (s : Mm) (va length : Nat) (prot : Prot) (file : Option Nat) (pgoff : Nat) :
    MmapEnd :=
  match s.addVma va (va + length) prot .none file (BitVec.ofNat 64 (pgoff * pageSize)) with
  | (false, s) => .done (.error .enomem) s
  | (true, s) => .done (.ok va) s

/-- The first half of `sys_mmap2`: the checks, and the choice of the address. -/
def mmapStart (s : Mm) (a : MmapArgs) : Except Errno (Option FdInfo × Nat) × Mm :=
  if a.length = 0 then (.error .einval, s)
  else if kernelVma < a.length then (.error .enomem, s)
  else
    match a.checkFd (protAdjust s.rie a.prot) (pageUp a.length) with
    | .error err => (.error err, s)
    | .ok fd =>
        match s.mmapPlace a (pageUp a.length) with
        | (.error err, s) => (.error err, s)
        | (.ok va, s) => (.ok (fd, va), s)

/-- The second half: the mapping is recorded and, if it is shared, populated. -/
def mmapAt (s : Mm) (a : MmapArgs) (fd : Option FdInfo) (va : Nat) : MmapEnd :=
  let prot := protAdjust s.rie a.prot
  let length := pageUp a.length
  match fd with
  | some fd =>
      if fd.kind = .fb0 then s.mmapFb0 va length prot (a.nowrite (some fd))
      else if a.shared then s.mmapShared va length fd.node a.pgoff prot (a.nowrite (some fd))
      else s.mmapPrivate va length prot (some fd.node) a.pgoff
  | none => if a.shared then s.mmapSharedAnon va length prot
      else s.mmapPrivate va length prot none 0

/-- `sys_mmap2` but for the undoing. -/
def mmapRun (s : Mm) (a : MmapArgs) : MmapEnd :=
  match s.mmapStart a with
  | (.error err, s) => .done (.error err) s
  | (.ok (fd, va), s) => s.mmapAt a fd va

/-- `sys_mmap2`. -/
def sysMmap2 (s : Mm) (a : MmapArgs) : Ret × Mm := (s.mmapRun a).finish

/-! ## `munmap`, `mprotect` -/

/-- `sys_munmap`. -/
def sysMunmap (s : Mm) (addr len : Nat) : Ret × Mm :=
  if addr % pageSize ≠ 0 then (.error .einval, s)
  else if len = 0 then (.error .einval, s)
  else if u32 (addr + pageUp len) < addr ∨ kernelVma < u32 (addr + pageUp len) then
    (.error .einval, s)
  else (.ok 0, s.unmapRange addr (addr + pageUp len))

end Mm

/-- The entry `pte_apply_prot` makes of one. -/
def Pte.applyProt (old : Pte) (prot : Prot) : Pte :=
  let nw := { old with
    present := false, writable := false, protnone := false, wrprot := false, nx := false }
  if prot = Prot.none then { nw with protnone := true, nx := true }
  else if prot.write then { nw with present := true, nx := !prot.exec, writable := !old.cow }
  else { nw with present := true, nx := !prot.exec, wrprot := true }

namespace Mm

/-- `pte_apply_prot`. -/
def pteApplyProt (prot : Prot) (s : Mm) (p : Nat) : Mm :=
  if (s.pt.pteRead p).mapped ∧
    (s.pt.pteRead p).user then s.setPte p ((s.pt.pteRead p).applyProt prot) else s

/-- `sys_mprotect`; `badProt` says that the argument has bits that are not for a protection. -/
def sysMprotect (s : Mm) (addr len : Nat) (prot : Prot) (badProt : Bool) : Ret × Mm :=
  let prot' := protAdjust s.rie prot
  let stop := u32 (addr + pageUp len)
  if addr % pageSize ≠ 0 then (.error .einval, s)
  else if len = 0 then (.ok 0, s)
  else if badProt then (.error .einval, s)
  else if stop < addr ∨ kernelVma < stop then (.error .einval, s)
  else if prot'.write ∧
    (s.owner.vmas.takeWhile (·.start < stop)).any (fun v => addr < v.stop ∧ v.flags.nowrite) then
    (.error .eacces, s)
  else
    let (vmas, kmem) := vmaProtectRange s.owner.vmas s.kmem addr stop prot'
    (.ok 0, (pagesOf addr stop).foldl (pteApplyProt prot') { s.setVmas vmas with kmem })

end Mm

end MaeroOS.Vm
