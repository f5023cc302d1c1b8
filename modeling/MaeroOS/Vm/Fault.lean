import MaeroOS.Vm.Mmap

/-!
# Page faults

`page_fault_handler` of `arch/i686/mm/paging.c`, for addresses below `KERNEL_VMA`: the break of
copy-on-write, the retries after a stale TLB entry, the population of mappings on demand and the
growth of the stack, tried in this order on the same fault. What comes after them (the fixup of a
kernel copy, SIGSEGV) is `unresolved`.

An access of user mode is what the processor makes of the entry of its page (`Access.granted`), and
the error code of its fault is `Access.error`. Every table below `KERNEL_VMA` is there for user
mode. The processor may still hold an entry that has changed since, so the present bit of the error
code need not be that of the entry.
-/

namespace MaeroOS.Vm

/-- The bits of the error code. -/
structure PfErr where
  present : Bool
  write : Bool
  user : Bool
  fetch : Bool
deriving DecidableEq, Repr

/-- An access of user mode. -/
inductive Access
  | read | write | fetch
deriving DecidableEq, Repr

namespace Access

/-- The processor lets the access through; `nxe` says that it knows the NX bit. -/
def granted (nxe : Bool) (a : Access) (e : PteFlags) : Bool :=
  e.present && e.user &&
    match a with
    | read => true
    | write => e.writable
    | fetch => !(nxe && e.nx)

/-- The error code of the fault. A fetch is told from a read only where there is an NX bit. -/
def error (nxe : Bool) (a : Access) (present : Bool) : PfErr :=
  { present, write := decide (a = write), user := true, fetch := nxe && decide (a = fetch) }

end Access

/-- The protection of a mapping allows the access. -/
def Prot.allows (prot : Prot) : Access → Bool
  | .read => prot.read
  | .write => prot.write
  | .fetch => prot.exec

/-- How the handler ends. -/
inductive FaultEnd
  /-- The access is tried again. -/
  | retry
  /-- No memory for a copy: the process is killed, or the system call gets its fixup. -/
  | oom
  /-- SIGSEGV for a user access. -/
  | unresolved
deriving DecidableEq, Repr

/-- The flags a page of the stack is mapped with. -/
def stackFlags (exec : Bool) : PteFlags :=
  { PteFlags.none with present := true, writable := true, user := true, nx := !exec }

namespace Mm

/-- The break of copy-on-write at page `p`. A frame with no other reference is used again. -/
def cowBreak (s : Mm) (p : Nat) : FaultEnd × Mm :=
  let pte := s.pt.pteRead p
  if s.frames.refcount pte.frame = 1 then
    (.retry, s.setPte p { pte with cow := false, writable := true })
  else
    match s.allocFrame with
    | (none, s) => (.oom, s)
    | (some f, s) =>
        let flags :=
          { PteFlags.none with present := true, writable := true, user := true, nx := pte.nx }
        (.retry, (((s.fill f (s.frames.data pte.frame)).incref f).setPte p
          { flags with frame := f }).decref pte.frame)

/-- The growth of the stack at page `p`. -/
def growStack (s : Mm) (p : Nat) : FaultEnd × Mm :=
  if (s.pt.pteRead p).present then (.retry, s)
  else
    match s.mapFresh p zeroPage (stackFlags s.stackExec) with
    | (true, s) => (.retry, s)
    | (false, s) => (.unresolved, s)

/-- The window in which the stack grows. -/
def inStackWindow (cr2 : Nat) : Bool := stackGrowFloor ≤ cr2 ∧ cr2 < userStackBase

/-- A fault on a page that is not present. -/
def notPresentFault (s : Mm) (cr2 : Nat) : FaultEnd × Mm :=
  if (s.pt.pteRead (cr2 / pageSize)).protnone then (.unresolved, s)
  else
    match s.vmaHandleFault cr2 with
    | (true, s) => (.retry, s)
    | (false, s) => if inStackWindow cr2 then s.growStack (cr2 / pageSize) else (.unresolved, s)

/-- A write to a copy-on-write page that its mapping lets be written. -/
def cowWanted (s : Mm) (cr2 : Nat) : Bool :=
  let pte := s.pt.pteRead (cr2 / pageSize)
  pte.present && pte.cow && !pte.wrprot && (vmaProtLookup s.owner.vmas cr2).all (·.write)

/-- `page_fault_handler`, at an address below `KERNEL_VMA`. -/
def pageFaultHandler (s : Mm) (err : PfErr) (cr2 : Nat) : FaultEnd × Mm :=
  let pte := s.pt.pteRead (cr2 / pageSize)
  let userOk := !err.user || pte.user
  if err.present ∧ err.write ∧ s.cowWanted cr2 then s.cowBreak (cr2 / pageSize)
  else if err.present ∧ err.write ∧ userOk ∧ pte.present ∧ pte.writable ∧ pte.cow = false then
    (.retry, s)
  else if err.present ∧ err.fetch ∧ userOk ∧ pte.present ∧ pte.nx = false then (.retry, s)
  else if err.present then (.unresolved, s)
  else s.notPresentFault cr2

end Mm

end MaeroOS.Vm
