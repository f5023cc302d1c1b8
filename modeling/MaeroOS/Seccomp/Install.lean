import MaeroOS.Lib.RefChain
import MaeroOS.Lib.System
import MaeroOS.Seccomp.Enter

/-!
# Installing filters

The part of `seccomp.c` that changes a thread: `set_mode_filter` with its synchronisation of the
whole thread group, `set_mode_strict`, `seccomp_fork`, `seccomp_release`, and the points of a
thread's life that call them. Filters live in a heap of reference-counted nodes that the threads'
chains share (`MaeroOS.Lib.RefChain`).

Every function that follows a filter pointer returns an `Option`: `none` is a pointer to a filter
that has been freed.
-/

namespace MaeroOS.Seccomp

open Lib (System)
open Lib.RefChain (Heap)

def maxProcs : Nat := 256
def seccompMaxPathInsns : Nat := 32768
def flagTsync : UInt32 := 1
def flagLog : UInt32 := 2
def flagSpecAllow : UInt32 := 4
def flagTsyncEsrch : UInt32 := 16
def esrch : Int := 3
def eacces : Int := 13
def efault : Int := 14

/-- An address `kmalloc` returned for a `struct seccomp_filter`. -/
abbrev Addr := Nat

/-- An index into `ptable`. -/
abbrev Slot := Fin maxProcs

inductive ProcState where
  | unused
  | embryo
  | runnable
  | running
  | sleeping
  | stopped
  | zombie
  deriving DecidableEq, Repr

/-- What this part of the kernel reads and writes of `struct proc`. -/
structure Thread where
  state : ProcState
  pid : Nat
  tgid : Nat
  euid : Nat
  noNewPrivs : Bool
  mode : Mode
  filter : Option Addr

structure Kernel where
  ptable : Slot → Thread
  nextPid : Nat
  heap : Heap Addr SeccompFilter

namespace Kernel

def setThread (k : Kernel) (i : Slot) (t : Thread) : Kernel :=
  { k with ptable := Function.update k.ptable i t }

def setHeap (k : Kernel) (h : Heap Addr SeccompFilter) : Kernel := { k with heap := h }

/-- The filters of a thread, newest first, each with its address. -/
def chain (k : Kernel) (i : Slot) : Option (List (Addr × SeccompFilter)) :=
  k.heap.chain (k.ptable i).filter

end Kernel

/-- Neither `PROC_UNUSED` nor `PROC_ZOMBIE`. -/
def Thread.Live (t : Thread) : Prop := t.state ≠ .unused ∧ t.state ≠ .zombie

instance (t : Thread) : Decidable t.Live := inferInstanceAs (Decidable (_ ∧ _))

def filterPut (k : Kernel) (f : Option Addr) : Option Kernel :=
  (Heap.put k.heap.live.card k.heap f).map k.setHeap

def seccompFork (k : Kernel) (child parent : Slot) : Option Kernel :=
  let p := k.ptable parent
  let k' := k.setThread child
    { k.ptable child with noNewPrivs := p.noNewPrivs, mode := p.mode, filter := p.filter }
  (k'.heap.get p.filter).map k'.setHeap

def seccompRelease (k : Kernel) (p : Slot) : Option Kernel :=
  filterPut (k.setThread p { k.ptable p with filter := none }) (k.ptable p).filter

/-- Is `anc` (possibly null) on the chain that starts at `f`? -/
def isAncestor (h : Heap Addr SeccompFilter) (anc f : Option Addr) : Option Bool :=
  match anc with
  | none => some true
  | some a => (h.chain f).map fun l => (l.map Prod.fst).contains a

def setModeStrict (k : Kernel) (p : Slot) : Int × Kernel :=
  if (k.ptable p).mode ≠ .disabled ∧ (k.ptable p).mode ≠ .strict then (-einval, k)
  else (0, k.setThread p { k.ptable p with mode := .strict })

/-- The slots both loops of `set_mode_filter` look at: the other live threads of the group. -/
def isSibling (k : Kernel) (p q : Slot) : Bool :=
  q ≠ p ∧ (k.ptable q).tgid = (k.ptable p).tgid ∧ (k.ptable q).Live

/-- The first sibling that cannot be moved onto the caller's chain. -/
def tsyncRefuser (k : Kernel) (p : Slot) : List Slot → Option (Option Slot)
  | [] => some none
  | q :: qs =>
      if isSibling k p q then
        match (k.ptable q).mode with
        | .disabled => tsyncRefuser k p qs
        | .strict => some (some q)
        | .filter =>
            match isAncestor k.heap (k.ptable q).filter (k.ptable p).filter with
            | none => none
            | some true => tsyncRefuser k p qs
            | some false => some (some q)
      else tsyncRefuser k p qs

/-- One sibling moves to the new head `f`: `ref_get`, re-point, `filter_put` of the old head. -/
def tsyncMoveOne (k : Kernel) (p : Slot) (f : Addr) (q : Slot) : Option Kernel :=
  match k.heap.get (some f) with
  | none => none
  | some h =>
      match filterPut ((k.setHeap h).setThread q { k.ptable q with filter := some f })
          (k.ptable q).filter with
      | none => none
      | some k' =>
          some (k'.setThread q
            { k'.ptable q with
              noNewPrivs := (k'.ptable p).noNewPrivs || (k'.ptable q).noNewPrivs
              mode := .filter })

def tsyncMove (p : Slot) (f : Addr) : List Slot → Kernel → Option Kernel
  | [], k => some k
  | q :: qs, k =>
      if isSibling k p q then
        match tsyncMoveOne k p f q with
        | none => none
        | some k' => tsyncMove p f qs k'
      else tsyncMove p f qs k

/-- The caller's own reference moves to the new head. -/
def attach (k : Kernel) (p : Slot) (a : Addr) (f : SeccompFilter) : Kernel :=
  (k.setHeap (k.heap.alloc a ⟨1, (k.ptable p).filter, f⟩)).setThread p
    { k.ptable p with mode := .filter, filter := some a }

/-- What each filter on the path is charged, in 32 bits. -/
def pathInsns (f : SeccompFilter) (path : List (Addr × SeccompFilter)) : Nat :=
  (f.insns.length + (path.map fun w => w.2.insns.length + 4).sum) % 2 ^ 32

/-- `set_mode_filter` from the point where the program has been copied in and validated. -/
def installFilter (k : Kernel) (p : Slot) (flags : UInt32) (a : Addr) (f : SeccompFilter) :
    Option (Int × Kernel) :=
  if (k.ptable p).mode ≠ .disabled ∧ (k.ptable p).mode ≠ .filter then some (-einval, k)
  else
    match k.chain p with
    | none => none
    | some path =>
        if seccompMaxPathInsns < pathInsns f path then some (-enomem, k)
        else if flags &&& flagTsync = 0 then some (0, attach k p a f)
        else
          match tsyncRefuser k p (List.finRange maxProcs) with
          | none => none
          | some (some q) =>
              some (if flags &&& flagTsyncEsrch ≠ 0 then -esrch else ((k.ptable q).pid : Int), k)
          | some none =>
              (tsyncMove p a (List.finRange maxProcs) (attach k p a f)).map fun k' => (0, k')

theorem seccompValidate_of_not_neg {alloc : Bool} {prog : List SockFilter}
    (h : ¬ seccompValidate alloc prog < 0) : seccompValidate true prog = 0 := by
  unfold seccompValidate at h ⊢
  split at h
  · exact absurd (by decide) h
  split at h
  · exact absurd (by decide) h
  split at h
  · exact absurd (by decide) h
  split at h
  · exact absurd (by decide) h
  split at h
  · exact absurd (by decide) h
  · next h₀ h₁ h₂ _ _ _ _ => rw [if_neg h₀, if_neg h₁, if_neg h₂, if_neg (by decide)]

/-- What user memory holds at `uprog`: the length, and the instructions if they can be read. -/
structure SockFprog where
  len : UInt16
  filter : Option (Vector SockFilter len.toNat)

/-- `set_mode_filter(flags, uprog)` by the thread `p`. `uprog` is `none` when the pointer is null or
cannot be read; `mem` is what `kmalloc` returns for the filter, and `known` whether it had memory
for the validator. -/
def setModeFilter (k : Kernel) (p : Slot) (flags : UInt32) (uprog : Option SockFprog)
    (mem : Option Addr) (known : Bool) : Option (Int × Kernel) :=
  if flags &&& ~~~(flagTsync ||| flagLog ||| flagSpecAllow ||| flagTsyncEsrch) ≠ 0 then
    some (-einval, k)
  else
    match uprog with
    | none => some (-efault, k)
    | some fprog =>
        if fprog.len = 0 ∨ seccompMaxInsns < fprog.len.toNat then some (-einval, k)
        else if (k.ptable p).noNewPrivs = false ∧ (k.ptable p).euid ≠ 0 then some (-eacces, k)
        else
          match mem, fprog.filter with
          | none, _ => some (-enomem, k)
          | some _, none => some (-efault, k)
          | some a, some insns =>
              if h : seccompValidate known insns.toList < 0 then
                some (seccompValidate known insns.toList, k)
              else
                installFilter k p flags a
                  ⟨insns.toList, flags &&& flagLog ≠ 0, seccompValidate_of_not_neg h⟩

/-! ## The life of a thread -/

/-- `allocproc` on a free slot: everything zero but the state and the ids. -/
def allocproc (k : Kernel) (i : Slot) : Kernel :=
  { k.setThread i ⟨.embryo, k.nextPid, k.nextPid, 0, false, .disabled, none⟩ with
    nextPid := k.nextPid + 1 }

/-- `fork` and `clone` up to where the child is complete for this part of the kernel. -/
def fork (k : Kernel) (parent child : Slot) (thread : Bool) : Option Kernel :=
  let k' := allocproc k child
  let k' := k'.setThread child { k'.ptable child with euid := (k.ptable parent).euid }
  (seccompFork k' child parent).map fun k' =>
    if thread then
      k'.setThread child { k'.ptable child with tgid := (k.ptable parent).tgid }
    else k'

/-- What can happen to the process table and the filters. -/
inductive Event where
  | setModeFilter (p : Slot) (flags : UInt32) (uprog : Option SockFprog) (mem : Option Addr)
      (known : Bool)
  | setModeStrict (p : Slot)
  | setNoNewPrivs (p : Slot)
  | setEuid (p : Slot) (euid : Nat)
  | create (i : Slot)
  | fork (parent child : Slot) (thread : Bool)
  | forkAbort (child : Slot)
  | schedule (i : Slot) (state : ProcState)
  | exit (p : Slot)
  | seccompRelease (p : Slot)
  | procRelease (p : Slot)

/-- Where the kernel can be when the event happens. A filter's memory is not in use already; a
thread makes system calls only while it runs; its filters are released in `proc_exit`, after it has
become a zombie, or when it never came to run. -/
def Event.Enabled (k : Kernel) : Event → Prop
  | setModeFilter p _ _ mem _ =>
      (k.ptable p).state = .running ∧ ∀ a, mem = some a → a ∉ k.heap.live
  | setModeStrict p | setNoNewPrivs p | setEuid p _ | exit p => (k.ptable p).state = .running
  | create i => (k.ptable i).state = .unused
  | fork parent child _ => (k.ptable parent).state = .running ∧ (k.ptable child).state = .unused
  | forkAbort child => (k.ptable child).state = .embryo
  | schedule i state => (k.ptable i).Live ∧ state ≠ .unused ∧ state ≠ .embryo ∧ state ≠ .zombie
  | seccompRelease p | procRelease p => (k.ptable p).state = .zombie

/-- The result of a system call (0 for the other events) and the state after it. -/
def Event.apply (k : Kernel) : Event → Option (Int × Kernel)
  | setModeFilter p flags uprog mem known => Seccomp.setModeFilter k p flags uprog mem known
  | setModeStrict p => some (Seccomp.setModeStrict k p)
  | setNoNewPrivs p => some (0, k.setThread p { k.ptable p with noNewPrivs := true })
  | setEuid p euid => some (0, k.setThread p { k.ptable p with euid := euid })
  | create i => some (0, allocproc k i)
  | fork parent child thread => (Seccomp.fork k parent child thread).map fun k' => (0, k')
  | forkAbort child =>
      (Seccomp.seccompRelease k child).map fun k' =>
        (0, k'.setThread child { k'.ptable child with state := .unused })
  | schedule i state => some (0, k.setThread i { k.ptable i with state := state })
  | exit p => some (0, k.setThread p { k.ptable p with state := .zombie })
  | seccompRelease p => (Seccomp.seccompRelease k p).map fun k' => (0, k')
  | procRelease p =>
      (Seccomp.seccompRelease k p).map fun k' =>
        (0, k'.setThread p { k'.ptable p with state := .unused })

/-- The process table and the filters, from boot on. -/
def system : System Kernel Event where
  init k := (∀ i, (k.ptable i).state = .unused ∧ (k.ptable i).filter = none ∧
    (k.ptable i).mode = .disabled) ∧ k.heap.live = ∅
  step k e k' := e.Enabled k ∧ ∃ r, e.apply k = some (r, k')

end MaeroOS.Seccomp
