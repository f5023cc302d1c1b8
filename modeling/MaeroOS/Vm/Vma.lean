import MaeroOS.Lib.Segments

/-!
# Virtual memory areas

The VMA list of an address space (`proc/syscall.c`): a list of `struct vma` sorted by address, kept
in the record of the process that owns the address space (`mmap_owner`). The functions here are
those that edit and search the list.

A node is allocated with `kmalloc`, which may fail. A `Kmem` says what the calls to come will
answer, first one first; calls past its end succeed, so the empty one is a heap that never runs out.

`Vma.seg` reads a node as a segment of addresses: what it says of the page at an address is a
`PageAttr`. The references to the backing file (`vfs_retain`, `vfs_close`) are not modelled.
-/

namespace MaeroOS.Vm

open Lib (Segment)

def pageSize : Nat := 4096

/-- The `PROT_*` bits of a mapping. Without any it is `PROT_NONE`. -/
structure Prot where
  read : Bool
  write : Bool
  exec : Bool
deriving DecidableEq, Repr

def Prot.none : Prot := ⟨false, false, false⟩

/-- `VMA_F_SHARED`, `VMA_F_NOWRITE`, `VMA_F_SHM`. -/
structure VmaFlags where
  shared : Bool
  nowrite : Bool
  shm : Bool
deriving DecidableEq, Repr

def VmaFlags.none : VmaFlags := ⟨false, false, false⟩

/-- `struct vma`; `stop` is its `end`. A file is named by its node. -/
structure Vma where
  start : Nat
  stop : Nat
  prot : Prot
  flags : VmaFlags
  file : Option Nat
  fileOff : BitVec 64
  fileSize : BitVec 64
deriving DecidableEq, Repr

/-- What `struct proc` has of an address space: the VMA list and `mmap_next`. -/
structure Owner where
  vmas : List Vma
  mmapNext : Nat
deriving DecidableEq, Repr

/-! ## The kernel heap -/

/-- The answers of the next calls to `kmalloc`: is there memory? -/
abbrev Kmem := List Bool

def kmalloc : Kmem → Bool × Kmem
  | [] => (true, [])
  | ok :: m => (ok, m)

/-- No call fails. -/
def Kmem.Plenty (m : Kmem) : Prop := ∀ ok ∈ m, ok = true

theorem Kmem.Plenty.first {m : Kmem} (h : m.Plenty) : (kmalloc m).1 = true := by
  cases m with
  | nil => rfl
  | cons ok m => exact h ok List.mem_cons_self

theorem Kmem.Plenty.rest {m : Kmem} (h : m.Plenty) : Kmem.Plenty (kmalloc m).2 := by
  cases m with
  | nil => exact h
  | cons ok m => exact fun ok' hok' => h ok' (List.mem_cons_of_mem ok hok')

/-! ## One node -/

/-- The node `vma_alloc` makes; `size` is the size of the file. -/
def newVma (start stop : Nat) (prot : Prot) (flags : VmaFlags) (file : Option Nat)
    (fileOff size : BitVec 64) : Vma where
  start := start
  stop := stop
  prot := prot
  flags := flags
  file := file
  fileOff := if file.isSome then fileOff else 0
  fileSize := if file.isSome then size else 0

/-- `vma_alloc`. -/
def vmaAlloc (m : Kmem) (start stop : Nat) (prot : Prot) (flags : VmaFlags) (file : Option Nat)
    (fileOff size : BitVec 64) : Option Vma × Kmem :=
  let (ok, m) := kmalloc m
  (if ok then some (newVma start stop prot flags file fileOff size) else none, m)

namespace Vma

/-- The part of a node from `cut` on. -/
def tail (v : Vma) (cut : Nat) : Vma :=
  newVma cut v.stop v.prot v.flags v.file (v.fileOff + BitVec.ofNat 64 (cut - v.start)) v.fileSize

/-- Both splits allocate the tail and give it the file size of the node it is taken from. -/
def allocTail (v : Vma) (m : Kmem) (cut : Nat) : Option Vma × Kmem :=
  vmaAlloc m cut v.stop v.prot v.flags v.file (v.fileOff + BitVec.ofNat 64 (cut - v.start))
    v.fileSize

theorem allocTail_eq (v : Vma) (m : Kmem) (cut : Nat) :
    v.allocTail m cut = (if (kmalloc m).1 then some (v.tail cut) else none, (kmalloc m).2) := rfl

/-- The left edge goes up to `cut`. -/
def trimLeft (v : Vma) (cut : Nat) : Vma :=
  { v with start := cut
           fileOff :=
             if v.file.isSome then v.fileOff + BitVec.ofNat 64 (cut - v.start) else v.fileOff }

end Vma

/-- `vma_can_merge`. -/
def vmaCanMerge (a b : Vma) : Bool :=
  a.stop = b.start ∧ a.file = none ∧ b.file = none ∧ a.prot = b.prot ∧ a.flags = b.flags

/-! ## Inserting -/

/-- The new node takes its successor in, if they can be one. -/
def mergeSucc (v : Vma) : List Vma → List Vma
  | [] => [v]
  | n :: rest => if vmaCanMerge v n then { v with stop := n.stop } :: rest else v :: n :: rest

/-- The predecessor, which is the last node before, takes the new node in. -/
def mergePred (before : List Vma) : List Vma → List Vma
  | [] => before
  | v :: rest =>
      match before.getLast? with
      | some prev =>
          if vmaCanMerge prev v then before.dropLast ++ { prev with stop := v.stop } :: rest
            else before ++ v :: rest
      | none => v :: rest

/-- `vma_insert`. -/
def vmaInsert (o : Owner) (v : Vma) : Owner :=
  let before := o.vmas.takeWhile (·.start < v.start)
  let after := o.vmas.dropWhile (·.start < v.start)
  { o with vmas := mergePred before (mergeSucc v after)
           mmapNext := max o.mmapNext v.stop }

/-- `vma_add`: `none` is `NULL`. -/
def vmaAdd (o : Owner) (m : Kmem) (start stop : Nat) (prot : Prot) (flags : VmaFlags)
    (file : Option Nat) (fileOff size : BitVec 64) : Option Owner × Kmem :=
  if stop ≤ start then (none, m)
  else
    match vmaAlloc m start stop prot flags file fileOff size with
    | (some v, m) => (some (vmaInsert o v), m)
    | (none, m) => (none, m)

/-- The walk of `vma_merge_all` with `v` under its cursor. -/
def mergeInto (v : Vma) : List Vma → List Vma
  | [] => [v]
  | n :: rest => if vmaCanMerge v n then mergeInto { v with stop := n.stop } rest
      else v :: mergeInto n rest

/-- `vma_merge_all`. -/
def vmaMergeAll : List Vma → List Vma
  | [] => []
  | v :: rest => mergeInto v rest

/-! ## Searching -/

/-- `vma_find`. -/
def vmaFind : List Vma → Nat → Option Vma
  | [], _ => none
  | v :: rest, addr =>
      if v.start ≤ addr then
        if addr < v.stop then some v else vmaFind rest addr
      else none

/-- `vma_prot_lookup`: `none` is -1. -/
def vmaProtLookup (l : List Vma) (addr : Nat) : Option Prot :=
  (vmaFind l (addr / pageSize * pageSize)).map (·.prot)

/-! ## Removing a range -/

/-- The walk of `vma_remove_range`. -/
def removeFrom (start stop : Nat) : List Vma → Kmem → List Vma × Kmem
  | [], m => ([], m)
  | v :: rest, m =>
      if stop ≤ v.start then (v :: rest, m)
      else if v.stop ≤ start then
        let (l, m) := removeFrom start stop rest m
        (v :: l, m)
      else if start ≤ v.start ∧ v.stop ≤ stop then removeFrom start stop rest m
      else if v.start < start ∧ stop < v.stop then
        match v.allocTail m stop with
        -- the next node is the right piece, which starts at `stop`: the walk ends there
        | (some right, m) => ({ v with stop := start } :: right :: rest, m)
        | (none, m) =>
            let (l, m) := removeFrom start stop rest m
            ({ v with stop := start } :: l, m)
      else if v.start < start then
        let (l, m) := removeFrom start stop rest m
        ({ v with stop := start } :: l, m)
      else
        let (l, m) := removeFrom start stop rest m
        (v.trimLeft stop :: l, m)

/-- `vma_remove_range`. -/
def vmaRemoveRange (l : List Vma) (m : Kmem) (start stop : Nat) : List Vma × Kmem :=
  if stop ≤ start then (l, m) else removeFrom start stop l m

/-! ## Changing the protection of a range -/

/-- The second half of a step of `vma_protect_range`: `v` does not start before the range. A tail
past `ce` is split off with the old protection; `next` is the walk over the nodes after `v`. -/
def protectHead (ce : Nat) (prot : Prot) (v : Vma) (rest : List Vma) (next : Kmem → List Vma × Kmem)
    (m : Kmem) : List Vma × Kmem :=
  if ce < v.stop then
    match v.allocTail m ce with
    -- the next node is the right piece, which starts where the range ends: the walk ends there
    | (some right, m) => ({ v with stop := ce, prot } :: right :: rest, m)
    | (none, m) =>
        let (l, m) := next m
        ({ v with prot } :: l, m)
  else
    let (l, m) := next m
    ({ v with prot } :: l, m)

/-- The walk of `vma_protect_range`. -/
def protectFrom (start stop : Nat) (prot : Prot) : List Vma → Kmem → List Vma × Kmem
  | [], m => ([], m)
  | v :: rest, m =>
      if stop ≤ v.start then (v :: rest, m)
      else if v.stop ≤ start ∨ v.prot = prot then
        let (l, m) := protectFrom start stop prot rest m
        (v :: l, m)
      else
        let cs := max v.start start
        let ce := min v.stop stop
        if v.start < cs then
          match v.allocTail m cs with
          | (some mid, m) =>
              let (l, m) :=
                protectHead ce prot mid rest (fun m => protectFrom start stop prot rest m) m
              ({ v with stop := cs } :: l, m)
          -- no memory: the whole node gets the protection
          | (none, m) =>
              let (l, m) := protectFrom start stop prot rest m
              ({ v with prot } :: l, m)
        else protectHead ce prot v rest (fun m => protectFrom start stop prot rest m) m

/-- `vma_protect_range`. -/
def vmaProtectRange (l : List Vma) (m : Kmem) (start stop : Nat) (prot : Prot) : List Vma × Kmem :=
  if stop ≤ start then (l, m)
  else
    let (l, m) := protectFrom start stop prot l m
    (vmaMergeAll l, m)

/-! ## What a node says of its pages -/

/-- The file page behind a page: the node of the file, the offset, and the size the file had. -/
structure Backing where
  file : Nat
  off : BitVec 64
  size : BitVec 64
deriving DecidableEq, Repr

structure PageAttr where
  prot : Prot
  flags : VmaFlags
  backing : Option Backing
deriving DecidableEq, Repr

namespace Vma

/-- The attributes of the page at an address. -/
def attrAt (v : Vma) (addr : Nat) : PageAttr where
  prot := v.prot
  flags := v.flags
  backing := v.file.map fun file => ⟨file, v.fileOff + BitVec.ofNat 64 (addr - v.start), v.fileSize⟩

def seg (v : Vma) : Segment PageAttr := ⟨v.start, v.stop, v.attrAt⟩

theorem has_iff (v : Vma) (addr : Nat) : v.seg.Has addr ↔ v.start ≤ addr ∧ addr < v.stop := Iff.rfl

/-- The node is a non-empty range of whole pages. -/
structure Ok (v : Vma) : Prop where
  lt : v.start < v.stop
  start_dvd : pageSize ∣ v.start
  stop_dvd : pageSize ∣ v.stop

end Vma

end MaeroOS.Vm
