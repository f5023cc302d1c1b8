import Mathlib.Algebra.Group.Nat.Defs
import MaeroOS.Lib.System

/-!
# Split virtqueues

The driver's side of a virtqueue: `virtq_init`, `virtq_add`, `virtq_publish` and `virtq_get_used`.
The descriptors that are not in use are chained by their `next` fields from `free_head` on, and so
are those of a chain that was given to the device; `num_free` and `chain_len` say how long these
lists are, since nothing ends them. The device writes what it likes into the used ring: a step of
the model that reads it is given its contents.

The state also keeps, for no code to read, the chains in the order they were added and which of them
have come back.
-/

namespace MaeroOS.Virtio

open Lib (System)

/-- `VIRTQ_MAX_SIZE`. -/
def virtqMaxSize : Nat := 256

/-- `VIRTQ_DESC_F_NEXT` and `VIRTQ_DESC_F_WRITE`. -/
def descFNext : Nat := 1

def descFWrite : Nat := 2

/-- `VIRTQ_USED_F_NO_NOTIFY`. -/
def usedFNoNotify : Nat := 1

/-- `struct virtq_desc`. -/
structure VirtqDesc where
  addr : Nat
  len : Nat
  flags : Nat
  next : Nat

/-- `struct virtq_buf`. -/
structure VirtqBuf where
  phys : Nat
  len : Nat

/-- What the device has in the used ring when the driver looks: `struct virtq_used`. -/
structure VirtqUsed where
  flags : Nat
  idx : Nat
  id : Nat → Nat
  len : Nat → Nat

/-- `struct virtqueue` with the descriptor table and the available ring. A cookie is an address. -/
structure Virtqueue where
  size : Nat
  desc : Nat → VirtqDesc
  availIdxShared : Nat
  availRing : Nat → Nat
  freeHead : Nat
  numFree : Nat
  availIdx : Nat
  published : Nat
  lastUsed : Nat
  cookie : Nat → Nat
  chainLen : Nat → Nat

/-- The memory of a queue before `virtq_init`. -/
structure Areas where
  desc : Nat → VirtqDesc
  availRing : Nat → Nat
  cookie : Nat → Nat
  chainLen : Nat → Nat

/-- `virtq_init`. -/
def virtqInit (size : Nat) (m : Areas) : Virtqueue where
  size := size
  desc i := if i < size then ⟨0, 0, 0, (i + 1) % 2 ^ 16⟩ else m.desc i
  availIdxShared := 0
  availRing := m.availRing
  freeHead := 0
  numFree := size
  availIdx := 0
  published := 0
  lastUsed := 0
  cookie i := if i < size then 0 else m.cookie i
  chainLen i := if i < size then 0 else m.chainLen i

/-- The flags of buffer `i` of a chain of `n`, `nOut` of them for the device to read. -/
def descFlags (nOut n i : Nat) : Nat :=
  (if nOut ≤ i then descFWrite else 0) ||| (if i + 1 < n then descFNext else 0)

/-- The loop of `virtq_add`: `k` more buffers from number `i` on, into the free list from `d` on. -/
def fillChain (bufs : Nat → VirtqBuf) (nOut n : Nat) :
    Nat → Nat → Nat → (Nat → VirtqDesc) → (Nat → VirtqDesc) × Nat
  | 0, _, d, desc => (desc, d)
  | k + 1, i, d, desc =>
      fillChain bufs nOut n k (i + 1) (desc d).next
        (Function.update desc d ⟨(bufs i).phys, (bufs i).len, descFlags nOut n i, (desc d).next⟩)

/-- The index of a ring slot, `idx & (size - 1)`. -/
def ringSlot (size idx : Nat) : Nat := idx &&& (size - 1)

/-- The rest of `virtq_add`, for a chain of `n` descriptors that are free. -/
def addChain (vq : Virtqueue) (bufs : Nat → VirtqBuf) (nOut n cookie : Nat) : Virtqueue :=
  { vq with
    desc := (fillChain bufs nOut n n 0 vq.freeHead vq.desc).1
    freeHead := (fillChain bufs nOut n n 0 vq.freeHead vq.desc).2
    numFree := vq.numFree - n
    cookie := Function.update vq.cookie vq.freeHead cookie
    chainLen := Function.update vq.chainLen vq.freeHead (n % 2 ^ 16)
    availRing := Function.update vq.availRing (ringSlot vq.size vq.availIdx) vq.freeHead
    availIdx := (vq.availIdx + 1) % 2 ^ 16 }

/-- The length of the chain, in 32 bits. -/
def chainCount (nOut nIn : Nat) : Nat := (nOut + nIn) % 2 ^ 32

/-- `virtq_add`: the head of the chain, or `none` for -1. -/
def virtqAdd (vq : Virtqueue) (bufs : Nat → VirtqBuf) (nOut nIn cookie : Nat) :
    Option Nat × Virtqueue :=
  if chainCount nOut nIn = 0 ∨ vq.numFree < chainCount nOut nIn then (none, vq)
  else (some vq.freeHead, addChain vq bufs nOut (chainCount nOut nIn) cookie)

/-- `virtq_publish`: whether the device wants a notification. -/
def virtqPublish (vq : Virtqueue) (used : VirtqUsed) : Bool × Virtqueue :=
  if vq.availIdx = vq.published then (false, vq)
  else (used.flags &&& usedFNoNotify = 0,
    { vq with availIdxShared := vq.availIdx, published := vq.availIdx })

/-- The walk to the last descriptor of a chain. -/
def chainTail (desc : Nat → VirtqDesc) : Nat → Nat → Nat
  | 0, d => d
  | k + 1, d => chainTail desc k (desc d).next

/-- The chain with head `id` is put in front of the free list. -/
def freeChain (vq : Virtqueue) (id : Nat) : Virtqueue :=
  { vq with
    desc := Function.update vq.desc (chainTail vq.desc (vq.chainLen id - 1) id)
      { vq.desc (chainTail vq.desc (vq.chainLen id - 1) id) with next := vq.freeHead }
    freeHead := id
    numFree := (vq.numFree + vq.chainLen id) % 2 ^ 16
    chainLen := Function.update vq.chainLen id 0
    cookie := Function.update vq.cookie id 0 }

/-- The used entry the driver looks at next. -/
def usedId (vq : Virtqueue) (used : VirtqUsed) : Nat := used.id (ringSlot vq.size vq.lastUsed)

/-- Whether `virtq_get_used` takes the entry, or drops it as a device bug. -/
def takesEntry (vq : Virtqueue) (used : VirtqUsed) : Bool :=
  decide (usedId vq used < vq.size) && decide (vq.chainLen (usedId vq used) ≠ 0)

/-- `virtq_get_used`: the cookie and the length of the entry, `none` for NULL. -/
def virtqGetUsed (vq : Virtqueue) (used : VirtqUsed) : Option (Nat × Nat) × Virtqueue :=
  if used.idx = vq.lastUsed then (none, vq)
  else if takesEntry vq used then
    (some (vq.cookie (usedId vq used), used.len (ringSlot vq.size vq.lastUsed)),
      freeChain { vq with lastUsed := (vq.lastUsed + 1) % 2 ^ 16 } (usedId vq used))
  else (none, { vq with lastUsed := (vq.lastUsed + 1) % 2 ^ 16 })

/-! ## The system -/

/-- A chain that was added. -/
structure Added where
  head : Nat
  cookie : Nat

/-- A cookie that came back: for which chain, by number, in an entry that named which head. -/
structure Returned where
  serial : Nat
  id : Nat
  cookie : Nat

/-- A queue, the chains added so far (numbered from 0), the number of the chain last added at each
head, and the cookies that came back. -/
structure VqState where
  vq : Virtqueue
  added : List Added
  serial : Nat → Nat
  returned : List Returned

inductive VqEvent
  | add (bufs : Nat → VirtqBuf) (nOut nIn cookie : Nat)
  | publish (used : VirtqUsed)
  | getUsed (used : VirtqUsed)

/-- A call of the driver. -/
def VqEvent.apply (s : VqState) : VqEvent → VqState
  | add bufs nOut nIn cookie =>
      match virtqAdd s.vq bufs nOut nIn cookie with
      | (none, vq) => { s with vq := vq }
      | (some head, vq) =>
          { s with
            vq := vq
            added := s.added ++ [⟨head, cookie⟩]
            serial := Function.update s.serial head s.added.length }
  | publish used => { s with vq := (virtqPublish s.vq used).2 }
  | getUsed used =>
      match virtqGetUsed s.vq used with
      | (none, vq) => { s with vq := vq }
      | (some (cookie, _), vq) =>
          { s with
            vq := vq
            returned := ⟨s.serial (usedId s.vq used), usedId s.vq used, cookie⟩ :: s.returned }

/-- A queue that `virtq_init` has just laid out. -/
def newQueue (size : Nat) (m : Areas) : VqState := ⟨virtqInit size m, [], fun _ => 0, []⟩

/-- Queues of every power-of-two size, under every sequence of calls, against any device. -/
def vqSystem : System VqState VqEvent where
  init s := ∃ k m, 2 ^ k ≤ virtqMaxSize ∧ s = newQueue (2 ^ k) m
  step s e s' := s' = e.apply s

end MaeroOS.Virtio
