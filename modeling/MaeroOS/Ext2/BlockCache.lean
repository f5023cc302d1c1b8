import MaeroOS.Lib.Bytes
import Mathlib.Data.List.Range

/-!
# The block cache

Every block of an instance is read through a cache of sets of four slots, and written through it.
With a journal, a block that the running transaction changed is in the transaction and not yet in
its place on the disk, and is read from there.

A cache is consistent if a slot has what its block reads as (`Dev.Consistent`). For that a block
must not have two slots: a write only gets to one of them. `ext2_cache_claim` takes the first free
slot even before it has seen the block's own, so free slots must come last in a set. They do, since
nothing gives a slot back: what is here keeps it that way.
-/

namespace MaeroOS.Ext2.File

open Lib (Buf)

/-- `ext2_cache_entry_t`. -/
structure Slot where
  blk : Nat
  age : BitVec 32
  valid : Bool
  data : Buf

/-- The device of an instance with what is kept of it in memory. `slots` are the ways of each set,
`jt` the blocks of the running transaction, `raBuf` says that there is a buffer for read-ahead. -/
structure Dev where
  raw : Nat → Buf
  jt : Nat → Option Buf
  ready : Bool
  setmask : Nat
  slots : Nat → Nat → Slot
  age : BitVec 32
  raBuf : Bool

namespace Dev

variable {dev dev' : Dev} {bs blk i s w n : Nat} {buf : Buf}

/-! ## The driver's functions -/

/-- `ext2_cache_set`. -/
def cacheSet (dev : Dev) (blk : Nat) : Nat := blk &&& dev.setmask

/-- `ext2_cache_find`: the way of the slot of a block. -/
def cacheFind (dev : Dev) (blk : Nat) : Option Nat :=
  (List.range 4).find? fun w => (dev.slots (dev.cacheSet blk) w).valid &&
    (dev.slots (dev.cacheSet blk) w).blk == blk

/-- The loop of `ext2_cache_claim`, from way `w` on, `n` of them to go. -/
def claimFrom (set : Nat → Slot) (blk w lru : Nat) : Nat → Nat
  | 0 => lru
  | n + 1 =>
    if (set w).valid && (set w).blk == blk then w
    else if !(set w).valid then w
    else claimFrom set blk (w + 1) (if (set w).age < (set lru).age then w else lru) n

/-- `ext2_cache_claim`. -/
def cacheClaim (dev : Dev) (blk : Nat) : Nat := claimFrom (dev.slots (dev.cacheSet blk)) blk 0 0 4

def putSlot (dev : Dev) (s w : Nat) (slot : Slot) : Dev :=
  { dev with slots := fun s' w' => if s' = s ∧ w' = w then slot else dev.slots s' w' }

/-- `ext2_cache_insert`. -/
def cacheInsert (dev : Dev) (blk : Nat) (buf : Buf) : Dev :=
  if !dev.ready then dev
  else { dev.putSlot (dev.cacheSet blk) (dev.cacheClaim blk) ⟨blk, dev.age, true, buf⟩ with age :=
    dev.age + 1 }

/-- A slot was used. -/
def touch (dev : Dev) (s w : Nat) : Dev :=
  { dev.putSlot s w { dev.slots s w with age := dev.age } with age := dev.age + 1 }

/-- `ext2_cache_lookup`. -/
def cacheLookup (dev : Dev) (blk : Nat) : Option Buf × Dev :=
  match dev.jt blk with
  | some buf => (some buf, dev)
  | none =>
    if dev.ready then
      match dev.cacheFind blk with
      | some w => (some (dev.slots (dev.cacheSet blk) w).data, dev.touch (dev.cacheSet blk) w)
      | none => (none, dev)
    else (none, dev)

/-- `ext2_read_block`. -/
def readBlock (dev : Dev) (blk : Nat) : Buf × Dev :=
  match dev.cacheLookup blk with
  | (some buf, dev) => (buf, dev)
  | (none, dev) => (dev.raw blk, dev.cacheInsert blk (dev.raw blk))

/-- `ext2_raw_read_blocks`: consecutive blocks, past the cache. -/
def rawReadBlocks (bs : Nat) (dev : Dev) (blk : Nat) : Buf :=
  fun i => dev.raw (blk + i / bs) (i % bs)

/-- The loop that puts `n` blocks of a buffer into the cache, from the `r`th on. -/
def insertBlocks (bs blk : Nat) (buf : Buf) (dev : Dev) (r : Nat) : Nat → Dev
  | 0 => dev
  | n + 1 => insertBlocks bs blk buf (dev.cacheInsert (blk + r) fun i => buf (r * bs + i)) (r + 1) n

/-- `ext2_write_data`. `ext2_jt_drop` only reports a block that is in the running transaction, and
leaves it there. -/
def writeData (dev : Dev) (blk : Nat) (buf : Buf) : Dev :=
  { dev with raw := Function.update dev.raw blk buf }.cacheInsert blk buf

/-! ## What a block reads as -/

/-- What a block reads as. -/
def view (dev : Dev) (blk : Nat) : Buf := (dev.jt blk).getD (dev.raw blk)

/-- Each slot is in the set of its block, a block has one slot at most, and free slots come last. -/
structure Placed (dev : Dev) : Prop where
  set : ∀ s w, w < 4 → (dev.slots s w).valid = true → dev.cacheSet (dev.slots s w).blk = s
  once : ∀ s w w', w < 4 → w' < 4 → (dev.slots s w).valid = true → (dev.slots s w').valid = true →
    (dev.slots s w).blk = (dev.slots s w').blk → w = w'
  order : ∀ s w w', w < w' → w' < 4 → (dev.slots s w').valid = true → (dev.slots s w).valid = true

/-- **The cache is consistent**: where it is used, slots have what their blocks read as. -/
structure Consistent (bs : Nat) (dev : Dev) : Prop where
  placed : dev.ready = true → dev.Placed
  right : dev.ready = true → ∀ s w, w < 4 → (dev.slots s w).valid = true →
    ∀ i < bs, (dev.slots s w).data i = dev.view (dev.slots s w).blk i

/-- The device and the transaction have not changed. -/
structure Same (dev dev' : Dev) : Prop where
  raw : dev'.raw = dev.raw
  jt : dev'.jt = dev.jt

theorem Same.refl : Same dev dev := ⟨rfl, rfl⟩

theorem Same.trans {dev₁ : Dev} (h : Same dev dev₁) (h' : Same dev₁ dev') : Same dev dev' :=
  ⟨h'.raw.trans h.raw, h'.jt.trans h.jt⟩

theorem Same.view (h : Same dev dev') : dev'.view = dev.view := by
  unfold Dev.view
  rw [h.raw, h.jt]

theorem view_of_none (h : dev.jt blk = none) : dev.view blk = dev.raw blk := by
  rw [view, h, Option.getD_none]

/-! ## Slots -/

@[simp] theorem putSlot_self {slot : Slot} : (dev.putSlot s w slot).slots s w = slot :=
  if_pos ⟨rfl, rfl⟩

theorem putSlot_of_ne {slot : Slot} {s' w' : Nat} (h : ¬(s' = s ∧ w' = w)) :
    (dev.putSlot s w slot).slots s' w' = dev.slots s' w' := if_neg h

theorem cacheFind_some (h : dev.cacheFind blk = some w) :
    w < 4 ∧ (dev.slots (dev.cacheSet blk) w).valid = true ∧ (dev.slots (dev.cacheSet blk) w).blk =
      blk := by
  have hmem := List.mem_of_find?_eq_some h
  have hfound := List.find?_some h
  rw [Bool.and_eq_true, beq_iff_eq] at hfound
  exact ⟨List.mem_range.mp hmem, hfound⟩

/-- The loop of `ext2_cache_claim` ends with the block's own slot, or else with the first free one,
or else with some other one. -/
theorem claimFrom_spec {set : Nat → Slot} : ∀ n w lru, w + n = 4 → lru < 4 →
    (∀ w' < w, (set w').valid = true ∧ (set w').blk ≠ blk) →
    ∃ c, claimFrom set blk w lru n = c ∧ c < 4 ∧ ((set c).valid = true ∧ (set c).blk = blk ∨
      (set c).valid = false ∧ (∀ w' < c, (set w').valid = true ∧ (set w').blk ≠ blk) ∨
      ∀ w' < 4, (set w').valid = true ∧ (set w').blk ≠ blk) := by
  intro n w lru hw hlru hbefore
  fun_induction claimFrom set blk w lru n with
  | case1 w lru =>
    obtain rfl : w = 4 := hw
    exact ⟨lru, rfl, hlru, .inr (.inr hbefore)⟩
  | case2 w lru n hown => exact ⟨w, rfl, by omega, .inl (by simpa using hown)⟩
  | case3 w lru n hown hfree =>
      exact ⟨w, rfl, by omega, .inr (.inl ⟨by simpa using hfree, hbefore⟩)⟩
  | case4 w lru n hown hvalid ih =>
    refine ih (by omega) (by split <;> omega) fun w' hw' => ?_
    rcases Nat.lt_succ_iff_lt_or_eq.mp hw' with hlt | rfl
    · exact hbefore w' hlt
    · simp_all

/-- The claimed slot is the only one the block can have, and the slots before it are taken. -/
theorem Placed.claim (h : dev.Placed) :
    dev.cacheClaim blk < 4 ∧
      (∀ w < 4, w ≠ dev.cacheClaim blk → (dev.slots (dev.cacheSet blk) w).valid = true →
        (dev.slots (dev.cacheSet blk) w).blk ≠ blk) ∧
      ∀ w < dev.cacheClaim blk, (dev.slots (dev.cacheSet blk) w).valid = true := by
  obtain ⟨c, hc, hlt, hcases⟩ := claimFrom_spec 4 0 0 rfl (by omega) (by omega)
  have hclaim : dev.cacheClaim blk = c := hc
  rw [hclaim]
  rcases hcases with ⟨hvalid, hblk⟩ | ⟨hfree, hbefore⟩ | hall
  · refine ⟨hlt, fun w hw hne hw' heq => hne ?_, fun w hw => h.order _ w c hw hlt hvalid⟩
    exact h.once _ w c hw hlt hw' hvalid (heq.trans hblk.symm)
  · refine ⟨hlt, fun w hw hne hw' => ?_, fun w hw => (hbefore w hw).1⟩
    -- a slot after a free one is free
    rcases lt_or_gt_of_ne hne with hlt' | hgt
    · exact (hbefore w hlt').2
    · rw [h.order _ c w hgt hw hw'] at hfree
      cases hfree
  · exact ⟨hlt, fun w hw _ _ => (hall w hw).2, fun w hw => (hall w (by omega)).1⟩

/-- A slot that is written with a block no other slot has, after taken ones. -/
theorem Placed.putSlot {slot : Slot} (h : dev.Placed) (hslot : slot.valid = true)
    (hset : dev.cacheSet slot.blk = s)
    (hw : w < 4) (honce : ∀ w' < 4, w' ≠ w → (dev.slots s w').valid = true →
      (dev.slots s w').blk ≠ slot.blk)
    (hbefore : ∀ w' < w, (dev.slots s w').valid = true) : (dev.putSlot s w slot).Placed := by
  refine ⟨fun s₁ w₁ hw₁ hvalid => ?_, fun s₁ w₁ w₂ hw₁ hw₂ hvalid₁ hvalid₂ heq => ?_,
    fun s₁ w₁ w₂ hlt hw₂ hvalid => ?_⟩
  · by_cases hthis : s₁ = s ∧ w₁ = w
    · obtain ⟨rfl, rfl⟩ := hthis
      rw [putSlot_self]
      exact hset
    · rw [putSlot_of_ne hthis] at hvalid ⊢
      exact h.set s₁ w₁ hw₁ hvalid
  · by_cases hthis₁ : s₁ = s ∧ w₁ = w
    · obtain ⟨rfl, rfl⟩ := hthis₁
      by_contra hne
      have hthis₂ : ¬(s₁ = s₁ ∧ w₂ = w₁) := fun h' => hne h'.2.symm
      rw [putSlot_of_ne hthis₂] at hvalid₂ heq
      rw [putSlot_self] at heq
      exact honce w₂ hw₂ (Ne.symm hne) hvalid₂ heq.symm
    · rw [putSlot_of_ne hthis₁] at hvalid₁ heq
      by_cases hthis₂ : s₁ = s ∧ w₂ = w
      · obtain ⟨rfl, rfl⟩ := hthis₂
        rw [putSlot_self] at heq
        exact absurd heq (honce w₁ hw₁ (fun h' => hthis₁ ⟨rfl, h'⟩) hvalid₁)
      · rw [putSlot_of_ne hthis₂] at hvalid₂ heq
        exact h.once s₁ w₁ w₂ hw₁ hw₂ hvalid₁ hvalid₂ heq
  · by_cases hthis₁ : s₁ = s ∧ w₁ = w
    · obtain ⟨rfl, rfl⟩ := hthis₁
      rw [putSlot_self]
      exact hslot
    · rw [putSlot_of_ne hthis₁]
      by_cases hthis₂ : s₁ = s ∧ w₂ = w
      · obtain ⟨rfl, rfl⟩ := hthis₂
        exact hbefore w₁ hlt
      · rw [putSlot_of_ne hthis₂] at hvalid
        exact h.order s₁ w₁ w₂ hlt hw₂ hvalid

/-! ## What the functions keep -/

theorem cacheInsert_same : Same dev (dev.cacheInsert blk buf) := by
  unfold cacheInsert
  split <;> exact ⟨rfl, rfl⟩

theorem cacheInsert_ready : (dev.cacheInsert blk buf).ready = dev.ready := by
  unfold cacheInsert
  split <;> rfl

/-- **Publishing what a block reads as** makes the cache consistent, if it was but for that
block. -/
theorem Consistent.of_insert (hplaced : dev.ready = true → dev.Placed)
    (hright : dev.ready = true → ∀ s w, w < 4 → (dev.slots s w).valid = true →
      (dev.slots s w).blk ≠ blk → ∀ i < bs, (dev.slots s w).data i = dev.view (dev.slots s w).blk i)
    (hbuf : ∀ i < bs, buf i = dev.view blk i) : (dev.cacheInsert blk buf).Consistent bs := by
  by_cases hready : dev.ready = true
  · obtain ⟨hlt, honce, hbefore⟩ := Placed.claim (hplaced hready)
    have hput : (dev.putSlot _ _ ⟨blk, dev.age, true, buf⟩).Placed :=
      (hplaced hready).putSlot rfl rfl hlt honce hbefore
    have hview := (@cacheInsert_same dev blk buf).view
    unfold cacheInsert at hview ⊢
    rw [if_neg (by simpa using hready)] at hview ⊢
    refine ⟨fun _ => { hput with }, fun _ s w hw hvalid i hi => ?_⟩
    rw [hview]
    by_cases hthis : s = dev.cacheSet blk ∧ w = dev.cacheClaim blk
    · obtain ⟨rfl, rfl⟩ := hthis
      simp only [putSlot_self]
      exact hbuf i hi
    · simp only [putSlot_of_ne hthis] at hvalid ⊢
      refine hright hready s w hw hvalid (fun hblk => ?_) i hi
      -- another slot of the block would be in the same set
      obtain rfl : s = dev.cacheSet blk := by
        rw [← hblk]
        exact ((hplaced hready).set s w hw hvalid).symm
      exact honce w hw (fun h => hthis ⟨rfl, h⟩) hvalid hblk
  · have hnot : (dev.cacheInsert blk buf).ready = false := by
      rw [cacheInsert_ready]
      simpa using hready
    exact ⟨fun h => absurd h (by simp [hnot]), fun h => absurd h (by simp [hnot])⟩

variable (h : dev.Consistent bs)

include h

theorem Consistent.insert (hbuf : ∀ i < bs, buf i = dev.view blk i) :
    (dev.cacheInsert blk buf).Consistent bs :=
  .of_insert h.placed (fun hready s w hw hvalid _ => h.right hready s w hw hvalid) hbuf

theorem Consistent.touch (hw : w < 4) (hvalid : (dev.slots s w).valid = true) :
    (dev.touch s w).Consistent bs := by
  refine ⟨fun hready => ?_, fun hready s' w' hw' hvalid' i hi => ?_⟩
  · have hplaced := h.placed hready
    have hput : (dev.putSlot s w { dev.slots s w with age := dev.age }).Placed :=
      hplaced.putSlot hvalid (hplaced.set s w hw hvalid) hw
        (fun w' hw' hne hvalid' heq => hne (hplaced.once s w' w hw' hw hvalid' hvalid heq))
        (fun w' hlt => hplaced.order s w' w hlt hw hvalid)
    exact { hput with }
  · show _ = dev.view _ i
    by_cases hthis : s' = s ∧ w' = w
    · obtain ⟨rfl, rfl⟩ := hthis
      simp only [Dev.touch, putSlot_self]
      exact h.right hready s' w' hw hvalid i hi
    · simp only [Dev.touch, putSlot_of_ne hthis] at hvalid' ⊢
      exact h.right hready s' w' hw' hvalid' i hi

/-- What `ext2_cache_lookup` finds is what the block reads as; a block of the running transaction it
does find. -/
theorem cacheLookup_spec :
    ∃ found dev', dev.cacheLookup blk = (found, dev') ∧ Same dev dev' ∧ dev'.Consistent bs ∧
      (∀ buf, found = some buf → ∀ i < bs, buf i = dev.view blk i) ∧
        (found = none → dev.jt blk = none) := by
  unfold cacheLookup
  cases hjt : dev.jt blk with
  | some buf =>
    refine ⟨some buf, dev, rfl, .refl, h, fun _ hbuf i _ => ?_, nofun⟩
    cases hbuf
    rw [view, hjt, Option.getD_some]
  | none =>
    by_cases hready : dev.ready = true
    · rw [if_pos hready]
      cases hfind : dev.cacheFind blk with
      | none => exact ⟨none, dev, rfl, .refl, h, nofun, fun _ => rfl⟩
      | some w =>
        obtain ⟨hw, hvalid, hblk⟩ := cacheFind_some hfind
        refine ⟨_, _, rfl, ⟨rfl, rfl⟩, h.touch hw hvalid, fun _ hbuf i hi => ?_, nofun⟩
        cases hbuf
        rw [h.right hready _ w hw hvalid i hi, hblk]
    · rw [if_neg hready]
      exact ⟨none, dev, rfl, .refl, h, nofun, fun _ => rfl⟩

/-- `ext2_read_block` reads what the block reads as. -/
theorem readBlock_spec :
    ∃ buf dev', dev.readBlock blk = (buf, dev') ∧ Same dev dev' ∧ dev'.Consistent bs ∧ ∀ i < bs,
      buf i = dev.view blk i := by
  obtain ⟨found, dev₁, hlookup, hsame, hcons, hsome, hnone⟩ := cacheLookup_spec h
  unfold readBlock
  rw [hlookup]
  cases found with
  | some buf => exact ⟨buf, dev₁, rfl, hsame, hcons, hsome buf rfl⟩
  | none =>
    have hraw : dev₁.raw blk = dev.view blk := by
      rw [hsame.raw, view_of_none (hnone rfl)]
    refine ⟨_, _, rfl, hsame.trans cacheInsert_same, hcons.insert fun i _ => ?_,
      fun i _ => by rw [hraw]⟩
    rw [hsame.view, hraw]

omit h in
/-- Blocks that were read past the cache may be published. -/
theorem insertBlocks_spec : ∀ n r (dev : Dev), dev.Consistent bs →
    (∀ k < n, ∀ i < bs, buf ((r + k) * bs + i) = dev.view (blk + (r + k)) i) →
    Same dev (insertBlocks bs blk buf dev r n) ∧
      (insertBlocks bs blk buf dev r n).Consistent bs := by
  intro n
  induction n with
  | zero => exact fun r dev h _ => ⟨.refl, h⟩
  | succ n ih =>
    intro r dev h hbuf
    have hsame := @cacheInsert_same dev (blk + r) fun i => buf (r * bs + i)
    have hcons : (dev.cacheInsert (blk + r) fun i => buf (r * bs + i)).Consistent bs :=
      h.insert fun i hi => hbuf 0 (by omega) i hi
    obtain ⟨hsame', hcons'⟩ := ih (r + 1) _ hcons fun k hk i hi => by
      rw [hsame.view]
      have := hbuf (k + 1) (by omega) i hi
      rwa [show r + (k + 1) = r + 1 + k by omega] at this
    exact ⟨hsame.trans hsame', hcons'⟩

/-- `ext2_write_data` changes the block and no other, and leaves no old copy of it. -/
theorem writeData_spec (hjt : dev.jt blk = none) :
    (dev.writeData blk buf).Consistent bs ∧ (dev.writeData blk buf).jt = dev.jt ∧
      (dev.writeData blk buf).raw = Function.update dev.raw blk buf := by
  have hsame := @cacheInsert_same { dev with raw := Function.update dev.raw blk buf } blk buf
  refine ⟨.of_insert (fun hready => ?_) (fun hready s w hw hvalid hne i hi => ?_) fun i _ => ?_,
    hsame.jt, hsame.raw⟩
  · exact { h.placed hready with }
  · rw [h.right hready s w hw hvalid i hi]
    simp only [view, Function.update_of_ne hne]
  · rw [view_of_none (by exact hjt)]
    simp

end Dev

end MaeroOS.Ext2.File
