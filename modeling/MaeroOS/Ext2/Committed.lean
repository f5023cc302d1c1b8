import Mathlib.Algebra.Group.Nat.Defs
import MaeroOS.Ext2.Effects
import MaeroOS.Lib.System

/-!
# The last committed state

Runs of an instance with a journal: blocks are allocated for file data or for metadata, freed,
written and committed in any order. What the rest of the driver keeps to is which blocks it passes
to which function (`Allowed`): it frees blocks that it has, and writes a block as what it was
allocated for. The blocks of the layout itself (superblocks, descriptors, bitmaps, inode tables) are
never allocated or freed (`fixed`).

The invariant (`Live`) is that a block of the committed state is still in use or in the list of
freed ranges, so that the allocator, which passes over both, never returns one (`alloc_unused`). An
instance that has stopped writing is not constrained: it returns no block and writes none.
-/

namespace MaeroOS.Ext2

open Function
open Lib (Buf System Run)

/-- What a block was allocated for. -/
inductive Kind
  | metadata
  | data
  deriving DecidableEq

structure World where
  fs : Instance
  /-- What the blocks are allocated for, now and in the last committed state. -/
  role : Nat → Option Kind
  comRole : Nat → Option Kind

inductive Op
  | alloc (mem : Mem) (kind : Kind) (goal : Nat) (zero reserved : Bool)
  | free (mem : Mem) (blk n : Nat)
  | writeMeta (mem : Mem) (blk : Nat) (contents : Buf)
  | writeData (blk : Nat)
  | commit

/-- An operation, and the roles after it. -/
def exec (geo : Geometry) (w : World) : Op → World
  | .alloc mem kind goal zero reserved =>
      let r := allocBlockGoal geo mem w.fs goal zero reserved
      { w with fs := r.2, role := if r.1 = 0 then w.role
        else Function.update w.role r.1 (some kind) }
  | .free mem blk n =>
      { w with fs := (freeRange geo mem w.fs blk n).2, role := fun b => if blk ≤ b ∧
        b < blk + n then none else w.role b }
  | .writeMeta mem blk contents =>
      { w with fs := (writeBlock geo mem w.fs blk
        { w.fs.run with block := Function.update w.fs.run.block blk contents }).2 }
  | .writeData blk => { w with fs := (writeData geo w.fs blk).2 }
  | .commit => { w with fs := jnlCommit w.fs, comRole := if w.fs.ro then w.comRole else w.role }

/-- How the driver uses the allocator. -/
def Allowed (geo : Geometry) (fixed : Nat → Prop) (w : World) : Op → Prop
  | .alloc .. => True
  | .free _ blk n => ∀ b, blk ≤ b → b < blk + n → w.role b ≠ none
  | .writeMeta _ blk _ =>
      (w.role blk = some .metadata ∨ fixed blk) ∧ ∀ g < geo.groupCount,
        blk ≠ (w.fs.run.bgd g).blockBitmap
  | .writeData blk => w.role blk = some .data
  | .commit => True

/-- What the blocks are for agrees with the bitmaps. -/
structure Placed (geo : Geometry) (fixed : Nat → Prop) (w : World) : Prop where
  apart : Apart geo w.fs.run
  own : ∀ b, OwnBlock geo w.fs.run b → fixed b
  super : fixed geo.firstDataBlock
  fixed : ∀ b, fixed b → geo.InRange b ∧ used geo w.fs.run b = true ∧ w.role b = none
  role : ∀ b, w.role b ≠ none → geo.InRange b ∧ used geo w.fs.run b = true

/-- A file system that has just been mounted. -/
structure Fresh (geo : Geometry) (fixed : Nat → Prop) (w : World) :
    Prop extends Placed geo fixed w where
  com : w.fs.com = w.fs.run
  comRole : w.comRole = w.role
  tblk : w.fs.tblk = []
  freed : w.fs.freed = []
  hits : w.fs.hits = []

/-- Descriptors get written in this operation. -/
def Op.Describes : Op → Prop
  | .alloc mem .. | .free mem .. => mem.Describes
  | .writeMeta .. | .writeData _ | .commit => True

def fsSystem (geo : Geometry) (fixed : Nat → Prop) : System World Op where
  init := Fresh geo fixed
  step w op w' := Allowed geo fixed w op ∧ w' = exec geo w op

/-! ## The invariant -/

/-- The invariant of an instance that writes. -/
structure Live (geo : Geometry) (fixed : Nat → Prop) (w : World) :
    Prop extends Placed geo fixed w where
  /-- A block of the committed state is still in use, or it was freed since. -/
  kept : ∀ b, geo.InRange b → used geo w.fs.com b = true → used geo w.fs.run b = true ∨
    freedIn w.fs.freed b = true
  logged : ∀ b ∈ w.fs.tblk, geo.InRange b ∧ w.role b ≠ some .data ∧
    (used geo w.fs.run b = true ∨ freedIn w.fs.freed b = true)
  freed : ∀ b, freedIn w.fs.freed b = true → w.role b = none
  /-- A block of the committed state has not changed its role. -/
  kind : ∀ b, used geo w.fs.com b = true → w.role b ≠ none → w.comRole b = w.role b
  empty : w.fs.tblk = [] → w.fs.run = w.fs.com

/-- A direct write that does no harm: the block is not logged and not freed, and if the committed
state uses it, then for file data too. -/
def Harmless (geo : Geometry) (w : World) (hit : Hit) : Prop :=
  hit.blk ∉ hit.tblk ∧ freedIn hit.freed hit.blk = false ∧
    (used geo w.fs.com hit.blk = true → w.comRole hit.blk = some .data)

structure Inv (geo : Geometry) (fixed : Nat → Prop) (w : World) : Prop where
  hits : ∀ hit ∈ w.fs.hits, Harmless geo w hit
  live : w.fs.ro = false → Live geo fixed w

variable {geo : Geometry} {fixed : Nat → Prop} {w w' : World} {s : Instance} {mem : Mem}
  {blk n : Nat} {b : Nat}

/-- Hits stay harmless while nothing is committed. -/
theorem Inv.hits_of_eq (h : Inv geo fixed w) (hcom : s.com = w.fs.com) (hhits : s.hits = w.fs.hits)
    (role : Nat → Option Kind) :
    ∀ hit ∈ s.hits, Harmless geo { w with fs := s, role := role } hit := by
  intro hit hmem
  rw [hhits] at hmem
  obtain ⟨h1, h2, h3⟩ := h.hits hit hmem
  refine ⟨h1, h2, fun hused => h3 ?_⟩
  rw [← hcom]
  exact hused

/-- Nothing is asked of an instance that has stopped. -/
theorem Inv.of_stopped (h : Inv geo fixed w) (hs : Stopped w.fs s) (role : Nat → Option Kind) :
    Inv geo fixed { w with fs := s, role := role } :=
  ⟨h.hits_of_eq hs.com hs.hits role, fun hro => absurd hs.ro (Bool.eq_false_iff.mp hro)⟩

theorem Inv.of_fresh (h : Fresh geo fixed w) : Inv geo fixed w where
  hits hit hmem := by
    rw [h.hits] at hmem
    cases hmem
  live _ :=
    { toPlaced := h.toPlaced
      kept := fun b _ hb => .inl (h.com ▸ hb)
      logged := fun b hb => by
        rw [h.tblk] at hb
        cases hb
      freed := fun b hb => by
        rw [h.freed] at hb
        cases hb
      kind := fun b _ _ => by rw [h.comRole]
      empty := fun _ => h.com.symm }

/-- Blocks of the layout may be logged at any time. -/
theorem Placed.logged_of_fixed (h : Placed geo fixed w) (hb : fixed b) :
    geo.InRange b ∧ w.role b ≠ some .data ∧
      (used geo w.fs.run b = true ∨ freedIn w.fs.freed b = true) := by
  obtain ⟨hrange, hused, hnone⟩ := h.fixed b hb
  refine ⟨hrange, ?_, .inl hused⟩
  rw [hnone]
  exact nofun

/-! ## Freeing -/

section Free

variable {lo hi top : Nat}

/-- The roles after the blocks from `lo` up to `top` were given up. -/
def World.without (w : World) (s : Instance) (lo top : Nat) : World :=
  { w with fs := s, role := fun b => if lo ≤ b ∧ b < top then none else w.role b }

theorem World.without_role (hout : ¬(lo ≤ b ∧ b < top)) : (w.without s lo top).role b = w.role b :=
  if_neg hout

theorem World.without_role_ne_none (hb : (w.without s lo top).role b ≠ none) :
    ¬(lo ≤ b ∧ b < top) ∧ w.role b ≠ none := by
  have hout : ¬(lo ≤ b ∧ b < top) := fun hin => hb (if_pos hin)
  exact ⟨hout, World.without_role hout ▸ hb⟩

variable (hf : Freed geo w.fs s lo hi)

include hf

/-- Blocks outside the range are in use as before. -/
theorem Freed.used_of_out (hrange : geo.InRange b) (hout : ¬(lo ≤ b ∧ b < hi)) :
    used geo s.run b = used geo w.fs.run b := by
  rw [hf.inUse b hrange, decide_eq_false hout, Bool.not_false, Bool.true_and]

/-- A block that was in use or freed is so after more blocks were freed. -/
theorem Freed.kept (hrange : geo.InRange b)
    (hb : used geo w.fs.run b = true ∨ freedIn w.fs.freed b = true) :
    used geo s.run b = true ∨ freedIn s.freed b = true := by
  rw [hf.freed b]
  by_cases hin : lo ≤ b ∧ b < hi
  · rw [decide_eq_true hin, Bool.or_true]
    exact .inr rfl
  · rw [hf.used_of_out hrange hin, decide_eq_false hin, Bool.or_false]
    exact hb

theorem Placed.free (h : Placed geo fixed w) (hle : hi ≤ top)
    (hrole : ∀ b, lo ≤ b → b < top → w.role b ≠ none) : Placed geo fixed (w.without s lo top) where
  apart := hf.layout.apart h.apart
  own b hb := h.own b (hf.layout.ownBlock hb)
  super := h.super
  fixed b hb := by
    obtain ⟨hrange, hused, hnone⟩ := h.fixed b hb
    have hout : ¬(lo ≤ b ∧ b < top) := fun hin => hrole b hin.1 hin.2 hnone
    exact ⟨hrange, (hf.used_of_out hrange (by omega)).trans hused,
      (World.without_role hout).trans hnone⟩
  role b hb := by
    obtain ⟨hout, hb⟩ := World.without_role_ne_none hb
    obtain ⟨hrange, hused⟩ := h.role b hb
    exact ⟨hrange, (hf.used_of_out hrange (by omega)).trans hused⟩

/-- **Freeing blocks that have a role** keeps the invariant. -/
theorem Live.free (h : Live geo fixed w) (hle : hi ≤ top)
    (hrole : ∀ b, lo ≤ b → b < top → w.role b ≠ none) : Live geo fixed (w.without s lo top) where
  toPlaced := h.toPlaced.free hf hle hrole
  kept b hrange hcom := by
    refine hf.kept hrange (h.kept b hrange ?_)
    rw [← hf.com]
    exact hcom
  logged b hb := by
    rcases hf.tblk b hb with hb | hb
    · obtain ⟨hrange, hdata, hkept⟩ := h.logged b hb
      refine ⟨hrange, fun hrole' => ?_, hf.kept hrange hkept⟩
      obtain ⟨hout, -⟩ :=
        World.without_role_ne_none (hrole' ▸ nofun : (w.without s lo top).role b ≠ none)
      exact hdata ((World.without_role hout).symm.trans hrole')
    · exact (h.toPlaced.free hf hle hrole).logged_of_fixed (h.own b hb)
  freed b hb := by
    have hb : freedIn s.freed b = true := hb
    rw [hf.freed, Bool.or_eq_true, decide_eq_true_eq] at hb
    by_cases hin : lo ≤ b ∧ b < top
    · exact if_pos hin
    rw [World.without_role hin]
    rcases hb with hb | hb
    · exact h.freed b hb
    · omega
  kind b hcom hb := by
    obtain ⟨hout, hb⟩ := World.without_role_ne_none hb
    rw [World.without_role hout]
    refine h.kind b ?_ hb
    rw [← hf.com]
    exact hcom
  empty he := by
    obtain ⟨he, hrun⟩ := hf.empty he
    exact hrun.trans ((h.empty he).trans hf.com.symm)

omit hf

theorem Inv.free (h : Inv geo fixed w) (hmem : mem.Describes)
    (hrole : ∀ b, blk ≤ b → b < blk + n → w.role b ≠ none) :
    Inv geo fixed (w.without (freeRange geo mem w.fs blk n).2 blk (blk + n)) := by
  by_cases hro : w.fs.ro = true
  · exact h.of_stopped (freeLoop_stopped mem n hro) _
  have hlive := h.live (Bool.eq_false_iff.mpr hro)
  have hrange : ∀ b, blk ≤ b → b < blk + n → geo.InRange b :=
    fun b h1 h2 => (hlive.role b (hrole b h1 h2)).1
  rcases freeLoop_cases hmem n hlive.apart hrange with hstop | ⟨m, hm, hf⟩
  · exact h.of_stopped hstop _
  · exact ⟨h.hits_of_eq hf.com hf.hits _, fun _ => hlive.free hf (by omega) hrole⟩

end Free

/-! ## Allocating -/

section Alloc

variable {kind : Kind}

variable (hfree : Free geo w.fs blk) (ha : Allocated geo w.fs s blk)

include hfree

theorem Free.not_kept : ¬ (used geo w.fs.run blk = true ∨ freedIn w.fs.freed blk = true) := by
  rw [hfree.unused, hfree.kept]
  simp

/-- The allocator returns no block of the committed state. -/
theorem Live.unused_of_free (h : Live geo fixed w) : used geo w.fs.com blk = false :=
  Bool.eq_false_iff.mpr fun hcom => hfree.not_kept (h.kept blk hfree.range hcom)

/-- The superblock is in use, so no block that is given out looks like a failure. -/
theorem Placed.ne_zero_of_free (h : Placed geo fixed w) : blk ≠ 0 := by
  rintro rfl
  have hfirst : geo.firstDataBlock = 0 := Nat.le_zero.mp hfree.range.1
  have hsuper := (h.fixed _ h.super).2.1
  rw [hfirst] at hsuper
  exact absurd hsuper (Bool.eq_false_iff.mp hfree.unused)

include ha

omit hfree in
theorem Allocated.used_of_used (hrange : geo.InRange b) (hb : used geo w.fs.run b = true) :
    used geo s.run b = true := by
  rw [ha.inUse b hrange, hb, Bool.or_true]

/-- Block `blk` has a role. -/
def World.with (w : World) (s : Instance) (blk : Nat) (kind : Kind) : World :=
  { w with fs := s, role := Function.update w.role blk (some kind) }

theorem Placed.alloc (h : Placed geo fixed w) :
    Placed geo fixed (w.with s blk kind) where
  apart := ha.layout.apart h.apart
  own b hb := h.own b (ha.layout.ownBlock hb)
  super := h.super
  fixed b hb := by
    obtain ⟨hrange, hused, hnone⟩ := h.fixed b hb
    have hne : b ≠ blk := by
      rintro rfl
      exact absurd hused (Bool.eq_false_iff.mp hfree.unused)
    exact ⟨hrange, ha.used_of_used hrange hused, (update_of_ne hne _ _).trans hnone⟩
  role b hb := by
    by_cases hblk : b = blk
    · subst hblk
      refine ⟨hfree.range, ?_⟩
      show used geo s.run b = true
      rw [ha.inUse b hfree.range, decide_eq_true rfl, Bool.true_or]
    · have hold : w.role b ≠ none :=
        (update_of_ne hblk _ _ : (w.with s blk kind).role b = w.role b) ▸ hb
      obtain ⟨hrange, hused⟩ := h.role b hold
      exact ⟨hrange, ha.used_of_used hrange hused⟩

/-- **A new block** keeps the invariant. -/
theorem Live.alloc (h : Live geo fixed w) :
    Live geo fixed (w.with s blk kind) where
  toPlaced := h.toPlaced.alloc hfree ha
  kept b hrange hcom := by
    have hold := h.kept b hrange (ha.com ▸ hcom)
    rw [← ha.freed] at hold
    exact hold.imp_left (ha.used_of_used hrange)
  logged b hb := by
    rcases ha.tblk b hb with hb | hb
    · obtain ⟨hrange, hdata, hkept⟩ := h.logged b hb
      -- a logged block is in use or freed, so it is not the new one
      have hne : b ≠ blk := by
        rintro rfl
        exact hfree.not_kept hkept
      rw [← ha.freed] at hkept
      refine ⟨hrange, fun hrole => hdata ?_, hkept.imp_left (ha.used_of_used hrange)⟩
      exact (update_of_ne hne _ _ : (w.with s blk kind).role b = w.role b) ▸ hrole
    · exact (h.toPlaced.alloc hfree ha).logged_of_fixed (h.own b hb)
  freed b hb := by
    have hold : freedIn w.fs.freed b = true := by
      rw [← ha.freed]
      exact hb
    have hne : b ≠ blk := by
      rintro rfl
      exact absurd hold (Bool.eq_false_iff.mp hfree.kept)
    exact (update_of_ne hne _ _).trans (h.freed b hold)
  kind b hcom hb := by
    have hold : used geo w.fs.com b = true := by
      rw [← ha.com]
      exact hcom
    have hne : b ≠ blk := by
      rintro rfl
      exact absurd hold (Bool.eq_false_iff.mp (h.unused_of_free hfree))
    have hrole : (w.with s blk kind).role b = w.role b := update_of_ne hne _ _
    rw [hrole] at hb ⊢
    exact h.kind b hold hb
  empty he := by
    obtain ⟨he, hrun⟩ := ha.empty he
    exact hrun.trans ((h.empty he).trans ha.com.symm)

omit hfree ha

variable (h : Inv geo fixed w)

include h

/-- A direct write that does no harm is only recorded. -/
theorem Inv.hit (hit : Hit) (hharm : Harmless geo w hit) :
    Inv geo fixed { w with fs := { w.fs with hits := w.fs.hits ++ [hit] } } where
  hits hit' hmem := by
    rcases List.mem_append.mp hmem with hmem | hmem
    · exact h.hits hit' hmem
    rw [List.mem_singleton] at hmem
    subst hmem
    exact hharm
  live hro := { h.live hro with }

theorem Inv.alloc (kind : Kind) (hfree : Free geo w.fs blk) (ha : Allocated geo w.fs s blk)
    (hhits : s.hits = w.fs.hits) : Inv geo fixed (w.with s blk kind) :=
  ⟨h.hits_of_eq ha.com hhits _, fun _ => (h.live hfree.ro).alloc hfree ha⟩

/-- A new block may be cleared: it is neither logged nor used by the committed state. -/
theorem Inv.alloc_hit (hfree : Free geo w.fs blk) (ha : Allocated geo w.fs s blk)
    (hhits : s.hits = w.fs.hits) : Inv geo fixed (w.with (hitNow s blk) blk kind) := by
  have hlive := h.live hfree.ro
  refine (h.alloc kind hfree ha hhits).hit ⟨blk, s.tblk, s.freed⟩
    ⟨fun hmem => ?_, ?_, fun hcom => ?_⟩
  · rcases ha.tblk blk hmem with hmem | hown
    · exact hfree.not_kept (hlive.logged blk hmem).2.2
    · exact absurd (hlive.fixed blk (hlive.own blk hown)).2.1 (Bool.eq_false_iff.mp hfree.unused)
  · exact (congrArg (freedIn · blk) ha.freed).trans hfree.kept
  · have hcom : used geo s.com blk = true := hcom
    rw [ha.com] at hcom
    exact absurd hcom (Bool.eq_false_iff.mp (hlive.unused_of_free hfree))

/-- The request to commit soon changes nothing else. -/
theorem Inv.wantReclaim :
    Inv geo fixed { w with fs := { w.fs with wantReclaim := true } } where
  hits := h.hits
  live hro := { h.live hro with }

theorem Inv.allocOnce {r : Nat × Instance} (kind : Kind) (hr : AllocOnce geo w.fs r) :
    Inv geo fixed { w with fs := r.2, role := if r.1 =
      0 then w.role else Function.update w.role r.1 (some kind) } := by
  cases hr with
  | none => exact h
  | stopped hstop | lost _ hstop => exact h.of_stopped hstop _
  | found hfree ha hhits =>
    rw [if_neg ((h.live hfree.ro).ne_zero_of_free hfree)]
    exact h.alloc kind hfree ha hhits
  | cleared hfree ha hhits =>
    rw [if_neg ((h.live hfree.ro).ne_zero_of_free hfree)]
    exact h.alloc_hit hfree ha hhits

omit h in
/-- **What the allocator returns** may be given out. -/
theorem free_of_alloc {goal : Nat} {zero reserved : Bool}
    (hne : (allocBlockGoal geo mem s goal zero reserved).1 ≠ 0) :
    Free geo s (allocBlockGoal geo mem s goal zero reserved).1 := by
  revert hne
  unfold allocBlockGoal
  split
  · exact fun hne => absurd rfl hne
  dsimp only
  split
  · exact fun hne => absurd rfl hne
  · exact free_of_allocBlockGoalOnce

theorem Inv.exec_alloc (hmem : mem.Describes) (kind : Kind) (goal : Nat) (zero reserved : Bool) :
    Inv geo fixed (exec geo w (.alloc mem kind goal zero reserved)) := by
  have hr :=
    h.allocOnce kind (allocBlockGoalOnce_cases geo hmem (fun hro => (h.live hro).apart) goal zero)
  simp only [exec, allocBlockGoal]
  split
  · exact h
  split
  · next hfull =>
    rw [if_pos hfull.1] at hr
    exact hr.wantReclaim
  · exact hr

end Alloc

/-! ## Writing and committing -/

/-- A block of metadata is logged. -/
theorem Live.writeMeta {tblk : List Nat} (h : Live geo fixed w)
    (hrole : w.role blk = some .metadata ∨ fixed blk)
    (hne : ∀ g < geo.groupCount, blk ≠ (w.fs.run.bgd g).blockBitmap)
    (htblk : ∀ b, b ∈ tblk ↔ b ∈ w.fs.tblk ∨ b = blk) (contents : Buf) :
    Live geo fixed { w with
      fs := { w.fs with run :=
  { w.fs.run with block := update w.fs.run.block blk contents }, tblk := tblk } } := by
  have hused : ∀ b, geo.InRange b →
      used geo { w.fs.run with block := update w.fs.run.block blk contents } b =
        used geo w.fs.run b :=
    fun b hb => used_write hb hne contents
  have hplaced : Placed geo fixed { w with
      fs := { w.fs with run :=
        { w.fs.run with block := update w.fs.run.block blk contents }, tblk := tblk } } := by
    refine ⟨h.apart, h.own, h.super, fun b hb => ?_, fun b hb => ?_⟩
    · obtain ⟨hrange, hb, hnone⟩ := h.fixed b hb
      exact ⟨hrange, (hused b hrange).trans hb, hnone⟩
    · obtain ⟨hrange, hb⟩ := h.role b hb
      exact ⟨hrange, (hused b hrange).trans hb⟩
  refine ⟨hplaced, fun b hrange hcom => ?_, fun b hb => ?_, h.freed, h.kind, fun he => ?_⟩
  · dsimp only
    rw [hused b hrange]
    exact h.kept b hrange hcom
  · rcases (htblk b).mp hb with hb | rfl
    · obtain ⟨hrange, hdata, hkept⟩ := h.logged b hb
      rw [hused b hrange]
      exact ⟨hrange, hdata, hkept⟩
    · rcases hrole with hrole | hfixed
      · obtain ⟨hrange, hb⟩ := hplaced.role b (hrole ▸ nofun)
        exact ⟨hrange, hrole ▸ nofun, .inl hb⟩
      · exact hplaced.logged_of_fixed hfixed
  · -- the block is in the transaction
    have hmem := (htblk blk).mpr (.inr rfl)
    dsimp only at he
    rw [he] at hmem
    cases hmem

theorem Inv.exec_writeMeta {contents : Buf} (h : Inv geo fixed w)
    (hallow : Allowed geo fixed w (.writeMeta mem blk contents)) :
    Inv geo fixed (exec geo w (.writeMeta mem blk contents)) := by
  rcases writeBlock_cases geo mem w.fs blk
    { w.fs.run with block := Function.update w.fs.run.block blk contents }
    with ⟨-, hstop⟩ | ⟨hro, tblk, heq, htblk⟩
  · exact h.of_stopped hstop _
  · rw [Ext2.exec, heq]
    exact ⟨h.hits, fun _ => (h.live hro).writeMeta hallow.1 hallow.2 htblk contents⟩

/-- A block of file data may be written in its place. -/
theorem Inv.exec_writeData (h : Inv geo fixed w) (hrole : w.role blk = some .data) :
    Inv geo fixed (exec geo w (.writeData blk)) := by
  rw [Ext2.exec, writeData]
  split
  · exact h
  next hopen =>
  have hlive := h.live (Bool.eq_false_iff.mpr fun hro => hopen (.inl hro))
  refine h.hit ⟨blk, w.fs.tblk, w.fs.freed⟩ ⟨fun hmem => (hlive.logged blk hmem).2.1 hrole, ?_,
    fun hcom => ?_⟩
  · refine Bool.eq_false_iff.mpr fun hfreed => ?_
    rw [hlive.freed blk hfreed] at hrole
    cases hrole
  · exact (hlive.kind blk hcom (hrole ▸ nofun)).trans hrole

/-- After a commit there is nothing left to protect. -/
theorem Live.commit (h : Live geo fixed w) (hcom : s.com = s.run) (hrun : s.run = w.fs.run)
    (htblk : s.tblk = [])
    (hfreed : s.freed = []) : Live geo fixed { w with fs := s, comRole := w.role } where
  apart := hrun ▸ h.apart
  own := hrun ▸ h.own
  super := h.super
  fixed := hrun ▸ h.fixed
  role := hrun ▸ h.role
  kept b _ hb := .inl (hcom ▸ hb)
  logged b hb := by
    rw [htblk] at hb
    cases hb
  freed b hb := by
    rw [hfreed] at hb
    cases hb
  kind _ _ _ := rfl
  empty _ := hcom.symm

theorem Inv.exec_commit (h : Inv geo fixed w) : Inv geo fixed (exec geo w .commit) := by
  rw [Ext2.exec, jnlCommit]
  by_cases hro : w.fs.ro = true
  · rw [if_pos hro, if_pos hro]
    split
    · exact ⟨fun _ => nofun, fun hro' => absurd hro (Bool.eq_false_iff.mp hro')⟩
    · exact ⟨fun _ => nofun, fun hro' => absurd hro (Bool.eq_false_iff.mp hro')⟩
  · have hlive := h.live (Bool.eq_false_iff.mpr hro)
    rw [if_neg hro, if_neg hro]
    split
    · next hempty => exact ⟨fun _ => nofun, fun _ =>
        hlive.commit (hlive.empty hempty).symm rfl hempty rfl⟩
    · exact ⟨fun _ => nofun, fun _ => hlive.commit rfl rfl rfl rfl⟩

/-! ## Runs -/

theorem Inv.exec (h : Inv geo fixed w) {op : Op} (hallow : Allowed geo fixed w op)
    (hop : op.Describes) : Inv geo fixed (exec geo w op) := by
  cases op with
  | alloc mem kind goal zero reserved => exact h.exec_alloc hop kind goal zero reserved
  | free mem blk n => exact h.free hop hallow
  | writeMeta mem blk contents => exact h.exec_writeMeta hallow
  | writeData blk => exact h.exec_writeData hallow
  | commit => exact h.exec_commit

theorem Inv.of_run {h : List Op}
    (hrun : Run ((fsSystem geo fixed).restrict fun _ op => op.Describes) h w) :
    Inv geo fixed w := by
  refine hrun.invariant (fun _ => Inv.of_fresh) fun w op w' hinv hstep => ?_
  obtain ⟨⟨hallow, rfl⟩, hop⟩ := hstep
  exact hinv.exec hallow hop

/-- Two groups of 32 blocks, from block 1 on; the second one ends at block 48. -/
def smallGeometry : Geometry where
  blockSize := 1024
  firstDataBlock := 1
  blocksCount := 49
  blocksPerGroup := 32
  inodesPerGroup := 8
  inodeSize := 128
  descSize := 32
  rsvGdt := 0
  sparseSuper := true
  rBlocks := 0
  hard := 8
  first_le := le_rfl
  group_pos := by decide

/-- The superblocks, descriptors, bitmaps and inode tables of both groups. -/
def smallFixed (b : Nat) : Prop := b ∈ [1, 2, 3, 4, 5, 33, 34, 35, 36, 37]

/-- Blocks 30 and 31 are those of a file. -/
def smallRole (b : Nat) : Option Kind := if b ∈ [30, 31] then some .data else none

def smallView : View where
  bgd g := if g = 0 then ⟨3, 4, 5, 25, false⟩ else ⟨35, 36, 37, 11, false⟩
  block b := if b = 3 then fun i => if i = 0 then 0x1F else if i = 3 then 0x60 else 0
    else if b = 35 then fun i => if i = 0 then 0x1F else if i < 2 then 0 else 0xFF
    else fun _ => 0

def smallWorld : World where
  fs := ⟨smallView, smallView, [], [], 0, false, 36, false, []⟩
  role := smallRole
  comRole := smallRole

/-- There is memory for everything. -/
def plenty : Mem := ⟨fun _ => true, fun _ => true, fun _ => true⟩

theorem smallWorld_fresh : Fresh smallGeometry smallFixed smallWorld where
  apart := by
    show ∀ g < 2, ∀ g' < 2, (smallView.bgd g).blockBitmap = (smallView.bgd g').blockBitmap → g = g'
    decide
  own b hb := by
    obtain ⟨g, hg, hb⟩ := hb
    have hown : ∀ g < 2, (smallView.bgd g).blockBitmap ∈ [1, 2, 3, 4, 5, 33, 34, 35, 36, 37] ∧
        smallGeometry.bgdBlk g ∈ [1, 2, 3, 4, 5, 33, 34, 35, 36, 37] := by decide
    rcases hb with rfl | rfl
    · exact (hown g hg).1
    · exact (hown g hg).2
  super := by
    show 1 ∈ [1, 2, 3, 4, 5, 33, 34, 35, 36, 37]
    decide
  fixed := by
    show ∀ b ∈ [1, 2, 3, 4, 5, 33, 34, 35, 36, 37],
      (1 ≤ b ∧ b < 49) ∧ used smallGeometry smallView b = true ∧ smallRole b = none
    decide +kernel
  role b hb := by
    have hall : ∀ b ∈ [30, 31], (1 ≤ b ∧ b < 49) ∧ used smallGeometry smallView b = true := by
      decide +kernel
    exact hall b (by_contra fun hout => hb (if_neg hout))
  com := rfl
  comRole := rfl
  tblk := rfl
  freed := rfl
  hits := rfl

/-- The file's first block is freed, and a block near it is wanted. -/
theorem freed_block_run :
    Run ((fsSystem smallGeometry smallFixed).restrict fun _ op => op.Describes)
    [.free plenty 30 1] (exec smallGeometry smallWorld (.free plenty 30 1)) := by
  refine .step (.init smallWorld_fresh) ⟨⟨fun b h1 h2 => ?_, rfl⟩, fun _ => rfl⟩
  obtain rfl : b = 30 := by omega
  decide

end MaeroOS.Ext2
