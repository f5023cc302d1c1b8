import MaeroOS.Ext2.Used

/-!
# What the operations do

Each operation either stops the instance (`Stopped`) or changes which blocks are in use and which
were freed, and nothing else that matters (`Allocated`, `Freed`). The blocks that become part of the
running transaction are those of the bitmaps and of the descriptors (`OwnBlock`). All this is as
long as descriptors get written (`Mem.Describes`).
-/

namespace MaeroOS.Ext2

open Lib (Buf)

/-- The instance does not write any more. -/
structure Stopped (s s' : Instance) : Prop where
  ro : s'.ro = true
  com : s'.com = s.com
  hits : s'.hits = s.hits

/-- `ext2_write_bgd` does not fail for want of a buffer or of its block. -/
def Mem.Describes (mem : Mem) : Prop := ∀ g, mem.bgd g = true

/-- A block of a bitmap or of descriptors. -/
def OwnBlock (geo : Geometry) (v : View) (b : Nat) : Prop :=
  ∃ g < geo.groupCount, b = (v.bgd g).blockBitmap ∨ b = geo.bgdBlk g

/-- What all operations leave alone. -/
structure Logged (geo : Geometry) (s s' : Instance) : Prop where
  layout : SameLayout s.run s'.run
  com : s'.com = s.com
  ro : s'.ro = s.ro
  tblk : ∀ b ∈ s'.tblk, b ∈ s.tblk ∨ OwnBlock geo s.run b
  /-- Without a running transaction nothing has changed. -/
  empty : s'.tblk = [] → s.tblk = [] ∧ s'.run = s.run

/-- Block `blk` is in use now. -/
structure Allocated (geo : Geometry) (s s' : Instance) (blk : Nat) :
    Prop extends Logged geo s s' where
  inUse : ∀ b, geo.InRange b → used geo s'.run b = (decide (b = blk) || used geo s.run b)
  freed : s'.freed = s.freed

/-- The blocks from `lo` up to `hi` were freed. -/
structure Freed (geo : Geometry) (s s' : Instance) (lo hi : Nat) :
    Prop extends Logged geo s s' where
  inUse : ∀ b, geo.InRange b → used geo s'.run b = (!decide (lo ≤ b ∧ b < hi) && used geo s.run b)
  freed : ∀ b, freedIn s'.freed b = (freedIn s.freed b || decide (lo ≤ b ∧ b < hi))
  hits : s'.hits = s.hits

variable {geo : Geometry} {mem : Mem} {s s' s'' : Instance} {v : View} {bm : Buf}
  {i grp b blk n : Nat} {chunk : Nat}

namespace Stopped

theorem abort (s : Instance) : Stopped s (jnlAbort s) := ⟨rfl, rfl, rfl⟩

theorem trans (h : Stopped s s') (h' : Stopped s' s'') : Stopped s s'' :=
  ⟨h'.ro, h'.com.trans h.com, h'.hits.trans h.hits⟩

end Stopped

theorem SameLayout.refl (v : View) : SameLayout v v := fun _ => ⟨rfl, rfl, rfl⟩

theorem SameLayout.trans {v v' v'' : View} (h : SameLayout v v') (h' : SameLayout v' v'') :
    SameLayout v v'' := fun g =>
  ⟨(h' g).1.trans (h g).1, (h' g).2.1.trans (h g).2.1, (h' g).2.2.trans (h g).2.2⟩

theorem SameLayout.ownBlock {v v' : View} (h : SameLayout v v') (hb : OwnBlock geo v' b) :
    OwnBlock geo v b := by
  obtain ⟨g, hg, hb⟩ := hb
  rw [(h g).1] at hb
  exact ⟨g, hg, hb⟩

theorem SameLayout.apart {v v' : View} (h : SameLayout v v') (hv : Apart geo v) : Apart geo v' := by
  intro g hg g' hg' heq
  rw [(h g).1, (h g').1] at heq
  exact hv g hg g' hg' heq

theorem Logged.trans (h : Logged geo s s') (h' : Logged geo s' s'') : Logged geo s s'' where
  layout := h.layout.trans h'.layout
  com := h'.com.trans h.com
  ro := h'.ro.trans h.ro
  tblk b hb := by
    rcases h'.tblk b hb with hb | hb
    · exact h.tblk b hb
    · exact .inr (h.layout.ownBlock hb)
  empty he := by
    obtain ⟨he', hrun'⟩ := h'.empty he
    obtain ⟨he, hrun⟩ := h.empty he'
    exact ⟨he, hrun'.trans hrun⟩

/-! ## Writing metadata -/

/-- A block of metadata is written, or the instance stops. -/
theorem writeBlock_cases (geo : Geometry) (mem : Mem) (s : Instance) (blk : Nat) (v : View) :
    (writeBlock geo mem s blk v).1 = false ∧ Stopped s (writeBlock geo mem s blk v).2 ∨
      s.ro = false ∧ ∃ tblk,
        writeBlock geo mem s blk v = (true, { s with run := v, tblk := tblk }) ∧
        ∀ b, b ∈ tblk ↔ b ∈ s.tblk ∨ b = blk := by
  unfold writeBlock
  by_cases hro : s.ro = true
  · rw [if_pos hro]
    exact .inl ⟨rfl, hro, rfl, rfl⟩
  rw [if_neg hro]
  have hro := Bool.eq_false_iff.mpr hro
  unfold jtPut
  by_cases hmem : blk ∈ s.tblk
  · rw [if_pos hmem]
    refine .inr ⟨hro, s.tblk, rfl, fun b => ⟨.inl, ?_⟩⟩
    rintro (hb | rfl)
    · exact hb
    · exact hmem
  rw [if_neg hmem]
  split
  · exact .inl ⟨rfl, Stopped.abort s⟩
  · refine .inr ⟨hro, s.tblk ++ [blk], rfl, fun b => ?_⟩
    rw [List.mem_append, List.mem_singleton]

/-- A group gets a new bitmap and its descriptor a new count, or the instance stops. -/
theorem putBitmap_cases (geo : Geometry) (hmem : mem.Describes) (s : Instance)
    (hgrp : grp < geo.groupCount) (bm : Buf)
    (free : BitVec 16) {r : Bool × Instance} {s₂ : Instance} (hr : putBitmap geo mem s grp bm = r)
    (hs₂ : writeBgd geo mem r.2 grp
      { s.run.bgd grp with blockUninit := false, freeBlocks := free } = s₂) :
    r.1 = false ∧ Stopped s r.2 ∨ r.1 = true ∧ s.ro = false ∧
      (Stopped s s₂ ∨ ∃ tblk, s₂ = { s with run := withBitmap s.run grp bm free, tblk := tblk } ∧
        tblk ≠ [] ∧ ∀ b ∈ tblk, b ∈ s.tblk ∨ OwnBlock geo s.run b) := by
  subst hr hs₂
  set block := Function.update s.run.block (s.run.bgd grp).blockBitmap bm
  rcases writeBlock_cases geo mem s (s.run.bgd grp).blockBitmap
    { s.run with block } with hstop | ⟨hro, tblk, hput, htblk⟩
  · exact .inl hstop
  have hput : putBitmap geo mem s grp bm = (true, { s with
    run := { s.run with block }, tblk := tblk }) := hput
  rw [hput]
  refine .inr ⟨rfl, hro, ?_⟩
  rw [writeBgd, if_pos (hmem grp)]
  rcases writeBlock_cases geo mem { s with
      run := { s.run with block }, tblk := tblk }
    (geo.bgdBlk grp) { bgd := Function.update s.run.bgd grp { s.run.bgd
      grp with blockUninit := false, freeBlocks := free }
                       block }
    with ⟨-, hstop⟩ | ⟨-, tblk', hbgd, htblk'⟩
  · exact .inl { hstop with }
  refine .inr ⟨tblk', ?_, ?_, fun b hb => ?_⟩
  · rw [hbgd]
    rfl
  · exact List.ne_nil_of_mem ((htblk' (geo.bgdBlk grp)).mpr (.inr rfl))
  · rcases (htblk' b).mp hb with hb | rfl
    · rcases (htblk b).mp hb with hb | rfl
      · exact .inl hb
      · exact .inr ⟨grp, hgrp, .inl rfl⟩
    · exact .inr ⟨grp, hgrp, .inr rfl⟩

/-! ## Freeing -/

theorem Freed.refl (s : Instance) (lo : Nat) : Freed geo s s lo lo where
  layout := SameLayout.refl _
  com := rfl
  ro := rfl
  tblk _ hb := .inl hb
  empty he := ⟨he, rfl⟩
  inUse b _ := by rw [decide_eq_false (by omega), Bool.not_false, Bool.true_and]
  freed b := by rw [decide_eq_false (by omega), Bool.or_false]
  hits := rfl

/-- Ranges that follow each other. -/
theorem Freed.trans {lo mid hi : Nat} (h : Freed geo s s' lo mid) (h' : Freed geo s' s'' mid hi)
    (h1 : lo ≤ mid) (h2 : mid ≤ hi) : Freed geo s s'' lo hi where
  toLogged := h.toLogged.trans h'.toLogged
  inUse b hb := by
    rw [h'.inUse b hb, h.inUse b hb, ← Bool.and_assoc, ← Bool.not_or, ← Bool.decide_or]
    congr 2
    exact decide_eq_decide.mpr (by omega)
  freed b := by
    rw [h'.freed, h.freed, Bool.or_assoc, ← Bool.decide_or]
    congr 1
    exact decide_eq_decide.mpr (by omega)
  hits := h'.hits.trans h.hits

/-- A new range in the list. -/
theorem Freed.add {lo : Nat} {sbFree : MaeroOS.Lib.Word} (hlog : Logged geo s s')
    (hused : ∀ b, geo.InRange b →
      used geo s'.run b = (!decide (lo ≤ b ∧ b < lo + n) && used geo s.run b))
    (hfreed : s'.freed = s.freed) (hhits : s'.hits = s.hits) :
    Stopped s (jtFreedAdd mem { s' with sbFree := sbFree } lo n) ∨
      Freed geo s (jtFreedAdd mem { s' with sbFree := sbFree } lo n) lo (lo + n) := by
  rcases jtFreedAdd_cases mem { s' with sbFree := sbFree } lo n with heq | ⟨freed, fcap, heq, hadd⟩
  · rw [heq]
    exact .inl ⟨rfl, hlog.com, hhits⟩
  · rw [heq]
    refine .inr ⟨{ hlog with }, hused, fun b => ?_, hhits⟩
    rw [hadd, hfreed]

theorem freeChunk_of_bitmap (mem : Mem) (h : getBitmap geo s.run (geo.groupOf blk) = some bm) :
    freeChunk geo mem s blk chunk =
      if ((List.range' (geo.indexOf blk) chunk).filter (bitmapTest bm)).length = 0 then
        (true, jtFreedAdd mem s blk chunk)
      else
        let p :=
  putBitmap geo mem s (geo.groupOf blk) ((List.range' (geo.indexOf blk) chunk).foldl bitmapClear bm)
        let cleared := ((List.range' (geo.indexOf blk) chunk).filter (bitmapTest bm)).length
        if p.1 then
          let s' := writeBgd geo mem p.2 (geo.groupOf blk)
            { s.run.bgd (geo.groupOf blk) with
              blockUninit := false, freeBlocks :=
                (s.run.bgd (geo.groupOf blk)).freeBlocks + BitVec.ofNat 16 cleared }
          (true, jtFreedAdd mem { s' with sbFree := s'.sbFree + BitVec.ofNat 32 cleared } blk chunk)
        else (false, p.2) := by
  simp only [freeChunk, h]

theorem freeChunk_of_none (mem : Mem) (h : getBitmap geo s.run (geo.groupOf blk) = none) :
    freeChunk geo mem s blk chunk = (false, s) := by
  simp only [freeChunk, h]

/-- The list of ranges is kept even when the instance has stopped. -/
theorem Stopped.add (h : Stopped s s') (mem : Mem) (sbFree : MaeroOS.Lib.Word) (blk n : Nat) :
    Stopped s (jtFreedAdd mem { s' with sbFree := sbFree } blk n) := by
  rcases jtFreedAdd_cases mem { s' with sbFree := sbFree } blk n with heq | ⟨freed, fcap, heq, -⟩
  · rw [heq]
    exact ⟨rfl, h.com, h.hits⟩
  · rw [heq]
    exact { h with }

/-- One group's part of a range. -/
theorem freeChunk_cases (hmem : mem.Describes) (hapart : Apart geo s.run) (hblk : geo.InRange blk)
    (hchunk : geo.indexOf blk + chunk ≤ geo.blocksPerGroup) :
    let r := freeChunk geo mem s blk chunk
    r.1 = false ∧ r.2 = s ∨ Stopped s r.2 ∨ Freed geo s r.2 blk (blk + chunk) := by
  have hgrp := groupOf_lt hblk
  cases hget : getBitmap geo s.run (geo.groupOf blk) with
  | none =>
    rw [freeChunk_of_none mem hget]
    exact .inl ⟨rfl, rfl⟩
  | some bm =>
    have hbm := getBitmap_eq hget
    rw [freeChunk_of_bitmap mem hget]
    refine .inr ?_
    split
    · -- nothing was in use: only the range is new
      next hcleared =>
      refine @Freed.add geo mem s s chunk blk s.sbFree
        ⟨SameLayout.refl _, rfl, rfl, fun _ hb => .inl hb, fun he => ⟨he, rfl⟩⟩
          (fun b hb => ?_) rfl rfl
      exact used_of_clear hblk hchunk hb (hbm ▸ hcleared)
    · dsimp only
      rcases putBitmap_cases geo hmem s hgrp
          ((List.range' (geo.indexOf blk) chunk).foldl bitmapClear bm)
          ((s.run.bgd (geo.groupOf blk)).freeBlocks + BitVec.ofNat 16
            ((List.range' (geo.indexOf blk) chunk).filter (bitmapTest bm)).length) rfl rfl
        with ⟨hfail, hstop⟩ | ⟨hok, hro, hstop | ⟨tblk, heq, hne, htblk⟩⟩
      · rw [if_neg (Bool.eq_false_iff.mp hfail)]
        exact .inl hstop
      · rw [if_pos hok]
        exact .inl (hstop.add mem _ blk chunk)
      · rw [if_pos hok, heq]
        refine Freed.add ⟨sameLayout_withBitmap _ _ _ _, rfl, rfl, htblk, fun he => absurd he hne⟩
          (fun b hb => ?_) rfl rfl
        rw [used_withBitmap hapart hgrp hb, hbm, used_clear hblk hchunk hb]

/-- An instance that has stopped stays so. -/
theorem freeChunk_stopped (mem : Mem) (hro : s.ro = true) :
    Stopped s (freeChunk geo mem s blk chunk).2 := by
  have hself : Stopped s s := ⟨hro, rfl, rfl⟩
  cases hget : getBitmap geo s.run (geo.groupOf blk) with
  | none =>
    rw [freeChunk_of_none mem hget]
    exact hself
  | some bm =>
    rw [freeChunk_of_bitmap mem hget]
    split
    · exact hself.add mem s.sbFree blk chunk
    have hput : putBitmap geo mem s (geo.groupOf blk)
        ((List.range' (geo.indexOf blk) chunk).foldl bitmapClear bm) = (false, s) := if_pos hro
    rw [hput]
    exact hself

theorem freeLoop_stopped (mem : Mem) (fuel : Nat) (hro : s.ro = true) :
    Stopped s (freeLoop geo mem fuel s blk n).2 := by
  fun_induction freeLoop geo mem fuel s blk n with
  | case1 | case2 | case3 => exact ⟨hro, rfl, rfl⟩
  | case4 fuel s blk n hn hrange chunk r hr ih =>
    have hchunk := @freeChunk_stopped geo s blk chunk mem hro
    exact hchunk.trans (ih hchunk.ro)
  | case5 fuel s blk n hn hrange chunk r hr => exact freeChunk_stopped mem hro

/-- **Freeing a range** frees a first part of it, or all. -/
theorem freeLoop_cases (hmem : mem.Describes) (fuel : Nat) (hapart : Apart geo s.run)
    (hrange : ∀ b, blk ≤ b → b < blk + n → geo.InRange b) :
    Stopped s (freeLoop geo mem fuel s blk n).2 ∨
      ∃ m ≤ n, Freed geo s (freeLoop geo mem fuel s blk n).2 blk (blk + m) := by
  induction fuel generalizing s blk n with
  | zero => exact .inr ⟨0, Nat.zero_le _, Freed.refl s blk⟩
  | succ fuel ih =>
    rw [freeLoop]
    split
    · exact .inr ⟨0, Nat.zero_le _, Freed.refl s blk⟩
    next hn =>
    have hblk := hrange blk le_rfl (by omega)
    rw [if_neg (by have := hblk.1; have := hblk.2; omega)]
    have hindex := indexOf_lt geo blk
    dsimp only
    generalize hc : min (min (geo.blocksPerGroup - geo.indexOf blk) n) (geo.blocksCount - blk) =
      chunk
    have hchunk : chunk ≤ n ∧ geo.indexOf blk + chunk ≤ geo.blocksPerGroup := by omega
    rcases freeChunk_cases hmem hapart hblk hchunk.2 with ⟨hfail, hsame⟩ | hstop | hfreed
    · rw [if_neg (Bool.eq_false_iff.mp hfail), hsame]
      exact .inr ⟨0, Nat.zero_le _, Freed.refl s blk⟩
    · split
      · exact .inl (hstop.trans (freeLoop_stopped mem fuel hstop.ro))
      · exact .inl hstop
    · split
      · have hrange' : ∀ b, blk + chunk ≤ b → b < blk + chunk + (n - chunk) → geo.InRange b :=
          fun b h1 h2 =>
          hrange b (by omega) (by omega)
        rcases ih (hfreed.layout.apart hapart) hrange' with hstop | ⟨m, hm, hrest⟩
        · exact .inl ⟨hstop.ro, hstop.com.trans hfreed.com, hstop.hits.trans hfreed.hits⟩
        refine .inr ⟨chunk + m, by omega, ?_⟩
        rw [← Nat.add_assoc]
        exact hfreed.trans hrest (by omega) (by omega)
      · exact .inr ⟨chunk, hchunk.1, hfreed⟩

/-! ## Allocating -/

/-- A direct write to `blk` now. -/
def hitNow (s : Instance) (blk : Nat) : Instance :=
  { s with hits := s.hits ++ [⟨blk, s.tblk, s.freed⟩] }

theorem writeData_of_range (hro : s.ro = false) (hblk : geo.InRange blk) :
    writeData geo s blk = (true, hitNow s blk) := by
  have hlt := hblk.2
  exact if_neg (by rw [hro]; simp; omega)

/-- A block that may be given out. -/
structure Free (geo : Geometry) (s : Instance) (blk : Nat) : Prop where
  range : geo.InRange blk
  unused : used geo s.run blk = false
  kept : freedIn s.freed blk = false
  ro : s.ro = false

/-- What `ext2_alloc_block_goal_once` returns and leaves behind. -/
inductive AllocOnce (geo : Geometry) (s : Instance) : Nat × Instance → Prop
  | none : AllocOnce geo s (0, s)
  | stopped {s' : Instance} (h : Stopped s s') : AllocOnce geo s (0, s')
  /-- The block is given out, but the transaction that says so will not be committed. -/
  | lost {s' : Instance} {blk : Nat} (hfree : Free geo s blk) (h : Stopped s s') :
      AllocOnce geo s (blk, s')
  | found {s' : Instance} {blk : Nat} (hfree : Free geo s blk) (h : Allocated geo s s' blk)
      (hhits : s'.hits = s.hits) : AllocOnce geo s (blk, s')
  | cleared {s' : Instance} {blk : Nat} (hfree : Free geo s blk) (h : Allocated geo s s' blk)
      (hhits : s'.hits = s.hits) : AllocOnce geo s (blk, hitNow s' blk)

/-- A bit is set in the bitmap of its group. -/
theorem allocated_withBitmap {tblk : List Nat} (hapart : Apart geo s.run)
    (hgrp : grp < geo.groupCount)
    (hi : i < geo.blocksPerGroup) (free : BitVec 16) (sbFree : MaeroOS.Lib.Word) (hne : tblk ≠ [])
    (htblk : ∀ b ∈ tblk, b ∈ s.tblk ∨ OwnBlock geo s.run b) :
    Allocated geo s
      { s with
        run := withBitmap s.run grp (bitmapSet (blockBitmap geo s.run grp) i) free
        tblk := tblk
        sbFree := sbFree }
      (geo.groupStart grp + i) := by
  refine ⟨⟨sameLayout_withBitmap _ _ _ _, rfl, rfl, htblk, fun he => absurd he hne⟩,
    fun b hb => ?_, rfl⟩
  rw [used_withBitmap hapart hgrp hb, used_set hi hb]

/-- A block is given out only when the new bitmap of its group could be logged. -/
theorem findBlock_of_alloc {goal : Nat} {zero : Bool}
    (hne : (allocBlockGoalOnce geo mem s goal zero).1 ≠ 0) :
    ∃ grp bm i, findBlock geo s goal = some (grp, bm, i) ∧
      (putBitmap geo mem s grp (bitmapSet bm i)).1 = true ∧
      (allocBlockGoalOnce geo mem s goal zero).1 = geo.groupStart grp + i := by
  revert hne
  unfold allocBlockGoalOnce
  split
  · exact fun hne => absurd rfl hne
  next grp bm i hfind =>
  dsimp only
  split
  · next hput =>
    generalize writeBgd geo mem _ grp _ = s'
    cases zero with
    | false => exact fun _ => ⟨grp, bm, i, hfind, hput, rfl⟩
    | true =>
      rw [if_pos rfl]
      split
      · exact fun _ => ⟨grp, bm, i, hfind, hput, rfl⟩
      · exact fun hne => absurd rfl hne
  · exact fun hne => absurd rfl hne

/-- A block that is given out is free. -/
theorem free_of_allocBlockGoalOnce {goal : Nat} {zero : Bool}
    (hne : (allocBlockGoalOnce geo mem s goal zero).1 ≠ 0) :
    Free geo s (allocBlockGoalOnce geo mem s goal zero).1 := by
  obtain ⟨grp, bm, i, hfind, hput, heq⟩ := findBlock_of_alloc hne
  obtain ⟨-, -, -, hblk, hused, hfreed⟩ := findBlock_spec hfind
  rw [heq]
  refine ⟨hblk, hused, hfreed, ?_⟩
  rcases writeBlock_cases geo mem s (s.run.bgd grp).blockBitmap
      { s.run with
        block := Function.update s.run.block (s.run.bgd grp).blockBitmap (bitmapSet bm i) }
    with ⟨hfail, -⟩ | ⟨hro, -⟩
  · exact absurd hput (Bool.eq_false_iff.mp hfail)
  · exact hro

theorem allocBlockGoalOnce_cases (geo : Geometry) (hmem : mem.Describes)
    (hapart : s.ro = false → Apart geo s.run) (goal : Nat) (zero : Bool) :
    AllocOnce geo s (allocBlockGoalOnce geo mem s goal zero) := by
  unfold allocBlockGoalOnce
  split
  · exact .none
  next grp bm i hfind =>
  obtain ⟨hgrp, hbm, hi, hblk, hused, hfreed⟩ := findBlock_spec hfind
  dsimp only
  rcases putBitmap_cases geo hmem s hgrp (bitmapSet bm i)
      (if (s.run.bgd grp).freeBlocks = 0 then 0 else (s.run.bgd grp).freeBlocks - 1) rfl rfl
    with ⟨hfail, hstop⟩ | ⟨hok, hro, hstop | ⟨tblk, heq, hne, htblk⟩⟩
  · rw [if_neg (Bool.eq_false_iff.mp hfail)]
    exact .stopped hstop
  · rw [if_pos hok]
    generalize writeBgd geo mem _ grp _ = s' at hstop ⊢
    cases zero with
    | false => exact .lost ⟨hblk, hused, hfreed, hro⟩ { hstop with }
    | true =>
      have hwrite : writeData geo { s' with sbFree := s'.sbFree - 1 } (geo.groupStart grp + i) =
          (false, { s' with sbFree := s'.sbFree - 1 }) := if_pos (.inl hstop.ro)
      rw [hwrite]
      refine .stopped (Stopped.trans ?_ (freeLoop_stopped mem 1 hstop.ro))
      exact { hstop with }
  · rw [if_pos hok, heq]
    have halloc := allocated_withBitmap (s := s) (hapart hro) hgrp hi
      (if (s.run.bgd grp).freeBlocks = 0 then 0 else (s.run.bgd grp).freeBlocks - 1) (s.sbFree - 1)
        hne htblk
    rw [← hbm] at halloc
    cases zero with
    | false => exact .found ⟨hblk, hused, hfreed, hro⟩ halloc rfl
    | true =>
      rw [if_pos rfl, writeData_of_range (halloc.ro.trans hro) hblk]
      exact .cleared ⟨hblk, hused, hfreed, hro⟩ halloc rfl

end MaeroOS.Ext2
