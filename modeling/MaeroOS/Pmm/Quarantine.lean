import MaeroOS.Lib.Ring
import MaeroOS.Pmm.Boot

/-!
# Frames are not handed out twice

A freed frame waits in a ring of 512 until 512 more have been freed. Until then its bit stays set,
and so the two searches cannot find it, just as they cannot find an allocated frame.

* `PmmInv` ties the allocator to what its callers hold: allocated frames and the last 512 freed ones
  are different from each other and have their bits set, and the ring is the list of the latter.
* `PmmOk` is what a caller sees; `pmm_ok` shows it in every run from any boot.
-/

namespace MaeroOS.Pmm

open List
open Lib (Run)
open Lib.Ring (window window_cons window_push window_shift)
open PmmState (frameOf Counted Kept)

/-! ## The ring -/

/-- The ring holds the frames `l`, newest first. -/
structure RingHolds (s : PmmState) (l : List Nat) : Prop where
  cells : window pmmQuarantine s.quar s.quarPos s.quarN = l.reverse
  quarN_le : s.quarN ≤ pmmQuarantine
  quarPos_lt : s.quarPos < pmmQuarantine
  filling : s.quarN < pmmQuarantine → s.quarPos = 0

namespace RingHolds

variable {s s' : PmmState} {l : List Nat} {f : Nat}

variable (h : RingHolds s l)

include h

theorem congr (hkept : Kept s s') : RingHolds s' l := by
  obtain ⟨hcells, hle, hlt, hfill⟩ := h
  rw [← hkept.quar, ← hkept.quarPos, ← hkept.quarN] at *
  exact ⟨hcells, hle, hlt, hfill⟩

theorem length_eq : l.length = s.quarN := by
  rw [← length_reverse, ← h.cells, MaeroOS.Lib.Ring.length_window]

/-- A frame more, while the ring fills. -/
theorem fill (hfill : s.quarN < pmmQuarantine) :
    RingHolds { s with quar := Function.update s.quar s.quarN f, quarN := s.quarN + 1 }
      (f :: l) := by
  have hpos := h.filling hfill
  refine ⟨?_, hfill, h.quarPos_lt, fun _ => hpos⟩
  show window pmmQuarantine (Function.update s.quar s.quarN f) s.quarPos (s.quarN + 1) =
    (f :: l).reverse
  have hcell : s.quarN = (s.quarPos + s.quarN) % pmmQuarantine := by
    rw [hpos, Nat.zero_add, Nat.mod_eq_of_lt hfill]
  rw [reverse_cons, ← h.cells, ← window_push hfill, ← hcell]

/-- A full ring: the oldest frame is where the next one goes. -/
theorem oldest (hfull : ¬ s.quarN < pmmQuarantine) :
    l = l.take (pmmQuarantine - 1) ++ [s.quar s.quarPos] := by
  have hN : s.quarN = pmmQuarantine - 1 + 1 := le_antisymm h.quarN_le (not_lt.mp hfull)
  have hcells := h.cells
  rw [hN, window_cons, Nat.mod_eq_of_lt h.quarPos_lt] at hcells
  have hl := congrArg reverse hcells
  rw [reverse_cons, reverse_reverse] at hl
  rw [← hl, take_left' (by rw [length_reverse, MaeroOS.Lib.Ring.length_window])]

/-- A frame more in a full ring, for the oldest. -/
theorem evict (hfull : ¬ s.quarN < pmmQuarantine) :
    RingHolds { s with quar := Function.update s.quar s.quarPos f
                       quarPos :=
  (s.quarPos + 1) % pmmQuarantine } (f :: l.take (pmmQuarantine - 1)) := by
  have hN : s.quarN = pmmQuarantine := le_antisymm h.quarN_le (not_lt.mp hfull)
  refine ⟨?_, h.quarN_le, Nat.mod_lt _ (by decide), fun hlt => absurd hlt hfull⟩
  show window pmmQuarantine (Function.update s.quar s.quarPos f) ((s.quarPos + 1) % pmmQuarantine)
    s.quarN = _
  have hcells := h.cells
  rw [hN, h.oldest hfull, reverse_append, reverse_singleton, singleton_append] at hcells
  have hshift : window pmmQuarantine (Function.update s.quar (s.quarPos % pmmQuarantine) f)
      (s.quarPos + 1)
      pmmQuarantine = (window pmmQuarantine s.quar s.quarPos pmmQuarantine).tail ++ [f] :=
    window_shift (by decide)
  rw [Nat.mod_eq_of_lt h.quarPos_lt, hcells, tail_cons] at hshift
  rw [hN, MaeroOS.Lib.Ring.window_mod, hshift, reverse_cons]

/-- Cell `k` is `k - quarPos` places, around the end, behind the oldest. -/
theorem place {k : Nat} (hk : k < s.quarN) :
    ∃ d < s.quarN, (s.quarPos + d) % pmmQuarantine = k := by
  have hpos := h.quarPos_lt
  have hle := h.quarN_le
  rcases lt_or_ge s.quarN pmmQuarantine with hfill | hfull
  · refine ⟨k, hk, ?_⟩
    rw [h.filling hfill, Nat.zero_add, Nat.mod_eq_of_lt (by omega)]
  · rcases lt_or_ge k s.quarPos with hlt | hge
    · refine ⟨k + pmmQuarantine - s.quarPos, by omega, ?_⟩
      rw [show s.quarPos + (k + pmmQuarantine - s.quarPos) = k + pmmQuarantine by omega,
        Nat.add_mod_right, Nat.mod_eq_of_lt (by omega)]
    · refine ⟨k - s.quarPos, by omega, ?_⟩
      rw [Nat.add_sub_cancel' hge, Nat.mod_eq_of_lt (by omega)]

theorem place_lt {d : Nat} (hd : d < s.quarN) :
    (s.quarPos + d) % pmmQuarantine < s.quarN := by
  rcases lt_or_ge s.quarN pmmQuarantine with hfill | hfull
  · rwa [h.filling hfill, Nat.zero_add, Nat.mod_eq_of_lt (hd.trans hfill)]
  · exact (Nat.mod_lt _ (by decide)).trans_le hfull

/-- The cells in use have the frames of the ring. -/
theorem mem_iff : f ∈ l ↔ ∃ i < s.quarN, s.quar i = f := by
  rw [← mem_reverse, ← h.cells, window, mem_map]
  constructor
  · rintro ⟨d, hd, rfl⟩
    exact ⟨_, h.place_lt (mem_range.mp hd), rfl⟩
  · rintro ⟨i, hi, rfl⟩
    obtain ⟨d, hd, rfl⟩ := h.place hi
    exact ⟨d, mem_range.mpr hd, rfl⟩

/-- A ring of different frames has none of them in two places. -/
theorem cells_distinct (hl : l.Nodup) {i j : Nat} (hi : i < s.quarN) (hj : j < s.quarN)
    (heq : s.quar i = s.quar j) : i = j := by
  have hnodup : (window pmmQuarantine s.quar s.quarPos s.quarN).Nodup := by
    rw [h.cells]
    exact nodup_reverse.mpr hl
  obtain ⟨d, hd, rfl⟩ := h.place hi
  obtain ⟨e, he, rfl⟩ := h.place hj
  rw [List.inj_on_of_nodup_map hnodup (List.mem_range.mpr hd) (List.mem_range.mpr he) heq]

end RingHolds

/-! ## The invariant -/

/-- The frames whose free is followed by fewer than 512 others. -/
def Memory.recent (s : Memory) : List Nat := s.frees.take pmmQuarantine

/-- A frame that a caller holds, or that must wait. -/
def Memory.Busy (s : Memory) (f : Nat) : Prop := f ∈ s.allocated ∨ f ∈ s.recent

structure PmmInv (s : Memory) : Prop where
  counted : Counted s.pmm
  low : s.pmm.lowTotal = min s.pmm.total pmmLowFrames
  /-- Frame 0 is never free, so that address 0 is not a frame. -/
  zero : 0 < s.pmm.total → s.pmm.bitmap.test 0 = true
  busy : ∀ f, s.Busy f → 0 < f ∧ f < s.pmm.total ∧ s.pmm.bitmap.test f = true
  apart : ∀ f ∈ s.recent, f ∉ s.allocated
  distinct : s.recent.Nodup
  ring : RingHolds s.pmm s.recent

variable {Found : Nat → Prop}

namespace PmmInv

variable {s : Memory} {f n phys : Nat} {p : PmmState}

variable (h : PmmInv s)

include h

/-- Frames that are free are not busy. -/
theorem not_busy (hclear : s.pmm.bitmap.test f = false) : ¬ s.Busy f := by
  intro hf
  rw [(h.busy f hf).2.2] at hclear
  cases hclear

/-- Frames get marked, some of which are handed out. -/
theorem mark {l : Finset Nat} (hkept : Kept s.pmm p) (hcounted : Counted p)
    (hset : ∀ i, s.pmm.bitmap.test i = true → p.bitmap.test i = true)
    (hl : ∀ f ∈ l, 0 < f ∧ f < s.pmm.total ∧ s.pmm.bitmap.test f = false ∧ p.bitmap.test f = true) :
    PmmInv { s with pmm := p, allocated := s.allocated ∪ l } where
  counted := hcounted
  low := by simpa only [hkept.lowTotal, hkept.total] using h.low
  zero := by
    intro h0
    exact hset 0 (h.zero (hkept.total ▸ h0))
  busy := by
    intro f hf
    show 0 < f ∧ f < p.total ∧ p.bitmap.test f = true
    rw [hkept.total]
    have hcases : s.Busy f ∨ f ∈ l := by
      rcases hf with hf | hf
      · rcases Finset.mem_union.mp hf with hf | hf
        · exact .inl (.inl hf)
        · exact .inr hf
      · exact .inl (.inr hf)
    rcases hcases with hf | hf
    · obtain ⟨h0, hlt, ht⟩ := h.busy f hf
      exact ⟨h0, hlt, hset f ht⟩
    · obtain ⟨h0, hlt, -, ht⟩ := hl f hf
      exact ⟨h0, hlt, ht⟩
  apart := by
    intro f hf hmem
    rcases Finset.mem_union.mp hmem with hmem | hmem
    · exact h.apart f hf hmem
    · exact h.not_busy (hl f hmem).2.2.1 (.inr hf)
  distinct := h.distinct
  ring := h.ring.congr hkept

/-- Frames get marked, and none is handed out. -/
theorem keep (hkept : Kept s.pmm p) (hcounted : Counted p)
    (hset : ∀ i, s.pmm.bitmap.test i = true → p.bitmap.test i = true) :
    PmmInv { s with pmm := p } := by
  have := h.mark (l := ∅) hkept hcounted hset (by simp)
  rwa [Finset.union_empty] at this

/-! ## Freeing -/

omit h in
theorem recent_released : (s.released phys p).recent = frameOf phys :: s.recent.take
    (pmmQuarantine - 1) := by
  unfold Memory.recent Memory.released
  rw [take_take]
  rfl

/-- A frame is released: it was allocated, and is now the newest in the ring. A frame that leaves
the ring for it gets free. -/
theorem release (hf : frameOf phys ∈ s.allocated) :
    PmmInv (s.released phys (s.pmm.pmmFreeFrame phys)) := by
  obtain ⟨h0, hlt, hbit⟩ := h.busy _ (.inl hf)
  have hnew : frameOf phys ∉ s.recent := fun hmem => h.apart _ hmem hf
  -- what waits now: the new frame, and of those that waited before all or all but one
  have hrecent : ∀ {p g}, g ∈ (s.released phys p).recent →
      g = frameOf phys ∨ g ∈ s.recent.take (pmmQuarantine - 1) := by
    intro p g hg
    rwa [recent_released, mem_cons] at hg
  have hold : ∀ {p g}, (s.released phys p).Busy g → s.Busy g := by
    intro p g hg
    rcases hg with hg | hg
    · exact .inl (Finset.mem_of_mem_erase hg)
    rcases hrecent hg with rfl | hg
    · exact .inl hf
    · exact .inr (mem_of_mem_take hg)
  have hapart : ∀ {p}, ∀ g ∈ (s.released phys p).recent, g ∉ (s.released phys p).allocated := by
    intro p g hg hmem
    rcases hrecent hg with rfl | hg
    · exact Finset.notMem_erase _ _ hmem
    · exact h.apart g (mem_of_mem_take hg) (Finset.mem_of_mem_erase hmem)
  have hdistinct : ∀ {p}, (s.released phys p).recent.Nodup := by
    intro p
    rw [recent_released, nodup_cons]
    exact ⟨fun hmem => hnew (mem_of_mem_take hmem), h.distinct.sublist (take_sublist _ _)⟩
  unfold PmmState.pmmFreeFrame
  rw [if_neg (not_le.mpr hlt)]
  split
  · next hfill =>
    have hring := h.ring.fill (f := frameOf phys) hfill
    have hall : s.recent.take (pmmQuarantine - 1) = s.recent := by
      refine take_of_length_le ?_
      rw [h.ring.length_eq]
      omega
    refine ⟨{ h.counted with }, h.low, h.zero,
      fun g hg => h.busy g (hold hg), hapart, hdistinct, ?_⟩
    rw [recent_released, hall]
    exact hring
  · next hfull =>
    have hring := h.ring.evict (f := frameOf phys) hfull
    have holdest := h.ring.oldest hfull
    have hgone : s.pmm.quar s.pmm.quarPos ∈ s.recent := by
      rw [holdest]
      exact mem_append_right _ (mem_singleton_self _)
    have hgone' : s.pmm.quar s.pmm.quarPos ∉ s.recent.take (pmmQuarantine - 1) := by
      have hd := h.distinct
      rw [holdest] at hd
      exact fun hmem => disjoint_of_nodup_append hd hmem (mem_singleton_self _)
    obtain ⟨hg0, hglt, -⟩ := h.busy _ (.inr hgone)
    generalize s.pmm.quar s.pmm.quarPos = gone at *
    have hcounted : Counted
        { s.pmm with quar := Function.update s.pmm.quar s.pmm.quarPos (frameOf phys)
                     quarPos := (s.pmm.quarPos + 1) % pmmQuarantine } :=
      { h.counted with }
    have hkept := Kept.markFree (i := gone)
      (s := { s.pmm with quar := Function.update s.pmm.quar s.pmm.quarPos (frameOf phys)
                         quarPos := (s.pmm.quarPos + 1) % pmmQuarantine })
    refine ⟨hcounted.markFree hglt, ?_, ?_, ?_, hapart, hdistinct, ?_⟩
    · exact hkept.lowTotal.trans (h.low.trans (congrArg (min · pmmLowFrames) hkept.total.symm))
    · intro ht
      refine PmmState.markFree_test.trans ?_
      rw [if_neg hg0.ne]
      exact h.zero (hkept.total ▸ ht)
    · intro g hg
      obtain ⟨h1, h2, h3⟩ := h.busy g (hold hg)
      refine ⟨h1, h2.trans_eq hkept.total.symm, PmmState.markFree_test.trans ?_⟩
      have hne : g ≠ gone := by
        rintro rfl
        rcases hg with hg | hg
        · exact h.apart _ hgone (Finset.mem_of_mem_erase hg)
        rcases hrecent hg with rfl | hg
        · exact hnew hgone
        · exact hgone' hg
      rw [if_neg hne]
      exact h3
    · rw [recent_released]
      exact hring.congr hkept

/-! ## Allocating -/

/-- The outcome of an allocator that looks for `n` frames such that `Found f` holds: their address,
of frames that are free, or 0 if there are none. -/
structure Outcome (s : Memory) (n : Nat) (Found : Nat → Prop) (r : Nat × PmmState) : Prop where
  zero_iff : r.1 = 0 ↔ ∀ f, ¬ Found f
  found : r.1 ≠ 0 → ∃ f, r.1 = f * pageSize ∧ Found f
  inv : PmmInv (s.returned n r)

omit h in
/-- Nothing was found. -/
theorem nothing (h : PmmInv { s with pmm := p }) (hnone : ∀ f, ¬ Found f) :
    Outcome s n Found (0, p) :=
  ⟨⟨fun _ => hnone, fun _ => rfl⟩, fun h0 => absurd rfl h0, h⟩

omit h in
/-- Frames were found, below a bound that keeps their address in range. -/
theorem something {addr : Nat} (h0 : 0 < f) (haddr : addr = f * pageSize)
    (hf : Found f)
    (h : PmmInv { s with pmm := p, allocated := s.allocated ∪ Finset.Ico f (f + n) }) :
    Outcome s n Found (addr, p) := by
  have hne : addr ≠ 0 := by
    rw [haddr]
    exact Nat.mul_ne_zero h0.ne' (by decide)
  refine ⟨⟨fun hz => absurd hz hne, fun hnone => absurd hf (hnone f)⟩, fun _ => ⟨f, haddr, hf⟩, ?_⟩
  have hdiv : addr / pageSize = f := by
    rw [haddr]
    exact Nat.mul_div_cancel f (by decide)
  unfold Memory.returned
  rw [if_neg hne, hdiv]
  exact h

/-- A free frame of the zone. -/
def FreeIn (s : PmmState) (lo hi f : Nat) : Prop := lo ≤ f ∧ f < hi ∧ s.bitmap.test f = false

/-- A frame that is free is not frame 0. -/
theorem pos_of_free (hlt : f < s.pmm.total) (hclear : s.pmm.bitmap.test f = false) : 0 < f := by
  rcases Nat.eq_zero_or_pos f with rfl | h0
  · rw [h.zero hlt] at hclear
    cases hclear
  · exact h0

/-- One frame is taken. -/
theorem take (hlt : f < s.pmm.total) (hclear : s.pmm.bitmap.test f = false) :
    PmmInv { s with pmm := s.pmm.take f, allocated := s.allocated ∪ Finset.Ico f (f + 1) } := by
  refine h.mark Kept.take (h.counted.take hlt) (fun i hi => ?_) fun g hg => ?_
  · rw [PmmState.take_test, hi, ite_self]
  · obtain rfl : g = f := by
      have := Finset.mem_Ico.mp hg
      omega
    exact ⟨h.pos_of_free hlt hclear, hlt, hclear, by rw [PmmState.take_test, if_pos rfl]⟩

/-- Only the cursors change. -/
theorem cursors {a b : Nat} :
    PmmInv { s with pmm := { s.pmm with lastAlloc := a, lastHigh := b } } :=
  { h with counted := { h.counted with }, ring := h.ring.congr ⟨rfl, rfl, rfl, rfl, rfl⟩ }

omit h in
/-- The two results of `pmm_scan`. -/
theorem pmmScan_cases (lo hi cursor : Nat) (p : PmmState) :
    (∃ f, p.pmmScan lo hi cursor = (some f, f, p.take f) ∧ FreeIn p lo hi f) ∨
      ∃ c, p.pmmScan lo hi cursor = (none, c, p) ∧ ∀ f, ¬ FreeIn p lo hi f := by
  have hstart : lo < hi → lo ≤ PmmState.scanStart lo hi cursor ∧
      PmmState.scanStart lo hi cursor < hi :=
    fun h => PmmState.scanStart_mem h cursor
  unfold PmmState.pmmScan
  split
  · next f hfind =>
    rcases lt_or_ge lo hi with hlt | hge
    · obtain ⟨h1, h2⟩ := hstart hlt
      exact .inl ⟨f, rfl, PmmState.scanFind_some h1 hfind h2.le⟩
    · -- the zone is empty
      have hlo : PmmState.scanStart lo hi cursor = lo := by
        unfold PmmState.scanStart
        split <;> omega
      rw [hlo] at hfind
      rcases Option.or_eq_some_iff.mp hfind with hf | ⟨-, hf⟩
      · have := PmmState.scanPass_some hf
        omega
      · have := PmmState.scanPass_some hf
        omega
  · next hfind =>
    refine .inr ⟨_, rfl, fun f hf => ?_⟩
    obtain ⟨h1, h2⟩ := hstart (hf.1.trans_lt hf.2.1)
    have := (PmmState.scanFind_eq_none h1 h2.le).mp hfind f hf.1 hf.2.1
    rw [hf.2.2] at this
    cases this

theorem allocFrame : Outcome s 1 (FreeIn s.pmm 0 s.pmm.lowTotal) s.pmm.pmmAllocFrame := by
  have hlow := h.low
  unfold PmmState.pmmAllocFrame
  rcases pmmScan_cases 0 s.pmm.lowTotal s.pmm.lastAlloc s.pmm with ⟨f, hscan, hf⟩
    | ⟨c, hscan, hnone⟩
  · rw [hscan]
    have hlt : f < s.pmm.total := by
      have := hf.2.1
      omega
    refine something (h.pos_of_free hlt hf.2.2) (u32_eq ?_) hf (h.take hlt hf.2.2).cursors
    have := hf.2.1
    unfold pmmLowFrames at hlow
    unfold pageSize
    omega
  · rw [hscan]
    exact nothing h.cursors hnone

theorem allocUserFrame : Outcome s 1 (FreeIn s.pmm 0 s.pmm.total) s.pmm.pmmAllocUserFrame := by
  have hlow := h.low
  unfold PmmState.pmmAllocUserFrame
  split
  · rcases pmmScan_cases s.pmm.lowTotal s.pmm.total s.pmm.lastHigh s.pmm with ⟨f, hscan, hf⟩
      | ⟨c, hscan, hnone⟩
    · rw [hscan]
      refine something (h.pos_of_free hf.2.1 hf.2.2) (Nat.mod_eq_of_lt ?_) ⟨Nat.zero_le f, hf.2⟩
        (h.take hf.2.1 hf.2.2).cursors
      have := hf.2.1
      have hmax := h.counted.total_le
      unfold pmmMaxFrames at hmax
      unfold pageSize
      omega
    · -- nothing above 4 GiB, so below
      rw [hscan]
      have hlower := allocFrame (s := { s with pmm := { s.pmm with lastHigh := c } }) h.cursors
      have hiff : ∀ f, FreeIn s.pmm 0 s.pmm.lowTotal f ↔ FreeIn s.pmm 0 s.pmm.total f := by
        intro f
        constructor
        · rintro ⟨h1, h2, h3⟩
          exact ⟨h1, by omega, h3⟩
        · rintro ⟨h1, h2, h3⟩
          refine ⟨h1, not_le.mp fun hle => hnone f ⟨hle, h2, h3⟩, h3⟩
      refine ⟨hlower.zero_iff.trans (forall_congr' fun f => not_congr (hiff f)), fun h0 => ?_,
        hlower.inv⟩
      obtain ⟨f, hf, hfree⟩ := hlower.found h0
      exact ⟨f, hf, (hiff f).mp hfree⟩
  · next hlt =>
    have htotal : s.pmm.lowTotal = s.pmm.total := by omega
    rw [← htotal]
    exact h.allocFrame

/-- A run of `n` free frames, none of them frame 0, below the limit. -/
def RunBelow (s : PmmState) (n limit f : Nat) : Prop :=
  0 < f ∧ f + n ≤ s.contigEnd limit ∧ PmmState.Run s.bitmap f n

theorem allocContig (n limit : Nat) : Outcome s n (RunBelow s.pmm n limit)
    (s.pmm.pmmAllocContig n limit) := by
  unfold PmmState.pmmAllocContig
  split
  · next hn =>
    subst hn
    exact nothing h fun f hf => absurd hf.2.2.1 (lt_irrefl 0)
  · next hn =>
    have hn : 0 < n := Nat.pos_of_ne_zero hn
    obtain ⟨hsome, hnone⟩ := PmmState.contigLoop_spec s.pmm.bitmap (s.pmm.contigEnd limit) 1 0 hn
      (Nat.sub_le _ 1) hn Nat.zero_lt_one (fun i h1 h2 => by omega) fun f hf _ => hf
    split
    · next f hfind =>
      obtain ⟨h0, hle, hrun⟩ := hsome f hfind
      have hend : s.pmm.contigEnd limit ≤ min s.pmm.total pmmLowFrames := by
        rw [← h.low]
        exact min_le_right _ _
      have hlt : ∀ i ∈ range' f n, i < s.pmm.total := by
        intro i hi
        have := mem_range'_1.mp hi
        omega
      have htest : ∀ i, ((range' f n).foldl PmmState.take s.pmm).bitmap.test i =
          if i ∈ range' f n then true else s.pmm.bitmap.test i :=
        fun i => PmmState.foldl_test (fun _ _ _ => PmmState.take_test) _
      refine something h0 (u32_eq ?_) ⟨h0, hle, hrun⟩ (h.mark (Kept.foldl (fun _ _ => Kept.take) _)
        (Counted.foldl (fun _ _ => Kept.take) (fun _ _ hc hi => hc.take hi) _ h.counted hlt) ?_ ?_)
      · unfold pmmLowFrames at hend
        unfold pageSize
        omega
      · intro i hi
        rw [htest, hi, ite_self]
      · intro g hg
        obtain ⟨h1, h2⟩ := Finset.mem_Ico.mp hg
        have hmem : g ∈ range' f n := mem_range'_1.mpr ⟨h1, h2⟩
        refine ⟨by omega, hlt g hmem, hrun.2 g h1 h2, ?_⟩
        rw [htest, if_pos hmem]
    · next hfind =>
      refine nothing h fun f hf => ?_
      exact hnone hfind f hf.1 hf.2.1 hf.2.2

/-! ## Every call -/

theorem incref : PmmInv { s with pmm := s.pmm.pmmFrameIncref phys } := by
  unfold PmmState.pmmFrameIncref
  split
  · exact h.keep ⟨rfl, rfl, rfl, rfl, rfl⟩ { h.counted with } fun _ => id
  · exact h

theorem countDown : PmmInv { s with pmm := (s.pmm.countDown f).2 } := by
  unfold PmmState.countDown
  split
  · exact h.keep ⟨rfl, rfl, rfl, rfl, rfl⟩ { h.counted with } fun _ => id
  · exact h

/-- A frame released by its last reference is released as any other. -/
theorem decref (hok : s.Allowed (.decref phys)) : PmmInv (s.apply (.decref phys)) := by
  have hdown := h.countDown (f := frameOf phys)
  have hok : (s.pmm.pmmFrameDecref phys).1 = true → frameOf phys ∈ s.allocated := hok
  dsimp only [Memory.apply]
  unfold PmmState.pmmFrameDecref at hok ⊢
  generalize s.pmm.countDown (frameOf phys) = r at hdown hok ⊢
  obtain ⟨doFree, p⟩ := r
  cases doFree with
  | true => exact hdown.release (hok rfl)
  | false => exact hdown

theorem refcountInit {memory : Bool} : PmmInv { s with pmm := s.pmm.pmmRefcountInit memory } := by
  unfold PmmState.pmmRefcountInit
  split
  · exact h.keep ⟨rfl, rfl, rfl, rfl, rfl⟩ { h.counted with } fun _ => id
  · exact h

theorem reserveRegion {size : Nat} : PmmInv { s with pmm := s.pmm.pmmReserveRegion phys size } :=
  h.keep Kept.usedRegion h.counted.usedRegion fun _ => PmmState.usedRegion_test

/-- **Every call keeps the invariant.** -/
theorem apply {e : PmmEvent} (hok : s.Allowed e) : PmmInv (s.apply e) := by
  cases e with
  | allocFrame => exact h.allocFrame.inv
  | allocUserFrame => exact h.allocUserFrame.inv
  | allocContig n limit => exact (h.allocContig n limit).inv
  | freeFrame phys => exact h.release hok
  | incref phys => exact h.incref
  | decref phys => exact h.decref hok
  | refcountInit memory => exact h.refcountInit
  | reserveRegion phys size => exact h.reserveRegion

end PmmInv

/-! ## Boot -/

theorem BootInfo.total_le (mb : BootInfo) : mb.total ≤ pmmMaxFrames := by
  unfold BootInfo.total
  dsimp only
  split <;> omega

theorem pmmInit_inv (mb : BootInfo) : PmmInv ⟨pmmInit mb, ∅, []⟩ := by
  have hkept := pmmInit_kept mb
  have hcounted : Counted (pmmInit mb) := by
    rw [pmmInit_eq]
    refine foldlRecOn _ _ ?_ fun _ h _ _ => h.usedRegion
    exact foldlRecOn _ _ (Counted.full mb.total_le) fun _ h _ _ => h.freeRegion
  refine ⟨hcounted, ?_, fun h0 => ?_, ?_, fun f hf => absurd hf (Finset.notMem_empty f),
    nodup_nil, ?_⟩
  · show (pmmInit mb).lowTotal = min (pmmInit mb).total pmmLowFrames
    rw [hkept.lowTotal, hkept.total]
    rfl
  · -- frame 0 is in the first MiB, which is marked again
    by_contra hclear
    have hmarked :=
      ((pmmInit_clear mb (h0.trans_eq hkept.total)).mp (Bool.eq_false_iff.mpr hclear)).2
    exact hmarked (0, 0x100000) mem_cons_self (by decide)
  · rintro f (hf | hf)
    · exact absurd hf (Finset.notMem_empty f)
    · cases hf
  · refine RingHolds.congr (s := PmmState.full mb.total) ?_ hkept
    exact ⟨rfl, Nat.zero_le _, Nat.zero_lt_succ _, fun _ => rfl⟩

/-! ## What callers see -/

/-- An allocator of `n` frames returns 0 exactly if it could find none, and otherwise frames that
nobody holds and whose last free, if there was one, is at least 512 frees ago. -/
structure Handout (s : Memory) (n : Nat) (Found : Nat → Prop) (addr : Nat) : Prop where
  zero_iff : addr = 0 ↔ ¬ ∃ f, Found f
  frame : addr ≠ 0 → addr = addr / pageSize * pageSize ∧ Found (addr / pageSize)
  idle : addr ≠ 0 → ∀ f, addr / pageSize ≤ f → f < addr / pageSize + n →
    f ∉ s.allocated ∧ f ∉ s.recent

/-- `pmm_frame_decref` counts down, frees the frame exactly if this was the last reference, and
leaves a saturated count. -/
structure DecrefOk (s : PmmState) (phys : Nat) : Prop where
  releases : (s.pmmFrameDecref phys).1 = true ↔ s.pmmFrameRefcount phys = 1
  last : s.pmmFrameRefcount phys = 1 → (s.pmmFrameDecref phys).2 =
    { s with refcount := Function.update s.refcount (frameOf phys) 0 }.pmmFreeFrame phys
  more : 1 < s.pmmFrameRefcount phys → s.pmmFrameRefcount phys < pmmRefSaturated →
    (s.pmmFrameDecref phys).2 =
      { s with
        refcount := Function.update s.refcount (frameOf phys) (s.refcount (frameOf phys) - 1) }
  stays : s.pmmFrameRefcount phys = 0 ∨ pmmRefSaturated ≤ s.pmmFrameRefcount phys →
    (s.pmmFrameDecref phys).2 = s

/-- `pmm_free_frame` puts the frame into the ring. One frame gets free with it, the one whose free
is followed by 512 others now. -/
structure FreeOk (s : Memory) (phys : Nat) : Prop where
  waits : ∃ i < (s.pmm.pmmFreeFrame phys).quarN, (s.pmm.pmmFreeFrame phys).quar i = frameOf phys
  bits : ∀ i, (s.pmm.pmmFreeFrame phys).bitmap.test i =
    if s.frees[pmmQuarantine - 1]? = some i then false else s.pmm.bitmap.test i

structure PmmOk (s : Memory) : Prop where
  used : s.pmm.used = s.pmm.bitmap.weight 0 s.pmm.total
  highUsed : s.pmm.highUsed = s.pmm.bitmap.weight pmmLowFrames s.pmm.total
  allocFrame : Handout s 1 (PmmInv.FreeIn s.pmm 0 s.pmm.lowTotal) s.pmm.pmmAllocFrame.1
  allocUserFrame : Handout s 1 (PmmInv.FreeIn s.pmm 0 s.pmm.total) s.pmm.pmmAllocUserFrame.1
  allocContig : ∀ n limit,
    Handout s n (PmmInv.RunBelow s.pmm n limit) (s.pmm.pmmAllocContig n limit).1
  quarantine : ∀ i j, i < s.pmm.quarN → j < s.pmm.quarN → s.pmm.quar i = s.pmm.quar j → i = j
  /-- The frames in the ring are the last 512 that were freed, and none of them is free. -/
  waiting : ∀ f, f ∈ s.recent ↔ ∃ i < s.pmm.quarN, s.pmm.quar i = f
  waits : ∀ f ∈ s.recent, s.pmm.bitmap.test f = true
  freeFrame : ∀ phys, frameOf phys ∈ s.allocated → FreeOk s phys
  decref : ∀ phys, DecrefOk s.pmm phys

/-- What was found is free, and what is free is not busy. -/
theorem PmmInv.handout {s : Memory} {n : Nat} {r : Nat × PmmState} (h : PmmInv s)
    (hr : PmmInv.Outcome s n Found r)
    (hfree : ∀ f, Found f → ∀ i, f ≤ i → i < f + n → s.pmm.bitmap.test i = false) :
    Handout s n Found r.1 := by
  have hframe : r.1 ≠ 0 → r.1 = r.1 / pageSize * pageSize ∧ Found (r.1 / pageSize) := by
    intro h0
    obtain ⟨f, hf, hfound⟩ := hr.found h0
    have hdiv : r.1 / pageSize = f := by
      rw [hf]
      exact Nat.mul_div_cancel f (by decide)
    rw [hdiv]
    exact ⟨hf, hfound⟩
  refine ⟨hr.zero_iff.trans not_exists.symm, hframe, fun h0 i h1 h2 => ?_⟩
  have hbusy := h.not_busy (hfree _ (hframe h0).2 i h1 h2)
  exact ⟨fun hmem => hbusy (.inl hmem), fun hmem => hbusy (.inr hmem)⟩

theorem PmmInv.freeIn_clear {s : PmmState} {lo hi f : Nat} (h : PmmInv.FreeIn s lo hi f) :
    ∀ i, f ≤ i → i < f + 1 → s.bitmap.test i = false := by
  intro i h1 h2
  obtain rfl : i = f := by omega
  exact h.2.2

theorem decref_ok (s : PmmState) (phys : Nat) : DecrefOk s phys := by
  have hcount : s.pmmFrameRefcount phys =
      if s.refcountFrames ≤ frameOf phys then 0 else s.refcount (frameOf phys) := rfl
  have hsat : 1 < pmmRefSaturated := by decide
  set n := s.refcount (frameOf phys)
  by_cases hcounts : frameOf phys < s.refcountFrames ∧ 0 < n ∧
      n < pmmRefSaturated
  · have hdown : s.countDown (frameOf phys) = (n - 1 == 0,
        { s with refcount := Function.update s.refcount (frameOf phys) (n - 1) }) :=
      if_pos hcounts
    rw [if_neg (not_le.mpr hcounts.1)] at hcount
    rcases lt_or_ge 1 n with hmore | hlast
    · -- not the last reference
      have hdecref : s.pmmFrameDecref phys = (false,
          { s with refcount := Function.update s.refcount (frameOf phys) (n - 1) }) := by
        rw [PmmState.pmmFrameDecref, hdown, beq_false_of_ne (by omega)]
      refine ⟨?_, fun h => by omega, fun _ _ => by rw [hdecref], fun h => by omega⟩
      rw [hdecref, hcount]
      exact ⟨nofun, fun h => by omega⟩
    · -- the last one
      have hone : n = 1 := by omega
      have hdecref : s.pmmFrameDecref phys = (true,
          { s with refcount := Function.update s.refcount (frameOf phys) 0 }.pmmFreeFrame
            phys) := by
        rw [PmmState.pmmFrameDecref, hdown, hone]
        rfl
      refine ⟨?_, fun _ => by rw [hdecref], fun h => by omega, fun h => by omega⟩
      rw [hdecref, hcount]
      exact ⟨fun _ => hone, fun _ => rfl⟩
  · have hdecref : s.pmmFrameDecref phys = (false, s) := by
      rw [PmmState.pmmFrameDecref, show s.countDown (frameOf phys) = (false, s) from if_neg hcounts]
    have hends : s.pmmFrameRefcount phys = 0 ∨ pmmRefSaturated ≤ s.pmmFrameRefcount phys := by
      rw [hcount]
      split <;> omega
    refine ⟨?_, fun h => by omega, fun h h' => by omega, fun _ => by rw [hdecref]⟩
    rw [hdecref]
    exact ⟨nofun, fun h => by omega⟩

/-- The oldest frame of a full ring is the one that was freed 512 frees ago. -/
theorem PmmInv.oldest_iff {s : Memory} {i : Nat} (h : PmmInv s)
    (hfull : ¬ s.pmm.quarN < pmmQuarantine) :
    s.frees[pmmQuarantine - 1]? = some i ↔ i = s.pmm.quar s.pmm.quarPos := by
  have hlast : s.recent[pmmQuarantine - 1]? = s.frees[pmmQuarantine - 1]? :=
    getElem?_take_of_lt (by decide)
  have hlen : (s.recent.take (pmmQuarantine - 1)).length = pmmQuarantine - 1 := by
    rw [length_take, h.ring.length_eq, min_eq_left (by omega)]
  have hat : s.recent[pmmQuarantine - 1]? = some (s.pmm.quar s.pmm.quarPos) := by
    rw [h.ring.oldest hfull, getElem?_append_right hlen.le, hlen, Nat.sub_self]
    rfl
  rw [← hlast, hat, Option.some_inj, eq_comm]

theorem PmmInv.free_ok {s : Memory} {phys : Nat} (h : PmmInv s)
    (hf : frameOf phys ∈ s.allocated) : FreeOk s phys := by
  refine ⟨(h.release hf).ring.mem_iff.mp ?_, fun i => ?_⟩
  · rw [recent_released]
    exact mem_cons_self
  · unfold PmmState.pmmFreeFrame
    rw [if_neg (not_le.mpr (h.busy _ (.inl hf)).2.1)]
    split
    · next hfill =>
      -- fewer than 512 frames were freed so far
      have hnone : s.frees[pmmQuarantine - 1]? = none := by
        have hlen := h.ring.length_eq
        rw [Memory.recent, length_take] at hlen
        exact getElem?_eq_none (by omega)
      rw [hnone, if_neg nofun]
    · next hfull =>
      refine PmmState.markFree_test.trans ?_
      simp only [h.oldest_iff hfull]

/-- **The frame allocator.** In every run from any boot, in which only allocated frames are freed,
the counters are exact, an allocator fails only if there is no frame for it, no frame is handed out
while it is allocated or has to wait, no frame waits twice, a freed frame waits until 512 others
have been freed and is free then, and a frame is released with its last reference. -/
theorem pmm_ok {h : List PmmEvent} {s : Memory} (hrun : Run pmmSystem h s) : PmmOk s := by
  have hinv : PmmInv s := by
    refine hrun.invariant ?_ ?_
    · rintro _ ⟨mb, rfl⟩
      exact pmmInit_inv mb
    · rintro s e _ hs ⟨hok, rfl⟩
      exact hs.apply hok
  exact {
    used := hinv.counted.used
    highUsed := hinv.counted.high
    allocFrame := hinv.handout hinv.allocFrame fun _ => PmmInv.freeIn_clear
    allocUserFrame := hinv.handout hinv.allocUserFrame fun _ => PmmInv.freeIn_clear
    allocContig := fun n limit => hinv.handout (hinv.allocContig n limit) fun _ hf => hf.2.2.2
    quarantine := fun _ _ => hinv.ring.cells_distinct hinv.distinct
    waiting := fun _ => hinv.ring.mem_iff
    waits := fun f hf => (hinv.busy f (.inr hf)).2.2
    freeFrame := fun _ => hinv.free_ok
    decref := decref_ok s.pmm }

/-- Two frames are allocated, and the first is freed. -/
def freedFrame : Memory :=
  [.allocFrame, .allocFrame, .freeFrame 0x108000].foldl Memory.apply ⟨pmmInit smallBoot, ∅, []⟩

/-- The next frame is not the one that was freed. -/
theorem pmm_ok_freed : PmmOk freedFrame ∧ freedFrame.recent = [0x108] ∧
    freedFrame.pmm.pmmAllocFrame.1 = 0x10A000 := by
  refine ⟨pmm_ok (h := [.freeFrame 0x108000, .allocFrame, .allocFrame])
    ?_, by decide +kernel, by decide +kernel⟩
  refine .step (.step (.step (.init ⟨smallBoot, rfl⟩) ⟨trivial, rfl⟩) ⟨trivial, rfl⟩) ⟨?_, rfl⟩
  show frameOf 0x108000 ∈ _
  decide +kernel

end MaeroOS.Pmm
