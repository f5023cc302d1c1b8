import MaeroOS.Vm.Effects
import MaeroOS.Vm.PageMap

/-!
# Where a mapping goes

`vma_range_free`, the search for a gap and the choice of the address in `mmap`: a range they give is
made of whole pages, lies in the part of the address space that is for mappings, and is free.
-/

namespace MaeroOS.Vm

open List
open Lib Lib.Segments

/-! ## Rounding -/

theorem pageUp_dvd (n : Nat) : pageSize ∣ pageUp n := Nat.dvd_mul_left pageSize _

theorem pageDown_dvd (n : Nat) : pageSize ∣ pageDown n := Nat.dvd_mul_left pageSize _

variable {n : Nat}

/-- Rounding up does not wrap up to the last page of the address space. -/
theorem pageUp_bounds (h : n ≤ 0xFFFFF000) : n ≤ pageUp n ∧ pageUp n < n + pageSize := by
  unfold pageUp u32 pageSize
  omega

/-- And from there on it wraps to nothing. -/
theorem pageUp_wrap (h : 0xFFFFF000 < n) (hn : n < 2 ^ 32) : pageUp n = 0 := by
  unfold pageUp u32 pageSize
  omega

theorem u32_of_lt (h : n < 2 ^ 32) : u32 n = n := Nat.mod_eq_of_lt h

/-- A sum of 32-bit numbers that is not below the first one did not wrap. -/
theorem add_lt_of_le_u32 {a b : Nat} (ha : a < 2 ^ 32) (hb : b < 2 ^ 32) (h : a ≤ u32 (a + b)) :
    a + b < 2 ^ 32 ∧ u32 (a + b) = a + b ∨ b = 0 := by
  unfold u32 at *
  omega

theorem alignUp_dvd {d : Nat} (h : d ∣ align) (lo : Nat) : d ∣ alignUp lo align :=
  Nat.dvd_trans h (Nat.dvd_mul_left align _)

theorem alignUp_lt (lo align : Nat) : alignUp lo align < 2 ^ 32 :=
  lt_of_le_of_lt (Nat.div_mul_le_self _ _) (Nat.mod_lt _ (by decide))

namespace Mm

variable {s : Mm} {va length align lo cand : Nat} {l : List Vma}

/-! ## Free ranges -/

/-- No VMA meets the range. -/
def NoVma (s : Mm) (start stop : Nat) : Prop := ∀ v ∈ s.owner.vmas, v.stop ≤ start ∨ stop ≤ v.start

/-- No page of the range is mapped. -/
def NoPage (s : Mm) (start stop : Nat) : Prop :=
  ∀ p ∈ pagesOf start stop, (s.pt.pteRead p).mapped = false

theorem vmaRangeFree_pages (h : s.vmaRangeFree va length = true) :
    va ≤ u32 (va + length) ∧ s.NoPage va (u32 (va + length)) := by
  unfold vmaRangeFree at h
  simp only [Bool.and_eq_true, decide_eq_true_eq, Option.isNone_iff_eq_none] at h
  exact ⟨h.1.1, PageTables.firstMappedPage_eq_none.mp h.2⟩

/-- A sorted list is searched up to the first node that starts after the range. -/
theorem mem_takeWhile_start {v : Vma} {stop : Nat} (h : Valid l) (hv : v ∈ l)
    (hlt : v.start < stop) : v ∈ l.takeWhile (·.start < stop) := by
  induction l with
  | nil => cases hv
  | cons w l ih =>
    have hw : w.start < stop := by
      rcases mem_cons.mp hv with rfl | hmem
      · exact hlt
      have := h.head_le v hmem
      have := h.head.lt
      omega
    have htake : (w :: l).takeWhile (·.start < stop) = w :: l.takeWhile (·.start < stop) := by
      simp [hw]
    rw [htake]
    rcases mem_cons.mp hv with rfl | hmem
    · exact mem_cons_self
    · exact mem_cons_of_mem w (ih h.of_cons hmem)

theorem vmaRangeFree_vmas (hvalid : Valid s.owner.vmas) (h : s.vmaRangeFree va length = true) :
    s.NoVma va (u32 (va + length)) := by
  unfold vmaRangeFree at h
  simp only [Bool.and_eq_true, decide_eq_true_eq, all_eq_true] at h
  intro v hv
  by_cases hstart : v.start < u32 (va + length)
  · exact Or.inl (h.1.2 v (mem_takeWhile_start hvalid hv hstart))
  · exact Or.inr (not_lt.mp hstart)

/-! ## The search for a gap -/

variable (hlen : length < 2 ^ 32)

include hlen

theorem gapFits_spec (h : gapFits length align lo = true) :
    lo ≤ alignUp lo align ∧ (length = 0 ∨ alignUp lo align + length ≤ mmapTop) := by
  obtain ⟨hlo, hle, htop⟩ := of_decide_eq_true h
  refine ⟨hlo, ?_⟩
  rcases add_lt_of_le_u32 (alignUp_lt lo align) hlen hle with ⟨-, heq⟩ | hzero
  · exact Or.inr (heq ▸ htop)
  · exact Or.inl hzero

variable {d : Nat} (halign : d ∣ align)

include halign

/-- What the walk over the nodes gives is aligned, not before its start, and ends below
`MMAP_TOP`. -/
theorem gapScan_place (h : gapScan length align l lo = some cand) :
    lo ≤ cand ∧ d ∣ cand ∧ (length = 0 ∨ cand + length ≤ mmapTop) := by
  have hplace : ∀ {lo}, gapFits length align lo = true →
      lo ≤ alignUp lo align ∧ d ∣ alignUp lo align ∧
        (length = 0 ∨ alignUp lo align + length ≤ mmapTop) :=
    fun {lo} hfits => ⟨(gapFits_spec hlen hfits).1, alignUp_dvd halign lo,
      (gapFits_spec hlen hfits).2⟩
  fun_induction gapScan length align l lo with
  | case1 lo hfits =>
    cases h
    exact hplace hfits
  | case2 | case4 => cases h
  | case3 v l lo hbefore ih => exact ih h
  | case5 v l lo hafter hfits hgap =>
    cases h
    exact hplace (by simpa using hfits)
  | case6 v l lo hafter hfits hgap ih =>
    obtain ⟨hle, hrest⟩ := ih h
    exact ⟨by omega, hrest⟩

/-- And no node of the list meets it. -/
theorem gapScan_free (hvalid : Valid l)
    (h : gapScan length align l lo = some cand) :
    ∀ v ∈ l, v.stop ≤ cand ∨ cand + length ≤ v.start := by
  intro w hw
  have hle := (gapScan_place hlen halign h).1
  fun_induction gapScan length align l lo with
  | case1 | case2 => cases hw
  | case3 v l lo hbefore ih =>
    rcases mem_cons.mp hw with rfl | hw
    · exact Or.inl (le_trans hbefore hle)
    · exact ih hvalid.of_cons h hw hle
  | case4 => cases h
  | case5 v l lo hafter hfits hgap =>
    -- the gap ends before `v`, and so before what comes after `v`
    cases h
    rcases mem_cons.mp hw with rfl | hw
    · exact Or.inr hgap
    have := hvalid.head_le w hw
    have := hvalid.head.lt
    exact Or.inr (by omega)
  | case6 v l lo hafter hfits hgap ih =>
    have hle := (gapScan_place hlen halign h).1
    rcases mem_cons.mp hw with rfl | hw
    · exact Or.inl hle
    · exact ih hvalid.of_cons h hw hle

theorem gapFrom_spec {guard cur : Nat} (h : s.gapFrom length align guard cur = some va) :
    cur ≤ va ∧ d ∣ va ∧ (length = 0 ∨ va + length ≤ mmapTop) ∧ s.NoPage va (va + length) ∧
      (Valid s.owner.vmas → s.NoVma va (va + length)) := by
  fun_induction gapFrom s length align guard cur with
  | case1 | case2 => cases h
  | case3 cur guard cand hscan hnone =>
    cases h
    obtain ⟨hle, hdvd, htop⟩ := gapScan_place hlen halign hscan
    exact ⟨hle, hdvd, htop, PageTables.firstMappedPage_eq_none.mp hnone,
      fun hvalid => gapScan_free hlen halign hvalid hscan⟩
  | case4 cur guard cand hscan p hsome ih =>
    obtain ⟨hnext, hrest⟩ := ih h
    have := (gapScan_place hlen halign hscan).1
    have := (mem_range'_1.mp (mem_of_find?_eq_some hsome)).1
    unfold pageSize at *
    exact ⟨by omega, hrest⟩

omit hlen halign

theorem pageSize_dvd_max (h : pageSize ∣ align) : pageSize ∣ max align pageSize := by
  rcases le_total align pageSize with hle | hle
  · exact ⟨1, by rw [max_eq_right hle, Nat.mul_one]⟩
  · rwa [max_eq_left hle]

/-- **`vma_gap_find`** gives a free range between `MMAP_FLOOR` and `MMAP_TOP`. -/
theorem vmaGapFind_spec (hlen : length < 2 ^ 32) (halign : d ∣ max align pageSize)
    (h : s.vmaGapFind length align = some va) :
    mmapFloor ≤ va ∧ d ∣ va ∧ va + length ≤ mmapTop ∧ s.NoPage va (va + length) ∧
      (Valid s.owner.vmas → s.NoVma va (va + length)) := by
  unfold vmaGapFind at h
  split at h
  · cases h
  next hne =>
  obtain ⟨hfloor, hva, htop, hrest⟩ := gapFrom_spec hlen halign h
  exact ⟨hfloor, hva, htop.resolve_left hne, hrest⟩

/-! ## The choice of the address -/

/-- `MAP_FIXED` replaces what is in the way. -/
def mmapReplaces (a : MmapArgs) : Bool := a.fixed && !a.noreplace

/-- The range is made of whole pages for mappings, and none of them is mapped. -/
structure Placed (s : Mm) (va length : Nat) : Prop where
  dvd : pageSize ∣ va
  low : userMinAddr ≤ va
  high : va + length ≤ userStackBase
  pages : s.NoPage va (va + length)

/-- **The address of a new mapping**: its range is free, once what `MAP_FIXED` replaces is
unmapped. -/
theorem mmapPlace_spec {a : MmapArgs} (haddr : a.addr < 2 ^ 32) (hpos : 0 < length)
    (hlen : length < 2 ^ 32) {s₁ : Mm} (h : s.mmapPlace a length = (.ok va, s₁)) :
    s₁.Placed va length ∧
      (Valid s.owner.vmas → mmapReplaces a = false → s₁.NoVma va (va + length)) ∧
      s₁ = if mmapReplaces a then s.unmapRange va (va + length) else s := by
  unfold mmapPlace at h
  split at h
  · next hfixed =>
    split at h
    · cases h
    next haligned =>
    have hdvd : pageSize ∣ a.addr := Nat.dvd_of_mod_eq_zero (not_not.mp haligned)
    split at h
    · cases h
    next hlow =>
    split at h
    · cases h
    next hend =>
    obtain ⟨hwrap, htop⟩ := not_or.mp hend
    obtain ⟨-, heq⟩ := (add_lt_of_le_u32 haddr hlen (not_lt.mp hwrap)).resolve_right (ne_of_gt hpos)
    rw [heq] at htop
    split at h
    · next hnoreplace =>
      split at h
      · next hfree =>
        cases h
        have hreplaces : mmapReplaces a = false := by simp [mmapReplaces, hnoreplace]
        refine ⟨⟨hdvd, not_lt.mp hlow, not_lt.mp htop, ?_⟩, fun hvalid _ => ?_, by simp [hreplaces]⟩
        · exact heq ▸ (vmaRangeFree_pages hfree).2
        · exact heq ▸ vmaRangeFree_vmas hvalid hfree
      · cases h
    · next hreplace =>
      cases h
      have hreplaces : mmapReplaces a = true := by
        have : a.fixed = true := hfixed.resolve_right hreplace
        simp [mmapReplaces, this, hreplace]
      refine ⟨⟨hdvd, not_lt.mp hlow, not_lt.mp htop, fun p hp => ?_⟩, fun _ hno =>
        ?_, by simp [hreplaces]⟩
      · rw [unmapRange_read]
        split
        · rfl
        · next hnot => exact Bool.eq_false_iff.mpr fun hm => hnot ⟨hp, hm⟩
      · exact absurd (hreplaces.symm.trans hno) Bool.noConfusion
  · next hnot =>
    have hreplaces : mmapReplaces a = false := by
      have : a.fixed = false := by simpa using fun hf => hnot (Or.inl hf)
      simp [mmapReplaces, this]
    dsimp only at h
    split at h
    · next hhint =>
      cases h
      obtain ⟨-, hfloor, hwrap, htop, hfree⟩ := hhint
      have hdown : pageDown a.addr < 2 ^ 32 := lt_of_le_of_lt (Nat.div_mul_le_self _ _) haddr
      obtain ⟨-, heq⟩ :=
        (add_lt_of_le_u32 hdown hlen (le_of_lt hwrap)).resolve_right (ne_of_gt hpos)
      rw [heq] at htop
      refine ⟨⟨pageDown_dvd a.addr, le_trans (by decide) hfloor, le_trans htop (by decide), ?_⟩,
        fun hvalid _ => ?_, by simp [hreplaces]⟩
      · exact heq ▸ (vmaRangeFree_pages hfree).2
      · exact heq ▸ vmaRangeFree_vmas hvalid hfree
    · split at h
      · next hgap =>
        cases h
        -- the search is made with two alignments, both of whole pages
        obtain ⟨align, halign, hfind⟩ : ∃ align, pageSize ∣ align ∧ s.vmaGapFind length align =
            some va := by
          rcases Option.or_eq_some_iff.mp hgap with hfirst | ⟨-, hsecond⟩
          · refine ⟨_, ?_, hfirst⟩
            split
            · exact ⟨256, rfl⟩
            · exact Nat.dvd_refl pageSize
          · split at hsecond
            · exact ⟨pageSize, Nat.dvd_refl pageSize, hsecond⟩
            · cases hsecond
        obtain ⟨hfloor, hdvd, htop, hpages, hvmas⟩ :=
          vmaGapFind_spec hlen (pageSize_dvd_max halign) hfind
        exact ⟨⟨hdvd, le_trans (by decide) hfloor, le_trans htop (by decide), hpages⟩,
          fun hvalid _ => hvmas hvalid, by simp [hreplaces]⟩
      · cases h

end Mm

end MaeroOS.Vm
