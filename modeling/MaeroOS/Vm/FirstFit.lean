import Mathlib.Order.Bounds.Basic
import MaeroOS.Vm.Relocation

/-!
# The first range that is free

`vma_gap_find` as a search: it gives the lowest range that would do, and none only if there is none,
unless it gives up. It tries one gap between the VMAs after the other, and gives up after 100000 of
them.
-/

namespace MaeroOS.Vm

open List

/-- Rounding up passes over no multiple, and does not wrap before the last one. -/
theorem alignUp_le {lo align a : Nat} (halign : align ∣ 2 ^ 32) (hle : lo ≤ a) (hdvd : align ∣ a)
    (ha : a < 2 ^ 32) : lo ≤ alignUp lo align ∧ alignUp lo align ≤ a := by
  have hpos : 0 < align := Nat.pos_of_dvd_of_pos halign (by decide)
  obtain ⟨m, rfl⟩ := hdvd
  have hend : align * (m + 1) ≤ 2 ^ 32 := by
    obtain ⟨n, hn⟩ := halign
    rw [hn] at ha ⊢
    exact Nat.mul_le_mul_left align (Nat.lt_of_mul_lt_mul_left ha)
  rw [Nat.mul_succ] at hend
  unfold alignUp
  rw [u32_of_lt (by omega)]
  have hmod := Nat.div_add_mod' (lo + align - 1) align
  have hlt := Nat.mod_lt (lo + align - 1) hpos
  have hdiv : (lo + align - 1) / align < m + 1 := Nat.div_lt_of_lt_mul (by rw [Nat.mul_succ]; omega)
  refine ⟨by omega, ?_⟩
  rw [Nat.mul_comm]
  exact Nat.mul_le_mul_left align (Nat.lt_succ_iff.mp hdiv)

theorem max_pageSize (k : Nat) : max (2 ^ k) pageSize = 2 ^ max k 12 := by
  rcases le_total k 12 with hk | hk
  · rw [max_eq_right hk]
    exact max_eq_right (Nat.pow_le_pow_right Nat.two_pos hk)
  · rw [max_eq_left hk]
    exact max_eq_left (Nat.pow_le_pow_right Nat.two_pos hk)

namespace Mm

/-- An aligned range between `MMAP_FLOOR` and `MMAP_TOP` that meets no VMA and no page that owns a
frame. -/
structure Fits (s : Mm) (length align a : Nat) : Prop where
  dvd : align ∣ a
  floor : mmapFloor ≤ a
  top : a + length ≤ mmapTop
  vmas : s.NoVma a (a + length)
  pages : ∀ p, (s.pt.pteRead p).mapped = true → p * pageSize + pageSize ≤ a ∨
    a + length ≤ p * pageSize

/-- The answer of a first-fit search that finds a range if there is one. -/
def FirstFit (s : Mm) (length align : Nat) : Option Nat → Prop
  | some a => IsLeast {a | s.Fits length align a} a
  | none => ∀ a, ¬ s.Fits length align a

/-- In all the gaps the outer loop tries there is a page that owns a frame. -/
def gaveUp (s : Mm) (length align : Nat) : Nat → Nat → Bool
  | 0, _ => true
  | guard + 1, cur =>
      match (gapScan length align s.owner.vmas cur).bind fun cand =>
        s.pt.firstMappedPage cand (cand + length) with
      | none => false
      | some p => s.gaveUp length align guard (p * pageSize + pageSize)

variable {s : Mm} {length align guard cur a : Nat}

theorem gapFrom_of_gaveUp (h : s.gaveUp length align guard cur = true) :
    s.gapFrom length align guard cur = none := by
  fun_induction gapFrom s length align guard cur with
  | case1 | case2 => rfl
  | case3 cur guard cand hscan hnone => simp [gaveUp, hscan, hnone] at h
  | case4 cur guard cand hscan p hsome ih => exact ih (by simpa [gaveUp, hscan, hsome] using h)

section

variable (halign : align ∣ 2 ^ 32)

include halign

/-- The walk over the nodes does not pass over a range that no node meets. -/
theorem gapScan_le {l : List Vma} {lo : Nat} (hdvd : align ∣ a) (htop : a + length ≤ mmapTop)
    (hfree : ∀ v ∈ l, v.stop ≤ a ∨ a + length ≤ v.start) (hle : lo ≤ a) :
    ∃ cand, gapScan length align l lo = some cand ∧ cand ≤ a := by
  have hmax : mmapTop < 2 ^ 32 := by decide
  have hup : ∀ {lo}, lo ≤ a → alignUp lo align ≤ a ∧ gapFits length align lo = true := by
    intro lo hle
    obtain ⟨hlo, hup⟩ := alignUp_le halign hle hdvd (by omega)
    have hsum : u32 (alignUp lo align + length) = alignUp lo align + length := u32_of_lt (by omega)
    exact ⟨hup, decide_eq_true ⟨hlo, by omega, by omega⟩⟩
  fun_induction gapScan length align l lo with
  | case1 lo hfits => exact ⟨_, rfl, (hup hle).1⟩
  | case2 lo hnot => exact absurd (hup hle).2 hnot
  | case3 v l lo hbefore ih => exact ih (fun w hw => hfree w (mem_cons_of_mem v hw)) hle
  | case4 v l lo hafter hnot => cases hnot.symm.trans (hup hle).2
  | case5 v l lo hafter hfits hgap => exact ⟨_, rfl, (hup hle).1⟩
  | case6 v l lo hafter hfits hgap ih =>
    -- the range does not end before `v`, or the gap would have done
    have hstop : v.stop ≤ a := by
      refine (hfree v mem_cons_self).resolve_right fun hstart => hgap ?_
      have := (hup hle).1
      omega
    exact ih (fun w hw => hfree w (mem_cons_of_mem v hw)) hstop

/-- A search that does not give up finds a range that is not after any other. -/
theorem gapFrom_le (hpage : pageSize ∣ align) (hdvd : pageSize ∣ length) (hlen : length < 2 ^ 32)
    (hfits : s.Fits length align a) (h : s.gaveUp length align guard cur = false) (hle : cur ≤ a) :
    ∃ va, s.gapFrom length align guard cur = some va ∧ va ≤ a := by
  have hfind := fun {cur} (hle : cur ≤ a) => gapScan_le halign hfits.dvd hfits.top hfits.vmas hle
  fun_induction gapFrom s length align guard cur with
  | case1 => cases h
  | case2 cur guard hscan =>
    obtain ⟨cand, hsome, -⟩ := hfind hle
    cases hscan.symm.trans hsome
  | case3 cur guard cand hscan hnone =>
    obtain ⟨cand', hsome, hcand⟩ := hfind hle
    cases hscan.symm.trans hsome
    exact ⟨cand, rfl, hcand⟩
  | case4 cur guard cand hscan p hsome ih =>
    -- the page is not in the range, and not after it
    obtain ⟨cand', hsome', hcand⟩ := hfind hle
    cases hscan.symm.trans hsome'
    obtain ⟨-, hcandDvd, -⟩ := gapScan_place hlen hpage hscan
    obtain ⟨-, hlt⟩ :=
      (mem_pagesOf hcandDvd (Nat.dvd_add hcandDvd hdvd) (by omega)).mp (mem_of_find?_eq_some hsome)
    have hmapped : (s.pt.pteRead p).mapped = true :=
      find?_some (p := fun p => (s.pt.pteRead p).mapped) hsome
    exact ih (by simpa [gaveUp, hscan, hsome] using h)
      ((hfits.pages p hmapped).resolve_right (by omega))

end

variable (hvalid : Valid s.owner.vmas)

include hvalid

/-- The page in which a range that would do starts would do as well. -/
theorem Fits.pageDown {k : Nat} (h : s.Fits length (2 ^ k) a) : s.Fits length (max (2 ^ k) pageSize)
    (pageDown a) := by
  have hle : Vm.pageDown a ≤ a := Nat.div_mul_le_self a pageSize
  have hdown : ∀ {x}, pageSize ∣ x → x ≤ a → x ≤ Vm.pageDown a := by
    rintro _ ⟨m, rfl⟩ hm
    unfold Vm.pageDown pageSize at *
    omega
  refine ⟨?_, hdown (by decide) h.floor, by have := h.top; omega, fun v hv => ?_, fun p hp => ?_⟩
  · rw [max_pageSize]
    rcases le_total k 12 with hk | hk
    · rw [max_eq_right hk]
      exact pageDown_dvd a
    · have hpage : pageSize ∣ a := Nat.dvd_trans (Nat.pow_dvd_pow 2 hk) h.dvd
      rw [max_eq_left hk, Vm.pageDown, Nat.div_mul_cancel hpage]
      exact h.dvd
  · rcases h.vmas v hv with hstop | hstart
    · exact Or.inl (hdown (hvalid.ok v hv).stop_dvd hstop)
    · exact Or.inr (by omega)
  · rcases h.pages p hp with hend | hstart
    · exact Or.inl (hdown (Nat.dvd_add (Nat.dvd_mul_left pageSize p) (Nat.dvd_refl pageSize)) hend)
    · exact Or.inr (by omega)

/-- What the search gives would do. -/
theorem fits_of_gapFind (hpage : pageSize ∣ max align pageSize) (hdvd : pageSize ∣ length)
    (hlen : length < 2 ^ 32)
    (h : s.vmaGapFind length align = some a) : s.Fits length (max align pageSize) a := by
  obtain ⟨hfloor, ha, htop, hpages, hvmas⟩ := vmaGapFind_spec hlen (Nat.dvd_refl _) h
  have hadvd := Nat.dvd_trans hpage ha
  refine ⟨ha, hfloor, htop, hvmas hvalid, fun p hp => ?_⟩
  have hnot : p ∉ pagesOf a (a + length) := fun hmem => by simp [hpages p hmem] at hp
  rw [mem_pagesOf hadvd (Nat.dvd_add hadvd hdvd) (by omega)] at hnot
  unfold pageSize at *
  omega

omit hvalid

/-- **When the search is first-fit.** It gives the lowest range that would do, and none only if
there is none, exactly when there is none or the length is not zero and not all of the 100000 gaps
it tries have a page that owns a frame. -/
theorem first_fit_iff (s : Mm) (length k : Nat) (hvalid : Valid s.owner.vmas)
    (hdvd : pageSize ∣ length) (hlen : length < 2 ^ 32) (hk : k < 32) :
    s.FirstFit length (2 ^ k) (s.vmaGapFind length (2 ^ k)) ↔
      (∀ a, ¬ s.Fits length (2 ^ k) a) ∨
        0 < length ∧ s.gaveUp length (max (2 ^ k) pageSize) 100000 mmapFloor = false := by
  have hpage : pageSize ∣ max (2 ^ k) pageSize :=
    max_pageSize k ▸ Nat.pow_dvd_pow 2 (le_max_right k 12)
  have halign : max (2 ^ k) pageSize ∣ 2 ^ 32 :=
    max_pageSize k ▸ Nat.pow_dvd_pow 2 (max_le (le_of_lt hk) (by decide))
  have hfound : ∀ {a}, 0 < length ∧
      s.gaveUp length (max (2 ^ k) pageSize) 100000 mmapFloor = false →
      s.Fits length (2 ^ k) a → ∃ va, s.vmaGapFind length (2 ^ k) = some va ∧ va ≤ a := by
    rintro a ⟨hpos, hends⟩ hfits
    have hdown := hfits.pageDown hvalid
    obtain ⟨va, hfrom, hle⟩ := gapFrom_le halign hpage hdvd hlen hdown hends hdown.floor
    exact ⟨va, (if_neg (Nat.ne_of_gt hpos)).trans hfrom,
      le_trans hle (Nat.div_mul_le_self a pageSize)⟩
  cases hfind : s.vmaGapFind length (2 ^ k) with
  | none =>
    refine ⟨Or.inl, fun hcase a hfits => ?_⟩
    obtain hno | hends := hcase
    · exact hno a hfits
    · obtain ⟨va, hsome, -⟩ := hfound hends hfits
      cases hfind.symm.trans hsome
  | some va =>
    have hends : 0 < length ∧ s.gaveUp length (max (2 ^ k) pageSize) 100000 mmapFloor = false := by
      have hrun := hfind
      unfold vmaGapFind at hrun
      split at hrun
      · cases hrun
      next hne =>
      refine ⟨Nat.pos_of_ne_zero hne, Bool.eq_false_iff.mpr fun hup => ?_⟩
      cases (gapFrom_of_gaveUp hup).symm.trans hrun
    refine ⟨fun _ => Or.inr hends, fun _ => ⟨?_, fun a hfits => ?_⟩⟩
    · have hva := fits_of_gapFind hvalid hpage hdvd hlen hfind
      exact { hva with dvd := Nat.dvd_trans (max_pageSize k ▸ Nat.pow_dvd_pow 2
        (le_max_left k 12)) hva.dvd }
    · obtain ⟨va', hsome, hle⟩ := hfound hends hfits
      cases hfind.symm.trans hsome
      exact hle

/-- An address space without VMAs, with a frame at each page below the `n`-th. -/
def framesBelow (n : Nat) : Mm :=
  { Mm.empty with
    pt := { Mm.empty.pt with
      table := fun _ => some 0
      entry := fun p => if p < n then ⟨{ PteFlags.none with present := true }, 0⟩ else Pte.zero } }

/-- With frames at the first two pages the third one is given. -/
theorem first_fit_after_two : (framesBelow 0x40002).FirstFit 0x1000 (2 ^ 12) (some 0x40002000) :=
  (first_fit_iff (framesBelow 0x40002) 0x1000 12 Valid.nil (by decide) (by decide) (by decide)).mpr
    (Or.inr ⟨by decide, by decide +kernel⟩)

theorem framesBelow_mapped {n p : Nat} : ((framesBelow n).pt.pteRead p).mapped = decide
    (p < n) := by
  by_cases hp : p < n
  · simp [framesBelow, PageTables.pteRead, PageTables.pdePresent, Pte.mapped, hp]
  · simp [framesBelow, PageTables.pteRead, PageTables.pdePresent, hp]

/-- Each page with a frame is a gap that is tried. -/
theorem framesBelow_gaveUp {n p : Nat} (hn : p + guard ≤ n) (hhigh : n ≤ 0xBF7FF) :
    (framesBelow n).gaveUp 0x1000 pageSize guard (p * pageSize) = true := by
  induction guard generalizing p with
  | zero => rfl
  | succ guard ih =>
    have htop : p * pageSize + 0x1000 ≤ mmapTop := by
      unfold pageSize mmapTop
      omega
    obtain ⟨cand, hscan, hle⟩ :=
      gapScan_le (l := (framesBelow n).owner.vmas) (by decide) (Nat.dvd_mul_left pageSize p)
        htop nofun le_rfl
    cases Nat.le_antisymm (gapScan_place (by decide) (Nat.dvd_refl pageSize) hscan).1 hle
    have hfirst : (framesBelow n).pt.firstMappedPage (p * pageSize) (p * pageSize + 0x1000) =
        some p := by
      unfold PageTables.firstMappedPage
      rw [show p * pageSize + 0x1000 = (p + 1) * pageSize from (Nat.succ_mul p pageSize).symm,
        pagesOf_mul]
      simp [framesBelow_mapped, show p < n by omega]
    rw [gaveUp, hscan, Option.bind_some, hfirst]
    dsimp only
    rw [← Nat.succ_mul]
    exact ih (by omega)

/-- After 100000 pages with frames the search gives up, below pages that are free. -/
theorem far_gap_missed :
    Valid (framesBelow 0x586A0).owner.vmas ∧
      (framesBelow 0x586A0).vmaGapFind 0x1000 (2 ^ 12) = none ∧
      (framesBelow 0x586A0).Fits 0x1000 (2 ^ 12) 0x586A0000 := by
  refine ⟨Valid.nil, ?_, ⟨by decide, by decide, by decide, nofun, fun p hp => ?_⟩⟩
  · have hfloor : mmapFloor = 0x40000 * pageSize := rfl
    unfold vmaGapFind
    rw [if_neg (by decide), max_pageSize 12, hfloor]
    exact gapFrom_of_gaveUp (framesBelow_gaveUp (by decide) (by decide))
  · rw [framesBelow_mapped, decide_eq_true_eq] at hp
    unfold pageSize
    omega

end Mm

end MaeroOS.Vm
