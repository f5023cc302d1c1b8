import Mathlib.Algebra.Group.Nat.Defs
import Mathlib.Order.Basic

/-!
# Absolute pointer positions

`scale_abs` of `drivers/usb/usb_hid.c` takes a reported value to a position on the screen. Numerator
and range are halved together until the range fits 16 bits, and each halving rounds both down. Where
the range is odd, the largest numerator catches up with it: the position is then just off the
screen, or 0 if the product wraps. So the positions stay on the screen and keep their order just if
every halving of the range is exact (`scaleAbs_inOrder_iff`).
-/

namespace MaeroOS.Usb

/-- The logical limits of a `hid_field_t`. -/
structure HidField where
  lmin : Int32
  lmax : Int32

/-- The loop of `scale_abs`; nothing is left of a `uint64_t` after 64 rounds. -/
def halve : Nat → Nat → Nat → Nat × Nat
  | 0, num, range => (num, range)
  | rounds + 1, num, range => if 0x10000 < range then halve rounds (num / 2) (range / 2)
      else (num, range)

/-- What is left is a quotient by a power of two, the least that will do. -/
theorem halve_eq {rounds range : Nat} (h : range ≤ 0x10000 * 2 ^ rounds) :
    ∃ k, range / 2 ^ k ≤ 0x10000 ∧
    (∀ e, range / 2 ^ e ≤ 0x10000 → k ≤ e) ∧ ∀ num,
      halve rounds num range = (num / 2 ^ k, range / 2 ^ k) := by
  induction rounds generalizing range with
  | zero => exact ⟨0, by simpa using h, fun _ _ => Nat.zero_le _, fun num => by simp [halve]⟩
  | succ rounds ih =>
    by_cases hbig : 0x10000 < range
    · obtain ⟨k, hk, hleast, heq⟩ := @ih (range / 2) (by rw [Nat.pow_succ] at h; omega)
      have hdiv : ∀ n e, n / 2 / 2 ^ e = n / 2 ^ (e + 1) :=
        fun n e => by rw [Nat.div_div_eq_div_mul, Nat.pow_succ']
      simp only [hdiv] at hk hleast heq
      refine ⟨k + 1, hk, fun e he => ?_, fun num => ?_⟩
      · cases e with
        | zero => simp at he; omega
        | succ e => exact Nat.succ_le_succ (hleast e he)
      · rw [halve, if_pos hbig, heq, hdiv]
    · exact ⟨0, by simpa using hbig, fun _ _ => Nat.zero_le _, fun num => by simp [halve, hbig]⟩

namespace HidField

def clamp (f : HidField) (v : Int32) : Int32 :=
  let v := if v < f.lmin then f.lmin else v
  if f.lmax < v then f.lmax else v

/-- How far a value is from the lower limit. -/
def num (f : HidField) (v : Int32) : Nat := ((f.clamp v).toInt - f.lmin.toInt).toNat

def range (f : HidField) : Nat := (f.lmax.toInt - f.lmin.toInt).toNat + 1

/-- `scale_abs`. The quotient is below 2³¹, so that its last cast changes nothing. -/
def scaleAbs (f : HidField) (v extent : Int32) : Int :=
  if f.lmax ≤ f.lmin ∨ extent ≤ 0 then 0
  else
    let extent := if 0x10000 < extent then 0x10000 else extent
    let (num, range) := halve 64 (f.num v) f.range
    (num % 2 ^ 32 * extent.toInt.toNat % 2 ^ 32 / (range % 2 ^ 32) : Nat)

/-- Positions on a screen of `extent` pixels. -/
structure InOrder (f : HidField) (extent : Int32) : Prop where
  mono : ∀ v w, v ≤ w → f.scaleAbs v extent ≤ f.scaleAbs w extent
  onScreen : ∀ v, 0 ≤ f.scaleAbs v extent ∧ f.scaleAbs v extent < extent.toInt
  bottom : ∀ v ≤ f.lmin, f.scaleAbs v extent = 0

section

variable {f : HidField} {extent : Int32} (hlim : f.lmin < f.lmax)

include hlim

theorem num_eq (v : Int32) : (f.num v : Int) = max f.lmin.toInt
    (min f.lmax.toInt v.toInt) - f.lmin.toInt := by
  unfold num clamp
  rw [Int32.lt_iff_toInt_lt] at hlim
  simp only [Int32.lt_iff_toInt_lt]
  split <;> split <;> omega

theorem range_eq : f.lmin.toInt < f.lmax.toInt ∧
    (f.range : Int) = f.lmax.toInt - f.lmin.toInt + 1 := by
  rw [Int32.lt_iff_toInt_lt] at hlim
  unfold range
  omega

theorem num_lt (v : Int32) : f.num v < f.range := by
  have := num_eq hlim v
  have := range_eq hlim
  omega

theorem exists_num {n : Nat} (hn : n < f.range) : ∃ v ≤ f.lmax, f.num v = n := by
  have hlo := f.lmin.le_toInt
  have hhi := f.lmax.toInt_lt
  have hrange := range_eq hlim
  have hv : (Int32.ofInt (f.lmin.toInt + n)).toInt = f.lmin.toInt + n :=
    Int32.toInt_ofInt_of_le (by omega) (by omega)
  refine ⟨.ofInt (f.lmin.toInt + n), Int32.le_iff_toInt_le.2 (by omega), ?_⟩
  have := num_eq hlim (.ofInt (f.lmin.toInt + n))
  omega

variable (hpos : 0 < extent) (hle : extent ≤ 0x10000)

include hpos hle

theorem scaleAbs_eq : ∃ k, 0 < f.range / 2 ^ k ∧ f.range / 2 ^ k ≤ 0x10000 ∧
    (∀ e, f.range / 2 ^ e ≤ 0x10000 → k ≤ e) ∧
    ∀ v, f.scaleAbs v extent =
      (f.num v / 2 ^ k * extent.toInt.toNat % 2 ^ 32 / (f.range / 2 ^ k) : Nat) := by
  have hlo := f.lmin.le_toInt
  have hhi := f.lmax.toInt_lt
  have hrange := range_eq hlim
  obtain ⟨k, hk, hleast, heq⟩ := @halve_eq 64 f.range (by omega)
  refine ⟨k, ?_, hk, hleast, fun v => ?_⟩
  · cases k with
    | zero => simp [range]
    | succ k =>
      have hmore : ¬f.range / 2 ^ k ≤ 0x10000 :=
        fun hfits => absurd (hleast k hfits) (Nat.not_succ_le_self k)
      rw [Nat.pow_succ, ← Nat.div_div_eq_div_mul]
      omega
  · have hnum := @Nat.div_le_div_right _ _ (2 ^ k) (Nat.le_of_lt (num_lt hlim v))
    rw [scaleAbs, if_neg (not_or.2 ⟨Int32.not_le.2 hlim, Int32.not_le.2 hpos⟩),
      if_neg (Int32.not_lt.2 hle), heq]
    dsimp only
    rw [@Nat.mod_eq_of_lt (_ / _) _ (by omega), @Nat.mod_eq_of_lt (f.range / _) _ (by omega)]

/-- **Positions stay on the screen and keep their order** just if the range is a number up to 65536
times a power of two. -/
theorem scaleAbs_inOrder_iff : f.InOrder extent ↔ ∃ m e, m ≤ 0x10000 ∧ f.range = m * 2 ^ e := by
  obtain ⟨k, hR, hk, hleast, heq⟩ := scaleAbs_eq hlim hpos hle
  have hext : 0 < extent.toInt := Int32.lt_iff_toInt_lt.1 hpos
  obtain ⟨E, hE⟩ := Int.eq_ofNat_of_zero_le (Int.le_of_lt hext)
  have hE' : E ≤ 0x10000 := Int.ofNat_le.1 (hE ▸ Int32.le_iff_toInt_le.1 hle)
  simp only [hE, Int.toNat_natCast] at heq
  constructor
  · intro h
    by_cases hdvd : 2 ^ k ∣ f.range
    · exact ⟨_, k, hk, (Nat.div_mul_cancel hdvd).symm⟩
    -- the largest numerator has caught up with the range
    have hlast : f.num f.lmax / 2 ^ k = f.range / 2 ^ k := by
      have hnum := num_eq hlim f.lmax
      have hrange := range_eq hlim
      have hmod := Nat.div_add_mod f.range (2 ^ k)
      have hrest : f.range % 2 ^ k ≠ 0 := fun h => hdvd (Nat.dvd_of_mod_eq_zero h)
      apply Nat.le_antisymm (Nat.div_le_div_right (Nat.le_of_lt (num_lt hlim _)))
      rw [Nat.le_div_iff_mul_le (Nat.two_pow_pos k), Nat.mul_comm]
      omega
    have hmul := Nat.div_mul_le_self f.range (2 ^ k)
    have htop := heq f.lmax
    rw [hlast] at htop
    generalize f.range / 2 ^ k = R at *
    by_cases hwrap : R * E < 2 ^ 32
    · have hbound := (h.onScreen f.lmax).2
      rw [htop, hE, Nat.mod_eq_of_lt hwrap, Nat.mul_div_cancel_left _ hR] at hbound
      omega
    · have hR' : ¬R ≤ 0xffff :=
        fun hle => hwrap (Nat.lt_of_le_of_lt (Nat.mul_le_mul hle hE') (by decide))
      have hE'' : ¬E ≤ 0xffff :=
        fun hle => hwrap (Nat.lt_of_le_of_lt (Nat.mul_le_mul hk hle) (by decide))
      obtain rfl : R = 0x10000 := by omega
      obtain rfl : E = 0x10000 := by omega
      obtain ⟨v, hv, hnum⟩ := exists_num hlim
        (Nat.lt_of_lt_of_le (Nat.mul_lt_mul_of_pos_right (by decide : 0xffff < _)
          (Nat.two_pow_pos k)) hmul)
      have hmono := h.mono v f.lmax hv
      rw [htop, heq, hnum, Nat.mul_div_cancel _ (Nat.two_pow_pos k)] at hmono
      simp at hmono
  · rintro ⟨m, e, hm, hrange⟩
    have hdvd : 2 ^ k ∣ f.range := by
      rw [hrange]
      apply Nat.dvd_mul_left_of_dvd
      apply Nat.pow_dvd_pow
      apply hleast
      rwa [hrange, Nat.mul_div_cancel _ (Nat.two_pow_pos e)]
    have hlt : ∀ v, f.num v / 2 ^ k < f.range / 2 ^ k := fun v =>
      Nat.div_lt_of_lt_mul (by rw [Nat.mul_div_cancel' hdvd]; exact num_lt hlim v)
    have heq' : ∀ v, f.scaleAbs v extent = (f.num v / 2 ^ k * E / (f.range / 2 ^ k) : Nat) :=
      fun v => by
      rw [heq, Nat.mod_eq_of_lt]
      exact Nat.lt_of_lt_of_le (Nat.mul_lt_mul_of_lt_of_le (hlt v) hE' (by decide))
        (Nat.mul_le_mul_right 0x10000 hk)
    refine ⟨fun v w hvw => ?_, fun v => ?_, fun v hv => ?_⟩
    · have hnum : f.num v ≤ f.num w := by
        have := num_eq hlim v
        have := num_eq hlim w
        have := Int32.le_iff_toInt_le.1 hvw
        omega
      rw [heq', heq', Int.ofNat_le]
      exact Nat.div_le_div_right (Nat.mul_le_mul_right _ (Nat.div_le_div_right hnum))
    · rw [heq', hE, Int.ofNat_lt]
      exact ⟨Int.natCast_nonneg _,
        Nat.div_lt_of_lt_mul (Nat.mul_lt_mul_of_pos_right (hlt v) (by omega))⟩
    · have hnum := num_eq hlim v
      have := Int32.le_iff_toInt_le.1 hv
      have hzero : f.num v = 0 := by omega
      simp [heq, hzero]

end

/-- A tablet of 2²⁰ positions: the range is halved four times, and the last position is at the
edge. -/
theorem tablet_inOrder :
    InOrder ⟨0, 1048575⟩ 800 ∧ (⟨0, 1048575⟩ : HidField).scaleAbs 1048575 800 = 799 :=
  ⟨(scaleAbs_inOrder_iff (by decide) (by decide) (by decide)).2
    ⟨65536, 4, by decide, by decide⟩, by decide⟩

/-- One position more than 16 bits tell apart: the last is off the screen. -/
theorem wide_off_screen : ¬InOrder ⟨0, 65536⟩ 800 :=
  fun h => absurd (h.onScreen 65536).2 (by decide)

end HidField

end MaeroOS.Usb
