import Mathlib.Data.List.Basic

/-!
# Buffers of bytes

A buffer is a function from offsets to bytes; how long it is, is known to whoever uses it. Whatever
word is written is known by what is read back: `be32_wbe32`, and `be32_wbe32_of_disjoint` for words
that do not overlap.

In little-endian order a buffer is a stream of bits, byte after byte and the lowest bit of each
first. A word is a stretch of the stream, wherever it starts, so one lemma for each reader and one
for each writer say all there is to say (`getLsbD_le16`, `bit_wle16`, …).
-/

namespace MaeroOS.Lib

open Function

abbrev Buf : Type := Nat → BitVec 8

abbrev Word : Type := BitVec 32

namespace Buf

variable {b b' : Buf} {o p n i j : Nat} {v : Word}

/-! ## Big-endian words -/

def be32 (b : Buf) (o : Nat) : Word := b o ++ b (o + 1) ++ b (o + 2) ++ b (o + 3)

def wbe32 (b : Buf) (o : Nat) (v : Word) : Buf :=
  Function.update (Function.update
    (Function.update (Function.update b o (v.extractLsb' 24 8)) (o + 1)
    (v.extractLsb' 16 8)) (o + 2) (v.extractLsb' 8 8)) (o + 3) (v.extractLsb' 0 8)

/-- `memcpy` of `n` bytes to offset `o`. -/
def paste (b : Buf) (o : Nat) (src : Buf) (n : Nat) : Buf :=
  fun i => if o ≤ i ∧ i < o + n then src (i - o) else b i

theorem wbe32_of_disjoint (h : p < o ∨ o + 4 ≤ p) : wbe32 b o v p = b p := by
  unfold wbe32
  simp (disch := omega) only [update_of_ne]

theorem be32_congr (h : ∀ i, o ≤ i → i < o + 4 → b' i = b i) : be32 b' o = be32 b o := by
  unfold be32
  rw [h o (by omega) (by omega), h (o + 1) (by omega) (by omega), h (o + 2) (by omega) (by omega),
    h (o + 3) (by omega) (by omega)]

theorem be32_wbe32_of_disjoint (h : p + 4 ≤ o ∨ o + 4 ≤ p) : be32 (wbe32 b o v) p = be32 b p :=
  be32_congr fun _ _ _ => wbe32_of_disjoint (by omega)

/-- What is written is read back. -/
theorem be32_wbe32 : be32 (wbe32 b o v) o = v := by
  have h3 : wbe32 b o v (o + 3) = v.extractLsb' 0 8 := update_self ..
  have h2 : wbe32 b o v (o + 2) = v.extractLsb' 8 8 := by
    rw [wbe32, update_of_ne (by omega), update_self]
  have h1 : wbe32 b o v (o + 1) = v.extractLsb' 16 8 := by
    rw [wbe32, update_of_ne (by omega), update_of_ne (by omega), update_self]
  have h0 : wbe32 b o v o = v.extractLsb' 24 8 := by
    rw [wbe32, update_of_ne (by omega), update_of_ne (by omega),
      update_of_ne (by omega), update_self]
  rw [be32, h0, h1, h2, h3]
  apply BitVec.eq_of_getLsbD_eq
  intro i hi
  grind

theorem paste_of_disjoint {src : Buf} (h : p < o ∨ o + n ≤ p) : paste b o src n p = b p :=
  if_neg (by omega)

/-- A word that is written a second time. -/
theorem wbe32_wbe32 {w : Word} : wbe32 (wbe32 b o v) o w = wbe32 b o w := by
  funext i
  by_cases hi : i < o ∨ o + 4 ≤ i
  · rw [wbe32_of_disjoint hi, wbe32_of_disjoint hi, wbe32_of_disjoint hi]
  have hcases : i = o ∨ i = o + 1 ∨ i = o + 2 ∨ i = o + 3 := by omega
  unfold wbe32
  rcases hcases with rfl | rfl | rfl | rfl <;> simp

/-- Writing what is there. -/
theorem wbe32_be32 (h : be32 b o = v) : wbe32 b o v = b := by
  have hbit : ∀ i, v.getLsbD i = (be32 b o).getLsbD i := fun i => by rw [h]
  simp only [be32, BitVec.getLsbD_append] at hbit
  have hbyte : ∀ {k : Nat} {x : BitVec 8}, (∀ i < 8, v.getLsbD (k + i) = x.getLsbD i) →
      v.extractLsb' k 8 = x := by
    intro k x hx
    apply BitVec.eq_of_getLsbD_eq
    intro i hi
    rw [BitVec.getLsbD_extractLsb', hx i hi, decide_eq_true hi, Bool.true_and]
  have h3 : v.extractLsb' 0 8 = b (o + 3) := hbyte fun i hi => by rw [hbit]; grind
  have h2 : v.extractLsb' 8 8 = b (o + 2) := hbyte fun i hi => by rw [hbit]; grind
  have h1 : v.extractLsb' 16 8 = b (o + 1) := hbyte fun i hi => by rw [hbit]; grind
  have h0 : v.extractLsb' 24 8 = b o := hbyte fun i hi => by rw [hbit]; grind
  rw [wbe32, h0, h1, h2, h3]
  simp only [update_eq_self]

/-! ## Little-endian words -/

variable {x : BitVec 16}

/-- Bit `j` of the stream. -/
def bit (b : Buf) (j : Nat) : Bool := (b (j / 8)).getLsbD (j % 8)

def le16 (b : Buf) (o : Nat) : BitVec 16 := b (o + 1) ++ b o

def le32 (b : Buf) (o : Nat) : Word := b (o + 3) ++ b (o + 2) ++ b (o + 1) ++ b o

def wle16 (b : Buf) (o : Nat) (v : BitVec 16) : Buf :=
  Function.update (Function.update b o (v.extractLsb' 0 8)) (o + 1) (v.extractLsb' 8 8)

def wle32 (b : Buf) (o : Nat) (v : Word) : Buf :=
  Function.update (Function.update
    (Function.update (Function.update b o (v.extractLsb' 0 8)) (o + 1)
    (v.extractLsb' 8 8)) (o + 2) (v.extractLsb' 16 8)) (o + 3) (v.extractLsb' 24 8)

theorem bit_update (v : BitVec 8) :
    bit (update b o v) j = if 8 * o ≤ j ∧ j < 8 * o + 8 then v.getLsbD (j - 8 * o)
      else b.bit j := by
  unfold bit
  by_cases hj : j / 8 = o
  · subst hj
    rw [update_self, if_pos (by omega)]
    congr 1
    omega
  · rw [update_of_ne hj, if_neg (by omega)]

/-- A byte of the stream. -/
theorem getLsbD_byte (hi : i < 8) : (b o).getLsbD i = b.bit (8 * o + i) := by
  unfold bit
  rw [show (8 * o + i) / 8 = o by omega, show (8 * o + i) % 8 = i by omega]

/-- A byte below a word that goes on after it. -/
theorem getLsbD_append_byte {w : Nat} {x : BitVec w}
    (h : ∀ i < w, x.getLsbD i = b.bit (8 * (o + 1) + i)) :
    ∀ i < w + 8, (x ++ b o).getLsbD i = b.bit (8 * o + i) := by
  intro i hi
  rw [BitVec.getLsbD_append]
  by_cases h8 : i < 8
  · rw [if_pos h8, getLsbD_byte h8]
  · rw [if_neg h8, h _ (by omega)]
    congr 1
    omega

theorem getLsbD_le16 (hi : i < 16) : (b.le16 o).getLsbD i = b.bit (8 * o + i) :=
  getLsbD_append_byte (fun _ => getLsbD_byte) i hi

theorem getLsbD_le32 (hi : i < 32) : (b.le32 o).getLsbD i = b.bit (8 * o + i) :=
  getLsbD_append_byte (getLsbD_append_byte (getLsbD_append_byte fun _ => getLsbD_byte)) i hi

/-- One byte of a word that starts at `o`. -/
theorem bit_update_extract {w : Nat} (v : BitVec w) (k : Nat) :
    bit (update b (o + k) (v.extractLsb' (8 * k) 8)) j =
      if 8 * (o + k) ≤ j ∧ j < 8 * (o + k) + 8 then v.getLsbD (j - 8 * o) else b.bit j := by
  rw [bit_update]
  by_cases hj : 8 * (o + k) ≤ j ∧ j < 8 * (o + k) + 8
  · rw [if_pos hj, if_pos hj, BitVec.getLsbD_extractLsb', decide_eq_true (by omega), Bool.true_and]
    congr 1
    omega
  · rw [if_neg hj, if_neg hj]

theorem bit_wle16 (v : BitVec 16) :
    bit (b.wle16 o v) j = if 8 * o ≤ j ∧ j < 8 * o + 16 then v.getLsbD (j - 8 * o)
      else b.bit j := by
  have h0 := fun b : Buf => bit_update_extract (b := b) (o := o) (j := j) v 0
  have h1 := fun b : Buf => bit_update_extract (b := b) (o := o) (j := j) v 1
  rw [wle16]
  refine (h1 _).trans ?_
  rw [show bit (update b o (v.extractLsb' 0 8)) j = _ from h0 b]
  split_ifs <;> first | rfl | omega

theorem bit_wle32 (v : Word) :
    bit (b.wle32 o v) j = if 8 * o ≤ j ∧ j < 8 * o + 32 then v.getLsbD (j - 8 * o)
      else b.bit j := by
  have h := fun (b : Buf) k => bit_update_extract (b := b) (o := o) (j := j) v k
  rw [wle32]
  refine (h _ 3).trans ?_
  rw [show bit (update _ (o + 2) (v.extractLsb' 16 8)) j = _ from h _ 2,
    show bit (update _ (o + 1) (v.extractLsb' 8 8)) j = _ from h _ 1,
    show bit (update b o (v.extractLsb' 0 8)) j = _ from h b 0]
  split_ifs <;> first | rfl | omega

/-! ### Words apart -/

theorem le32_congr (h : ∀ i, o ≤ i → i < o + 4 → b' i = b i) : b'.le32 o = b.le32 o := by
  unfold le32
  rw [h o (by omega) (by omega), h (o + 1) (by omega) (by omega), h (o + 2) (by omega) (by omega),
    h (o + 3) (by omega) (by omega)]

theorem wle32_of_disjoint (h : p < o ∨ o + 4 ≤ p) : b.wle32 o v p = b p := by
  unfold wle32
  simp (disch := omega) only [update_of_ne]

theorem le32_wle32_of_disjoint (h : p + 4 ≤ o ∨ o + 4 ≤ p) : (b.wle32 o v).le32 p = b.le32 p :=
  le32_congr fun _ _ _ => wle32_of_disjoint (by omega)

theorem le32_wle32 : (b.wle32 o v).le32 o = v := by
  apply BitVec.eq_of_getLsbD_eq
  intro i hi
  rw [getLsbD_le32 hi, bit_wle32, if_pos (by omega)]
  congr 1
  omega

theorem le16_congr (h : ∀ i, o ≤ i → i < o + 2 → b' i = b i) : b'.le16 o = b.le16 o := by
  unfold le16
  rw [h o (by omega) (by omega), h (o + 1) (by omega) (by omega)]

theorem wle16_of_disjoint (h : p < o ∨ o + 2 ≤ p) : b.wle16 o x p = b p := by
  unfold wle16
  rw [update_of_ne (by omega), update_of_ne (by omega)]

theorem le16_wle16_of_disjoint (h : p + 2 ≤ o ∨ o + 2 ≤ p) : (b.wle16 o x).le16 p = b.le16 p :=
  le16_congr fun _ _ _ => wle16_of_disjoint (by omega)

theorem le16_wle32_of_disjoint (h : p + 2 ≤ o ∨ o + 4 ≤ p) : (b.wle32 o v).le16 p = b.le16 p :=
  le16_congr fun _ _ _ => wle32_of_disjoint (by omega)

theorem le32_wle16_of_disjoint (h : p + 4 ≤ o ∨ o + 2 ≤ p) : (b.wle16 o x).le32 p = b.le32 p :=
  le32_congr fun _ _ _ => wle16_of_disjoint (by omega)

theorem le16_wle16 : (b.wle16 o x).le16 o = x := by
  apply BitVec.eq_of_getLsbD_eq
  intro i hi
  rw [getLsbD_le16 hi, bit_wle16, if_pos (by omega)]
  congr 1
  omega

end Buf

end MaeroOS.Lib
