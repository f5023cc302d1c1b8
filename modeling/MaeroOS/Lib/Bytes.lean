import MaeroOS.Lib.Endian

/-!
# Files as byte arrays

What a file is for its users: an array of bytes that is read and written in ranges, and cut or
extended (`Bytes`). What is past its end is zero, so that an extension shows nothing else.

A file system keeps the array in blocks. A byte is then one of a block (`inBlocks`), and whatever is
copied into a block is copied into the array (`inBlocks_update`).
-/

namespace MaeroOS.Lib

variable {i o n p : Nat}

/-! ## Copying -/

/-- `memcpy(b + o, src + p, n)`. -/
def Buf.copy (b : Buf) (o : Nat) (src : Buf) (p n : Nat) : Buf := fun i =>
  if o ≤ i ∧ i < o + n then src (p + (i - o)) else b i

/-- `memset(b + o, 0, n)`. -/
def Buf.clear (b : Buf) (o n : Nat) : Buf := fun i => if o ≤ i ∧ i < o + n then 0 else b i

@[simp] theorem Buf.copy_zero {b src : Buf} : b.copy o src p 0 = b := by
  funext i
  simp only [copy]
  rw [if_neg (by omega)]

/-- Only the bytes that are copied matter. -/
theorem Buf.copy_congr {b src src' : Buf} {p' : Nat} (h : ∀ i < n, src (p + i) = src' (p' + i)) :
    b.copy o src p n = b.copy o src' p' n := by
  funext i
  simp only [copy]
  split
  next hi => exact h (i - o) (by omega)
  · rfl

/-- What was copied is there. -/
theorem Buf.copy_apply {b src : Buf} (hi : i < n) : b.copy o src p n (o + i) = src (p + i) := by
  rw [copy, if_pos (by omega), Nat.add_sub_cancel_left]

theorem Buf.clear_eq_copy {b : Buf} : b.clear o n = b.copy o (fun _ => 0) 0 n := rfl

/-- Two copies, one right after the other. -/
theorem Buf.copy_copy {b src : Buf} {m : Nat} :
    (b.copy o src p n).copy (o + n) src (p + n) m = b.copy o src p (n + m) := by
  funext i
  simp only [copy]
  by_cases h : o + n ≤ i ∧ i < o + n + m
  · rw [if_pos h, if_pos (by omega)]
    congr 1
    omega
  · rw [if_neg h]
    by_cases h' : o ≤ i ∧ i < o + n
    · rw [if_pos h', if_pos (by omega)]
    · rw [if_neg h', if_neg (by omega)]

/-! ## The array -/

/-- An array of bytes, with zeros past its end. -/
@[ext] structure Bytes where
  size : Nat
  byte : Buf
  past : ∀ i, size ≤ i → byte i = 0

namespace Bytes

variable {a : Bytes} {off : Nat} {data : Buf}

/-- The first `n` bytes of `data`, written at `off`; what is between the end and `off` becomes
zeros. -/
def write (a : Bytes) (off : Nat) (data : Buf) (n : Nat) : Bytes where
  size := if n = 0 then a.size else max a.size (off + n)
  byte := a.byte.copy off data 0 n
  past := by
    intro i hi
    unfold Buf.copy
    by_cases hn : n = 0
    · rw [if_pos hn] at hi
      rw [if_neg (by omega)]
      exact a.past i hi
    · rw [if_neg hn] at hi
      rw [if_neg (by omega)]
      exact a.past i (by omega)

/-- The array cut or extended to `n` bytes. -/
def truncate (a : Bytes) (n : Nat) : Bytes where
  size := n
  byte i := if i < n then a.byte i else 0
  past := fun _ hi => if_neg (Nat.not_lt.mpr hi)

@[simp] theorem write_zero : a.write off data 0 = a := by
  apply Bytes.ext
  · simp [write]
  · simp only [write, Buf.copy_zero]

theorem write_size (h : n ≠ 0) : (a.write off data n).size = max a.size (off + n) := if_neg h

end Bytes

/-! ## In blocks -/

/-- Byte `o` of an array that lies in blocks of `bs` bytes. -/
def inBlocks (bs : Nat) (blk : Nat → Buf) (o : Nat) : BitVec 8 := blk (o / bs) (o % bs)

variable {bs : Nat} {blk blk' : Nat → Buf} {off : Nat}

/-- A byte is in another block or at another place in this one. -/
theorem div_eq_iff_range (hbs : 0 < bs) (hfit : off % bs + n ≤ bs) :
    off ≤ i ∧ i < off + n ↔ i / bs = off / bs ∧ off % bs ≤ i % bs ∧ i % bs < off % bs + n := by
  have hi := Nat.div_add_mod i bs
  have ho := Nat.div_add_mod off bs
  constructor
  · rintro ⟨hle, hlt⟩
    have heq : i / bs = off / bs := by
      refine Nat.le_antisymm ?_ (Nat.div_le_div_right hle)
      rw [← Nat.lt_succ_iff, Nat.div_lt_iff_lt_mul hbs, Nat.succ_mul, Nat.mul_comm]
      omega
    rw [heq] at hi
    exact ⟨heq, by omega, by omega⟩
  · rintro ⟨heq, hle, hlt⟩
    rw [heq] at hi
    exact ⟨by omega, by omega⟩

/-- The bytes from `off` on to the end of its block. -/
theorem inBlocks_add (hfit : off % bs + i < bs) : inBlocks bs blk (off + i) = blk (off / bs)
    (off % bs + i) := by
  have hpos : 0 < bs := by omega
  have hoff := Nat.div_add_mod off bs
  have hsum : off + i = off % bs + i + bs * (off / bs) := by omega
  unfold inBlocks
  rw [hsum, Nat.add_mul_div_left _ _ hpos, Nat.add_mul_mod_self_left, Nat.div_eq_of_lt hfit,
    Nat.mod_eq_of_lt hfit, Nat.zero_add]

/-- The bytes from the start of a block on. -/
theorem inBlocks_from (hbs : 0 < bs) (hoff : off % bs = 0) :
    inBlocks bs blk (off + i) = blk (off / bs + i / bs) (i % bs) := by
  have hsum : off + i = i + bs * (off / bs) := by
    have := Nat.div_add_mod off bs
    omega
  unfold inBlocks
  rw [hsum, Nat.add_mul_div_left _ _ hbs, Nat.add_mul_mod_self_left, Nat.add_comm (i / bs)]

/-- **A range inside one block is overwritten**: so is that of the array, and nothing else. -/
theorem inBlocks_update {src : Buf} (hbs : 0 < bs) (hfit : off % bs + n ≤ bs)
    (hblk : ∀ j, j ≠ off / bs → blk' j = blk j)
    (hnew : ∀ i < bs, blk' (off / bs) i = if off % bs ≤ i ∧
      i < off % bs + n then src (p + (i - off % bs)) else blk (off / bs) i) :
    inBlocks bs blk' i = if off ≤ i ∧ i < off + n then src (p + (i - off))
      else inBlocks bs blk i := by
  have hi := Nat.div_add_mod i bs
  have ho := Nat.div_add_mod off bs
  unfold inBlocks
  by_cases heq : i / bs = off / bs
  · rw [heq] at hi ⊢
    rw [hnew _ (Nat.mod_lt i hbs)]
    by_cases hin : off % bs ≤ i % bs ∧ i % bs < off % bs + n
    · rw [if_pos hin, if_pos ((div_eq_iff_range hbs hfit).mpr ⟨heq, hin⟩)]
      congr 1
      omega
    · rw [if_neg hin, if_neg fun h => hin ((div_eq_iff_range hbs hfit).mp h).2]
  · rw [hblk _ heq, if_neg fun h => heq ((div_eq_iff_range hbs hfit).mp h).1]

end MaeroOS.Lib
