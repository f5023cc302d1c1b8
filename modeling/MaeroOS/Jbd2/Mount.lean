import MaeroOS.Jbd2.Transaction
import MaeroOS.Jbd2.Recover

/-!
# Mounting

What is known of a journal that `ext2_jnl_open` accepts (`Opened`), and that it is accepted again,
with its new transaction number, after the driver has written the journal superblock
(`jnlOpen_sbWith`).
-/

namespace MaeroOS.Jbd2

open Lib (Buf Word)
open Lib.Buf (be32 wbe32 be32_wbe32 be32_wbe32_of_disjoint wbe32_of_disjoint wbe32_wbe32)

variable {fs : Fs} {ino : JournalInode} {j : Journal} {disk disk' : Disk} {b : Buf}
  {start seq compat incompat : Word} {o p : Nat}

/-! ## The superblock -/

/-- What is not the start of the log, its number or the checksum stays. -/
theorem sbWith_of_disjoint (h : p < 0x18 ∨ 0x20 ≤ p) (hcsum : p < 0xFC ∨ 0x100 ≤ p) :
    sbWith j b start seq p = b p := by
  simp only [sbWith]
  split <;> simp (disch := omega) only [wbe32_of_disjoint]

theorem be32_sbWith_of_disjoint (h : o + 4 ≤ 0x18 ∨ 0x20 ≤ o) (hcsum : o + 4 ≤ 0xFC ∨ 0x100 ≤ o) :
    be32 (sbWith j b start seq) o = be32 b o :=
  MaeroOS.Lib.Buf.be32_congr fun _ _ _ => sbWith_of_disjoint (by omega) (by omega)

theorem be32_sbWith_start : be32 (sbWith j b start seq) 0x1C = start := by
  simp only [sbWith]
  split
  · rw [be32_wbe32_of_disjoint (by omega), be32_wbe32]
  · rw [be32_wbe32]

theorem be32_sbWith_seq : be32 (sbWith j b start seq) 0x18 = seq := by
  simp only [sbWith]
  split <;> simp (disch := omega) only [be32_wbe32_of_disjoint, be32_wbe32]

theorem uuidOf_sbWith : uuidOf (sbWith j b start seq) = uuidOf b := by
  funext i
  unfold uuidOf
  split
  · rw [sbWith_of_disjoint (by omega) (by omega)]
  · rfl

/-- The checksum of a superblock that was written is right. -/
theorem sbWith_csum (h : j.csum = true) :
    crc32c (BitVec.allOnes 32) (wbe32 (sbWith j b start seq) 0xFC 0) 1024 =
      be32 (sbWith j b start seq) 0xFC := by
  simp only [sbWith]
  rw [if_pos h, wbe32_wbe32, be32_wbe32]

/-! ## Opening -/

/-- What opening a journal has checked. -/
structure Opened (fs : Fs) (ino : JournalInode) (j : Journal) : Prop where
  len_lt : j.len < 2 ^ 31
  first_pos : 0 < j.first
  first_lt : j.first < j.len
  map_eq : j.map = ino.map
  map_ne : ∀ i < j.len, j.map i ≠ 0
  tagBytes : j.tagBytes = jnlTagBytes j.incompat
  room : j.hard + descRoom fs j.tagBytes (j.len - j.first) + 4 ≤ j.len - j.first

theorem openWith_opened (h : openWith fs ino b compat incompat = some j) : Opened fs ino j := by
  simp only [openWith] at h
  split at h
  · cases h
  split at h
  · cases h
  split at h
  · cases h
  next hgeom =>
  split at h
  · cases h
  next hino =>
  split at h
  · cases h
  next hroom =>
  cases h
  have hsize : ino.size.toNat / fs.blockSize < 2 ^ 31 := by
    have hlarge := fs.large
    have := ino.size.isLt
    exact Nat.div_lt_of_lt_mul (by omega)
  push Not at hino
  refine ⟨lt_of_le_of_lt hino.1 hsize, ?_, ?_, rfl, hino.2, rfl, ?_⟩
  · show 0 < (be32 b 0x14).toNat
    omega
  · show (be32 b 0x14).toNat < (be32 b 0x10).toNat
    omega
  · dsimp only
    omega

/-- A superblock that was written is accepted like the one before. -/
theorem openWith_sbWith (h : openWith fs ino b compat incompat = some j) :
    openWith fs ino (sbWith j b start seq) compat incompat = some { j with seq := seq } := by
  simp only [openWith] at h ⊢
  split at h
  · cases h
  next hfeat =>
  split at h
  · cases h
  split at h
  · cases h
  next hgeom =>
  split at h
  · cases h
  next hino =>
  split at h
  · cases h
  next hroom =>
  cases h
  rw [be32_sbWith_of_disjoint (o := 0x10) (by omega) (by omega),
    be32_sbWith_of_disjoint (o := 0x14) (by omega) (by omega),
    be32_sbWith_seq, uuidOf_sbWith, if_neg hfeat, if_neg hgeom, if_neg hino, if_neg hroom,
      if_neg fun hcs => hcs.2 (sbWith_csum hcs.1)]

theorem jnlOpen_opened (h : jnlOpen fs ino disk = some j) : Opened fs ino j := by
  unfold jnlOpen at h
  split at h
  · cases h
  obtain ⟨b, -, h⟩ := Option.bind_eq_some_iff.mp h
  split at h
  · cases h
  · split at h <;> exact openWith_opened h

/-- **After the driver has written the superblock, the journal is accepted again.** -/
theorem jnlOpen_sbWith (h : jnlOpen fs ino disk = some j)
    (hsb : disk' (ino.map 0) = sbWith j (disk (ino.map 0)) start seq) :
    jnlOpen fs ino disk' = some { j with seq := seq } := by
  unfold jnlOpen rawReadBlock at h ⊢
  split at h
  · cases h
  next hmap =>
  rw [if_neg hmap]
  by_cases hlt : fs.blocksCount ≤ ino.map 0
  · rw [if_pos hlt] at h
    cases h
  rw [if_neg hlt, Option.bind_some] at h ⊢
  simp (disch := omega) only [hsb, be32_sbWith_of_disjoint]
  split at h
  · cases h
  next hhead =>
  rw [if_neg hhead]
  split at h
  · next hv2 =>
    rw [if_pos hv2]
    exact openWith_sbWith h
  · next hv1 =>
    rw [if_neg hv1]
    exact openWith_sbWith h

/-- Opening reads the superblock only. -/
theorem jnlOpen_congr (h : disk' (ino.map 0) = disk (ino.map 0)) :
    jnlOpen fs ino disk' = jnlOpen fs ino disk := by
  unfold jnlOpen rawReadBlock
  rw [h]

end MaeroOS.Jbd2
