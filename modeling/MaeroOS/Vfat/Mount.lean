import Mathlib.Algebra.Group.Nat.Defs
import MaeroOS.Lib.Endian

/-!
# The geometry of a FAT volume

What `vfat_mount_dev` computes of a boot sector, and what it tests before it mounts the volume. The
numbers are `uint32_t`, but for the capacity of the FAT and the size in sectors of 512 bytes, which
are computed in 64 bits.

The tests are made of the numbers as they were computed. On FAT32 the size of a FAT is a 32-bit
field, so `nfats * fatsz` may wrap. That is the only thing that goes wrong: the geometry of a volume
that is mounted is sound if and only if its data area starts below 2³² (`geometry_sound_iff`).
-/

namespace MaeroOS.Vfat

open Lib (Buf)

inductive FatType
  | fat12
  | fat16
  | fat32
  deriving DecidableEq

namespace FatType

def bits : FatType → Nat
  | fat12 => 12
  | fat16 => 16
  | fat32 => 32

/-- The most clusters that a volume may have. -/
def max : FatType → Nat
  | fat12 => 0xFF5
  | fat16 => 0xFFF5
  | fat32 => 0x0FFFFFF5

def eocMin : FatType → Nat
  | fat12 => 0xFF8
  | fat16 => 0xFFF8
  | fat32 => 0x0FFFFFF8

def bad : FatType → Nat
  | fat12 => 0xFF7
  | fat16 => 0xFFF7
  | fat32 => 0x0FFFFFF7

end FatType

/-- A partition of `nsect` sectors of 512 bytes, and the first of them. -/
structure Volume where
  bs : Buf
  nsect : Nat

namespace Volume

/-! ## What is computed -/

section

variable (v : Volume)

def bps : Nat := (v.bs.le16 11).toNat

def spc : Nat := (v.bs 13).toNat

def reserved : Nat := (v.bs.le16 14).toNat

def nfats : Nat := (v.bs 16).toNat

def rootEnts : Nat := (v.bs.le16 17).toNat

def fatsz16 : Nat := (v.bs.le16 22).toNat

def fatsz : Nat := if v.fatsz16 ≠ 0 then v.fatsz16 else (v.bs.le32 36).toNat

def total : Nat := if v.bs.le16 19 ≠ 0 then (v.bs.le16 19).toNat else (v.bs.le32 32).toNat

def rootSecs : Nat := (v.rootEnts * 32 + v.bps - 1) / v.bps

def rootSec : Nat := (v.reserved + v.nfats * v.fatsz) % 2 ^ 32

def dataSec : Nat := (v.rootSec + v.rootSecs) % 2 ^ 32

/-- The clusters that there is room for. -/
def room : Nat := (v.total - v.dataSec) / v.spc

def type : FatType := if v.fatsz16 = 0 then .fat32 else if v.room < 4085 then .fat12 else .fat16

/-- The entries that the FAT has. -/
def cap : Nat := v.fatsz * v.bps * 8 / v.type.bits

def nclus : Nat := min v.room (v.cap - 2)

def ext : Nat := (v.bs.le16 40).toNat

/-- The FAT in use, if the others are not its mirrors. -/
def active : Nat := if v.type = .fat32 ∧ v.ext.testBit 7 then v.ext % 16 else 0

def fatStart : Nat := (v.reserved + v.active * v.fatsz) % 2 ^ 32

def rootClus : Nat := (v.bs.le32 44).toNat

def clusOk (c : Nat) : Bool := 2 ≤ c ∧ c < v.nclus + 2

def clusSec (c : Nat) : Nat := (v.dataSec + (c - 2) * v.spc) % 2 ^ 32

/-- The sector of `fat_byte`. -/
def fatByte (off : Nat) : Nat := (v.fatStart + off / v.bps) % 2 ^ 32

/-- Where `fat_rd` reads an entry, and how many bytes. -/
def fatRd (c : Nat) : Nat × Nat :=
  match v.type with
  | .fat32 => (c * 4 % 2 ^ 32, 4)
  | .fat16 => (c * 2 % 2 ^ 32, 2)
  | .fat12 => (c + c / 2, 2)

/-! ## What is tested -/

/-- `EXFAT`, padded with spaces. -/
def exfat : List (BitVec 8) := [0x45, 0x58, 0x46, 0x41, 0x54, 0x20, 0x20, 0x20]

/-- **`vfat_mount_dev` mounts the volume**, unless it runs out of memory or cannot read. -/
structure Mounts : Prop where
  exfat : (List.range 8).map (fun i => v.bs (3 + i)) ≠ exfat
  jump : v.bs 0 = 0xEB ∨ v.bs 0 = 0xE9
  bps : v.bps ∈ [512, 1024, 2048, 4096]
  spc : v.spc ≠ 0 ∧ v.spc &&& (v.spc - 1) = 0 ∧ v.bps * v.spc ≤ 65536
  fats : v.reserved ≠ 0 ∧ v.nfats ≠ 0
  bpb : v.fatsz ≠ 0 ∧ v.total ≠ 0 ∧ v.dataSec < v.total
  root : if v.type = .fat32 then v.rootEnts = 0 ∧ v.bs.le16 42 = 0 else v.rootEnts ≠ 0
  cap : 2 ≤ v.cap
  nclus : v.nclus ≠ 0 ∧ v.nclus ≤ v.type.max
  part : v.total * (v.bps / 512) ≤ v.nsect
  fat32 : v.type = .fat32 → (v.ext.testBit 7 → v.ext % 16 < v.nfats) ∧ v.clusOk v.rootClus

/-! ## Soundness -/

/-- The areas of the volume follow each other within the partition, the FAT in use has an entry for
every cluster, and a cluster is in the data area and its number no marker. -/
structure Sound : Prop where
  root : v.rootSec = v.reserved + v.nfats * v.fatsz
  data : v.dataSec = v.rootSec + v.rootSecs
  total : v.dataSec + v.nclus * v.spc ≤ v.total
  part : v.total * (v.bps / 512) ≤ v.nsect
  active : v.active < v.nfats ∧ v.fatStart = v.reserved + v.active * v.fatsz
  entry : ∀ c < v.nclus + 2, ∀ off, (v.fatRd c).1 ≤ off → off < (v.fatRd c).1 + (v.fatRd c).2 →
    off / v.bps < v.fatsz ∧ v.fatByte off = v.fatStart + off / v.bps
  clus : ∀ c, v.clusOk c → v.clusSec c = v.dataSec + (c - 2) * v.spc ∧ c < v.type.bad ∧
    c < v.type.eocMin

end

variable {v : Volume}

theorem total_lt : v.total < 2 ^ 32 := by
  unfold total
  split
  · have := (v.bs.le16 19).isLt
    omega
  · exact (v.bs.le32 32).isLt

/-- The entries of the clusters are within the capacity. -/
theorem fatRd_lt (h : v.Mounts) {c : Nat} (hc : c < v.nclus + 2) :
    (v.fatRd c).1 + (v.fatRd c).2 ≤ v.fatsz * v.bps := by
  have hcap : c + 1 ≤ v.cap := by
    have := h.cap
    unfold nclus at hc
    omega
  have hbits := (Nat.le_div_iff_mul_le (by cases v.type <;> decide)).1 hcap
  unfold fatRd
  have hmax := h.nclus.2
  cases htype : v.type <;> simp only [htype, FatType.bits, FatType.max] at hbits hmax ⊢ <;> omega

/-- **The geometry is sound** unless the FATs reach past 32 bits. -/
theorem geometry_sound_iff (h : v.Mounts) :
    v.Sound ↔ v.reserved + v.nfats * v.fatsz + v.rootSecs < 2 ^ 32 := by
  have htotal := v.total_lt
  have hlt := h.bpb.2.2
  refine ⟨fun hs => ?_, fun hfits => ?_⟩
  · rw [← hs.root, ← hs.data]
    omega
  have hroot : v.rootSec = v.reserved + v.nfats * v.fatsz := Nat.mod_eq_of_lt (by omega)
  have hdata : v.dataSec = v.rootSec + v.rootSecs := by
    unfold dataSec
    omega
  have hclus : v.dataSec + v.nclus * v.spc ≤ v.total := by
    have hroom : v.nclus ≤ v.room := Nat.min_le_left ..
    have := (Nat.le_div_iff_mul_le (Nat.pos_of_ne_zero h.spc.1)).1 hroom
    omega
  have hactive : v.active < v.nfats := by
    unfold active
    split
    · next h32 => exact (h.fat32 h32.1).1 h32.2
    · exact Nat.pos_of_ne_zero h.fats.2
  -- the FAT in use ends where the FATs do, at the latest
  have hend : (v.active + 1) * v.fatsz ≤ v.nfats * v.fatsz := Nat.mul_le_mul_right _ hactive
  rw [Nat.succ_mul] at hend
  have hfat : v.fatStart = v.reserved + v.active * v.fatsz := Nat.mod_eq_of_lt (by omega)
  refine ⟨hroot, hdata, hclus, h.part, ⟨hactive, hfat⟩, fun c hc off _ hoff => ?_, fun c hc => ?_⟩
  · have hbps : 0 < v.bps := by
      rcases Nat.eq_zero_or_pos v.bps with h0 | h0
      · exact absurd (h0 ▸ h.bps) (by decide)
      · exact h0
    have hsec : off / v.bps < v.fatsz :=
      (Nat.div_lt_iff_lt_mul hbps).2 (Nat.lt_of_lt_of_le hoff (fatRd_lt h hc))
    exact ⟨hsec, Nat.mod_eq_of_lt (by omega)⟩
  · have hc := (of_decide_eq_true hc).2
    have hmax := h.nclus.2
    have hsec : (c - 2) * v.spc ≤ v.nclus * v.spc := Nat.mul_le_mul_right _ (by omega)
    refine ⟨Nat.mod_eq_of_lt (by omega), ?_⟩
    cases htype : v.type <;>
      simp only [htype, FatType.bad, FatType.eocMin, FatType.max] at hmax ⊢ <;> omega

/-- A FAT32 volume of 10000 sectors with two FATs. -/
def fat32Volume (fatsz : BitVec 32) : Volume where
  bs := Buf.wle32 (fun
    | 0 => 0xEB | 12 => 2 | 13 => 1 | 14 => 32 | 16 => 2 | 32 => 0x10 | 33 => 0x27 | 44 => 2
    | _ => 0) 36 fatsz
  nsect := 10000

theorem geometry_sound_eighty : (fat32Volume 80).Sound :=
  (geometry_sound_iff (by constructor <;> decide)).2 (by decide)

/-- Two FATs of 2³¹ + 16 sectors wrap to 32 sectors, and the entry of a cluster is in a sector of
another one. -/
theorem fats_wrap : ∃ v : Volume, v.Mounts ∧ ¬ v.Sound ∧ v.clusOk 9000 = true ∧ v.clusOk 40 = true ∧
    v.fatByte (v.fatRd 9000).1 = v.clusSec 40 := by
  refine ⟨fat32Volume 0x80000010, by constructor <;> decide, fun h => absurd h.root (by decide), ?_⟩
  decide

end Volume

end MaeroOS.Vfat
