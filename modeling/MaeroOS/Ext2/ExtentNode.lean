import MaeroOS.Ext2.Extents

/-!
# Nodes of an extent tree, in bytes

What is written into a node is what is read from it: headers, extents and index entries occupy bytes
of their own (`PutsEntries.map_get`), and a reader looks at no byte past the entries of its node.
-/

namespace MaeroOS.Ext2.Extents

open Lib (Buf)

variable {geo : Geometry} {b b' : Buf} {o p i j : Nat} {x : Ext}

/-- The longest extent of a kind. -/
def extLimit (unwritten : Bool) : Nat := if unwritten then extMaxLen - 1 else extMaxLen

/-- An extent that a leaf can hold, of file blocks below `2 ^ 32 - 1`. -/
structure ExtOk (x : Ext) : Prop where
  pos : 0 < x.len
  len : x.len ≤ extLimit x.tag
  stop : x.start + x.len < 2 ^ 32
  target : 0 < x.target
  target_lt : x.target < 2 ^ 32

/-! ## One extent -/

theorem extGet_congr (h : ∀ q, o ≤ q → q < o + 12 → b' q = b q) : extGet b' o = extGet b o := by
  unfold extGet
  rw [Buf.le32_congr fun q hq hq' => h q (by omega) (by omega),
    Buf.le16_congr fun q hq hq' => h q (by omega) (by omega), Buf.le16_congr fun q hq hq' =>
      h q (by omega) (by omega),
    Buf.le32_congr fun q hq hq' => h q (by omega) (by omega)]

theorem extPut_of_disjoint (h : p < o ∨ o + 12 ≤ p) : extPut b o x p = b p := by
  unfold extPut
  simp (disch := omega) only [Buf.wle32_of_disjoint, Buf.wle16_of_disjoint]

theorem extGet_extPut (h : ExtOk x) : extGet (extPut b o x) o = x := by
  obtain ⟨hpos, hlen, hstop, htarget, htlt⟩ := h
  have hstart : ((extPut b o x).le32 o).toNat = x.start := by
    unfold extPut
    simp (disch := omega) only [Buf.le32_wle32_of_disjoint, Buf.le32_wle16_of_disjoint,
      Buf.le32_wle32]
    rw [BitVec.toNat_ofNat, Nat.mod_eq_of_lt (by omega)]
  have hfield : ((extPut b o x).le16 (o + 4)).toNat = if x.tag then x.len + extMaxLen
      else x.len := by
    unfold extPut
    rw [Buf.le16_wle32_of_disjoint (by omega), Buf.le16_wle16_of_disjoint (by omega),
      Buf.le16_wle16, BitVec.toNat_ofNat, Nat.mod_eq_of_lt]
    unfold extLimit extMaxLen at hlen
    unfold extMaxLen
    split_ifs at hlen ⊢ <;> omega
  have hhi : (extPut b o x).le16 (o + 6) = 0 := by
    unfold extPut
    rw [Buf.le16_wle32_of_disjoint (by omega), Buf.le16_wle16]
  have hblk : ((extPut b o x).le32 (o + 8)).toNat = x.target := by
    unfold extPut
    rw [Buf.le32_wle32, BitVec.toNat_ofNat, Nat.mod_eq_of_lt htlt]
  unfold extGet
  rw [hstart, hfield, hhi, hblk]
  unfold extMaxLen
  obtain ⟨start, len, target, tag⟩ := x
  dsimp only at *
  cases tag with
  | false =>
    have hle : len ≤ 32768 := hlen
    have hno : ¬ len > 32768 := by omega
    simp [hno]
  | true =>
    have hyes : len + 32768 > 32768 := by omega
    simp [hyes]

/-! ## Headers -/

theorem hdr_congr (h : ∀ q < 12, b' q = b q) :
    hdrEntries b' = hdrEntries b ∧ hdrMax b' = hdrMax b ∧ hdrDepth b' = hdrDepth b ∧
      b'.le16 0 = b.le16 0 := by
  unfold hdrEntries hdrMax hdrDepth
  rw [Buf.le16_congr fun q _ hq => h q (by omega), Buf.le16_congr fun q _ hq => h q (by omega),
    Buf.le16_congr fun q _ hq => h q (by omega), Buf.le16_congr fun q _ hq => h q (by omega)]
  exact ⟨rfl, rfl, rfl, rfl⟩

theorem hdrOk_congr {room : Nat} (h : ∀ q < 12, b' q = b q) : hdrOk b' room = hdrOk b room := by
  obtain ⟨hn, hm, hd, hmagic⟩ := hdr_congr h
  unfold hdrOk
  rw [hn, hm, hd, hmagic]

theorem hdrPut_of_le {n max depth : Nat} (h : 12 ≤ p) : hdrPut b n max depth p = b p := by
  unfold hdrPut
  simp (disch := omega) only [Buf.wle32_of_disjoint, Buf.wle16_of_disjoint]

/-- A header reads back. -/
theorem hdrPut_spec {n max depth room : Nat} (hn : n ≤ max) (hmax : max < 2 ^ 16)
    (hroom : 12 + 12 * max ≤ room)
    (hdepth : depth ≤ 5) (h : ∀ q < 12, b' q = hdrPut b n max depth q) :
    hdrOk b' room = true ∧ hdrEntries b' = n ∧ hdrMax b' = max ∧ hdrDepth b' = depth := by
  obtain ⟨h1, h2, h3, h4⟩ := hdr_congr h
  have hentries : hdrEntries (hdrPut b n max depth) = n := by
    unfold hdrEntries hdrPut
    simp (disch := omega) only [Buf.le16_wle32_of_disjoint, Buf.le16_wle16_of_disjoint,
      Buf.le16_wle16]
    rw [BitVec.toNat_ofNat, Nat.mod_eq_of_lt (by omega)]
  have hm : hdrMax (hdrPut b n max depth) = max := by
    unfold hdrMax hdrPut
    rw [Buf.le16_wle32_of_disjoint (by omega), Buf.le16_wle16_of_disjoint (by omega),
      Buf.le16_wle16, BitVec.toNat_ofNat, Nat.mod_eq_of_lt (by omega)]
  have hd : hdrDepth (hdrPut b n max depth) = depth := by
    unfold hdrDepth hdrPut
    rw [Buf.le16_wle32_of_disjoint (by omega), Buf.le16_wle16, BitVec.toNat_ofNat,
      Nat.mod_eq_of_lt (by omega)]
  have hmagic : (hdrPut b n max depth).le16 0 = extMagic := by
    unfold hdrPut
    simp (disch := omega) only [Buf.le16_wle32_of_disjoint, Buf.le16_wle16_of_disjoint,
      Buf.le16_wle16]
  rw [hentries] at h1
  rw [hm] at h2
  rw [hd] at h3
  rw [hmagic] at h4
  refine ⟨?_, h1, h2, h3⟩
  unfold hdrOk
  rw [h1, h2, h3, h4]
  simp [hn, hroom, hdepth]

theorem hdrOk_iff {room : Nat} : hdrOk b room = true ↔
    b.le16 0 = extMagic ∧ hdrEntries b ≤ hdrMax b ∧ 12 + 12 * hdrMax b ≤ room ∧ hdrDepth b ≤ 5 := by
  unfold hdrOk
  simp [and_assoc]

/-! ## Entries written one after another -/

/-- A loop that writes entries from entry `i` on, each into twelve bytes of its own. -/
structure PutsEntries {α : Type} (puts : Nat → List α → Buf → Buf) (put : Buf → Nat → α → Buf) :
    Prop where
  nil : ∀ i b, puts i [] b = b
  cons : ∀ i x xs b, puts i (x :: xs) b = puts (i + 1) xs (put b i x)
  outside : ∀ {b i x p}, p < 12 + 12 * i ∨ 12 + 12 * i + 12 ≤ p → put b i x p = b p

namespace PutsEntries

variable {α : Type} {puts : Nat → List α → Buf → Buf} {put : Buf → Nat → α → Buf}
  {g : Buf → Nat → α} {max : Nat} (h : PutsEntries puts put)

include h

theorem of_lt (xs : List α) : ∀ {i : Nat} {b : Buf}, p < 12 + 12 * i → puts i xs b p = b p := by
  induction xs with
  | nil => exact fun _ => by rw [h.nil]
  | cons x xs ih =>
    intro i b hp
    rw [h.cons, ih (by omega), h.outside (by omega)]

variable (hget : ∀ {b b' : Buf} {i}, (∀ q, 12 + 12 * i ≤ q → q < 12 + 12 * i + 12 → b' q = b q) →
  g b' i = g b i)

include hget

/-- The entries that are written are those that are read, by a reader that looks at one entry at a
time. -/
theorem get_puts (xs : List α) : ∀ {i : Nat} {b : Buf}, (∀ x ∈ xs, ∀ b i, g (put b i x) i = x) →
    ∀ j (hj : j < xs.length), g (puts i xs b) (i + j) = xs[j] := by
  induction xs with
  | nil => exact fun _ j hj => absurd hj (Nat.not_lt_zero j)
  | cons x xs ih =>
    intro i b hself j hj
    rw [h.cons]
    cases j with
    | zero =>
      have hsame : g (puts (i + 1) xs (put b i x)) i = g (put b i x) i :=
        hget fun q _ hq => h.of_lt xs (by omega)
      exact hsame.trans (hself x List.mem_cons_self b i)
    | succ j =>
      rw [show i + (j + 1) = i + 1 + j by omega]
      exact ih (fun x hx => hself x (List.mem_cons_of_mem _ hx)) j (Nat.lt_of_succ_lt_succ hj)

/-- So it is in a node with the same bytes. -/
theorem map_get {xs : List α} (hself : ∀ x ∈ xs, ∀ b i, g (put b i x) i = x)
    (hlen : xs.length ≤ max)
    (hb : ∀ q < 12 + 12 * max, b' q = puts 0 xs b q) : (List.range xs.length).map (g b') = xs := by
  apply List.ext_getElem
  · rw [List.length_map, List.length_range]
  · intro i h1 h2
    have hread := h.get_puts hget (i := 0) (b := b) xs hself i h2
    rw [zero_add] at hread
    rw [List.getElem_map, List.getElem_range, ← hread]
    exact hget fun q _ hq => hb q (by omega)

end PutsEntries

theorem putsExts : PutsEntries putExts fun b i x => extPut b (12 + 12 * i) x :=
  ⟨fun _ _ => rfl, fun _ _ _ _ => rfl, extPut_of_disjoint⟩

theorem idxPut_of_disjoint {key blk : Nat} (h : p < 12 + 12 * i ∨ 12 + 12 * i + 8 ≤ p) :
    idxPut b i key blk p = b p := by
  unfold idxPut
  rw [Buf.wle32_of_disjoint (by omega), Buf.wle32_of_disjoint (by omega)]

theorem putsIdxs : PutsEntries putIdxs fun b i e => idxPut b i e.1 e.2 :=
  ⟨fun _ _ => rfl, fun _ _ _ _ => rfl, fun h => idxPut_of_disjoint (by omega)⟩

theorem idxEntry_idxPut {e : Nat × Nat} (h : e.1 < 2 ^ 32 ∧ e.2 < 2 ^ 32) (b : Buf) (i : Nat) :
    (idxKey (idxPut b i e.1 e.2) i, idxBlk (idxPut b i e.1 e.2) i) = e := by
  unfold idxKey idxBlk idxPut
  rw [Buf.le32_wle32_of_disjoint (by omega), Buf.le32_wle32, Buf.le32_wle32, BitVec.toNat_ofNat,
    BitVec.toNat_ofNat, Nat.mod_eq_of_lt h.1, Nat.mod_eq_of_lt h.2]

/-- The third word of an entry stays as it was. -/
theorem idxHi_putIdxs (es : List (Nat × Nat)) :
    ∀ {i : Nat} {b : Buf}, idxHi (putIdxs i es b) j = idxHi b j := by
  induction es with
  | nil => exact rfl
  | cons e es ih =>
    intro i b
    rw [putIdxs, ih]
    exact Buf.le16_congr fun q hq hq' => idxPut_of_disjoint (by omega)

/-! ## Checksums -/

theorem extTail_of_lt {csum : Csum} (h : p < 12 + 12 * hdrMax b) : extTail geo csum b p = b p := by
  unfold extTail
  split
  · rfl
  dsimp only
  split
  · rfl
  · exact Buf.wle32_of_disjoint (by omega)

end MaeroOS.Ext2.Extents
