import MaeroOS.Jbd2.Commit
import MaeroOS.Jbd2.Log

/-!
# Descriptor blocks are read as they were written

The tags that `ext2_jnl_commit` puts into a descriptor block are those that `ext2_jnl_scan` finds
there, in each of the four layouts, with the mark of the last one (`descLoop_tags`). The checksums
of descriptor and commit blocks and of the logged copies hold, and a copy that had to be escaped is
read as it was before.
-/

namespace MaeroOS.Jbd2

open Function
open Lib (Buf Word)
open Lib.Buf (be32 wbe32 paste be32_congr be32_wbe32 be32_wbe32_of_disjoint wbe32_of_disjoint
  wbe32_wbe32 wbe32_be32 paste_of_disjoint)

variable {fs : Fs} {j : Journal} {seq : Word} {b b' : Buf} {off o p : Nat} {e : Entry}
  {es : List Entry} {first : Bool} {v : Word}

/-! ## Tags -/

variable (hj : j.tagBytes = jnlTagBytes j.incompat)

include hj in
theorem tagBytes_ge :
    8 ≤ j.tagBytes ∧ (hasBits j.incompat incompatCsum3 = true → j.tagBytes = 16) ∧
      (hasBits j.incompat incompat64bit = true → 12 ≤ j.tagBytes) ∧ j.tagBytes ≤ 16 := by
  rw [hj]
  unfold jnlTagBytes
  split
  · simp
  · split <;> split <;> simp_all

include hj in
/-- A tag is read from its own bytes only. -/
theorem readTag_congr (h : ∀ i, off ≤ i → i < off + j.tagBytes → b' i = b i) :
    readTag j b' off = readTag j b off := by
  obtain ⟨h8, h16, h12, -⟩ := tagBytes_ge hj
  have hword : ∀ o, off ≤ o → o + 4 ≤ off + j.tagBytes → be32 b' o = be32 b o := fun o h1 h2 =>
    be32_congr fun i h3 h4 => h i (by omega) (by omega)
  unfold readTag
  split
  · next hc =>
    have := h16 hc
    rw [hword off (by omega) (by omega), hword (off + 4) (by omega) (by omega),
      hword (off + 8) (by omega) (by omega), hword (off + 12) (by omega) (by omega)]
  · rw [hword off (by omega) (by omega), h (off + 4) (by omega) (by omega),
      h (off + 5) (by omega) (by omega),
      h (off + 6) (by omega) (by omega), h (off + 7) (by omega) (by omega)]
    split
    · next hc =>
      have := h12 hc
      rw [hword (off + 8) (by omega) (by omega)]
    · rfl

theorem wbe16_of_disjoint (h : p < o ∨ o + 2 ≤ p) : wbe16 b o v p = b p := by
  unfold wbe16
  rw [update_of_ne (by omega), update_of_ne (by omega)]

theorem be32_wbe16_of_disjoint (h : p + 4 ≤ o ∨ o + 2 ≤ p) : be32 (wbe16 b o v) p = be32 b p :=
  be32_congr fun _ _ _ => wbe16_of_disjoint (by omega)

/-- The tag of an entry, as it is read. -/
def tagOf (fs : Fs) (j : Journal) (seq : Word) (first last : Bool) (e : Entry) : Tag where
  blk := e.blk
  flags := e.flags first ||| if last then flagLastTag else 0
  hi := 0
  tcs := if hasBits j.incompat incompatCsum3 then e.csum fs j seq else e.csum fs j seq &&& 0xFFFF

/-- The bits of a constant, when those it has have been looked at. -/
theorem getLsbD_eq_decide {w : Nat} {c : BitVec w} {P : Nat → Prop} [DecidablePred P]
    (hP : ∀ i, P i → i < w)
    (h : ∀ i < w, c.getLsbD i = decide (P i)) (i : Nat) : c.getLsbD i = decide (P i) := by
  by_cases hi : i < w
  · exact h i hi
  · rw [BitVec.getLsbD_of_ge _ _ (not_lt.mp hi)]
    exact (decide_eq_false fun hp => hi (hP i hp)).symm

/-- Two bytes are read as they were written. -/
theorem append_wbe16 : (wbe16 b o v o ++ wbe16 b o v (o + 1)).setWidth 32 = v &&& 0xFFFF := by
  have h1 : wbe16 b o v (o + 1) = v.extractLsb' 0 8 := update_self ..
  have h0 : wbe16 b o v o = v.extractLsb' 8 8 := by
    rw [wbe16, update_of_ne (by omega), update_self]
  have hmask : ∀ i, (0xFFFF : Word).getLsbD i = decide (i < 16) :=
    getLsbD_eq_decide (by omega) (by decide)
  rw [h0, h1]
  apply BitVec.eq_of_getLsbD_eq
  intro i hi
  rw [BitVec.getLsbD_setWidth, BitVec.getLsbD_append, BitVec.getLsbD_extractLsb',
    BitVec.getLsbD_extractLsb', BitVec.getLsbD_and, hmask]
  grind

theorem flags_small : e.flags first &&& 0xFFFF = e.flags first := by
  unfold Entry.flags
  split <;> split <;> rfl

/-- The first eight bytes of a tag whose checksum has two bytes. -/
theorem readTag_short (fs : Fs) (j : Journal) (seq : Word) (first : Bool) (e : Entry) (b : Buf)
    (off : Nat) :
    let b' :=
  wbe16 (wbe16 (wbe32 b off e.blk) (off + 4) (e.csum fs j seq)) (off + 6) (e.flags first)
    be32 b' off = e.blk ∧ (b' (off + 6) ++ b' (off + 7)).setWidth 32 = e.flags first ∧
      (b' (off + 4) ++ b' (off + 5)).setWidth 32 = e.csum fs j seq &&& 0xFFFF := by
  refine ⟨?_, append_wbe16.trans flags_small, ?_⟩
  · show be32 (wbe16 (wbe16 (wbe32 b off e.blk) _ _) _ _) off = e.blk
    rw [be32_wbe16_of_disjoint (.inl (by omega)), be32_wbe16_of_disjoint (.inl (by omega)),
      be32_wbe32]
  · show (wbe16 (wbe16 _ (off + 4) _) (off + 6) _ (off + 4) ++ wbe16 (wbe16 _ (off + 4) _) (off + 6)
      _ (off + 5)).setWidth 32 = _
    rw [wbe16_of_disjoint (p := off + 4) (o := off + 6) (.inl (by omega)),
      wbe16_of_disjoint (p := off + 5) (o := off + 6) (.inl (by omega))]
    exact append_wbe16

/-- **A tag is read as it was written**, in each layout. -/
theorem readTag_putTag :
    readTag j (putTag fs j seq first e b off) off = tagOf fs j seq first false e := by
  have hflags : (tagOf fs j seq first false e).flags = e.flags first := BitVec.or_zero
  simp only [readTag, putTag]
  split
  · next hc =>
    generalize hb : wbe32 b off e.blk = b₁
    have hblk : be32 b₁ off = e.blk := hb ▸ be32_wbe32
    simp (disch := omega) only [be32_wbe32, be32_wbe32_of_disjoint, hblk]
    rw [← hflags]
    unfold tagOf
    rw [if_pos hc]
  · next hc =>
    obtain ⟨hblk, hfl, hcs⟩ := readTag_short fs j seq first e b off
    generalize wbe16 (wbe16 (wbe32 b off e.blk) (off + 4) (e.csum fs j seq)) (off + 6)
      (e.flags first) = b₁ at hblk hfl hcs ⊢
    have htag : tagOf fs j seq first false e =
        ⟨e.blk, e.flags first, 0, e.csum fs j seq &&& 0xFFFF⟩ := by
      rw [← hflags]
      unfold tagOf
      rw [if_neg hc]
    rw [htag]
    split
    · simp (disch := omega) only [be32_wbe32, be32_wbe32_of_disjoint, wbe32_of_disjoint, hblk,
        hfl, hcs]
    · rw [hblk, hfl, hcs]

theorem readTag_markLast :
    readTag j (markLast j b off) off =
      { readTag j b off with flags := (readTag j b off).flags ||| flagLastTag } := by
  unfold readTag markLast
  split
  · next hc =>
    simp (disch := omega) only [be32_wbe32, be32_wbe32_of_disjoint]
  · have hword : be32 (update b (off + 7) (b (off + 7) ||| 8)) (off + 8) = be32 b (off + 8) :=
      be32_congr fun i h1 h2 => update_of_ne (by omega) _ _
    have hblk : be32 (update b (off + 7) (b (off + 7) ||| 8)) off = be32 b off :=
      be32_congr fun i h1 h2 => update_of_ne (by omega) _ _
    have hflag : ∀ x y : BitVec 8, (x ++ (y ||| 8)).setWidth 32 = ((x ++ y).setWidth 32 : Word) |||
        flagLastTag := by
      intro x y
      have h8 : ∀ i, (8 : BitVec 8).getLsbD i = decide (i = 3) :=
        getLsbD_eq_decide (by omega) (by decide)
      have h32 : ∀ i, flagLastTag.getLsbD i = decide (i = 3) :=
        getLsbD_eq_decide (by omega) (by decide)
      apply BitVec.eq_of_getLsbD_eq
      intro i hi
      rw [BitVec.getLsbD_or, BitVec.getLsbD_setWidth, BitVec.getLsbD_setWidth,
        BitVec.getLsbD_append, BitVec.getLsbD_append, BitVec.getLsbD_or, h8, h32]
      grind
    rw [hblk, update_self, update_of_ne (by omega), update_of_ne (by omega),
      update_of_ne (by omega), hword, hflag]

section Flags

variable {last : Bool}

theorem tagOf_flags : (tagOf fs j seq first last e).lastTag = last ∧
    (tagOf fs j seq first last e).sameUuid = !first ∧
    (tagOf fs j seq first last e).escape = decide (be32 e.data 0 = jbd2Magic) := by
  unfold Tag.lastTag Tag.sameUuid Tag.escape tagOf Entry.flags
  cases first <;> cases last <;> by_cases he : be32 e.data 0 =
    jbd2Magic <;> simp only [he, if_true, if_false] <;> decide

theorem tagSize_tagOf : tagSize j (tagOf fs j seq first last e) = putSize j first := by
  unfold tagSize putSize
  rw [tagOf_flags.2.1]
  cases first <;> rfl

end Flags

/-! ## Descriptor blocks -/

/-- The tags of the entries in one descriptor block. -/
def tagsFor (fs : Fs) (j : Journal) (seq : Word) : Bool → List Entry → List Tag
  | _, [] => []
  | first, e :: es => tagOf fs j seq first es.isEmpty e :: tagsFor fs j seq false es

/-- A descriptor block with one more tag. -/
def withTag (fs : Fs) (j : Journal) (seq : Word) (first : Bool) (e : Entry) (b : Buf)
    (off : Nat) : Buf :=
  if first then paste (putTag fs j seq first e b off) (off + j.tagBytes) j.uuid 16
    else putTag fs j seq first e b off

include hj in
theorem readTag_withTag :
    readTag j (withTag fs j seq first e b off) off = tagOf fs j seq first false e := by
  refine (readTag_congr hj fun i h1 h2 => ?_).trans (readTag_putTag (b := b))
  unfold withTag
  split
  · exact paste_of_disjoint (by omega)
  · rfl

theorem withTag_of_lt (h : p < off) : withTag fs j seq first e b off p = b p := by
  have htag : putTag fs j seq first e b off p = b p := by
    simp only [putTag]
    split_ifs <;> simp (disch := omega) only [wbe32_of_disjoint, wbe16_of_disjoint]
  unfold withTag
  split
  · rw [paste_of_disjoint (by omega), htag]
  · exact htag

section Loop

variable {last : Nat} {F : Buf}

/-- The bytes before the tags stay as they are. -/
theorem descLoop_buf (h : p < off) : (descLoop fs j seq first es b off last).buf p = b p := by
  fun_induction descLoop with
  | case1 | case3 => rfl
  | case2 first e es b off last hfits b₁ b₂ r ih => exact (ih (by omega)).trans (withTag_of_lt h)

/-- Where the last tag is, if there is one. -/
theorem descLoop_lastTag (first : Bool) (es : List Entry) (b : Buf) (off last : Nat) :
    let r := descLoop fs j seq first es b off last
    r.taken = [] ∧ r.lastTag = last ∨ r.taken ≠ [] ∧ off ≤ r.lastTag := by
  fun_induction descLoop with
  | case1 | case3 => exact .inl ⟨rfl, rfl⟩
  | case2 first e es b off last hfits b₁ b₂ r ih =>
    refine .inr ⟨List.cons_ne_nil _ _, ?_⟩
    rcases ih with ⟨-, hlast⟩ | ⟨-, hlast⟩
    · exact hlast.ge
    · exact le_trans (Nat.le_add_right _ _) hlast

theorem descLoop_append :
    (descLoop fs j seq first es b off last).taken ++ (descLoop fs j seq first es b off last).left =
      es := by
  fun_induction descLoop with
  | case1 | case3 => rfl
  | case2 first e es b off last hfits b₁ b₂ r ih => exact congrArg (e :: ·) ih

/-- Entries are left over only if there is no room for one more. -/
theorem descLoop_left (first : Bool) (es : List Entry) (b : Buf) (off last : Nat) :
    (descLoop fs j seq first es b off last).left = [] ∨
      j.limit fs < off + ((descLoop fs j seq first es b off last).taken.length + 1) * j.tagBytes +
        if first then 16 else 0 := by
  fun_induction descLoop with
  | case1 => exact .inl rfl
  | case2 first e es b off last hfits b₁ b₂ r ih =>
    refine ih.imp id fun (h : _ < off + (_ + if first then 16 else 0) + (r.taken.length + 1) *
      j.tagBytes + 0) => ?_
    rw [List.length_cons, Nat.succ_mul (_ + 1)]
    omega
  | case3 first e es b off last hfull =>
    unfold putSize at hfull
    refine .inr ?_
    simp only [List.length_nil, zero_add, one_mul]
    omega

include hj in
/-- There are not more tags than bytes. -/
theorem descLoop_length (hoff : off ≤ j.limit fs) :
    off + (descLoop fs j seq first es b off last).taken.length ≤ j.limit fs := by
  fun_induction descLoop with
  | case1 | case3 => exact hoff
  | case2 first e es b off last hfits b₁ b₂ r ih =>
    have hrest : off + putSize j first + r.taken.length ≤ j.limit fs := ih hfits
    have hsize : j.tagBytes ≤ putSize j first := Nat.le_add_right _ _
    have := (tagBytes_ge hj).1
    show off + (_ + 1) ≤ _
    omega

theorem markLast_of_lt (h : p < last + 4) : markLast j b last p = b p := by
  unfold markLast
  split
  · exact wbe32_of_disjoint (by omega)
  · exact update_of_ne (by omega) _ _

include hj in
/-- **The tags of a descriptor block are read as they were written.** What is behind the tags, the
checksum of the block, may be changed. -/
theorem descLoop_tags {r : Desc} (hr : descLoop fs j seq first es b off last = r) (fuel : Nat)
    (htaken : r.taken ≠ [])
    (hfuel : r.taken.length ≤ fuel) (hF : ∀ i < j.limit fs, F i = markLast j r.buf r.lastTag i) :
    tagList fs j F fuel off = tagsFor fs j seq first r.taken := by
  subst hr
  fun_induction descLoop generalizing fuel with
  | case1 | case3 => exact absurd rfl htaken
  | case2 first e es b off last hfits b₁ b₂ r ih =>
    obtain ⟨n, rfl⟩ : ∃ n, fuel = n + 1 :=
      ⟨fuel - 1, by simp only [List.length_cons] at hfuel; omega⟩
    have hsize : j.tagBytes ≤ putSize j first := Nat.le_add_right _ _
    have hbytes : readTag j r.buf off = tagOf fs j seq first false e := by
      rw [← readTag_withTag (b := b) hj]
      exact readTag_congr hj fun i h1 h2 => descLoop_buf (by omega)
    have hF : ∀ i < j.limit fs, F i = markLast j r.buf r.lastTag i := hF
    have hcases : r.taken = [] ∧ r.lastTag = off ∨ r.taken ≠ [] ∧
        off + putSize j first ≤ r.lastTag := descLoop_lastTag ..
    rw [tagList, if_pos (by omega), tagsFor]
    rcases hcases with ⟨hnone, hlast⟩ | ⟨hsome, hlast⟩
    · -- this is the last tag
      have hmark : readTag j F off = tagOf fs j seq first true e := by
        rw [readTag_congr (b := markLast j r.buf r.lastTag) hj fun i h1 h2 => hF i (by omega),
          hlast, readTag_markLast, hbytes]
        unfold tagOf
        simp
      rw [hmark, tagOf_flags.1, if_pos rfl, hnone]
      rfl
    · have hplain : readTag j F off = tagOf fs j seq first false e := by
        rw [← hbytes]
        exact readTag_congr hj fun i h1 h2 => (hF i (by omega)).trans (markLast_of_lt (by omega))
      have hempty : r.taken.isEmpty = false := by simpa using hsome
      rw [hplain, tagOf_flags.1, if_neg Bool.false_ne_true, tagSize_tagOf, hempty,
        ih n hsome (Nat.le_of_succ_le_succ hfuel) hF]

end Loop

/-! ## Blocks of the log -/

section Blocks

variable {J : Nat → Buf} {pos : Nat} {now : Word}

theorem header_magic {type : Word} : be32 (header type seq) 0 = jbd2Magic := by
  unfold header
  simp (disch := omega) only [be32_wbe32_of_disjoint, be32_wbe32]

theorem header_type {type : Word} : be32 (header type seq) 4 = type := by
  unfold header
  rw [be32_wbe32_of_disjoint (by omega), be32_wbe32]

theorem header_seq {type : Word} : be32 (header type seq) 8 = seq := be32_wbe32

theorem limit_ge (fs : Fs) (j : Journal) :
    fs.blockSize - 4 ≤ j.limit fs ∧ j.limit fs ≤ fs.blockSize := by
  unfold Journal.limit
  split <;> omega

theorem nextDesc_append (fs : Fs) (j : Journal) (seq : Word) (es : List Entry) :
    (nextDesc fs j seq es).taken ++ (nextDesc fs j seq es).left = es :=
  descLoop_append

include hj in
/-- Every descriptor block has a tag. -/
theorem nextDesc_taken (fs : Fs) (seq : Word) (e : Entry) (es : List Entry) :
    (nextDesc fs j seq (e :: es)).taken ≠ [] := by
  have hlimit := (limit_ge fs j).1
  have hlarge := fs.large
  have hfits : 12 + putSize j true ≤ j.limit fs := by
    have := (tagBytes_ge hj).2.2.2
    show 12 + (j.tagBytes + 16) ≤ _
    omega
  rw [nextDesc, descLoop, if_pos hfits]
  exact List.cons_ne_nil _ _

/-- The header of a descriptor block is in front of what is written later. -/
theorem block_of_lt (es : List Entry) (h : p < 12) (htaken : (nextDesc fs j seq es).taken ≠ []) :
    (nextDesc fs j seq es).block fs j p = header jbd2Descriptor seq p := by
  have hlarge := fs.large
  have hlast : 12 ≤ (nextDesc fs j seq es).lastTag := by
    rcases descLoop_lastTag true es (header jbd2Descriptor seq) 12 0 with ⟨hnil, -⟩ | ⟨-, h⟩
    · exact absurd hnil htaken
    · exact h
  have hmark : markLast j (nextDesc fs j seq es).buf (nextDesc fs j seq es).lastTag p =
      header jbd2Descriptor seq p :=
    (markLast_of_lt (by omega)).trans (descLoop_buf h)
  unfold Desc.block jnlBlockTail
  split
  · rw [wbe32_of_disjoint (by omega), hmark]
  · exact hmark

theorem be32_block (es : List Entry) (h : o + 4 ≤ 12) (htaken : (nextDesc fs j seq es).taken ≠ []) :
    be32 ((nextDesc fs j seq es).block fs j) o = be32 (header jbd2Descriptor seq) o :=
  be32_congr fun _ _ _ => block_of_lt es (by omega) htaken

theorem descValid_jnlBlockTail : descValid fs j (jnlBlockTail fs j b) = true := by
  unfold descValid jnlBlockTail
  cases hc : j.csum with
  | false => rfl
  | true => simp [wbe32_wbe32, be32_wbe32]

theorem descBody_jnlBlockTail (h : p < j.limit fs) :
    descBody fs j (jnlBlockTail fs j b) p = b p := by
  unfold Journal.limit at h
  unfold descBody jnlBlockTail
  split
  · next hc =>
    rw [if_pos hc] at h
    rw [wbe32_of_disjoint (by omega), wbe32_of_disjoint (by omega)]
  · rfl

/-- A block with the header of a control block. -/
theorem ctrlAt_of_header (hpos : pos < j.len) (hmagic : be32 (J pos) 0 = jbd2Magic)
    (hseq : be32 (J pos) 8 = seq) : ctrlAt fs j J pos seq =
      if be32 (J pos) 4 = jbd2Descriptor then
        if descValid fs j (J pos) then
          some (.descriptor (tagList fs j (descBody fs j (J pos)) fs.blockSize 12))
        else none
      else if be32 (J pos) 4 = jbd2Commit then
        if commitValid fs j (J pos) then some .commit else none
      else if be32 (J pos) 4 = jbd2Revoke then some (.revoke (revokeRecords fs j (J pos)))
      else none := by
  refine if_neg ?_
  rintro (h | h | h)
  · omega
  · exact h hmagic
  · exact h hseq

include hj in
/-- **A descriptor block is found in the log**, with its tags. -/
theorem ctrlAt_block (hpos : pos < j.len) (e : Entry) (es : List Entry)
    (hJ : J pos = (nextDesc fs j seq (e :: es)).block fs j) :
    ctrlAt fs j J pos seq =
      some (.descriptor (tagsFor fs j seq true (nextDesc fs j seq (e :: es)).taken)) := by
  have htaken := nextDesc_taken hj fs seq e es
  have hlarge := fs.large
  obtain ⟨hge, hle⟩ := limit_ge fs j
  have hlength : 12 + (nextDesc fs j seq (e :: es)).taken.length ≤ j.limit fs :=
    descLoop_length hj (by omega)
  have hfuel : (nextDesc fs j seq (e :: es)).taken.length ≤ fs.blockSize := by omega
  have hheader : ∀ o, o + 4 ≤ 12 → be32 (J pos) o = be32 (header jbd2Descriptor seq) o :=
    fun o ho => by
    rw [hJ, be32_block _ ho htaken]
  have hvalid : descValid fs j ((nextDesc fs j seq (e :: es)).block fs j) = true :=
    descValid_jnlBlockTail
  rw [ctrlAt_of_header hpos ((hheader 0 (by omega)).trans header_magic)
    ((hheader 8 (by omega)).trans header_seq),
    if_pos ((hheader 4 (by omega)).trans header_type), hJ, if_pos hvalid]
  congr 2
  exact descLoop_tags hj rfl _ htaken hfuel fun i hi => descBody_jnlBlockTail hi

theorem be32_commitBlock (h : o + 4 ≤ 12) : be32 (commitBlock fs j seq now) o = be32
    (header jbd2Commit seq) o := by
  simp only [commitBlock]
  split <;> simp (disch := omega) only [be32_wbe32_of_disjoint]

theorem commitValid_commitBlock : commitValid fs j (commitBlock fs j seq now) = true := by
  simp only [commitValid, commitBlock]
  cases hc : j.csum with
  | false => rfl
  | true =>
    -- the checksum is taken while there are zeros in its place
    have hzero : be32 (wbe32 (wbe32 (header jbd2Commit seq) 0x30 0) 0x34 now) 16 = 0 := by
      unfold header
      simp (disch := omega) only [be32_wbe32_of_disjoint]
      rfl
    rw [if_pos rfl, wbe32_wbe32, be32_wbe32, wbe32_be32 hzero]
    simp

theorem ctrlAt_commitBlock (hpos : pos < j.len) (hJ : J pos = commitBlock fs j seq now) :
    ctrlAt fs j J pos seq = some .commit := by
  have hheader : ∀ o, o + 4 ≤ 12 → be32 (J pos) o = be32 (header jbd2Commit seq) o := fun o ho => by
    rw [hJ, be32_commitBlock ho]
  rw [ctrlAt_of_header hpos ((hheader 0 (by omega)).trans header_magic)
    ((hheader 8 (by omega)).trans header_seq),
    (hheader 4 (by omega)).trans header_type, if_neg (by decide), if_pos rfl, hJ,
      if_pos commitValid_commitBlock]

/-- A logged copy is not taken for a control block. -/
theorem copy_magic (e : Entry) : be32 e.copy 0 ≠ jbd2Magic := by
  unfold Entry.copy
  split
  · rw [be32_wbe32]
    decide
  · next h => exact h

/-- **A logged copy is read as it was before it was escaped**, and its checksum holds. -/
theorem copyOf_tagOf {last : Bool} (hblk : e.blk.toNat < fs.blocksCount) :
    copyOf fs j seq (tagOf fs j seq first last e) e.copy = ⟨e.blk, true, e.data⟩ := by
  have hvalid : (copyOf fs j seq (tagOf fs j seq first last e) e.copy).valid = true := by
    refine decide_eq_true ⟨rfl, hblk, fun hc => ?_⟩
    unfold copyCsum tagOf Entry.csum
    rw [if_pos hc]
  have hdata : (copyOf fs j seq (tagOf fs j seq first last e) e.copy).data = e.data := by
    unfold copyOf Entry.copy
    rw [tagOf_flags.2.2]
    by_cases he : be32 e.data 0 = jbd2Magic
    · simp only [he, decide_true, if_true]
      rw [wbe32_wbe32, wbe32_be32 he]
    · simp only [he, decide_false, Bool.false_eq_true, if_false]
  rw [← hvalid, ← hdata]
  rfl

end Blocks

end MaeroOS.Jbd2
