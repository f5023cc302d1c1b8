import MaeroOS.Jbd2.Descriptor
import MaeroOS.Jbd2.Replay

/-!
# A transaction in the log

What a commit writes (`jnlCommit_eq`): the journal superblock, the blocks of the log, the commit
block, the blocks in place and the superblock again. There is always room for them
(`logBlocks_room`). Once the commit block is there, the log has the transaction with exactly the
blocks that were to be written (`txAt_logBlocks`).
-/

namespace MaeroOS.Jbd2

open List
open Lib (Buf Word applyWrites applyWrites_append applyWrites_nil)
open Lib.Buf (be32)

/-! ## The blocks of the log -/

/-- The blocks that are written for the entries of a transaction. -/
def logBlocks (fs : Fs) (j : Journal) (seq : Word) : Nat → List Entry → List Buf
  | 0, _ => []
  | _, [] => []
  | fuel + 1, e :: es =>
      let r := nextDesc fs j seq (e :: es)
      r.block fs j :: r.taken.map Entry.copy ++ logBlocks fs j seq fuel r.left

/-- The writes of blocks to consecutive positions of the journal. -/
def placed (j : Journal) : List Buf → Nat → List (Nat × Buf)
  | [], _ => []
  | b :: bs, pos => (j.map pos, b) :: placed j bs (pos + 1)

/-- The blocks are at consecutive positions. -/
def Holds (J : Nat → Buf) : List Buf → Nat → Prop
  | [], _ => True
  | b :: bs, pos => J pos = b ∧ Holds J bs (pos + 1)

/-- A block of the file system as the log has it. -/
def Entry.logged (e : Entry) : Copy := ⟨e.blk, true, e.data⟩

section

variable {fs : Fs} {j : Journal} {J : Nat → Buf} {disk : Disk} {d : Device} {seq now : Word}
  {pos fuel : Nat} {bs cs : List Buf} {es : List Entry} {first : Bool}

theorem placed_append : placed j (bs ++ cs) pos = placed j bs pos ++ placed j cs
    (pos + bs.length) := by
  induction bs generalizing pos with
  | nil => rfl
  | cons b bs ih =>
    rw [cons_append, placed, ih, placed, length_cons, Nat.add_right_comm, Nat.add_assoc]
    rfl

theorem placed_length : (placed j bs pos).length = bs.length := by
  induction bs generalizing pos with
  | nil => rfl
  | cons b bs ih => rw [placed, length_cons, ih, length_cons]

theorem placed_take (n : Nat) : (placed j bs pos).take n = placed j (bs.take n) pos := by
  induction bs generalizing pos n with
  | nil => simp [placed]
  | cons b bs ih =>
    cases n with
    | zero => rfl
    | succ n => rw [placed, take_succ_cons, ih, take_succ_cons, placed]

theorem mem_placed {w : Nat × Buf} (h : w ∈ placed j bs pos) :
    ∃ i, pos ≤ i ∧ i < pos + bs.length ∧ w.1 = j.map i ∧ w.2 ∈ bs := by
  induction bs generalizing pos with
  | nil => cases h
  | cons b bs ih =>
    rcases mem_cons.mp h with rfl | h
    · exact ⟨pos, le_rfl, by rw [length_cons]; omega, rfl, mem_cons_self⟩
    obtain ⟨i, h1, h2, h3, h4⟩ := ih h
    rw [length_cons]
    exact ⟨i, by omega, by omega, h3, mem_cons_of_mem b h4⟩

theorem holds_append : Holds J (bs ++ cs) pos ↔ Holds J bs pos ∧ Holds J cs (pos + bs.length) := by
  induction bs generalizing pos with
  | nil => simp [Holds]
  | cons b bs ih =>
    rw [cons_append, Holds, ih, Holds, length_cons, and_assoc, Nat.add_right_comm, Nat.add_assoc]

variable (hj : j.tagBytes = jnlTagBytes j.incompat)

include hj in
/-- Every block of the log is a descriptor block of the transaction, or does not look like a control
block. -/
theorem mem_logBlocks {b : Buf} (h : b ∈ logBlocks fs j seq fuel es)
    (hmagic : be32 b 0 = jbd2Magic) : be32 b 4 = jbd2Descriptor ∧ be32 b 8 = seq := by
  induction fuel generalizing es with
  | zero => cases h
  | succ fuel ih =>
    cases es with
    | nil => cases h
    | cons e es =>
      rw [logBlocks, cons_append, mem_cons, mem_append] at h
      rcases h with rfl | h | h
      · have htaken := nextDesc_taken hj fs seq e es
        rw [be32_block _ (by omega) htaken, be32_block _ (by omega) htaken]
        exact ⟨header_type, header_seq⟩
      · obtain ⟨e', -, rfl⟩ := mem_map.mp h
        exact absurd hmagic (copy_magic e')
      · exact ih h

/-! ## Room -/

/-- A descriptor block that is not the last one is full. -/
theorem nextDesc_left (fs : Fs) (j : Journal) (seq : Word) (es : List Entry) :
    (nextDesc fs j seq es).left = [] ∨
      tagsPer fs j.tagBytes ≤ (nextDesc fs j seq es).taken.length := by
  refine (descLoop_left true es (header jbd2Descriptor seq) 12 0).imp id fun h => ?_
  have h : j.limit fs < 12 + ((nextDesc fs j seq es).taken.length + 1) * j.tagBytes + 16 := h
  have hlimit := (limit_ge fs j).1
  have hlarge := fs.large
  refine Nat.le_of_lt_succ (Nat.div_lt_of_lt_mul ?_)
  show _ < j.tagBytes * ((nextDesc fs j seq es).taken.length + 1)
  rw [Nat.mul_comm]
  omega

include hj in
theorem tagsPer_pos (fs : Fs) : 0 < tagsPer fs j.tagBytes := by
  have hlarge := fs.large
  obtain ⟨h8, -, -, h16⟩ := tagBytes_ge hj
  exact Nat.div_pos (by omega) (by omega)

include hj in
/-- The blocks of the log are the copies and not more descriptor blocks than there is room for. -/
theorem logBlocks_length (fs : Fs) (seq : Word) (fuel : Nat) (es : List Entry) :
    (logBlocks fs j seq fuel es).length ≤ es.length + descRoom fs j.tagBytes es.length := by
  have hper := tagsPer_pos hj fs
  induction fuel generalizing es with
  | zero => exact Nat.zero_le _
  | succ fuel ih =>
    rcases es with _ | ⟨e, es⟩
    · exact Nat.zero_le _
    have hlen := congrArg length (nextDesc_append fs j seq (e :: es))
    rw [length_append] at hlen
    have htaken := length_pos_iff.mpr (nextDesc_taken hj fs seq e es)
    have hrest := ih (nextDesc fs j seq (e :: es)).left
    have hdesc : descRoom fs j.tagBytes (nextDesc fs j seq (e :: es)).left.length + 1 ≤
        descRoom fs j.tagBytes (e :: es).length := by
      unfold descRoom
      rcases nextDesc_left fs j seq (e :: es) with hleft | hfull
      · rw [hleft, length_nil, Nat.zero_add, Nat.div_eq_of_lt (by omega)]
        exact Nat.div_pos (by omega) hper
      · rw [← Nat.add_div_right _ hper]
        exact Nat.div_le_div_right (by omega)
    rw [logBlocks, cons_append, length_cons, length_append, length_map]
    omega

/-! ## The transaction -/

theorem skip_of_lt {n : Nat} (h : pos + n < j.len) : j.skip n pos = pos + n := by
  induction n generalizing pos with
  | zero => rfl
  | succ n ih =>
    have hnext : j.next pos = pos + 1 := if_neg (by omega)
    rw [Journal.skip, hnext, ih (by omega)]
    omega

/-- The copies in the log are those of the entries. -/
theorem copies_tagsFor (hlen : pos + es.length ≤ j.len) (hJ : Holds J (es.map Entry.copy) pos)
    (hblk : ∀ e ∈ es, e.blk.toNat < fs.blocksCount) :
    copies fs j J seq (tagsFor fs j seq first es) pos = es.map Entry.logged := by
  induction es generalizing first pos with
  | nil => rfl
  | cons e es ih =>
    obtain ⟨hcopy, hrest⟩ := hJ
    rw [length_cons] at hlen
    rw [tagsFor, copies, hcopy, copyOf_tagOf (hblk e mem_cons_self), map_cons]
    cases es with
    | nil => rfl
    | cons e' es =>
      have hnext : j.next pos = pos + 1 := if_neg (by rw [length_cons] at hlen; omega)
      rw [hnext, ih (by omega) hrest fun e'' he'' => hblk e'' (mem_cons_of_mem e he'')]
      rfl

theorem tagsFor_length : (tagsFor fs j seq first es).length = es.length := by
  induction es generalizing first with
  | nil => rfl
  | cons e es ih => rw [tagsFor, length_cons, ih, length_cons]

include hj in
/-- **Once the commit block is in the log, so is the transaction.** -/
theorem txAt_logBlocks (hfuel : es.length ≤ fuel)
    (hlen : pos + (logBlocks fs j seq fuel es).length < j.len)
    (hJ : Holds J (logBlocks fs j seq fuel es ++ [commitBlock fs j seq now]) pos)
    (hblk : ∀ e ∈ es, e.blk.toNat < fs.blocksCount) :
    ∃ tx, TxAt fs j J seq pos tx (j.next (pos + (logBlocks fs j seq fuel es).length)) ∧
      tx.revokes = [] ∧ tx.copies = es.map Entry.logged := by
  induction fuel generalizing es pos with
  | zero =>
    obtain rfl : es = [] := length_eq_zero_iff.mp (by omega)
    exact ⟨_, .commit (ctrlAt_commitBlock hlen hJ.1), rfl, rfl⟩
  | succ fuel ih =>
    rcases es with _ | ⟨e, es⟩
    · exact ⟨_, .commit (ctrlAt_commitBlock hlen hJ.1), rfl, rfl⟩
    have happ := nextDesc_append fs j seq (e :: es)
    have htaken := length_pos_iff.mpr (nextDesc_taken hj fs seq e es)
    have hdesc : pos < j.len → J pos = (nextDesc fs j seq (e :: es)).block fs j →
        ctrlAt fs j J pos seq = _ :=
      fun h h' => ctrlAt_block hj h e es h'
    rw [logBlocks] at hlen hJ ⊢
    generalize nextDesc fs j seq (e :: es) = r at *
    have hcount := congrArg length happ
    rw [length_append, length_cons] at hcount
    rw [length_cons] at hfuel
    rw [cons_append, length_cons, length_append, length_map] at hlen ⊢
    rw [cons_append, cons_append, append_assoc] at hJ
    obtain ⟨hblock, hrest⟩ := hJ
    obtain ⟨hcopies, hrest⟩ := holds_append.mp hrest
    rw [length_map] at hrest
    have hmem : ∀ e', e' ∈ r.taken ∨ e' ∈ r.left → e' ∈ e :: es := fun e' he' => by
      rw [← happ]
      exact mem_append.mpr he'
    have hnext : j.next pos = pos + 1 := if_neg (by omega)
    obtain ⟨tx, htx, hrevokes, hcs⟩ := @ih (pos + 1 + r.taken.length) r.left (by omega) (by omega)
      hrest fun e' he' => hblk e' (hmem e' (.inr he'))
    have hskip : j.skip (tagsFor fs j seq true r.taken).length (j.next pos) =
        pos + 1 + r.taken.length := by
      rw [tagsFor_length, hnext, skip_of_lt (by omega)]
    refine ⟨_, .descriptor (hdesc (by omega) hblock) ?_, hrevokes, ?_⟩
    · rw [hskip]
      convert htx using 2
      omega
    · show copies fs j J seq (tagsFor fs j seq true r.taken) (j.next pos) ++ tx.copies = _
      rw [hnext, copies_tagsFor (by omega) hcopies fun e' he' => hblk e' (hmem e' (.inl he')), hcs,
        ← map_append, happ]

/-! ## The writes of a commit -/

/-- A device to which some writes were issued. -/
def Device.issue (d : Device) (ws : List (Nat × Buf)) : Device :=
  ⟨applyWrites d.disk ws, d.issued ++ ws⟩

theorem issue_nil : d.issue [] = d := by
  unfold Device.issue
  rw [applyWrites_nil, append_nil]

theorem issue_issue {ws vs : List (Nat × Buf)} : (d.issue ws).issue vs = d.issue (ws ++ vs) := by
  unfold Device.issue
  rw [applyWrites_append, append_assoc]

theorem write_of_lt {blk : Nat} {b : Buf} (h : blk < fs.blocksCount) :
    d.write fs blk b = some (d.issue [(blk, b)]) := by
  unfold Device.write rawWriteBlock
  rw [if_neg (by omega)]
  rfl

variable (hr : j.Readable fs)

include hr

theorem jnlWrite_of_lt (h : pos < j.len) {b : Buf} :
    d.jnlWrite fs j pos b = some (d.issue [(j.map pos, b)]) := by
  unfold Device.jnlWrite
  rw [if_neg (by have := hr.map_ne pos h; omega), write_of_lt (hr.map_lt pos h)]

theorem jnlSb_eq {start : Word} :
    d.jnlSb fs j start seq = some (d.issue [(j.map 0, sbWith j (d.disk (j.map 0)) start seq)]) := by
  have h0 : 0 < j.len := by
    have := hr.first_lt
    omega
  unfold Device.jnlSb
  rw [jnlRead_of_lt hr h0, Option.bind_some, jnlWrite_of_lt hr h0]

theorem writeBlocks_eq (h : pos + bs.length ≤ j.len) :
    writeBlocks fs j bs pos d = some (d.issue (placed j bs pos)) := by
  induction bs generalizing pos d with
  | nil => rw [writeBlocks, placed, issue_nil]
  | cons b bs ih =>
    rw [length_cons] at h
    rw [writeBlocks, jnlWrite_of_lt hr (by omega), Option.bind_some, ih (by omega), issue_issue]
    rfl

theorem logLoop_eq (h : pos + (logBlocks fs j seq fuel es).length ≤ j.len) :
    logLoop fs j seq fuel es pos d =
      some (pos + (logBlocks fs j seq fuel es).length,
        d.issue (placed j (logBlocks fs j seq fuel es) pos)) := by
  induction fuel generalizing es pos d with
  | zero =>
    rw [logLoop, logBlocks, placed, issue_nil]
    rfl
  | succ fuel ih =>
    cases es with
    | nil =>
      show _ = some (pos + 0, d.issue [])
      rw [issue_nil]
      rfl
    | cons e es =>
      rw [logBlocks] at h ⊢
      rw [logLoop]
      generalize nextDesc fs j seq (e :: es) = r at *
      have hlen : (r.block fs j :: r.taken.map Entry.copy).length = 1 + r.taken.length := by
        rw [length_cons, length_map, Nat.add_comm]
      rw [length_append, hlen] at h
      rw [writeBlocks_eq hr (by omega), Option.bind_some, ih (by omega), issue_issue,
        placed_append, length_append, hlen]
      simp only [Nat.add_assoc]

omit hr

/-- The blocks of a transaction, in place. -/
def inPlace (tr : List Entry) : List (Nat × Buf) := tr.map fun e => (e.blk.toNat, e.data)

theorem checkpoint_eq (hblk : ∀ e ∈ es, e.blk.toNat < fs.blocksCount) :
    checkpoint fs es d = some (d.issue (inPlace es)) := by
  induction es generalizing d with
  | nil => rw [checkpoint, inPlace, map_nil, issue_nil]
  | cons e es ih =>
    rw [checkpoint, write_of_lt (hblk e mem_cons_self), Option.bind_some,
      ih fun e' he' => hblk e' (mem_cons_of_mem e he'), issue_issue]
    rfl

end

end MaeroOS.Jbd2
