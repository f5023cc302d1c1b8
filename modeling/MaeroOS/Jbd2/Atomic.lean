import MaeroOS.Jbd2.Mount
import MaeroOS.Lib.System

/-!
# Commits are atomic

A power failure at any point of a commit, and then a mount. A volume is a disk together with the
number of transactions that were completed on it; it starts with a fresh journal, and what is in the
log later is what earlier transactions have left there: complete ones, and a torn one that has the
number of the next (`Stale`).

* `commit_atomic`: after the mount every block outside the journal is as before the commit, or every
  one as after it. A commit never fails for lack of room.
* `number_reused`: transaction numbers have 32 bits. A commit block that has been in the log for 2³²
  transactions closes a transaction of which only the first descriptor block was written.
-/

namespace MaeroOS.Jbd2

open Function List
open Lib (Buf Word applyWrites applyWrites_nil applyWrites_cons applyWrites_append
  applyWrites_of_notMem applyWrites_cases applyWrites_congr applyWrites_take System Run)
open Lib.Buf (be32 wbe32)

/-! ## Stale logs -/

/-- The blocks of the journal are different blocks of the file system. -/
structure Journal.Sound (fs : Fs) (j : Journal) : Prop where
  map_lt : ∀ i < j.len, j.map i < fs.blocksCount
  map_inj : ∀ i < j.len, ∀ k < j.len, j.map i = j.map k → i = k

/-- What looks like a control block in the log is a descriptor block of a torn transaction `seq`, or
belongs to one of the `n` transactions before. -/
def Stale (j : Journal) (seq : Word) (n : Nat) (J : Nat → Buf) : Prop :=
  ∀ p, j.first ≤ p → p < j.len → be32 (J p) 0 = jbd2Magic →
    (be32 (J p) 4 = jbd2Descriptor ∧ be32 (J p) 8 = seq) ∨
      ∃ k, 0 < k ∧ k ≤ n ∧ be32 (J p) 8 + BitVec.ofNat 32 k = seq

/-- A journal at rest. -/
structure Idle (fs : Fs) (ino : JournalInode) (n : Nat) (j : Journal) (disk : Disk) : Prop where
  opens : jnlOpen fs ino disk = some j
  sound : j.Sound fs
  empty : logStart j disk = 0
  stale : Stale j j.seq n (j.contents disk)

/-- A transaction: blocks of the file system, not of the journal. -/
structure Transaction (fs : Fs) (j : Journal) (tr : List Entry) : Prop where
  fits : tr.length ≤ j.hard
  blocks : ∀ e ∈ tr, e.blk.toNat < fs.blocksCount
  outside : ∀ e ∈ tr, ¬ j.Owns e.blk.toNat

section

variable {fs : Fs} {ino : JournalInode} {j : Journal} {disk disk' : Disk} {J : Nat → Buf}
  {seq now : Word}
  {n m p pos pos' : Nat} {tx : Tx} {tr : List Entry} {bs : List Buf} {ws : List (Nat × Buf)}
  {want : Disk} {txs : List Tx}

theorem first_le_next (h : j.first ≤ p) : j.first ≤ j.next p := by
  unfold Journal.next
  split <;> omega

theorem first_le_skip (h : j.first ≤ p) : j.first ≤ j.skip n p := by
  induction n generalizing p with
  | zero => exact h
  | succ n ih => exact ih (first_le_next h)

theorem ctrlAt_commit (h : ctrlAt fs j J p seq = some .commit) :
    p < j.len ∧ be32 (J p) 0 = jbd2Magic ∧ be32 (J p) 4 = jbd2Commit ∧ be32 (J p) 8 = seq := by
  unfold ctrlAt at h
  split at h
  · cases h
  next hhead =>
  push Not at hhead
  split at h
  · split at h <;> cases h
  split at h
  · next htype => exact ⟨hhead.1, hhead.2.1, htype, hhead.2.2⟩
  split at h <;> cases h

/-- In a stale log there is no complete transaction with the next number. -/
theorem Stale.no_tx (h : Stale j seq n J) (hn : n < 2 ^ 32) (htx : TxAt fs j J seq pos tx pos')
    (hpos : j.first ≤ pos) : False := by
  induction htx with
  | commit hc =>
    obtain ⟨hlt, hmagic, htype, hseq⟩ := ctrlAt_commit hc
    rcases h _ hpos hlt hmagic with ⟨hdesc, -⟩ | ⟨k, hk, hkn, hold⟩
    · exact absurd (htype.symm.trans hdesc) (by decide)
    · rw [hseq] at hold
      exact seq_add_ne seq hk (by omega) hold
  | descriptor _ _ ih => exact ih (first_le_skip (first_le_next hpos))
  | revoke _ _ ih => exact ih (first_le_next hpos)

theorem Stale.congr {J' : Nat → Buf} (h : Stale j seq n J)
    (heq : ∀ p, j.first ≤ p → p < j.len → J' p = J p) : Stale j seq n J' := by
  intro p h1 h2
  rw [heq p h1 h2]
  exact h p h1 h2

/-- The transaction is over: all there is, is older than the next one. -/
theorem Stale.succ (h : ∀ p, j.first ≤ p → p < j.len → be32 (J p) 0 = jbd2Magic →
      ∃ k ≤ n, be32 (J p) 8 + BitVec.ofNat 32 k = seq) : Stale j (seq + 1) (n + 1) J := by
  intro p h1 h2 hmagic
  obtain ⟨k, hk, hseq⟩ := h p h1 h2 hmagic
  refine .inr ⟨k + 1, Nat.succ_pos k, by omega, ?_⟩
  rw [← hseq, ← seq_succ]
  ac_rfl

/-! ## Journals at rest -/

namespace Idle

variable (h : Idle fs ino n j disk)

include h

theorem opened : Opened fs ino j := jnlOpen_opened h.opens

theorem readable : j.Readable fs :=
  { h.opened, h.sound with }

theorem zero_lt : 0 < j.len := lt_of_le_of_lt (Nat.zero_le _) h.opened.first_lt

theorem owns_zero : j.Owns (j.map 0) := ⟨0, h.zero_lt, rfl⟩

/-- The superblock is not in the log. -/
theorem map_zero_ne (h1 : j.first ≤ p) (h2 : p < j.len) : j.map 0 ≠ j.map p := by
  intro heq
  have := h.sound.map_inj 0 h.zero_lt p h2 heq
  have := h.opened.first_pos
  omega

end Idle

theorem contents_of_lt (h : p < j.len) : j.contents disk p = disk (j.map p) := if_pos h

/-- Blocks that are written to the journal are there. -/
theorem holds_placed (hs : j.Sound fs) (h : pos + bs.length ≤ j.len) :
    Holds (j.contents (applyWrites disk (placed j bs pos))) bs pos := by
  induction bs generalizing disk pos with
  | nil => trivial
  | cons b bs ih =>
    rw [length_cons] at h
    refine ⟨?_, ih (by omega)⟩
    rw [contents_of_lt (by omega), placed, applyWrites_cons, applyWrites_of_notMem, update_self]
    intro w hw heq
    obtain ⟨i, h1, h2, h3, -⟩ := mem_placed hw
    have := hs.map_inj i (by omega) pos (by omega) (h3.symm.trans heq)
    omega

/-! ## The stages of a commit -/

/-- The superblock points at the log. -/
def started (j : Journal) (disk : Disk) : Disk :=
  Function.update disk (j.map 0) (sbWith j (disk (j.map 0)) (BitVec.ofNat 32 j.first) j.seq)

/-- The log is complete. -/
def logged (fs : Fs) (j : Journal) (now : Word) (tr : List Entry) (disk : Disk) : Disk :=
  applyWrites (started j disk)
    (placed j (logBlocks fs j j.seq tr.length tr ++ [commitBlock fs j j.seq now]) j.first)

/-- The disk after the commit. -/
def after (tr : List Entry) (disk : Disk) : Disk := applyWrites disk (inPlace tr)

/-- The log is empty again. -/
def finished (fs : Fs) (j : Journal) (now : Word) (tr : List Entry) (disk : Disk) : Disk :=
  Function.update (applyWrites (logged fs j now tr disk) (inPlace tr)) (j.map 0)
    (sbWith j (started j disk (j.map 0)) 0 (j.seq + 1))

/-- All writes of a commit. -/
def commitWrites (fs : Fs) (j : Journal) (now : Word) (tr : List Entry) (disk : Disk) :
    List (Nat × Buf) :=
  (j.map 0, started j disk (j.map 0)) ::
    (placed j (logBlocks fs j j.seq tr.length tr ++ [commitBlock fs j j.seq now]) j.first ++
      (inPlace tr ++ [(j.map 0, sbWith j (started j disk (j.map 0)) 0 (j.seq + 1))]))

theorem update_started : update disk (j.map 0) (started j disk (j.map 0)) = started j disk := by
  unfold started
  rw [update_self]

variable (hi : Idle fs ino n j disk) (htr : Transaction fs j tr)

include hi htr

/-- **A transaction and its commit block have room in the log.** -/
theorem logBlocks_room :
    j.first + (logBlocks fs j j.seq tr.length tr).length < j.len := by
  have ho := hi.opened
  have hlen := logBlocks_length ho.tagBytes fs j.seq tr.length tr
  have hfits := htr.fits
  have hroom := ho.room
  have hmono : descRoom fs j.tagBytes tr.length ≤ descRoom fs j.tagBytes (j.len - j.first) :=
    Nat.div_le_div_right (by omega)
  omega

omit htr in
theorem placed_zero (h : j.first + bs.length ≤ j.len) :
    applyWrites (started j disk) (placed j bs j.first) (j.map 0) = started j disk (j.map 0) := by
  refine applyWrites_of_notMem fun w hw heq => ?_
  obtain ⟨i, h1, h2, h3, -⟩ := mem_placed hw
  exact hi.map_zero_ne h1 (by omega) (heq.symm.trans h3)

theorem logged_zero : logged fs j now tr disk (j.map 0) = started j disk (j.map 0) := by
  have hroom := logBlocks_room hi htr
  exact placed_zero hi (by rw [length_append, length_singleton]; omega)

omit hi in
/-- Blocks in place are not the journal's. -/
theorem inPlace_of_owns (hw : ∀ w ∈ ws, w ∈ inPlace tr) (h : j.Owns p) :
    applyWrites disk ws p = disk p := by
  refine applyWrites_of_notMem fun w hw' heq => ?_
  obtain ⟨e, he, rfl⟩ := mem_map.mp (hw w hw')
  subst heq
  exact htr.outside e he h

/-- **What a commit writes.** It does not fail. -/
theorem jnlCommit_eq (hne : tr ≠ []) :
    jnlCommit fs j now tr ⟨disk, []⟩ =
      some ⟨finished fs j now tr disk, commitWrites fs j now tr disk⟩ := by
  have hr := hi.readable
  have hroom := logBlocks_room hi htr
  have hsb : ((Device.mk disk []).issue
      [(j.map 0, sbWith j (disk (j.map 0)) (BitVec.ofNat 32 j.first) j.seq)]) =
      ⟨started j disk, [(j.map 0, started j disk (j.map 0))]⟩ := by
    unfold Device.issue started
    rw [applyWrites_cons, applyWrites_nil, update_self]
    rfl
  have hplaced : placed j (logBlocks fs j j.seq tr.length tr) j.first ++
      [(j.map (j.first + (logBlocks fs j j.seq tr.length tr).length), commitBlock fs j j.seq now)] =
        placed j (logBlocks fs j j.seq tr.length tr ++ [commitBlock fs j j.seq now]) j.first := by
    rw [placed_append]
    rfl
  have hzero : ∀ is, ((Device.mk (started j disk) is).issue
      (placed j (logBlocks fs j j.seq tr.length tr ++ [commitBlock fs j j.seq now]) j.first ++
        inPlace tr)).disk (j.map 0) = started j disk (j.map 0) := by
    intro is
    show applyWrites _ _ _ = _
    rw [applyWrites_append, inPlace_of_owns htr (fun _ h => h) hi.owns_zero]
    exact logged_zero hi htr
  unfold jnlCommit
  rw [if_neg (by simpa using hne), jnlSb_eq hr, hsb, Option.bind_some, logLoop_eq hr (by omega),
    Option.bind_some]
  dsimp only
  rw [jnlWrite_of_lt hr hroom, Option.bind_some, issue_issue, hplaced, checkpoint_eq htr.blocks,
    Option.bind_some, issue_issue, jnlSb_eq hr, hzero, issue_issue]
  unfold Device.issue
  simp only [applyWrites_append, applyWrites_cons, applyWrites_nil, append_assoc]
  rfl

/-! ## The disk after a power failure -/

omit hi htr

/-- The four stages at which the power may fail. -/
inductive CrashAt (fs : Fs) (j : Journal) (now : Word) (tr : List Entry) (disk : Disk) : Disk → Prop
  | before : CrashAt fs j now tr disk disk
  | logging (m : Nat) : CrashAt fs j now tr disk
      (applyWrites (started j disk) (placed j ((logBlocks fs j j.seq tr.length tr).take m) j.first))
  | checkpoint (m : Nat) :
      CrashAt fs j now tr disk (applyWrites (logged fs j now tr disk) ((inPlace tr).take m))
  | finished : CrashAt fs j now tr disk (finished fs j now tr disk)

theorem crash_of_length_le (k : Nat) (hk : (commitWrites fs j now tr disk).length ≤ k) :
    crash disk (commitWrites fs j now tr disk) k = finished fs j now tr disk := by
  unfold crash
  rw [take_of_length_le hk]
  unfold commitWrites
  rw [applyWrites_cons, update_started, applyWrites_append, applyWrites_append]
  rfl

theorem crash_cases (fs : Fs) (j : Journal) (now : Word) (tr : List Entry) (disk : Disk) (k : Nat) :
    CrashAt fs j now tr disk (crash disk (commitWrites fs j now tr disk) k) := by
  by_cases hall : (commitWrites fs j now tr disk).length ≤ k
  · rw [crash_of_length_le k hall]
    exact .finished
  cases k with
  | zero => exact .before
  | succ k =>
    unfold crash
    unfold commitWrites at hall ⊢
    rw [length_cons, length_append, placed_length, length_append, length_append,
      length_singleton, length_singleton] at hall
    rw [take_succ_cons, applyWrites_cons, update_started, take_append, placed_length, length_append,
      length_singleton, placed_take]
    by_cases hlog : k ≤ (logBlocks fs j j.seq tr.length tr).length
    · rw [take_append_of_le_length hlog, Nat.sub_eq_zero_of_le (by omega), take_zero, append_nil]
      exact .logging k
    · rw [take_of_length_le (by rw [length_append, length_singleton]; omega), applyWrites_append,
        take_append_of_le_length (by omega)]
      exact .checkpoint _

/-! ## The mount after it -/

/-- `ext2_jnl_open` and `ext2_jnl_recover`. -/
def mount (fs : Fs) (ino : JournalInode) (disk : Disk) : Option Recovery :=
  (jnlOpen fs ino disk).map fun j => jnlRecover fs j disk

/-- A mount that succeeds, and leaves the journal `j` at rest and the blocks outside it as in
`want`. -/
structure Mounted (fs : Fs) (ino : JournalInode) (n : Nat) (j : Journal) (disk want : Disk)
    (r : Recovery) : Prop where
  mount : mount fs ino disk = some r
  code : r.code = 0
  seq : r.seq = j.seq
  blocks : ∀ b, ¬ j.Owns b → r.disk b = want b
  idle : Idle fs ino n j r.disk

/-- An empty journal. -/
theorem Idle.mounted (h : Idle fs ino n j disk) (hwant : ∀ b, ¬ j.Owns b → disk b = want b) :
    Mounted fs ino n j disk want ⟨0, disk, j.seq⟩ where
  mount := by
    unfold Jbd2.mount
    rw [h.opens, Option.map_some, jnlRecover_of_empty h.readable h.empty]
  code := rfl
  seq := rfl
  blocks := hwant
  idle := h

/-- The start of the log in a superblock that points at it. -/
theorem Opened.start (h : Opened fs ino j) :
    BitVec.ofNat 32 j.first ≠ 0 ∧ (BitVec.ofNat 32 j.first).toNat = j.first := by
  have h1 := h.first_pos
  have h2 := h.first_lt
  have h3 := h.len_lt
  have heq : (BitVec.ofNat 32 j.first).toNat = j.first := by
    rw [BitVec.toNat_ofNat, Nat.mod_eq_of_lt (by omega)]
  refine ⟨fun h0 => ?_, heq⟩
  rw [h0] at heq
  exact absurd heq (by simpa using h1.ne)

theorem revokes_eq_nil (h : ∀ tx ∈ txs, tx.revokes = []) :
    rvOf seq txs = [] ∧ revokeCount txs = 0 := by
  induction txs generalizing seq with
  | nil => exact ⟨rfl, rfl⟩
  | cons tx txs ih =>
    have htx := h tx mem_cons_self
    obtain ⟨hrv, hcount⟩ := @ih (seq + 1) fun tx' htx' => h tx' (mem_cons_of_mem tx htx')
    rw [revokeCount] at hcount ⊢
    rw [rvOf, htx, hrv, map_cons, sum_cons, hcount, htx]
    exact ⟨rfl, rfl⟩

variable (hi : Idle fs ino n j disk)

include hi

section

variable {endSeq : Word} (hsb : disk' (j.map 0) = started j disk (j.map 0))
  (hlog : Log fs j (j.contents disk') j.first j.seq txs endSeq)
  (hrevokes : ∀ tx ∈ txs, tx.revokes = []) (hout : Outside j txs)

include hsb hlog hrevokes hout

/-- Recovery from a log that the superblock points at. -/
theorem mount_of_log : jnlOpen fs ino disk' = some j ∧
      mount fs ino disk' = some ⟨0, update (replayTxs [] j.seq txs disk') (j.map 0)
        (sbWith j (disk' (j.map 0)) 0 endSeq), endSeq⟩ := by
  obtain ⟨hne, hfirst⟩ := hi.opened.start
  have hsb' : disk' (j.map 0) = sbWith j (disk (j.map 0)) (BitVec.ofNat 32 j.first) j.seq := by
    rw [hsb]
    exact update_self ..
  have hstart : logStart j disk' = BitVec.ofNat 32 j.first := by
    rw [logStart, hsb', be32_sbWith_start]
  have hseq : logSeq j disk' = j.seq := by rw [logSeq, hsb', be32_sbWith_seq]
  have hopen : jnlOpen fs ino disk' = some j :=
    jnlOpen_sbWith hi.opens (by rw [← hi.opened.map_eq]; exact hsb')
  obtain ⟨hrvOf, hcount⟩ := revokes_eq_nil hrevokes
  have hrec : jnlRecover fs j disk' = _ := jnlRecover_eq hi.readable (by rw [hstart]; exact hne)
    (by rw [hstart, hfirst, hseq]; exact hlog) (by rw [hcount]; exact Nat.zero_le _) hout
  rw [hseq, hrvOf] at hrec
  refine ⟨hopen, ?_⟩
  unfold mount
  rw [hopen, Option.map_some, hrec]

/-- The journal is at rest after it. -/
theorem mounted_of_log {n' : Nat}
    (hwant : ∀ b, ¬ j.Owns b → replayTxs [] j.seq txs disk' b = want b)
    (hstale : Stale j endSeq n' (j.contents disk')) :
    ∃ r, Mounted fs ino n' { j with seq := endSeq } disk' want r := by
  have hmap := hi.opened.map_eq
  obtain ⟨hopen, hmount⟩ := mount_of_log hi hsb hlog hrevokes hout
  have hzero : ∀ b, ¬ j.Owns b → b ≠ j.map 0 := by
    rintro b hb rfl
    exact hb hi.owns_zero
  generalize hd : update (replayTxs [] j.seq txs disk') (j.map 0)
    (sbWith j (disk' (j.map 0)) 0 endSeq) = disk''
    at hmount
  have hd0 : disk'' (j.map 0) = sbWith j (disk' (j.map 0)) 0 endSeq := by
    rw [← hd, update_self]
  refine ⟨⟨0, disk'', endSeq⟩, hmount, rfl, rfl, fun b hb => ?_, ?_⟩
  · show disk'' b = want b
    rw [← hwant b hb, ← hd, update_of_ne (hzero b hb)]
  · refine ⟨jnlOpen_sbWith hopen (by rw [← hmap]; exact hd0),
      ⟨hi.sound.map_lt, hi.sound.map_inj⟩, ?_, ?_⟩
    · show be32 (disk'' (j.map 0)) 0x1C = 0
      rw [hd0, be32_sbWith_start]
    · -- the log itself is as it was
      show Stale j endSeq n' (j.contents disk'')
      refine hstale.congr fun p h1 h2 => ?_
      rw [contents_of_lt h2, contents_of_lt h2, ← hd, update_of_ne (hi.map_zero_ne h1 h2).symm,
        replayTxs_apply_of_outside hout ⟨p, h2, rfl⟩]

end

/-- Blocks outside the journal are as before until they are written in place. -/
theorem applyWrites_placed_of_not_owns (h : j.first + bs.length ≤ j.len) {b : Nat}
    (hb : ¬ j.Owns b) : applyWrites (started j disk) (placed j bs j.first) b = disk b := by
  rw [applyWrites_of_notMem]
  · refine update_of_ne ?_ _ _
    rintro rfl
    exact hb hi.owns_zero
  · intro w hw heq
    obtain ⟨i, h1, h2, h3, -⟩ := mem_placed hw
    exact hb ⟨i, by omega, h3.symm.trans heq⟩

/-- A block of the log has what it had, or is one of those that were written. -/
theorem contents_placed (h1 : j.first ≤ p) (h2 : p < j.len) :
    j.contents (applyWrites (started j disk) (placed j bs j.first)) p = j.contents disk p ∨
      j.contents (applyWrites (started j disk) (placed j bs j.first)) p ∈ bs := by
  rw [contents_of_lt h2, contents_of_lt h2]
  rcases applyWrites_cases (started j disk) (placed j bs j.first) (j.map p) with heq
    | ⟨w, hw, -, heq⟩
  · exact .inl (heq.trans (update_of_ne (hi.map_zero_ne h1 h2).symm _ _))
  · obtain ⟨-, -, -, -, hmem⟩ := mem_placed hw
    exact .inr (heq ▸ hmem)

/-- Blocks that are written to the log, none of them a commit block, leave it stale. -/
theorem Idle.stale_placed
    (hbs : ∀ b ∈ bs, be32 b 0 = jbd2Magic → be32 b 4 = jbd2Descriptor ∧ be32 b 8 = j.seq) :
    Stale j j.seq n (j.contents (applyWrites (started j disk) (placed j bs j.first))) := by
  intro p h1 h2 hmagic
  rcases contents_placed hi h1 h2 with heq | hmem
  · rw [heq] at hmagic ⊢
    exact hi.stale p h1 h2 hmagic
  · exact .inl (hbs _ hmem hmagic)

/-- Everything in a complete log has the number of this transaction or an earlier one. -/
theorem Idle.stale_logged : Stale j (j.seq + 1) (n + 1) (j.contents (logged fs j now tr disk)) := by
  apply Stale.succ
  intro p h1 h2 hmagic
  have hsame : ∀ {b : Buf}, be32 b 8 = j.seq → ∃ k ≤ n, be32 b 8 + BitVec.ofNat 32 k = j.seq :=
    fun hb =>
    ⟨0, Nat.zero_le _, by rw [hb]; simp⟩
  rcases contents_placed hi h1 h2 with heq | hmem
  · rw [logged, heq] at hmagic ⊢
    rcases hi.stale p h1 h2 hmagic with ⟨-, hseq⟩ | ⟨k, -, hk, hseq⟩
    · exact hsame hseq
    · exact ⟨k, hk, hseq⟩
  · rcases mem_append.mp hmem with hmem | hmem
    · exact hsame (mem_logBlocks hi.opened.tagBytes hmem hmagic).2
    · refine hsame ?_
      rw [logged, mem_singleton.mp hmem, be32_commitBlock (by omega), header_seq]

variable (htr : Transaction fs j tr)

include htr

/-- **The power fails before the commit block is written**: nothing has happened. -/
theorem mounted_logging (hn : n < 2 ^ 32) (m : Nat) :
    ∃ r, Mounted fs ino n j
      (applyWrites (started j disk) (placed j ((logBlocks fs j j.seq tr.length tr).take m) j.first))
        disk r := by
  have hroom := logBlocks_room hi htr
  have hlen : j.first + ((logBlocks fs j j.seq tr.length tr).take m).length ≤ j.len := by
    rw [length_take]
    omega
  have hstale := hi.stale_placed fun b (hb : b ∈ (logBlocks fs j j.seq tr.length tr).take m) =>
    mem_logBlocks hi.opened.tagBytes (mem_of_mem_take hb)
  have hlog : Log fs j (j.contents (applyWrites (started j disk)
      (placed j ((logBlocks fs j j.seq tr.length tr).take m) j.first))) j.first j.seq [] j.seq :=
    ⟨_, .nil, fun tx pos' htx => hstale.no_tx hn htx le_rfl⟩
  exact mounted_of_log hi (placed_zero hi hlen) hlog nofun nofun
    (fun b hb => applyWrites_placed_of_not_owns hi hlen hb) hstale

omit htr in
omit hi in
/-- Replaying the transaction is writing it in place. -/
theorem foldl_writeCopy_logged (tr : List Entry) (disk : Disk) :
    (tr.map Entry.logged).foldl (writeCopy [] seq) disk = applyWrites disk (inPlace tr) := by
  induction tr generalizing disk with
  | nil => rfl
  | cons e tr ih =>
    rw [map_cons, foldl_cons, ih]
    rfl

/-- **The power fails after the commit block is written**: the log is replayed. -/
theorem mounted_checkpoint (hn : n + 1 < 2 ^ 32) (m : Nat) :
    ∃ r, Mounted fs ino (n + 1) { j with seq := j.seq + 1 }
      (applyWrites (logged fs j now tr disk) ((inPlace tr).take m)) (after tr disk) r := by
  set disk₁ := logged fs j now tr disk
  have hroom := logBlocks_room hi htr
  have hlen : j.first + (logBlocks fs j j.seq tr.length tr ++ [commitBlock fs j j.seq now]).length ≤
      j.len := by
    rw [length_append, length_singleton]
    omega
  have htake : ∀ {b}, j.Owns b →
      applyWrites disk₁ ((inPlace tr).take m) b = disk₁ b := fun hb =>
    inPlace_of_owns htr (fun _ hw => mem_of_mem_take hw) hb
  have hcontents : j.contents (applyWrites disk₁ ((inPlace tr).take m)) =
      j.contents disk₁ := by
    funext p
    unfold Journal.contents
    split
    · next hp => exact htake ⟨p, hp, rfl⟩
    · rfl
  have hstale : Stale j (j.seq + 1) (n + 1) (j.contents disk₁) := hi.stale_logged
  obtain ⟨tx, htx, hrevokes, hcopies⟩ := txAt_logBlocks hi.opened.tagBytes le_rfl hroom
    (holds_placed hi.sound hlen) htr.blocks
  have hlog : Log fs j (j.contents disk₁) j.first j.seq [tx] (j.seq + 1) :=
    ⟨_, .cons htx .nil, fun tx' pos' htx' => hstale.no_tx hn htx' (first_le_next (by omega))⟩
  rw [← hcontents] at hstale hlog
  refine mounted_of_log hi ?_ hlog ?_ ?_ (fun b hb => ?_) hstale
  · rw [htake hi.owns_zero]
    exact logged_zero hi htr
  · intro tx' htx'
    rw [mem_singleton.mp htx']
    exact hrevokes
  · intro tx' htx' c hc _
    rw [mem_singleton.mp htx', hcopies] at hc
    obtain ⟨e, he, rfl⟩ := mem_map.mp hc
    exact htr.outside e he
  · show (tx.copies.foldl (writeCopy [] j.seq) _) b = after tr disk b
    rw [hcopies, foldl_writeCopy_logged, applyWrites_take]
    exact applyWrites_congr (.inl (applyWrites_placed_of_not_owns hi hlen hb))

/-- The commit is over. -/
theorem idle_finished : Idle fs ino (n + 1) { j with seq := j.seq + 1 }
    (finished fs j now tr disk) := by
  have hmap := hi.opened.map_eq
  have hzero : finished fs j now tr disk (j.map 0) = sbWith j (started j disk (j.map 0)) 0
      (j.seq + 1) :=
    update_self ..
  have hstart : started j disk (j.map 0) =
      sbWith j (disk (j.map 0)) (BitVec.ofNat 32 j.first) j.seq :=
    update_self ..
  have hopen : jnlOpen fs ino (started j disk) = some j :=
    jnlOpen_sbWith hi.opens (by rw [← hmap]; exact hstart)
  refine ⟨jnlOpen_sbWith hopen (by rw [← hmap]; exact hzero),
    ⟨hi.sound.map_lt, hi.sound.map_inj⟩, ?_, ?_⟩
  · show be32 (finished fs j now tr disk (j.map 0)) 0x1C = 0
    rw [hzero, be32_sbWith_start]
  · show Stale j (j.seq + 1) (n + 1) (j.contents (finished fs j now tr disk))
    have hlogged : Stale j (j.seq + 1) (n + 1) (j.contents (logged fs j now tr disk)) :=
      hi.stale_logged
    refine hlogged.congr fun p h1 h2 => ?_
    rw [contents_of_lt h2, contents_of_lt h2, finished, update_of_ne (hi.map_zero_ne h1 h2).symm,
      inPlace_of_owns htr (fun _ h => h) ⟨p, h2, rfl⟩]

theorem finished_of_not_owns {b : Nat} (hb : ¬ j.Owns b) :
    finished fs j now tr disk b = after tr disk b := by
  have hroom := logBlocks_room hi htr
  have hne : b ≠ j.map 0 := by
    rintro rfl
    exact hb hi.owns_zero
  rw [finished, update_of_ne hne]
  refine applyWrites_congr (.inl (applyWrites_placed_of_not_owns hi ?_ hb))
  rw [length_append, length_singleton]
  omega

/-- **The mount after a power failure** finds the old state or the new one. -/
theorem mounted_crash (hn : n + 1 < 2 ^ 32) (hc : CrashAt fs j now tr disk disk') :
    (∃ r, Mounted fs ino n j disk' disk r) ∨
      ∃ r, Mounted fs ino (n + 1) { j with seq := j.seq + 1 } disk' (after tr disk) r := by
  cases hc with
  | before => exact .inl ⟨_, hi.mounted fun _ _ => rfl⟩
  | logging m => exact .inl (mounted_logging hi htr (by omega) m)
  | checkpoint m => exact .inr (mounted_checkpoint hi htr hn m)
  | finished => exact .inr ⟨_, (idle_finished hi htr).mounted fun b hb =>
      finished_of_not_owns hi htr hb⟩

end

/-! ## Volumes -/

/-- A disk with a journal, and how many transactions were completed on it. -/
structure Volume where
  disk : Disk
  done : Nat

inductive Event
  /-- A block that is not of the journal is written: file data. -/
  | write (blk : Nat) (b : Buf)
  | commit (now : Word) (tr : List Entry)
  /-- The power fails after `k` writes of a commit, and the volume is mounted again. -/
  | crash (now : Word) (tr : List Entry) (k : Nat)

/-- No block of the log looks like a control block. -/
def Fresh (j : Journal) (disk : Disk) : Prop :=
  ∀ p, j.first ≤ p → p < j.len → be32 (j.contents disk p) 0 ≠ jbd2Magic

/-- A step of the driver. A transaction that the mount has found complete, or that is committed, is
done. -/
def jnlStep (fs : Fs) (ino : JournalInode) (s : Volume) (e : Event) (s' : Volume) : Prop :=
  ∃ j, jnlOpen fs ino s.disk = some j ∧
    match e with
    | .write blk b => ¬ j.Owns blk ∧ s' = { s with disk := Function.update s.disk blk b }
    | .commit now tr => Transaction fs j tr ∧ ∃ d, jnlCommit fs j now tr ⟨s.disk, []⟩ = some d ∧
        s' = ⟨d.disk, if tr.isEmpty then s.done else s.done + 1⟩
    | .crash now tr k => Transaction fs j tr ∧ ∃ d r, jnlCommit fs j now tr ⟨s.disk, []⟩ = some d ∧
        mount fs ino (crash s.disk d.issued k) = some r ∧ r.code = 0 ∧
        s' = ⟨r.disk, if r.seq = j.seq then s.done else s.done + 1⟩

/-- The driver on a volume with a fresh journal. -/
def jnlSystem (fs : Fs) (ino : JournalInode) : System Volume Event where
  init s :=
    s.done = 0 ∧ ∃ j, jnlOpen fs ino s.disk = some j ∧ j.Sound fs ∧ logStart j s.disk = 0 ∧
      Fresh j s.disk
  step := jnlStep fs ino

section

variable {fs : Fs} {ino : JournalInode} {j : Journal} {disk : Disk} {n : Nat} {tr : List Entry}
  {s s' : Volume} {e : Event} {h : List Event}

theorem Idle.write (hi : Idle fs ino n j disk) {blk : Nat} (hblk : ¬ j.Owns blk) (b : Buf) :
    Idle fs ino n j (update disk blk b) := by
  have hsame : ∀ p < j.len, update disk blk b (j.map p) = disk (j.map p) := fun p hp =>
    update_of_ne (fun heq => hblk ⟨p, hp, heq⟩) _ _
  have hzero := hsame 0 hi.zero_lt
  refine ⟨?_, hi.sound, ?_, hi.stale.congr fun p _ h2 => ?_⟩
  · rw [hi.opened.map_eq] at hzero
    exact (jnlOpen_congr hzero).trans hi.opens
  · rw [← hi.empty, logStart, hzero]
    rfl
  · rw [contents_of_lt h2, contents_of_lt h2, hsame p h2]

/-- A commit, and where the power may fail in it. -/
theorem Idle.commit (hi : Idle fs ino n j disk) (htr : Transaction fs j tr) (now : Word) :
    ∃ d, jnlCommit fs j now tr ⟨disk, []⟩ = some d ∧ d.disk = applyWrites disk d.issued ∧
      (∀ k, CrashAt fs j now tr disk (crash disk d.issued k)) ∧
      (tr ≠ [] → d.disk = finished fs j now tr disk) ∧ (tr = [] → d = ⟨disk, []⟩) := by
  by_cases hne : tr = []
  · subst hne
    refine ⟨⟨disk, []⟩, rfl, rfl, fun k => ?_, fun h => absurd rfl h, fun _ => rfl⟩
    rw [crash, take_nil, applyWrites_nil]
    exact .before
  · refine ⟨_, jnlCommit_eq hi htr hne, ?_, crash_cases fs j now tr disk, fun _ => rfl, fun h =>
      absurd h hne⟩
    rw [← crash_of_length_le _ le_rfl, crash, take_length]

/-- What is left in the log is stale, as long as numbers are not used again. -/
theorem Run.idle (hrun : Run (jnlSystem fs ino) h s) : s.done + 1 < 2 ^ 32 →
    ∃ j, Idle fs ino s.done j s.disk := by
  refine hrun.invariant (P := fun s => s.done + 1 < 2 ^ 32 → ∃ j, Idle fs ino s.done j s.disk) ?_ ?_
  · rintro s ⟨hdone, j, hopen, hsound, hempty, hfresh⟩ -
    exact ⟨j, hopen, hsound, hempty, fun p h1 h2 hmagic => absurd hmagic (hfresh p h1 h2)⟩
  · rintro s e s' ih ⟨j, hopen, hstep⟩ hdone
    -- the journal of a state that is idle is the one that was opened
    have hidle : s.done + 1 < 2 ^ 32 → Idle fs ino s.done j s.disk := by
      intro hlt
      obtain ⟨j', hi⟩ := ih hlt
      cases hi.opens.symm.trans hopen
      exact hi
    cases e with
    | write blk b =>
      obtain ⟨hblk, rfl⟩ := hstep
      exact ⟨j, (hidle hdone).write hblk b⟩
    | commit now tr =>
      obtain ⟨htr, d, hd, rfl⟩ := hstep
      have hi := hidle (by dsimp only at hdone; split at hdone <;> omega)
      obtain ⟨d', hd', -, -, hfin, hnil⟩ := hi.commit htr now
      cases hd.symm.trans hd'
      by_cases hne : tr = []
      · subst hne
        rw [hnil rfl]
        exact ⟨j, hi⟩
      · have hempty : tr.isEmpty = false := by simpa using hne
        refine ⟨{ j with seq := j.seq + 1 }, ?_⟩
        rw [hempty, hfin hne]
        exact idle_finished hi htr
    | crash now tr k =>
      obtain ⟨htr, d, r, hd, hr, -, rfl⟩ := hstep
      have hi := hidle (by dsimp only at hdone; split at hdone <;> omega)
      obtain ⟨d', hd', -, hcrash, -⟩ := hi.commit htr now
      cases hd.symm.trans hd'
      rcases mounted_crash hi htr (by dsimp only at hdone; split at hdone <;> omega)
        (hcrash k) with ⟨r', hm⟩ | ⟨r', hm⟩
      · cases hr.symm.trans hm.mount
        refine ⟨j, ?_⟩
        rw [if_pos hm.seq]
        exact hm.idle
      · cases hr.symm.trans hm.mount
        refine ⟨{ j with seq := j.seq + 1 }, ?_⟩
        have hne : r.seq ≠ j.seq := by
          rw [hm.seq]
          exact seq_add_ne j.seq Nat.one_pos (by decide)
        show Idle fs ino (if r.seq = j.seq then s.done else s.done + 1) _ r.disk
        rw [if_neg hne]
        exact hm.idle

/-- **Commits are atomic.** On a volume on which fewer than 2³² − 1 transactions were completed, a
transaction of blocks outside the journal is committed. Wherever the power fails, the volume can be
mounted, and then all blocks outside the journal are as before or all are as after the commit; once
it is over, as after it. -/
theorem commit_atomic (hrun : Run (jnlSystem fs ino) h s) (hdone : s.done + 1 < 2 ^ 32)
    (hopen : jnlOpen fs ino s.disk = some j) (htr : Transaction fs j tr) (now : Word) :
    ∃ d, jnlCommit fs j now tr ⟨s.disk, []⟩ = some d ∧ d.disk = applyWrites s.disk d.issued ∧
      ∀ k, ∃ r, mount fs ino (crash s.disk d.issued k) = some r ∧ r.code = 0 ∧
        ((∀ b, ¬ j.Owns b → r.disk b = s.disk b) ∨
          (∀ b, ¬ j.Owns b → r.disk b = after tr s.disk b)) ∧
        (d.issued.length ≤ k → ∀ b, ¬ j.Owns b → r.disk b = after tr s.disk b) := by
  obtain ⟨j', hi⟩ := Run.idle hrun hdone
  cases hi.opens.symm.trans hopen
  obtain ⟨d, hd, hdisk, hcrash, hfin, hnil⟩ := hi.commit htr now
  refine ⟨d, hd, hdisk, fun k => ?_⟩
  by_cases hall : d.issued.length ≤ k
  · -- the commit is over
    have hover : crash s.disk d.issued k = d.disk := by
      rw [crash, take_of_length_le hall, hdisk]
    rw [hover]
    by_cases hne : tr = []
    · rw [hnil hne, hne]
      have hm : Mounted fs ino s.done j s.disk s.disk _ := hi.mounted fun _ _ => rfl
      exact ⟨_, hm.mount, rfl, .inl hm.blocks, fun _ => hm.blocks⟩
    · rw [hfin hne]
      have hm : Mounted fs ino _ _ (finished fs j now tr s.disk) (after tr s.disk) _ :=
        (idle_finished hi htr).mounted fun b hb => finished_of_not_owns hi htr hb
      exact ⟨_, hm.mount, rfl, .inr hm.blocks, fun _ => hm.blocks⟩
  · rcases mounted_crash hi htr hdone (hcrash k) with ⟨r, hm⟩ | ⟨r, hm⟩
    · exact ⟨r, hm.mount, hm.code, .inl hm.blocks, fun h => absurd h hall⟩
    · exact ⟨r, hm.mount, hm.code, .inr hm.blocks, fun h => absurd h hall⟩

end

/-! ## A number that is used again -/

/-- A journal of 64 blocks, from block 10 on, without features. -/
def volumeSb : Buf :=
  wbe32 (wbe32 (wbe32 (wbe32 (wbe32 (wbe32 (fun _ => 0) 0 jbd2Magic) 4 jbd2SbV1) 0x0C 1024) 0x10 64)
    0x14 1) 0x18 1

def volumeIno : JournalInode := ⟨65536, (· + 10)⟩

def volumeDisk : Disk := fun b => if b = 10 then volumeSb else fun _ => 0

def volumeJournal (seq : Word) : Journal where
  len := 64
  first := 1
  seq := seq
  map := (· + 10)
  compat := 0
  incompat := 0
  seed := crc32c (BitVec.allOnes 32) (uuidOf volumeSb) 16
  uuid := uuidOf volumeSb
  tagBytes := 8
  csum := false
  cap := 29
  hard := 58

theorem volume_opens : jnlOpen sampleFs volumeIno volumeDisk = some (volumeJournal 1) := rfl

section

variable {seq now : Word} {b n m : Nat} {disk : Disk} {h : List Event}

theorem volume_owns : (volumeJournal seq).Owns b ↔ 10 ≤ b ∧ b < 74 := by
  constructor
  · rintro ⟨i, hi, rfl⟩
    have hi : i < 64 := hi
    show 10 ≤ i + 10 ∧ i + 10 < 74
    omega
  · intro hb
    exact ⟨b - 10, show b - 10 < 64 by omega, show b - 10 + 10 = b by omega⟩

theorem volume_init : (jnlSystem sampleFs volumeIno).init ⟨volumeDisk, 0⟩ := by
  refine ⟨rfl, volumeJournal 1, volume_opens, ⟨?_, ?_⟩, by decide +kernel, ?_⟩
  · intro i hi
    have hi : i < 64 := hi
    show i + 10 < 200
    omega
  · intro i _ k _ heq
    exact Nat.add_right_cancel heq
  · intro p h1 h2
    have h1 : 1 ≤ p := h1
    have hzero : (volumeJournal 1).contents volumeDisk p = fun _ => 0 := by
      rw [contents_of_lt h2]
      exact if_neg (show p + 10 ≠ 10 by omega)
    rw [hzero]
    decide

/-- Transactions of blocks behind the journal. -/
theorem volume_transaction {tr : List Entry} (hlen : tr.length ≤ 58)
    (hblk : ∀ e ∈ tr, 74 ≤ e.blk.toNat ∧ e.blk.toNat < 200) :
    Transaction sampleFs (volumeJournal seq) tr := by
  refine ⟨hlen, fun e he => (hblk e he).2, fun e he howns => ?_⟩
  have := hblk e he
  rw [volume_owns] at howns
  omega

/-- A commit to the fresh volume; the first block begins like a control block. -/
theorem commit_atomic_escaped :
    ∃ d, jnlCommit sampleFs (volumeJournal 1) 0 [⟨100, volumeSb⟩, ⟨101, fun _ => 9⟩]
      ⟨volumeDisk, []⟩ = some d ∧
      ∀ k, ∃ r, mount sampleFs volumeIno (crash volumeDisk d.issued k) = some r ∧ r.code = 0 ∧
        (d.issued.length ≤ k → r.disk 101 = fun _ => 9) := by
  have htr : Transaction sampleFs (volumeJournal 1) [⟨100, volumeSb⟩, ⟨101, fun _ => 9⟩] :=
    volume_transaction (by decide) (by simp)
  obtain ⟨d, hd, -, hall⟩ := commit_atomic (.init volume_init) (by decide) volume_opens htr 0
  refine ⟨d, hd, fun k => ?_⟩
  obtain ⟨r, hr, hcode, -, hover⟩ := hall k
  refine ⟨r, hr, hcode, fun hk => ?_⟩
  rw [hover hk 101 (by rw [volume_owns]; decide)]
  rfl

/-- Two blocks, with commit block at position 4 of the journal, and one block, with commit block at
position 3. -/
def twoBlocks (d : Buf) : List Entry := [⟨100, d⟩, ⟨101, d⟩]

def oneBlock : List Entry := [⟨103, fun _ => 0⟩]

theorem twoBlocks_transaction (d : Buf) : Transaction sampleFs (volumeJournal seq) (twoBlocks d) :=
  volume_transaction (Nat.le_add_left 2 56) (by simp [twoBlocks])

theorem oneBlock_transaction : Transaction sampleFs (volumeJournal seq) oneBlock :=
  volume_transaction (by decide) (by simp [oneBlock])

/-- The journal of the fresh volume. -/
abbrev freshJnl : Journal := volumeJournal 1

abbrev nines : List Entry := twoBlocks fun _ => 9

/-- A commit is a step. -/
theorem Idle.step {fs : Fs} {ino : JournalInode} {j : Journal} {tr : List Entry}
    (hi : Idle fs ino n j disk)
    (htr : Transaction fs j tr) (hne : tr ≠ []) (hrun : Run (jnlSystem fs ino) h ⟨disk, n⟩) :
    Run (jnlSystem fs ino) (.commit now tr :: h) ⟨finished fs j now tr disk, n + 1⟩ := by
  refine .step hrun ⟨j, hi.opens, htr, _, jnlCommit_eq hi htr hne, ?_⟩
  have hempty : tr.isEmpty = false := by simpa using hne
  rw [hempty]
  rfl

/-- A transaction of two blocks and then `m` of one block. -/
theorem volume_run (m : Nat) : ∃ disk h, Run (jnlSystem sampleFs volumeIno) h ⟨disk, m + 1⟩ ∧
    Idle sampleFs volumeIno (m + 1) (volumeJournal (2 + BitVec.ofNat 32 m)) disk ∧
    disk 14 = commitBlock sampleFs freshJnl 1 0 ∧ disk 15 = volumeDisk 15 ∧
      disk 101 = (fun _ => 7) ∧
    (0 < m → disk 13 = commitBlock sampleFs freshJnl (1 + BitVec.ofNat 32 m) 0) := by
  induction m with
  | zero =>
    obtain ⟨j, hi⟩ := Run.idle (.init volume_init) (by decide)
    cases hi.opens.symm.trans volume_opens
    exact ⟨_, _, hi.step (twoBlocks_transaction _) (cons_ne_nil _ _) (.init volume_init),
      idle_finished hi (twoBlocks_transaction _), rfl, rfl, rfl, fun h => absurd h (lt_irrefl 0)⟩
  | succ m ih =>
    obtain ⟨disk, h, hrun, hi, h14, h15, h101, -⟩ := ih
    have hseq : (2 : Word) + BitVec.ofNat 32 m + 1 = 2 + BitVec.ofNat 32 (m + 1) := by
      rw [← seq_succ]
      ac_rfl
    have hlast : (1 : Word) + BitVec.ofNat 32 (m + 1) = 2 + BitVec.ofNat 32 m := (seq_succ 1 m).symm
    refine ⟨_, .commit 0 oneBlock :: h, hi.step oneBlock_transaction (cons_ne_nil _ _) hrun, ?_,
      h14, h15, h101, fun _ => ?_⟩
    · rw [← hseq]
      exact idle_finished hi oneBlock_transaction
    · rw [hlast]
      rfl

/-- A copy is replayed whatever it is, where copies have no checksums. -/
theorem copyOf_unchecked {first last : Bool} (e : Entry) {d : Buf} (hblk : e.blk.toNat < 200)
    (hdata : be32 e.data 0 ≠ jbd2Magic) :
    copyOf sampleFs (volumeJournal seq) seq (tagOf sampleFs (volumeJournal seq) seq first last e)
      d = ⟨e.blk, true, d⟩ := by
  have hvalid : (copyOf sampleFs (volumeJournal seq) seq
      (tagOf sampleFs (volumeJournal seq) seq first last e) d).valid = true :=
    decide_eq_true ⟨rfl, hblk, nofun⟩
  have hkept : (copyOf sampleFs (volumeJournal seq) seq
      (tagOf sampleFs (volumeJournal seq) seq first last e) d).data = d := by
    unfold copyOf
    rw [tagOf_flags.2.2, decide_eq_false hdata]
    rfl
  exact congrArg₂ (Copy.mk e.blk) hvalid hkept

/-- The log of the two blocks, with the first descriptor block written and an old commit block
behind the copies. -/
theorem reused_log {J : Nat → Buf} (h1 : J 1 = (nextDesc sampleFs freshJnl 1 nines).block sampleFs
      freshJnl) (h4 : J 4 = commitBlock sampleFs freshJnl 1 0) (h5 : J 5 = fun _ => 0) :
    ∃ ctrl, Log sampleFs freshJnl J 1 1 [⟨[⟨100, true, J 2⟩, ⟨101, true, J 3⟩], [], ctrl⟩] 2 := by
  have hdesc : ctrlAt sampleFs freshJnl J 1 1 = some (.descriptor (tagsFor sampleFs freshJnl 1 true
      (nextDesc sampleFs freshJnl 1 nines).taken)) :=
    ctrlAt_block rfl (by decide) ⟨100, fun _ => 9⟩ [⟨101, fun _ => 9⟩] h1
  have hcommit : ctrlAt sampleFs freshJnl J 4 1 = some .commit := ctrlAt_commitBlock (by decide) h4
  have hnone : ctrlAt sampleFs freshJnl J 5 2 = none := by
    unfold ctrlAt
    rw [h5]
    exact if_pos (.inr (.inl (by decide)))
  have htaken : (nextDesc sampleFs freshJnl 1 nines).taken = twoBlocks fun _ => 9 := rfl
  rw [htaken] at hdesc
  have hskip : freshJnl.skip (tagsFor sampleFs freshJnl 1 true nines).length
      (freshJnl.next 1) = 4 := by
    rw [tagsFor_length]
    rfl
  have hcopies : copies sampleFs freshJnl J 1 (tagsFor sampleFs freshJnl 1 true nines)
      (freshJnl.next 1) = [⟨100, true, J 2⟩, ⟨101, true, J 3⟩] := by
    simp only [twoBlocks, tagsFor, copies]
    rw [copyOf_unchecked ⟨100, fun _ => 9⟩ (by decide) (by decide),
      copyOf_unchecked ⟨101, fun _ => 9⟩ (by decide) (by decide)]
    rfl
  have htx := TxAt.descriptor hdesc (by rw [hskip]; exact .commit hcommit)
  rw [hcopies] at htx
  refine ⟨_, _, .cons htx .nil, fun tx pos' h => ?_⟩
  cases h with
  | commit hc | descriptor hc | revoke hc => cases hnone.symm.trans hc

/-- **A transaction number is used again.** The commit block of the first transaction is still at
position 4 of the journal when, 2³² transactions later, its number comes round. The power fails when
only the first descriptor block of the new transaction has been written. The mount takes the old
commit block for its end, and writes the commit block of the transaction before to block 101. -/
theorem number_reused :
    ∃ (h : List Event) (s : Volume) (j : Journal) (tr : List Entry) (d : Device) (r : Recovery),
    Run (jnlSystem sampleFs volumeIno) h s ∧ s.done = 2 ^ 32 ∧
      jnlOpen sampleFs volumeIno s.disk = some j ∧
      Transaction sampleFs j tr ∧ jnlCommit sampleFs j 0 tr ⟨s.disk, []⟩ = some d ∧
      mount sampleFs volumeIno (crash s.disk d.issued 2) = some r ∧ r.code = 0 ∧
      ¬ j.Owns 101 ∧ r.disk 101 ≠ s.disk 101 ∧ r.disk 101 ≠ after tr s.disk 101 := by
  obtain ⟨disk, h, hrun, hi, h14, h15, h101, h13⟩ := volume_run (2 ^ 32 - 1)
  have hseq : (2 : Word) + BitVec.ofNat 32 (2 ^ 32 - 1) = 1 := by decide
  have hlast : (1 : Word) + BitVec.ofNat 32 (2 ^ 32 - 1) = 0 := by decide
  rw [hseq] at hi
  replace h13 := h13 (by decide)
  rw [hlast] at h13
  have htr : Transaction sampleFs freshJnl nines := twoBlocks_transaction _
  -- the disk after two writes
  have hcrash : crash disk (commitWrites sampleFs freshJnl 0 nines disk) 2 =
      update (started freshJnl disk) 11
        ((nextDesc sampleFs freshJnl 1 nines).block sampleFs freshJnl) := by
    rw [← update_started]
    rfl
  generalize hd : update (started freshJnl disk) 11
    ((nextDesc sampleFs freshJnl 1 nines).block sampleFs freshJnl) = disk' at hcrash
  have hsame : ∀ b, b ≠ 10 → b ≠ 11 → disk' b = disk b := by
    intro b h10 h11
    rw [← hd, update_of_ne h11]
    exact update_of_ne h10 _ _
  have hsb : disk' 10 = started freshJnl disk 10 := by
    rw [← hd]
    exact update_of_ne (by decide) _ _
  obtain ⟨ctrl, hlog⟩ := reused_log (J := freshJnl.contents disk') (by rw [← hd]; rfl)
    ((hsame 14 (by decide) (by decide)).trans h14) ((hsame 15 (by decide) (by decide)).trans h15)
  have hout : Outside freshJnl [⟨[⟨100, true, freshJnl.contents disk' 2⟩,
      ⟨101, true, freshJnl.contents disk' 3⟩], [], ctrl⟩] := by
    intro tx htx c hc _ howns
    rw [mem_singleton.mp htx] at hc
    rw [volume_owns] at howns
    rcases mem_pair.mp hc with rfl | rfl
    · simp at howns
    · simp at howns
  obtain ⟨-, hmount⟩ := mount_of_log hi hsb hlog (by simp) hout
  have hblock : update (replayTxs [] 1 [⟨[⟨100, true, freshJnl.contents disk' 2⟩,
      ⟨101, true, freshJnl.contents disk' 3⟩], [], ctrl⟩] disk') 10
        (sbWith freshJnl (disk' 10) 0 2) 101 = commitBlock sampleFs freshJnl 0 0 := by
    rw [← h13, ← hsame 13 (by decide) (by decide)]
    rfl
  refine ⟨h, ⟨disk, _⟩, _, _, _, _, hrun, rfl, hi.opens, htr, jnlCommit_eq hi htr (cons_ne_nil _ _),
    (congrArg _ hcrash).trans hmount, rfl, ?_, ?_, ?_⟩
  · rw [volume_owns]
    decide
  · intro heq
    have heq := congrFun (hblock.symm.trans (heq.trans h101)) 0
    revert heq
    decide
  · intro heq
    have hnew : after nines disk 101 = fun _ => 9 := rfl
    have heq := congrFun (hblock.symm.trans (heq.trans hnew)) 0
    revert heq
    decide

end

end MaeroOS.Jbd2
