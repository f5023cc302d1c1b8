import Mathlib.Algebra.Ring.Nat
import Mathlib.Data.List.Nodup
import Mathlib.Data.List.Perm.Subperm
import Mathlib.Order.Nat
import MaeroOS.Jbd2.Basic

/-!
# What a log says

The contents of a log, without the walk that reads it. Seen from a position and a transaction
number, a block of the journal is a control block (`ctrlAt`) or nothing. A transaction (`TxAt`) is a
sequence of descriptor and revoke blocks that ends with a valid commit block, and the log (`Log`)
consists of as many transactions with consecutive numbers as there are.

The control blocks of a log are all different: within a transaction the walk would otherwise go
round for ever, and different transactions have different numbers (`Txs.ctrl_nodup`). So there are
at most as many as the journal has blocks, and every log has an end (`exists_log`).
-/

namespace MaeroOS.Jbd2

open List
open Lib (Buf Word)
open Lib.Buf (be32 wbe32)

/-- The tags of a descriptor block from offset `off` on. -/
def tagList (fs : Fs) (j : Journal) (b : Buf) : Nat → Nat → List Tag
  | 0, _ => []
  | fuel + 1, off =>
      if off + j.tagBytes ≤ j.limit fs then
        readTag j b off ::
          if (readTag j b off).lastTag then []
          else tagList fs j b fuel (off + tagSize j (readTag j b off))
      else []

inductive Ctrl
  | descriptor (tags : List Tag)
  | commit
  | revoke (blks : List Word)
  deriving DecidableEq

/-- The control block of transaction `seq` at position `pos` of the journal `J`. -/
def ctrlAt (fs : Fs) (j : Journal) (J : Nat → Buf) (pos : Nat) (seq : Word) : Option Ctrl :=
  if j.len ≤ pos ∨ be32 (J pos) 0 ≠ jbd2Magic ∨ be32 (J pos) 8 ≠ seq then none
  else if be32 (J pos) 4 = jbd2Descriptor then
    if descValid fs j (J pos) then
      some (.descriptor (tagList fs j (descBody fs j (J pos)) fs.blockSize 12))
    else none
  else if be32 (J pos) 4 = jbd2Commit then
    if commitValid fs j (J pos) then some .commit else none
  else if be32 (J pos) 4 = jbd2Revoke then some (.revoke (revokeRecords fs j (J pos)))
  else none

/-- A logged block: which one, whether it may be used, and its contents. -/
structure Copy where
  blk : Word
  valid : Bool
  data : Buf

/-- The block that a tag announces, from the copy `d` in the log: it must be one of the file system,
and pass the checksum of its tag. -/
def copyOf (fs : Fs) (j : Journal) (seq : Word) (t : Tag) (d : Buf) : Copy where
  blk := t.blk
  valid :=
    decide (t.hi = 0 ∧ t.blk.toNat < fs.blocksCount ∧ (j.csum = true → copyCsum fs j seq d = t.tcs))
  data := if t.escape then wbe32 d 0 jbd2Magic else d

/-- The copies that belong to tags, one after the other from `pos` on. -/
def copies (fs : Fs) (j : Journal) (J : Nat → Buf) (seq : Word) : List Tag → Nat → List Copy
  | [], _ => []
  | t :: ts, pos => copyOf fs j seq t (J pos) :: copies fs j J seq ts (j.next pos)

/-- `n` blocks further. -/
def Journal.skip (j : Journal) : Nat → Nat → Nat
  | 0, pos => pos
  | n + 1, pos => j.skip n (j.next pos)

/-- A transaction: the copies and the revoke records in it, and where its control blocks are. -/
structure Tx where
  copies : List Copy
  revokes : List Word
  ctrl : List Nat

/-- A complete transaction with number `seq` from `pos` on, and where it ends. -/
inductive TxAt (fs : Fs) (j : Journal) (J : Nat → Buf) (seq : Word) : Nat → Tx → Nat → Prop
  | commit {pos : Nat} : ctrlAt fs j J pos seq = some .commit →
    TxAt fs j J seq pos ⟨[], [], [pos]⟩ (j.next pos)
  | descriptor {pos pos' : Nat} {tags : List Tag} {tx : Tx} :
      ctrlAt fs j J pos seq = some (.descriptor tags) →
      TxAt fs j J seq (j.skip tags.length (j.next pos)) tx pos' →
      TxAt fs j J seq pos ⟨Jbd2.copies fs j J seq tags (j.next pos) ++ tx.copies, tx.revokes,
        pos :: tx.ctrl⟩ pos'
  | revoke {pos pos' : Nat} {blks : List Word} {tx : Tx} :
      ctrlAt fs j J pos seq = some (.revoke blks) →
      TxAt fs j J seq (j.next pos) tx pos' →
      TxAt fs j J seq pos ⟨tx.copies, blks ++ tx.revokes, pos :: tx.ctrl⟩ pos'

/-- Transactions with consecutive numbers. -/
inductive Txs (fs : Fs) (j : Journal) (J : Nat → Buf) : Nat → Word → List Tx → Nat → Word → Prop
  | nil {pos : Nat} {seq : Word} : Txs fs j J pos seq [] pos seq
  | cons {pos pos' pos'' : Nat} {seq seq' : Word} {tx : Tx} {txs : List Tx} :
      TxAt fs j J seq pos tx pos' → Txs fs j J pos' (seq + 1) txs pos'' seq' →
      Txs fs j J pos seq (tx :: txs) pos'' seq'

/-- The log from `pos` on, with the number behind its last transaction: what follows is not
complete. -/
structure Log (fs : Fs) (j : Journal) (J : Nat → Buf) (pos : Nat) (seq : Word) (txs : List Tx)
    (endSeq : Word) : Prop where
  complete : ∃ pos', Txs fs j J pos seq txs pos' endSeq ∧ ∀ tx pos'',
    ¬ TxAt fs j J endSeq pos' tx pos''

/-! ## Transactions -/

theorem seq_succ (seq : Word) (i : Nat) : seq + 1 + BitVec.ofNat 32 i = seq + BitVec.ofNat 32
    (i + 1) := by
  bv_omega

/-- Numbers come round only after 2³² transactions. -/
theorem seq_add_ne (seq : Word) {i : Nat} (hpos : 0 < i) (hlt : i < 2 ^ 32) :
    seq + BitVec.ofNat 32 i ≠ seq := by
  intro h
  have hn := congrArg BitVec.toNat h
  rw [BitVec.toNat_add, BitVec.toNat_ofNat, Nat.mod_eq_of_lt hlt] at hn
  have := seq.isLt
  omega

section

variable {fs : Fs} {j : Journal} {J : Nat → Buf} {pos pos' pos'' : Nat} {seq seq' : Word}
  {tx tx' : Tx} {txs txs' : List Tx}

theorem ctrlAt_header {c : Ctrl} (h : ctrlAt fs j J pos seq = some c) :
    pos < j.len ∧ be32 (J pos) 8 = seq := by
  unfold ctrlAt at h
  split at h
  · cases h
  · next hc => grind

namespace TxAt

variable (h : TxAt fs j J seq pos tx pos')

include h

/-- A transaction is what its first block says it is. -/
theorem unique (h' : TxAt fs j J seq pos tx' pos'') : tx = tx' ∧ pos' = pos'' := by
  induction h generalizing tx' pos'' with
  | commit hc =>
    cases h' with
    | commit => exact ⟨rfl, rfl⟩
    | descriptor hc' | revoke hc' => cases hc.symm.trans hc'
  | descriptor hc _ ih =>
    cases h' with
    | commit hc' | revoke hc' => cases hc.symm.trans hc'
    | descriptor hc' ht' =>
      cases hc.symm.trans hc'
      obtain ⟨rfl, rfl⟩ := ih ht'
      exact ⟨rfl, rfl⟩
  | revoke hc _ ih =>
    cases h' with
    | commit hc' | descriptor hc' => cases hc.symm.trans hc'
    | revoke hc' ht' =>
      cases hc.symm.trans hc'
      obtain ⟨rfl, rfl⟩ := ih ht'
      exact ⟨rfl, rfl⟩

theorem ctrl_pos : 0 < tx.ctrl.length := by
  cases h <;> exact Nat.succ_pos _

/-- Control blocks carry the number of their transaction. -/
theorem ctrl_header : ∀ p ∈ tx.ctrl, p < j.len ∧ be32 (J p) 8 = seq := by
  induction h with
  | commit hc =>
    intro p hp
    rw [mem_singleton.mp hp]
    exact ctrlAt_header hc
  | descriptor hc _ ih | revoke hc _ ih =>
    intro p hp
    rcases mem_cons.mp hp with rfl | hp
    · exact ctrlAt_header hc
    · exact ih p hp

/-- From each control block on, what is left of the transaction is a shorter one. -/
theorem suffix : ∀ p ∈ tx.ctrl, ∃ tx', TxAt fs j J seq p tx' pos' ∧
    tx'.ctrl.length ≤ tx.ctrl.length := by
  induction h with
  | commit hc =>
    intro p hp
    rw [mem_singleton.mp hp]
    exact ⟨_, .commit hc, le_rfl⟩
  | descriptor hc ht ih =>
    intro p hp
    rcases mem_cons.mp hp with rfl | hp
    · exact ⟨_, .descriptor hc ht, le_rfl⟩
    · obtain ⟨tx', h', hle⟩ := ih p hp
      exact ⟨tx', h', hle.trans (Nat.le_succ _)⟩
  | revoke hc ht ih =>
    intro p hp
    rcases mem_cons.mp hp with rfl | hp
    · exact ⟨_, .revoke hc ht, le_rfl⟩
    · obtain ⟨tx', h', hle⟩ := ih p hp
      exact ⟨tx', h', hle.trans (Nat.le_succ _)⟩

omit h in
/-- A transaction does not come back to its first block. -/
theorem notMem_of_cons {p : Nat} {l : List Nat} (h : TxAt fs j J seq p tx pos')
    (hl : tx.ctrl = p :: l)
    (hrest : ∃ q tx', TxAt fs j J seq q tx' pos' ∧ tx'.ctrl = l) : p ∉ l := by
  intro hp
  obtain ⟨q, tx', h', rfl⟩ := hrest
  obtain ⟨tx'', h'', hle⟩ := h'.suffix p hp
  have heq := (h.unique h'').1
  subst heq
  rw [hl, length_cons] at hle
  omega

theorem ctrl_nodup : tx.ctrl.Nodup := by
  induction h with
  | commit => exact nodup_singleton _
  | descriptor hc ht ih =>
    refine nodup_cons.mpr ⟨?_, ih⟩
    exact notMem_of_cons (.descriptor hc ht) rfl ⟨_, _, ht, rfl⟩
  | revoke hc ht ih =>
    refine nodup_cons.mpr ⟨?_, ih⟩
    exact notMem_of_cons (.revoke hc ht) rfl ⟨_, _, ht, rfl⟩

end TxAt

/-! ## Logs -/

namespace Txs

/-- The control blocks of all transactions. -/
def ctrls (txs : List Tx) : List Nat := txs.flatMap Tx.ctrl

theorem length_ctrls_cons (n : Nat) :
    n + (ctrls (tx :: txs)).length = n + (ctrls txs).length + tx.ctrl.length := by
  simp only [ctrls, flatMap_cons, length_append]
  omega

variable (h : Txs fs j J pos seq txs pos' seq')

include h

theorem endSeq_eq : seq' = seq + BitVec.ofNat 32 txs.length := by
  induction h with
  | nil => simp
  | cons _ _ ih =>
    rw [ih, length_cons, seq_succ]

/-- The first `n` transactions. -/
theorem take (n : Nat) : ∃ pos'' seq'', Txs fs j J pos seq (txs.take n) pos'' seq'' := by
  induction h generalizing n with
  | nil => exact ⟨_, _, by rw [take_nil]; exact .nil⟩
  | cons ht _ ih =>
    cases n with
    | zero => exact ⟨_, _, .nil⟩
    | succ n =>
      obtain ⟨p, s, h'⟩ := ih n
      exact ⟨p, s, .cons ht h'⟩

theorem append {pos₁ : Nat} {seq₁ : Word}
    (h' : Txs fs j J pos' seq' txs' pos₁ seq₁) : Txs fs j J pos seq (txs ++ txs') pos₁ seq₁ := by
  induction h with
  | nil => exact h'
  | cons ht _ ih => exact .cons ht (ih h')

theorem length_le : txs.length ≤ (ctrls txs).length := by
  induction h with
  | nil => exact Nat.zero_le _
  | cons ht _ ih =>
    have := ht.ctrl_pos
    simp only [ctrls, flatMap_cons, length_append, length_cons] at ih ⊢
    omega

/-- Control blocks carry a number of the log. -/
theorem ctrl_header : ∀ p ∈ ctrls txs, p < j.len ∧ ∃ i < txs.length, be32
    (J p) 8 = seq + BitVec.ofNat 32 i := by
  induction h with
  | nil => exact nofun
  | cons ht _ ih =>
    intro p hp
    simp only [ctrls, flatMap_cons, mem_append] at hp
    rcases hp with hp | hp
    · obtain ⟨hlt, hseq⟩ := ht.ctrl_header p hp
      exact ⟨hlt, 0, Nat.succ_pos _, by rw [hseq]; simp⟩
    · obtain ⟨hlt, i, hi, hseq⟩ := ih p hp
      refine ⟨hlt, i + 1, Nat.succ_lt_succ hi, ?_⟩
      rw [hseq, seq_succ]

/-- As long as the numbers do not come round, control blocks are different. -/
theorem ctrl_nodup_of_lt (hlen : txs.length ≤ 2 ^ 32) : (ctrls txs).Nodup := by
  induction h with
  | nil => exact nodup_nil
  | @cons pos pos' pos'' seq seq' tx txs ht hts ih =>
    have hlen : txs.length + 1 ≤ 2 ^ 32 := hlen
    rw [ctrls, flatMap_cons, nodup_append']
    refine ⟨ht.ctrl_nodup, ih (by omega), ?_⟩
    intro p hp hp'
    obtain ⟨-, hseq⟩ := ht.ctrl_header p hp
    obtain ⟨-, i, hi, hseq'⟩ := hts.ctrl_header p hp'
    rw [hseq] at hseq'
    rw [seq_succ] at hseq'
    exact seq_add_ne seq (Nat.succ_pos i) (by omega) hseq'.symm

omit h in
/-- Different positions of the journal are at most as many as it has. -/
theorem ctrl_length_le {l : List Nat} (hl : l.Nodup) (hlt : ∀ p ∈ l, p < j.len) :
    l.length ≤ j.len := by
  have hsub : l ⊆ range j.len := fun p hp => mem_range.mpr (hlt p hp)
  simpa using (subperm_of_subset hl hsub).length_le

/-- There are not more transactions than blocks in the journal. -/
theorem length_le_len (hlen : j.len < 2 ^ 32) : txs.length ≤ j.len := by
  by_contra hgt
  obtain ⟨p, s, h'⟩ := h.take (j.len + 1)
  have hcount : (txs.take (j.len + 1)).length = j.len + 1 := by
    rw [length_take]
    omega
  have hle := ctrl_length_le (h'.ctrl_nodup_of_lt (by omega)) fun p hp => (h'.ctrl_header p hp).1
  have := h'.length_le
  omega

/-- **The walk over complete transactions sees at most as many control blocks as the journal has
blocks.** -/
theorem ctrls_length_le (hlen : j.len < 2 ^ 32) : (ctrls txs).length ≤ j.len := by
  have hle := h.length_le_len hlen
  exact ctrl_length_le (h.ctrl_nodup_of_lt (by omega)) fun p hp => (h.ctrl_header p hp).1

end Txs

/-- Every log has an end. -/
theorem exists_log (fs : Fs) (j : Journal) (J : Nat → Buf) (pos : Nat) (seq : Word)
    (hlen : j.len < 2 ^ 32) : ∃ txs endSeq, Log fs j J pos seq txs endSeq := by
  -- a longest sequence of complete transactions
  have hmax : ∀ n, (∃ txs pos' seq', Txs fs j J pos seq txs pos' seq' ∧ j.len ≤ txs.length + n) →
      ∃ txs endSeq, Log fs j J pos seq txs endSeq := by
    intro n
    induction n with
    | zero =>
      rintro ⟨txs, pos', seq', h, hge⟩
      refine ⟨txs, seq', pos', h, fun tx pos'' ht => ?_⟩
      have := (h.append (.cons ht .nil)).length_le_len hlen
      rw [length_append, length_singleton] at this
      omega
    | succ n ih =>
      rintro ⟨txs, pos', seq', h, hge⟩
      by_cases hmore : ∃ tx pos'', TxAt fs j J seq' pos' tx pos''
      · obtain ⟨tx, pos'', ht⟩ := hmore
        refine ih ⟨_, _, _, h.append (.cons ht .nil), ?_⟩
        rw [length_append, length_singleton]
        omega
      · exact ⟨txs, seq', pos', h, fun tx pos'' ht => hmore ⟨tx, pos'', ht⟩⟩
  exact hmax j.len ⟨[], pos, seq, .nil, Nat.le_add_left _ _⟩

/-- A log says one thing only. -/
theorem Log.unique {endSeq endSeq' : Word} (h : Log fs j J pos seq txs endSeq)
    (h' : Log fs j J pos seq txs' endSeq') : txs = txs' ∧ endSeq = endSeq' := by
  obtain ⟨p, hts, hstop⟩ := h
  obtain ⟨p', hts', hstop'⟩ := h'
  induction hts generalizing txs' with
  | nil =>
    cases hts' with
    | nil => exact ⟨rfl, rfl⟩
    | cons ht' _ => exact absurd ht' (hstop _ _)
  | cons ht _ ih =>
    cases hts' with
    | nil => exact absurd ht (hstop' _ _)
    | cons ht' hts' =>
      obtain ⟨rfl, rfl⟩ := ht.unique ht'
      obtain ⟨rfl, rfl⟩ := ih hstop hts'
      exact ⟨rfl, rfl⟩

end

end MaeroOS.Jbd2
