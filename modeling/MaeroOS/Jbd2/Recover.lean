import Mathlib.Data.List.Induction
import MaeroOS.Jbd2.Replay

/-!
# Recovery

What is on the disk after `ext2_jnl_recover`. A transaction is to be used for a block if it has a
valid copy of it and neither it nor a later one revokes the block (`Usable`); the last such
transaction decides (`Replayed`).

* `recover_replays`: recovery writes exactly this, and a second recovery from the same log changes
  nothing, provided that the log does not name blocks of the journal.
* `journal_overwritten`: a log that does name one. Replaying its first tag overwrites the copy that
  belongs to the second.
-/

namespace MaeroOS.Jbd2

open Function List
open Lib (Buf Word)
open Lib.Buf (be32 wbe32)

/-- The last valid copy of block `b` in a transaction. -/
def Tx.lastCopy (tx : Tx) (b : Nat) : Option Buf :=
  (tx.copies.reverse.find? fun c => c.valid ∧ c.blk.toNat = b).map Copy.data

def Tx.Revokes (tx : Tx) (b : Nat) : Prop := ∃ w ∈ tx.revokes, w.toNat = b

/-- Transaction `i`, or a later one, revokes block `b`. -/
def RevokedFrom (txs : List Tx) (b i : Nat) : Prop :=
  ∃ k tx, i ≤ k ∧ txs[k]? = some tx ∧ tx.Revokes b

/-- Transaction `i` is to be used for block `b`, which it says is `d`. -/
def Usable (txs : List Tx) (b i : Nat) (d : Buf) : Prop :=
  (∃ tx, txs[i]? = some tx ∧ tx.lastCopy b = some d) ∧ ¬ RevokedFrom txs b i

/-- Block `b` went from `old` to `new`: to what the last transaction says that is to be used for
it. -/
def Replayed (txs : List Tx) (b : Nat) (old new : Buf) : Prop :=
  (∃ i, Usable txs b i new ∧ ∀ k d, Usable txs b k d → k ≤ i) ∨ (∀ i d, ¬ Usable txs b i d) ∧
    new = old

section

variable {fs : Fs} {j : Journal} {disk : Disk} {seq endSeq : Word} {tx : Tx} {txs : List Tx}
  {rv : List Revoke} {b : Nat} {old new newer d : Buf}

/-- Replaying twice is replaying once. -/
theorem Replayed.idem (h : Replayed txs b old new) (h' : Replayed txs b new newer) :
    newer = new := by
  rcases h' with ⟨i, hi, hlast⟩ | ⟨-, rfl⟩
  · rcases h with ⟨k, hk, hlast'⟩ | ⟨hnone, -⟩
    · obtain rfl : i = k := le_antisymm (hlast' _ _ hi) (hlast _ _ hk)
      obtain ⟨⟨tx, htx, hcopy⟩, -⟩ := hi
      obtain ⟨⟨tx', htx', hcopy'⟩, -⟩ := hk
      cases htx.symm.trans htx'
      exact Option.some.inj (hcopy.symm.trans hcopy')
    · exact absurd hi (hnone i newer)
  · rfl

/-! ## Writing the copies -/

/-- The copies of one transaction, on block `b`. -/
theorem foldl_writeCopy_apply (tx : Tx) (disk : Disk) :
    (tx.copies.foldl (writeCopy rv seq) disk) b =
      if jnlRevoked rv (BitVec.ofNat 32 b) seq = true then disk b
        else (tx.lastCopy b).getD (disk b) := by
  unfold Tx.lastCopy
  generalize tx.copies = cs
  induction cs using List.reverseRecOn with
  | nil => simp
  | append_singleton cs c ih =>
    rw [foldl_append, foldl_cons, foldl_nil, reverse_append, reverse_singleton,
      singleton_append, List.find?_cons]
    unfold writeCopy at ih ⊢
    by_cases hb : c.blk.toNat = b
    · have hw : BitVec.ofNat 32 b = c.blk := by
        rw [← hb, BitVec.ofNat_toNat, BitVec.setWidth_eq]
      rw [hw] at ih ⊢
      cases hv : c.valid with
      | false =>
        rw [if_neg fun h => Bool.false_ne_true h.1, decide_eq_false fun h => Bool.false_ne_true h.1]
        exact ih
      | true =>
        rw [decide_eq_true ⟨rfl, hb⟩]
        cases hr : jnlRevoked rv c.blk seq with
        | false =>
          rw [if_pos ⟨rfl, rfl⟩, if_neg Bool.false_ne_true, hb, update_self]
          rfl
        | true =>
          rw [hr, if_pos rfl] at ih
          rw [if_neg fun h => Bool.false_ne_true h.2.symm, if_pos rfl]
          exact ih
    · have hfalse : decide (c.valid = true ∧ c.blk.toNat = b) = false :=
        decide_eq_false fun h => hb h.2
      rw [hfalse]
      split
      · rw [update_of_ne (Ne.symm hb), ih]
      · exact ih

theorem revokedFrom_cons {i : Nat} : RevokedFrom (tx :: txs) b (i + 1) ↔ RevokedFrom txs b i := by
  constructor
  · rintro ⟨k, tx', hk, htx', hb⟩
    obtain ⟨k, rfl⟩ : ∃ m, k = m + 1 := ⟨k - 1, by omega⟩
    exact ⟨k, tx', by omega, htx', hb⟩
  · rintro ⟨k, tx', hk, htx', hb⟩
    exact ⟨k + 1, tx', by omega, htx', hb⟩

theorem usable_cons {i : Nat} : Usable (tx :: txs) b (i + 1) d ↔ Usable txs b i d := by
  unfold Usable
  rw [revokedFrom_cons]
  rfl

/-- What writing all copies makes of a block, if the revoke records are those of the log. -/
theorem replayTxs_spec (txs : List Tx) (seq : Word) (disk : Disk)
    (hrv : ∀ i < txs.length,
      (jnlRevoked rv (BitVec.ofNat 32 b) (seq + BitVec.ofNat 32 i) = true ↔ RevokedFrom txs b i)) :
    Replayed txs b (disk b) (replayTxs rv seq txs disk b) := by
  induction txs generalizing seq disk with
  | nil =>
    refine .inr ⟨?_, rfl⟩
    rintro i d ⟨⟨tx, htx, -⟩, -⟩
    cases htx
  | cons tx txs ih =>
    have hshift : ∀ i < txs.length,
        (jnlRevoked rv (BitVec.ofNat 32 b) (seq + 1 + BitVec.ofNat 32 i) = true ↔
          RevokedFrom txs b i) := by
      intro i hi
      rw [seq_succ, hrv (i + 1) (Nat.succ_lt_succ hi), revokedFrom_cons]
    have hfirst := hrv 0 (Nat.succ_pos _)
    rw [show seq + BitVec.ofNat 32 0 = seq by simp] at hfirst
    have hhead : (tx.copies.foldl (writeCopy rv seq) disk) b =
        if jnlRevoked rv (BitVec.ofNat 32 b) seq = true then disk b
          else (tx.lastCopy b).getD (disk b) :=
      foldl_writeCopy_apply tx disk
    rcases ih (seq + 1) (tx.copies.foldl (writeCopy rv seq) disk) hshift with ⟨i, hi, hlast⟩
      | ⟨hnone, hsame⟩
    · -- a later transaction decides
      refine .inl ⟨i + 1, usable_cons.mpr hi, fun k d hk => ?_⟩
      cases k with
      | zero => exact Nat.zero_le _
      | succ k => exact Nat.succ_le_succ (hlast k d (usable_cons.mp hk))
    · rw [replayTxs, hsame, hhead]
      have hlater : ∀ k d, ¬ Usable (tx :: txs) b (k + 1) d :=
        fun k d hk => hnone k d (usable_cons.mp hk)
      by_cases hrev : RevokedFrom (tx :: txs) b 0
      · rw [if_pos (hfirst.mpr hrev)]
        refine .inr ⟨fun i d hu => ?_, rfl⟩
        cases i with
        | zero => exact hu.2 hrev
        | succ i => exact hlater i d hu
      · rw [if_neg (mt hfirst.mp hrev)]
        cases hcopy : tx.lastCopy b with
        | some d =>
          refine .inl ⟨0, ⟨⟨tx, rfl, hcopy⟩, hrev⟩, fun k d' hk => ?_⟩
          cases k with
          | zero => exact le_rfl
          | succ k => exact absurd hk (hlater k d')
        | none =>
          refine .inr ⟨fun i d hu => ?_, rfl⟩
          cases i with
          | zero =>
            obtain ⟨⟨tx', htx', hcopy'⟩, -⟩ := hu
            cases htx'
            cases hcopy.symm.trans hcopy'
          | succ i => exact hlater i d hu

/-- Block numbers have 32 bits. -/
theorem lastCopy_of_ge (hb : 2 ^ 32 ≤ b) : tx.lastCopy b = none := by
  unfold Tx.lastCopy
  rw [Option.map_eq_none_iff, List.find?_eq_none]
  intro c _ hc
  have := c.blk.isLt
  have := (of_decide_eq_true hc).2
  omega

theorem replayTxs_of_ge (hb : 2 ^ 32 ≤ b) :
    Replayed txs b (disk b) (replayTxs rv seq txs disk b) := by
  refine .inr ⟨?_, ?_⟩
  · rintro i d ⟨⟨tx, -, hcopy⟩, -⟩
    rw [lastCopy_of_ge hb] at hcopy
    cases hcopy
  · induction txs generalizing seq disk with
    | nil => rfl
    | cons tx txs ih =>
      rw [replayTxs, ih, foldl_writeCopy_apply, lastCopy_of_ge hb]
      exact ite_self _

/-! ## The revoke records -/

theorem mem_rvOf {r : Revoke} {txs : List Tx} {seq : Word} :
    r ∈ rvOf seq txs ↔ ∃ k tx, txs[k]? = some tx ∧ r.blk ∈ tx.revokes ∧
      r.seq = seq + BitVec.ofNat 32 k := by
  induction txs generalizing seq with
  | nil => simp [rvOf]
  | cons tx txs ih =>
    rw [rvOf, mem_append, ih, mem_map]
    constructor
    · rintro (⟨w, hw, rfl⟩ | ⟨k, tx', htx', hr, hs⟩)
      · exact ⟨0, tx, rfl, hw, by simp⟩
      · exact ⟨k + 1, tx', htx', hr, by rw [hs, seq_succ]⟩
    · rintro ⟨k, tx', htx', hr, hs⟩
      cases k with
      | zero =>
        cases htx'
        refine .inl ⟨r.blk, hr, ?_⟩
        rw [show seq = r.seq by rw [hs]; simp]
      | succ k => exact .inr ⟨k, tx', htx', hr, by rw [hs, seq_succ]⟩

/-- The code's comparison of transaction numbers is the order of the transactions. -/
theorem seq_le_iff (seq : Word) {i k : Nat} (hi : i < 2 ^ 31) (hk : k < 2 ^ 31) :
    0 ≤ (seq + BitVec.ofNat 32 k - (seq + BitVec.ofNat 32 i)).toInt ↔ i ≤ k := by
  have hsub : seq + BitVec.ofNat 32 k - (seq + BitVec.ofNat 32 i) =
      BitVec.ofNat 32 k - BitVec.ofNat 32 i := by
    bv_omega
  rw [hsub, BitVec.toInt_eq_toNat_cond, BitVec.toNat_sub, BitVec.toNat_ofNat, BitVec.toNat_ofNat,
    Nat.mod_eq_of_lt (by omega : k < 2 ^ 32), Nat.mod_eq_of_lt (by omega : i < 2 ^ 32)]
  split <;> omega

theorem jnlRevoked_rvOf (hlen : txs.length ≤ 2 ^ 31) {i : Nat} (hi : i < txs.length) {w : Word} :
    jnlRevoked (rvOf seq txs) w (seq + BitVec.ofNat 32 i) = true ↔ RevokedFrom txs w.toNat i := by
  unfold jnlRevoked RevokedFrom Tx.Revokes
  rw [any_eq_true]
  constructor
  · rintro ⟨r, hr, hle⟩
    obtain ⟨k, tx, htx, hmem, hseq⟩ := mem_rvOf.mp hr
    obtain ⟨hblk, hle⟩ := of_decide_eq_true hle
    have hk : k < txs.length := (List.getElem?_eq_some_iff.mp htx).1
    rw [hseq, seq_le_iff seq (by omega) (by omega)] at hle
    exact ⟨k, tx, hle, htx, w, hblk ▸ hmem, rfl⟩
  · rintro ⟨k, tx, hle, htx, w', hmem, hw'⟩
    obtain rfl : w' = w := BitVec.eq_of_toNat_eq hw'
    have hk : k < txs.length := (List.getElem?_eq_some_iff.mp htx).1
    refine ⟨⟨w', seq + BitVec.ofNat 32 k⟩, mem_rvOf.mpr ⟨k, tx, htx, hmem, rfl⟩,
      decide_eq_true ⟨rfl, ?_⟩⟩
    exact (seq_le_iff seq (by omega) (by omega)).mpr hle

/-! ## Recovery -/

/-- Copies of other blocks leave a block alone. -/
theorem replayTxs_apply_of_outside (hout : Outside j txs) (hb : j.Owns b) :
    replayTxs rv seq txs disk b = disk b := by
  induction txs generalizing seq disk with
  | nil => rfl
  | cons tx txs ih =>
    rw [replayTxs, ih fun tx' htx' => hout tx' (mem_cons_of_mem tx htx')]
    have hcs := hout tx mem_cons_self
    generalize tx.copies = cs at hcs
    induction cs generalizing disk with
    | nil => rfl
    | cons c cs ih' =>
      rw [foldl_cons, ih' fun c' hc' => hcs c' (mem_cons_of_mem c hc')]
      unfold writeCopy
      split
      · next hw =>
        rw [update_of_ne]
        rintro rfl
        exact hcs c mem_cons_self hw.1 hb
      · rfl

/-- The start of the log and the number of its first transaction, as the journal superblock has
them. -/
def logStart (j : Journal) (disk : Disk) : Word := be32 (disk (j.map 0)) 0x1C
def logSeq (j : Journal) (disk : Disk) : Word := be32 (disk (j.map 0)) 0x18

/-- An empty journal is left alone. -/
theorem jnlRecover_of_empty (hr : j.Readable fs) (hempty : logStart j disk = 0) :
    jnlRecover fs j disk = ⟨0, disk, j.seq⟩ := by
  unfold jnlRecover
  rw [jnlRead_of_lt hr (by have := hr.first_lt; omega)]
  exact if_pos hempty

/-- Recovery writes what is in the log, and then marks it empty. -/
theorem jnlRecover_eq (hr : j.Readable fs) (hstart : logStart j disk ≠ 0)
    (hlog : Log fs j (j.contents disk) (logStart j disk).toNat (logSeq j disk) txs endSeq)
    (hrevokes : revokeCount txs ≤ revokeCap) (hout : Outside j txs) :
    jnlRecover fs j disk =
      ⟨0, update (replayTxs (rvOf (logSeq j disk) txs) (logSeq j disk) txs disk) (j.map 0)
        (sbWith j (disk (j.map 0)) 0 endSeq), endSeq⟩ := by
  have h0 : 0 < j.len := by
    have := hr.first_lt
    omega
  obtain ⟨h1, h2, h3⟩ := firstPass_spec hr hlog hrevokes
  have hsecond := secondPass_spec hr hlog hout h1
  rw [h2] at hsecond
  have hown : j.Owns (j.map 0) := ⟨0, h0, rfl⟩
  have hsb : ∀ d : Disk, d (j.map 0) = disk (j.map 0) →
      jnlSb fs j d 0 endSeq = some (update d (j.map 0) (sbWith j (disk (j.map 0)) 0 endSeq)) := by
    intro d hd
    unfold jnlSb jnlWrite rawWriteBlock
    rw [jnlRead_of_lt hr h0, Option.bind_some, hd, if_neg (by have := hr.map_ne 0 h0; omega),
      if_neg (by have := hr.map_lt 0 h0; omega)]
  unfold logStart at hstart h1 h3 hsecond
  unfold logSeq at h1 h3 hsecond
  unfold jnlRecover
  rw [jnlRead_of_lt hr h0]
  simp only [hstart, if_false, h3, Bool.false_eq_true, hsecond, h1]
  rw [hsb _ (replayTxs_apply_of_outside hout hown)]
  rfl

/-- What recovery does with the transactions of the log. -/
structure Recovered (fs : Fs) (j : Journal) (disk : Disk) (txs : List Tx) (endSeq : Word) :
    Prop where
  code : (jnlRecover fs j disk).code = 0
  seq : (jnlRecover fs j disk).seq = endSeq
  /-- Every block of the file system. -/
  blocks : ∀ b, ¬ j.Owns b → Replayed txs b (disk b) ((jnlRecover fs j disk).disk b)
  /-- The journal, except its superblock. -/
  journal : ∀ b, j.Owns b → b ≠ j.map 0 → (jnlRecover fs j disk).disk b = disk b
  /-- A second replay, with the superblock as it was. -/
  again : ∀ b, ¬ j.Owns b →
    (jnlRecover fs j (Function.update (jnlRecover fs j disk).disk (j.map 0) (disk (j.map 0)))).disk
      b = (jnlRecover fs j disk).disk b

/-- **Replay meets its specification** on every log whose complete transactions log no block of the
journal and have at most 16384 revoke records. An empty journal is left alone. -/
theorem recover_replays {fs : Fs} {j : Journal} (disk : Disk) (hr : j.Readable fs) :
    (logStart j disk = 0 → jnlRecover fs j disk = ⟨0, disk, j.seq⟩) ∧
      (logStart j disk ≠ 0 →
        ∃ txs endSeq, Log fs j (j.contents disk) (logStart j disk).toNat (logSeq j disk)
          txs endSeq ∧
          (revokeCount txs ≤ revokeCap → Outside j txs → Recovered fs j disk txs endSeq)) := by
  have hlen := hr.len_lt
  have h0 : 0 < j.len := by
    have := hr.first_lt
    omega
  have hown : j.Owns (j.map 0) := ⟨0, h0, rfl⟩
  refine ⟨jnlRecover_of_empty hr, fun hstart => ?_⟩
  obtain ⟨txs, endSeq, hlog⟩ :=
    exists_log fs j (j.contents disk) (logStart j disk).toNat (logSeq j disk) (by omega)
  refine ⟨txs, endSeq, hlog, fun hrevokes hout => ?_⟩
  have hcount : txs.length ≤ 2 ^ 31 := by
    obtain ⟨p, htxs, -⟩ := hlog.complete
    have := htxs.length_le_len (by omega)
    omega
  -- the blocks after a replay of this log, on any disk
  have hblocks : ∀ (d : Disk) (b : Nat),
      Replayed txs b (d b) (replayTxs (rvOf (logSeq j disk) txs) (logSeq j disk) txs d b) := by
    intro d b
    rcases lt_or_ge b (2 ^ 32) with hb | hb
    · refine replayTxs_spec txs _ d fun i hi => ?_
      rw [jnlRevoked_rvOf hcount hi, BitVec.toNat_ofNat, Nat.mod_eq_of_lt hb]
    · exact replayTxs_of_ge hb
  have heq := jnlRecover_eq hr hstart hlog hrevokes hout
  have hrec : ∀ b, b ≠ j.map 0 → (jnlRecover fs j disk).disk b =
      replayTxs (rvOf (logSeq j disk) txs) (logSeq j disk) txs disk b := by
    intro b hb
    rw [heq]
    exact update_of_ne hb _ _
  have hsb : ∀ b, ¬ j.Owns b → b ≠ j.map 0 := by
    rintro b hb rfl
    exact hb hown
  have hjournal : ∀ b, j.Owns b → b ≠ j.map 0 → (jnlRecover fs j disk).disk b = disk b :=
    fun b hb hne =>
    (hrec b hne).trans (replayTxs_apply_of_outside hout hb)
  have hfirst : ∀ b, ¬ j.Owns b → Replayed txs b (disk b) ((jnlRecover fs j disk).disk b) :=
    fun b hb => by
    rw [hrec b (hsb b hb)]
    exact hblocks disk b
  refine ⟨by rw [heq], by rw [heq], hfirst, hjournal, fun b hb => ?_⟩
  -- the log is the same once more
  have hsame : j.contents (update (jnlRecover fs j disk).disk (j.map 0) (disk (j.map 0))) =
      j.contents disk := by
    funext i
    unfold Journal.contents
    split
    · next hi =>
      by_cases hz : j.map i = j.map 0
      · rw [hz, update_self]
      · rw [update_of_ne hz, hjournal _ ⟨i, hi, rfl⟩ hz]
    · rfl
  generalize hd : update (jnlRecover fs j disk).disk (j.map 0) (disk (j.map 0)) = disk' at hsame ⊢
  have hz : disk' (j.map 0) = disk (j.map 0) := by
    rw [← hd, update_self]
  have hb' : disk' b = (jnlRecover fs j disk).disk b := by
    rw [← hd, update_of_ne (hsb b hb)]
  have hs : logStart j disk' = logStart j disk := congrArg (be32 · 0x1C) hz
  have hq : logSeq j disk' = logSeq j disk := congrArg (be32 · 0x18) hz
  have heq' := jnlRecover_eq hr (by rwa [hs]) (by rwa [hsame, hs, hq]) hrevokes hout
  rw [heq', hq]
  show update (replayTxs _ _ txs disk') (j.map 0) _ b = _
  rw [update_of_ne (hsb b hb), ← hb']
  exact (hb' ▸ hfirst b hb).idem (hblocks disk' b)

/-! ## A log with two tags -/

/-- A journal of 64 blocks, from block 10 on, without checksums. -/
def sampleFs : Fs := ⟨1024, 200, le_rfl⟩

def sampleJournal : Journal where
  len := 64
  first := 1
  seq := 1
  map := (· + 10)
  compat := 0
  incompat := 0
  seed := 0
  uuid := fun _ => 0
  tagBytes := 8
  csum := false
  cap := 20
  hard := 40

/-- The header of a control block of transaction 1. -/
def sampleHeader (type : Word) : Buf := wbe32 (wbe32 (wbe32 (fun _ => 0) 0 jbd2Magic) 4 type) 8 1

/-- Transaction 1 logs block `blk`, with sevens, and block 100, with nines. -/
def sampleDisk (blk : Word) : Disk
  | 10 => wbe32 (wbe32 (fun _ => 0) 0x18 1) 0x1C 1
  | 11 => Function.update (wbe32 (wbe32 (sampleHeader jbd2Descriptor) 12 blk) 36 100) 43 0x0A
  | 12 => fun _ => 7
  | 13 => fun _ => 9
  | 14 => sampleHeader jbd2Commit
  | _ => fun _ => 0

def sampleTags (blk : Word) : List Tag := [⟨blk, 0, 0, 0⟩, ⟨100, 0x0A, 0, 0⟩]

def sampleTx (blk : Word) : Tx where
  copies :=
    copies sampleFs sampleJournal (sampleJournal.contents (sampleDisk blk)) 1 (sampleTags blk) 2
  revokes := []
  ctrl := [1, 4]

theorem sample_readable : sampleJournal.Readable sampleFs where
  len_lt := by decide
  first_lt := by decide
  map_ne i _ := Nat.succ_ne_zero (i + 9)
  map_lt i hi := by
    have : i < 64 := hi
    show i + 10 < 200
    omega

/-- The log of the sample, once its blocks have been looked at. -/
theorem sample_log {blk : Word}
    (h1 : ctrlAt sampleFs sampleJournal (sampleJournal.contents (sampleDisk blk)) 1 1 =
      some (.descriptor (sampleTags blk)))
    (h4 : ctrlAt sampleFs sampleJournal (sampleJournal.contents (sampleDisk blk)) 4 1 =
      some .commit)
    (h5 : ctrlAt sampleFs sampleJournal (sampleJournal.contents (sampleDisk blk)) 5 2 = none) :
    Log sampleFs sampleJournal (sampleJournal.contents (sampleDisk blk)) 1 1 [sampleTx blk] 2 := by
  refine ⟨5, .cons (.descriptor h1 (.commit h4)) .nil, fun tx pos' h => ?_⟩
  cases h with
  | commit hc | descriptor hc | revoke hc => cases h5.symm.trans hc

/-- Recovery from a log that names blocks 99 and 100. -/
theorem recover_replays_two : ∃ txs endSeq, txs.length = 1 ∧
    Recovered sampleFs sampleJournal (sampleDisk 99) txs endSeq := by
  have hlog : Log sampleFs sampleJournal (sampleJournal.contents (sampleDisk 99)) 1 1
      [sampleTx 99] 2 :=
    sample_log (by decide +kernel) (by decide +kernel) (by decide +kernel)
  obtain ⟨txs, endSeq, hlog', hrec⟩ :=
    (recover_replays (sampleDisk 99) sample_readable).2 (by decide +kernel)
  obtain ⟨rfl, rfl⟩ := hlog.unique hlog'
  refine ⟨_, _, rfl, hrec (by decide) ?_⟩
  rintro tx htx c hc - ⟨i, hi, hmap⟩
  rw [mem_singleton.mp htx] at hc
  have hblk : c.blk = 99 ∨ c.blk = 100 := by
    simpa [sampleTx, sampleTags, copies, copyOf] using mem_map_of_mem (f := Copy.blk) hc
  have hi : i < 64 := hi
  have hmap : i + 10 = c.blk.toNat := hmap
  rcases hblk with h | h <;> rw [h] at hmap <;> simp at hmap <;> omega

/-- **A log that names a block of the journal**: block 13 is where the copy of block 100 is. Block
100 is overwritten with what was logged for block 13. -/
theorem journal_overwritten : ∃ txs endSeq,
    Log sampleFs sampleJournal (sampleJournal.contents (sampleDisk 13)) 1 1 txs endSeq ∧
      logStart sampleJournal (sampleDisk 13) = 1 ∧ logSeq sampleJournal (sampleDisk 13) = 1 ∧
      revokeCount txs ≤ revokeCap ∧ ¬ sampleJournal.Owns 100 ∧
      ¬ Replayed txs 100 (sampleDisk 13 100)
        ((jnlRecover sampleFs sampleJournal (sampleDisk 13)).disk 100) := by
  refine ⟨[sampleTx 13], 2, sample_log (by decide +kernel) (by decide +kernel) (by decide +kernel),
    by decide +kernel, by decide +kernel, by decide, ?_, ?_⟩
  · rintro ⟨i, hi, hmap⟩
    have hi : i < 64 := hi
    have hmap : i + 10 = 100 := hmap
    omega
  · have hnines : ((sampleTx 13).lastCopy 100).map (· 0) = some 9 := by decide +kernel
    have hres : (jnlRecover sampleFs sampleJournal (sampleDisk 13)).disk 100 0 = 7 := by
      decide +kernel
    have husable : ∀ d, (sampleTx 13).lastCopy 100 = some d → Usable [sampleTx 13] 100 0 d := by
      refine fun d hd => ⟨⟨_, rfl, hd⟩, ?_⟩
      rintro ⟨k, tx, -, htx, w, hw, -⟩
      obtain rfl : tx = sampleTx 13 := mem_singleton.mp (mem_of_getElem? htx)
      cases hw
    obtain ⟨d, hd, hd9⟩ := Option.map_eq_some_iff.mp hnines
    rintro (⟨i, ⟨⟨tx, htx, hcopy⟩, -⟩, -⟩ | ⟨hnone, -⟩)
    · obtain rfl : tx = sampleTx 13 := mem_singleton.mp (mem_of_getElem? htx)
      cases hd.symm.trans hcopy
      rw [hres] at hd9
      exact absurd hd9 (by decide)
    · exact hnone 0 d (husable d hd)

end

end MaeroOS.Jbd2
