import Mathlib.Algebra.Order.Group.Multiset
import Mathlib.Data.List.GetD
import MaeroOS.Flock.Refinement
import MaeroOS.Lib.Ledger

/-!
# Accounting for record locks

A record is charged to a uid from `flk_alloc` to `flk_free`. The slots of `lock_uids` are a ledger,
balanced if it has the counts of a multiset of uids: those of the records of the table and of what a
call holds besides, a new record before it is in its list.
-/

namespace MaeroOS.Flock

open Lib (Run Ledger)

/-- A slot is in use while its count is positive. -/
def UidSlot.entry (s : UidSlot) : Option (UInt32 × Int) :=
  if 0 < s.n then some (s.uid, s.n) else none

/-- The slots as a ledger of the uids. -/
def ledger (uids : List UidSlot) : Ledger UInt32 := uids.map UidSlot.entry

/-- The counts are those of `m`, and no uid has two slots. -/
structure Balanced (acc : Accounts) (m : Multiset UInt32) : Prop where
  nlocks : acc.nlocks = m.card
  ok : Ledger.Ok locksPerUid (ledger acc.uids)
  amount : ∀ uid ≠ 0, Ledger.amount (ledger acc.uids) uid = m.count uid

section Accounts

variable {acc acc' : Accounts} {m m' : Multiset UInt32} {uid : UInt32} {nlocks : Int} {i : Nat}
  {s : UidSlot}

/-- One slot among the others. -/
theorem ledger_set {uids : List UidSlot} (hi : i < uids.length) (s : UidSlot) :
    ledger (uids.set i s) = ledger (uids.take i) ++ s.entry :: ledger (uids.drop (i + 1)) := by
  simp only [ledger, List.set_eq_take_append_cons_drop, if_pos hi, List.map_append, List.map_cons]

/-- The slot of `uid`, or a free one if it has none, gets the new count of `uid`. -/
theorem Balanced.set (h : Balanced acc m) (hi : i < acc.uids.length)
    (hslot : (∃ a, acc.uids[i].entry = some (uid, a)) ∨ acc.uids[i].entry = none ∧
      uid ∉ Ledger.keys (ledger acc.uids))
    (hnlocks : nlocks = m'.card) (hn : s.n = m'.count uid) (hle : s.n ≤ locksPerUid)
    (hs : s.uid = uid)
    (hrest : ∀ u ≠ uid, m'.count u = m.count u) : Balanced ⟨nlocks, acc.uids.set i s⟩ m' := by
  have hold := ledger_set hi acc.uids[i]
  rw [List.set_getElem_self] at hold
  have hentry : s.entry = if s.n = 0 then none else some (uid, s.n) := by
    unfold UidSlot.entry
    rw [hs]
    split <;> split <;> first | rfl | omega
  obtain ⟨hok, hamount⟩ := Ledger.replace_spec (hold ▸ h.ok) (hold ▸ hslot)
    (show -locksPerUid ≤ s.n ∧ s.n ≤ locksPerUid by unfold locksPerUid at *; omega)
  rw [← hentry, ← ledger_set hi] at hok hamount
  refine ⟨hnlocks, hok, fun u hu => ?_⟩
  rw [hamount, ← hold]
  split
  · next huu => rw [huu, hn]
  · next huu => rw [h.amount u hu, hrest u huu]

/-- The slot that is found for `uid` has its count. -/
theorem Balanced.entry_of_find (h : Balanced acc m) (huid : uid ≠ 0)
    (hfind : acc.uids.findIdx? (fun s => 0 < s.n ∧ s.uid = uid) = some i) :
    ∃ hi : i < acc.uids.length,
      acc.uids[i].entry = some (uid, acc.uids[i].n) ∧ acc.uids[i].uid = uid ∧
        acc.uids[i].n = m.count uid := by
  obtain ⟨hi, hlive, -⟩ := List.findIdx?_eq_some_iff_getElem.1 hfind
  obtain ⟨hpos, heq⟩ := of_decide_eq_true hlive
  have hentry : acc.uids[i].entry = some (uid, acc.uids[i].n) := by
    rw [UidSlot.entry, if_pos hpos, heq]
  refine ⟨hi, hentry, heq, ?_⟩
  rw [← h.amount uid huid,
    Ledger.amount_of_mem h.ok.nodup (List.mem_map.2 ⟨_, List.getElem_mem hi, hentry⟩)]

theorem not_mem_of_not_find {uids : List UidSlot}
    (hfind : uids.findIdx? (fun s => 0 < s.n ∧ s.uid = uid) = none) :
    uid ∉ Ledger.keys (ledger uids) := by
  rw [Ledger.mem_keys]
  rintro ⟨a, ha⟩
  obtain ⟨s, hs, hentry⟩ := List.mem_map.1 ha
  have := List.findIdx?_eq_none_iff.1 hfind s hs
  unfold UidSlot.entry at hentry
  split at hentry
  · cases hentry
    simp_all
  · cases hentry

theorem lockCharge_balanced (h : Balanced acc m) (hc : lockCharge uid acc = some acc') :
    Balanced acc' (uid ::ₘ m) := by
  have hcard : acc.nlocks + 1 = (uid ::ₘ m).card := by rw [h.nlocks, Multiset.card_cons]; rfl
  have hrest : ∀ u ≠ uid, (uid ::ₘ m).count u = m.count u :=
    fun u hu => Multiset.count_cons_of_ne hu m
  unfold lockCharge at hc
  split at hc
  · cases hc
  split at hc
  · next h0 =>
    cases hc
    refine ⟨hcard, h.ok, fun u hu => ?_⟩
    rw [hrest u (h0 ▸ hu)]
    exact h.amount u hu
  next huid =>
  split at hc
  · cases hc
  next i hslot =>
  have hfound : ∃ hi : i < acc.uids.length,
      ((∃ a, acc.uids[i].entry = some (uid, a)) ∨ acc.uids[i].entry = none ∧
      uid ∉ Ledger.keys (ledger acc.uids)) ∧ acc.uids[i].n = m.count uid := by
    unfold chargeSlot at hslot
    split at hslot
    · next hfind =>
      cases hslot
      obtain ⟨hi, hentry, -, hn⟩ := h.entry_of_find huid hfind
      exact ⟨hi, Or.inl ⟨_, hentry⟩, hn⟩
    · next hfind =>
      have hnot := not_mem_of_not_find hfind
      obtain ⟨hi, hfree, -⟩ := List.findIdx?_eq_some_iff_getElem.1 hslot
      have hn := of_decide_eq_true hfree
      refine ⟨hi, Or.inr ⟨if_neg (by omega), hnot⟩, ?_⟩
      rw [hn, ← h.amount uid huid, Ledger.amount_of_not_mem hnot]
  obtain ⟨hi, hslot, hn⟩ := hfound
  simp only [List.getD_eq_getElem _ _ hi] at hc
  split at hc <;> cases hc
  exact h.set hi hslot hcard (by rw [Multiset.count_cons_self, hn]; rfl) (by show _ + 1 ≤ _; omega)
    rfl hrest

theorem lockUncharge_balanced (h : Balanced acc (uid ::ₘ m)) :
    Balanced (lockUncharge uid acc) m := by
  have hcard : acc.nlocks - 1 = m.card := by
    rw [h.nlocks, Multiset.card_cons]
    omega
  have hrest : ∀ u ≠ uid, m.count u = (uid ::ₘ m).count u :=
    fun u hu => (Multiset.count_cons_of_ne hu m).symm
  unfold lockUncharge
  simp only
  split
  · next h0 =>
    refine ⟨hcard, h.ok, fun u hu => ?_⟩
    rw [hrest u (h0 ▸ hu)]
    exact h.amount u hu
  next huid =>
  split
  · next hfind =>
    have hzero := h.amount uid huid
    rw [Ledger.amount_of_not_mem (not_mem_of_not_find hfind), Multiset.count_cons_self] at hzero
    omega
  · next i hfind =>
    obtain ⟨hi, hentry, huid', hn⟩ := h.entry_of_find huid hfind
    rw [List.modify_eq_set_get _ hi]
    have hle := (h.ok.bounded _ _ (List.mem_map.2 ⟨_, List.getElem_mem hi, hentry⟩)).2.2
    rw [Multiset.count_cons_self] at hn
    exact h.set hi (Or.inl ⟨_, hentry⟩) hcard (by show _ - 1 = _; simp [hn])
      (by show _ - 1 ≤ _; simp; omega) huid' hrest

theorem flkAlloc_balanced {mem : Bool} (h : Balanced acc m) :
    match flkAlloc uid mem acc with
    | .error acc' => Balanced acc' m
    | .ok acc' => Balanced acc' (uid ::ₘ m) := by
  unfold flkAlloc
  cases hc : lockCharge uid acc with
  | none => exact h
  | some acc₁ =>
    have h₁ := lockCharge_balanced h hc
    cases mem with
    | false => exact lockUncharge_balanced h₁
    | true => exact h₁

end Accounts

/-! ## The table -/

section Table

variable {t : LockTable} {acc : Accounts} {m more more' : Multiset UInt32}

/-- Whom the records of a list are charged to. -/
def uidsOf (ls : List Flk) : Multiset UInt32 := ls.map fun l => l.val.uid

theorem uidsOf_cons (l : Flk) (ls : List Flk) : uidsOf (l :: ls) = l.val.uid ::ₘ uidsOf ls := rfl

theorem unlockWalk_balanced (req : Request) (mem : Bool) {ls : List Flk}
    (h : Balanced acc (uidsOf ls + m)) :
    Balanced (unlockWalk req mem ls acc).2.2 (uidsOf (unlockWalk req mem ls acc).2.1 + m) := by
  induction ls generalizing acc m with
  | nil => exact h
  | cons l ls ih =>
    -- a record that stays, in whatever range
    have hkeep := ih (m := l.val.uid ::ₘ m) (by rwa [Multiset.add_cons, ← Multiset.cons_add])
    rw [Multiset.add_cons, ← Multiset.cons_add] at hkeep
    unfold unlockWalk
    split
    · exact hkeep
    split
    · have halloc := @flkAlloc_balanced acc _ l.val.uid mem h
      rw [← Multiset.cons_add] at halloc
      cases hc : flkAlloc l.val.uid mem acc <;> rw [hc] at halloc <;> exact halloc
    split
    · exact hkeep
    split
    · exact hkeep
    · refine ih (lockUncharge_balanced ?_)
      rwa [← Multiset.cons_add]

theorem dropWalk_balanced (sel : LockInfo → Bool) {ls : List Flk}
    (h : Balanced acc (uidsOf ls + m)) :
    Balanced (dropWalk sel ls acc).2 (uidsOf (dropWalk sel ls acc).1 + m) := by
  induction ls generalizing acc m with
  | nil => exact h
  | cons l ls ih =>
    unfold dropWalk
    split
    · refine ih (lockUncharge_balanced ?_)
      rwa [← Multiset.cons_add]
    · have hkeep := ih (m := l.val.uid ::ₘ m) (by rwa [Multiset.add_cons, ← Multiset.cons_add])
      rwa [Multiset.add_cons, ← Multiset.cons_add] at hkeep

/-- The counts are those of the records of the table and of what a call holds besides. -/
def LockTable.Exact (t : LockTable) (more : Multiset UInt32) : Prop :=
  Balanced t.accounts (uidsOf t.locks + more)

/-- The records of one list, and the others. -/
theorem uidsOf_locks (i : Fin lockHash) :
    uidsOf t.locks = uidsOf (t.hash i) +
      uidsOf (((List.finRange lockHash).erase i).flatMap t.hash) := by
  simp only [uidsOf, Multiset.coe_add, ← List.map_append, ← List.flatMap_cons]
  exact Multiset.coe_eq_coe.2
    (((List.perm_cons_erase (List.mem_finRange i)).flatMap_right t.hash).map _)

/-- One list is replaced, and the counts with it. -/
theorem LockTable.Exact.update {i : Fin lockHash} {ls : List Flk} (h : t.Exact more)
    (hwalk : ∀ m, Balanced t.accounts (uidsOf (t.hash i) + (m + more)) →
      Balanced acc (uidsOf ls + (m + more'))) :
    LockTable.Exact ⟨Function.update t.hash i ls, acc⟩ more' := by
  unfold Exact at h ⊢
  rw [uidsOf_locks i, add_assoc] at h ⊢
  have hrest : ((List.finRange lockHash).erase i).flatMap (Function.update t.hash i ls) =
      ((List.finRange lockHash).erase i).flatMap t.hash := by
    refine List.flatMap_congr fun j hj => Function.update_of_ne ?_ ..
    exact ((List.nodup_finRange lockHash).mem_erase_iff.1 hj).1
  simp only [Function.update_self, hrest]
  exact hwalk _ h

theorem LockTable.Exact.unlockRange (h : t.Exact more) (req : Request) (mem : Bool) :
    (unlockRange t req mem).2.Exact more :=
  h.update fun _ => unlockWalk_balanced req mem

theorem LockTable.Exact.setLockLocked (h : t.Exact 0) (req : Request) (nb : Bool) (env : Env) :
    (setLockLocked t req nb env).table.Exact 0 := by
  unfold Flock.setLockLocked
  rcases req.type with _ | type
  · exact h.unlockRange req env.memSplit
  simp only
  split
  · split
    · exact h
    split <;> exact h
  have halloc := @flkAlloc_balanced t.accounts _ env.uid env.memNew h
  cases hc : flkAlloc env.uid env.memNew t.accounts with
  | error acc =>
    rw [hc] at halloc
    exact halloc
  | ok acc =>
    -- the new record is charged, and not in its list
    rw [hc, ← Multiset.add_cons] at halloc
    have hnew : LockTable.Exact { t with accounts := acc } (env.uid ::ₘ 0) := halloc
    have hcleared := hnew.unlockRange req env.memSplit
    simp only
    split
    · refine lockUncharge_balanced ?_
      rwa [← Multiset.add_cons]
    · refine hcleared.update fun m h => ?_
      rw [Multiset.add_cons, Multiset.add_cons] at h
      rwa [uidsOf_cons, Multiset.cons_add]

theorem exact_of_run {es : List Event} (hrun : Run system es t) : t.Exact 0 := by
  refine Run.invariant (P := fun t => t.Exact 0) ?_ ?_ hrun
  · rintro _ rfl
    have hempty : Ledger.Ok locksPerUid (ledger emptyTable.accounts.uids) ∧ _ :=
      Ledger.replicate_spec locksPerUid lockUidSlots
    exact ⟨rfl, hempty.1, fun uid _ => hempty.2 uid⟩
  · rintro t e _ h rfl
    exact apply_keeps (P := fun t => t.Exact 0) (fun _ req nb env h => h.setLockLocked req nb env)
      (fun _ req mem h => h.unlockRange req mem)
      (fun _ sel _ h => h.update fun _ => dropWalk_balanced sel) h e

end Table

/-- **A lock request that fails leaves the table as it was, and the counts are exact** in every
state of every run. -/
theorem record_locks_exact {es : List Event} {t : LockTable} (hrun : Run system es t) :
    (∀ f ofd uarg table newFid env r t', flockFcntl t f ofd false uarg table newFid env =
      .ret r t' → r ≠ 0 → t'.hash = t.hash) ∧
    t.accounts.nlocks = t.locks.length ∧ (Ledger.keys (ledger t.accounts.uids)).Nodup ∧
    ∀ uid ≠ 0, Ledger.amount (ledger t.accounts.uids) uid = (t.locks.map fun l => l.val.uid).count
      uid := by
  obtain ⟨hnlocks, hok, hamount⟩ := exact_of_run hrun
  rw [add_zero] at hnlocks hamount
  refine ⟨fun f ofd uarg table newFid env r t' h hr => ?_, ?_, hok.nodup, fun uid hu => ?_⟩
  · unfold flockFcntl at h
    split at h
    · cases h
      rfl
    next req _ =>
    rcases setLockLocked_cases (inv_of_run hrun) req _ env with ⟨acc, h', -⟩ | ⟨type, acc, h', -⟩
      | ⟨r', acc, -, h'⟩ | h'
    all_goals
      rw [h] at h'
      cases h'
    · exact absurd rfl hr
    · exact absurd rfl hr
    · rfl
  · rw [hnlocks, uidsOf, Multiset.coe_card, List.length_map]
  · rw [hamount uid hu, uidsOf, Multiset.coe_count]

/-- Another user locks bytes 20 to 29 of the same file, and wants byte 5 as well. -/
def otherEnv : Env := ⟨1001, 43, false, true, true⟩

def lockTwenty : Event := .fcntl someFile false false (some ⟨1, 0, 20, 10, 0⟩) 0x4000 9 otherEnv

def sharedTable : LockTable := (lockTwenty.apply (lockTen.apply emptyTable).table).table

/-- With a lock of each of two users in the table, the second request of the one is refused, and
changes nothing. -/
theorem refused_exact_counts :
    (∃ t', flockFcntl sharedTable someFile false false (some ⟨1, 0, 5, 1, 0⟩) 0x4000 9 otherEnv =
      .ret (-eagain) t' ∧ t'.hash = sharedTable.hash) ∧
    sharedTable.accounts.nlocks = 2 ∧ sharedTable.accounts.nlocks = sharedTable.locks.length ∧
    Ledger.amount (ledger sharedTable.accounts.uids) 1000 =
      (sharedTable.locks.map fun l => l.val.uid).count 1000 ∧
    Ledger.amount (ledger sharedTable.accounts.uids) 1001 =
      (sharedTable.locks.map fun l => l.val.uid).count 1001 := by
  have hrun : Run system [lockTwenty, lockTen] sharedTable := .step (.step (.init rfl) rfl) rfl
  obtain ⟨hrefused, hnlocks, -, hamount⟩ := record_locks_exact hrun
  have hagain : flockFcntl sharedTable someFile false false (some ⟨1, 0, 5, 1, 0⟩) 0x4000 9
      otherEnv = .ret (-eagain) sharedTable := by rfl
  refine ⟨⟨_, hagain, ?_⟩, by decide +kernel, hnlocks, hamount 1000 (by decide),
    hamount 1001 (by decide)⟩
  exact hrefused _ _ _ _ _ _ _ _ hagain (by decide)

end MaeroOS.Flock
