import Mathlib.Data.Set.Basic
import MaeroOS.Flock.Basic

/-!
# Record locks as a map

What the lock table is for: an assignment of lock types to the bytes of files, one per owner. The
abstract model is a set of entries (file, kind, owner, byte, type), and a granted request replaces
the requester's entries in its range and nothing else (`LockMap.assign`).

The table represents that set because of one invariant: two records on a file overlap only if
different owners hold them, and both for reading, or if one of them is a `flock` and the other is
not. `unlock_range` depends on it for more than its result. It stops after punching a hole, which is
right only because a record around the whole range leaves no room for another one of the owner.
-/

namespace MaeroOS.Flock

open List
open Lib (Run)
open Lib.RangeList (Ranged Covers Apart remove)

/-! ## The abstract model -/

/-- One byte of one file locked by one owner. -/
structure Entry where
  file : FKey
  kind : Kind
  owner : UInt32
  byte : Int
  type : LockType

abbrev LockMap := Set Entry

/-- The entries a request is about. -/
def Request.About (req : Request) (e : Entry) : Prop :=
  e.file = req.file ∧ e.kind = req.kind ∧ e.owner = req.owner ∧ req.start ≤ e.byte ∧
    e.byte ≤ req.stop

/-- The requester's bytes in the range get the new type, or none; everything else stays. -/
def LockMap.assign (m : LockMap) (req : Request) : LockMap :=
  { e | (req.About e ∧ req.type = some e.type) ∨ (¬ req.About e ∧ e ∈ m) }

/-! ## What a table stands for -/

/-- The entry is one of those a record with this value makes. -/
def Entry.Of (e : Entry) (i : LockInfo) : Prop :=
  i.file = e.file ∧ i.kind = e.kind ∧ i.owner = e.owner ∧ i.type = e.type

/-- The entries of all the records, wherever they hang. -/
def LockTable.entries (t : LockTable) : LockMap :=
  { e | ∃ i v, Covers (t.hash i) v e.byte ∧ e.Of v }

/-- Records with these values must not overlap. -/
def Exclusive (a b : LockInfo) : Prop :=
  a.file = b.file ∧ bsdKind a.kind = bsdKind b.kind ∧
    ((a.kind = b.kind ∧ a.owner = b.owner) ∨ ¬ (a.type = .rdlck ∧ b.type = .rdlck))

/-- The invariant of the table: every record hangs where its file says, has a range a file can have,
and overlaps no record it excludes. -/
structure Inv (t : LockTable) : Prop where
  placed : ∀ i, ∀ l ∈ t.hash i, bucket l.val.file = i
  ranged : ∀ i, ∀ l ∈ t.hash i, l.lo ≤ l.hi
  apart : ∀ i, Apart Exclusive (t.hash i)

/-! ## Walking a list -/

section Walk

variable {req : Request} {mem : Bool}

theorem owns_iff {i : LockInfo} : req.owns i = true ↔
    i.file = req.file ∧ i.kind = req.kind ∧ i.owner = req.owner := by
  simp [Request.owns]

theorem exclusive_of_owns {a b : LockInfo} (ha : req.owns a = true) (hb : req.owns b = true) :
    Exclusive a b := by
  obtain ⟨ha₁, ha₂, ha₃⟩ := owns_iff.mp ha
  obtain ⟨hb₁, hb₂, hb₃⟩ := owns_iff.mp hb
  exact ⟨ha₁.trans hb₁.symm, by rw [ha₂, hb₂], Or.inl ⟨ha₂.trans hb₂.symm, ha₃.trans hb₃.symm⟩⟩

/-- `unlock_range` of a request, as it is meant. -/
def cleared (req : Request) (ls : List Flk) : List Flk := remove req.owns req.start req.stop ls

theorem cleared_cons (l : Flk) (ls : List Flk) :
    cleared req (l :: ls) = l.cut req.owns req.start req.stop ++ cleared req ls := rfl

/-- The record is looked at: it is the owner's and meets the range. -/
def Hit (req : Request) (l : Flk) : Prop :=
  req.owns l.val = true ∧ l.lo ≤ req.stop ∧ req.start ≤ l.hi

theorem not_skip_iff {l : Flk} : ¬ (req.owns l.val = false ∨ l.hi < req.start ∨ req.stop < l.lo) ↔
    Hit req l := by
  unfold Hit
  cases req.owns l.val
  · simp
  · simp only [Bool.true_eq_false, false_or, true_and]
    omega

/-- **The walk of `unlock_range`**: it clears the range, or it has no memory for a split and has
changed nothing. -/
theorem unlockWalk_spec (mem : Bool) : ∀ (ls : List Flk) (acc : Accounts), Apart Exclusive ls →
    ∃ acc', unlockWalk req mem ls acc = (0, cleared req ls, acc') ∨
      (∃ l ∈ ls, Hit req l ∧ l.lo < req.start ∧ req.stop < l.hi) ∧ unlockWalk req mem ls acc =
        (-enolck, ls, acc') := by
  intro ls
  induction ls with
  | nil => exact fun acc _ => ⟨acc, Or.inl rfl⟩
  | cons l ls ih =>
    intro acc hap
    obtain ⟨hl, hls⟩ := pairwise_cons.mp hap
    rw [cleared_cons]
    unfold unlockWalk
    by_cases hskip : req.owns l.val = false ∨ l.hi < req.start ∨ req.stop < l.lo
    · rw [if_pos hskip, Ranged.cut_of_not_overlap fun h => not_skip_iff.mpr h hskip]
      obtain ⟨acc', hacc | ⟨⟨m, hm, hhole⟩, hacc⟩⟩ := ih acc hls
      · exact ⟨acc', Or.inl (by rw [hacc]; rfl)⟩
      · exact ⟨acc', Or.inr ⟨⟨m, mem_cons_of_mem l hm, hhole⟩, by rw [hacc]⟩⟩
    have hhit := not_skip_iff.mp hskip
    have hfar : ∀ m ∈ ls, req.owns m.val = true → l.hi < m.lo ∨ m.hi < l.lo :=
      fun m hm hown => hl m hm (exclusive_of_owns hhit.1 hown)
    rw [if_neg hskip, Ranged.cut, if_pos (show req.owns l.val = true ∧ _ from hhit)]
    by_cases hhole : l.lo < req.start ∧ req.stop < l.hi
    · -- the range is inside `l`, so no other record of the owner meets it
      have hrest : cleared req ls = ls := by
        refine Lib.RangeList.remove_of_misses fun m hm hown => ?_
        rcases hfar m hm hown with h | h
        · exact Or.inr (by omega)
        · exact Or.inl (by omega)
      rw [hrest, if_pos hhole, if_pos hhole.1, if_pos hhole.2]
      cases flkAlloc l.val.uid mem acc with
      | error acc' => exact ⟨acc', Or.inr ⟨⟨l, mem_cons_self, hhit, hhole⟩, rfl⟩⟩
      | ok acc' => exact ⟨acc', Or.inl rfl⟩
    · -- `l` meets the range, so no later record of the owner can be around it
      have hrest : ∀ acc, ∃ acc', unlockWalk req mem ls acc = (0, cleared req ls, acc') := by
        intro acc
        obtain ⟨acc', hacc | ⟨⟨m, hm, hhit', h₁, h₂⟩, -⟩⟩ := ih acc hls
        · exact ⟨acc', hacc⟩
        · obtain ⟨-, h₃, h₄⟩ := hhit
          rcases hfar m hm hhit'.1 with h | h <;> omega
      rw [if_neg hhole]
      by_cases hleft : l.lo < req.start
      · obtain ⟨acc', hacc⟩ := hrest acc
        rw [if_pos hleft, if_pos hleft, hacc, if_neg fun h => hhole ⟨hleft, h⟩]
        exact ⟨acc', Or.inl rfl⟩
      rw [if_neg hleft, if_neg hleft]
      by_cases hright : req.stop < l.hi
      · obtain ⟨acc', hacc⟩ := hrest acc
        rw [if_pos hright, if_pos hright, hacc]
        exact ⟨acc', Or.inl rfl⟩
      · rw [if_neg hright, if_neg hright]
        obtain ⟨acc', hacc⟩ := hrest (lockUncharge l.val.uid acc)
        exact ⟨acc', Or.inl hacc⟩

theorem dropWalk_fst (sel : LockInfo → Bool) : ∀ (ls : List Flk) (acc : Accounts),
    (dropWalk sel ls acc).1 = ls.filter fun l => !sel l.val := by
  intro ls
  induction ls with
  | nil => exact fun _ => rfl
  | cons l ls ih =>
    intro acc
    unfold dropWalk
    by_cases hsel : sel l.val = true
    · rw [if_pos hsel, ih]
      simp [hsel]
    · rw [if_neg hsel]
      simp [hsel, ih]

end Walk

/-! ## The table operations -/

section Table

variable {t : LockTable} {req : Request} {type : LockType}

theorem setBucket_hash_self (t : LockTable) (k : FKey) (ls : List Flk) (acc : Accounts) :
    (t.setBucket k ls acc).hash (bucket k) = ls := by
  simp [LockTable.setBucket]

theorem setBucket_hash_ne (t : LockTable) {k : FKey} {i : Fin lockHash} (ls : List Flk)
    (acc : Accounts) (h : i ≠ bucket k) : (t.setBucket k ls acc).hash i = t.hash i := by
  simp [LockTable.setBucket, h]

/-- Replacing one list by one that keeps what the invariant asks of it. -/
theorem Inv.update (hi : Inv t) {i : Fin lockHash} {ls : List Flk} {acc : Accounts}
    (hplaced : ∀ l ∈ ls, bucket l.val.file = i) (hranged : ∀ l ∈ ls, l.lo ≤ l.hi)
    (hapart : Apart Exclusive ls) : Inv ⟨Function.update t.hash i ls, acc⟩ := by
  refine ⟨?_, ?_, ?_⟩
  all_goals
    intro j
    show _
    by_cases hj : j = i
  · subst hj; simpa using hplaced
  · simpa [hj] using hi.placed j
  · subst hj; simpa using hranged
  · simpa [hj] using hi.ranged j
  · subst hj; simpa using hapart
  · simpa [hj] using hi.apart j

/-- The list of the request's file without the range. -/
theorem Inv.cleared (hi : Inv t) (req : Request) :
    (∀ l ∈ cleared req (t.hash (bucket req.file)), bucket l.val.file = bucket req.file) ∧
      (∀ l ∈ cleared req (t.hash (bucket req.file)), l.lo ≤ l.hi) ∧
      Apart Exclusive (cleared req (t.hash (bucket req.file))) := by
  refine ⟨?_, ?_, (hi.apart _).remove req.start_le_stop⟩
  · intro l hl
    obtain ⟨m, hm, hcut⟩ := Lib.RangeList.mem_remove.mp hl
    rw [(Ranged.mem_cut hcut).1]
    exact hi.placed _ m hm
  · intro l hl
    obtain ⟨m, hm, hcut⟩ := Lib.RangeList.mem_remove.mp hl
    exact (Ranged.mem_cut hcut).2.2.2.1 (hi.ranged _ m hm) req.start_le_stop

/-- `unlock_range` clears the range, or fails and leaves the records as they were. -/
theorem unlockRange_spec (hi : Inv t) (req : Request) (mem : Bool) : ∃ acc,
    unlockRange t req mem = (0, t.setBucket req.file (cleared req (t.hash (bucket req.file))) acc) ∨
      unlockRange t req mem = (-enolck, { t with accounts := acc }) := by
  unfold unlockRange
  obtain ⟨acc, hacc | ⟨-, hacc⟩⟩ := unlockWalk_spec mem _ t.accounts (hi.apart (bucket req.file))
  · exact ⟨acc, Or.inl (by rw [hacc])⟩
  refine ⟨acc, Or.inr ?_⟩
  rw [hacc]
  simp only [LockTable.setBucket, Function.update_eq_self]

theorem mem_entries_setBucket {k : FKey} {ls : List Flk} {acc : Accounts} {e : Entry} :
    e ∈ (t.setBucket k ls acc).entries ↔
      (∃ v, Covers ls v e.byte ∧ e.Of v) ∨ ∃ i ≠ bucket k, ∃ v, Covers (t.hash i) v e.byte ∧
        e.Of v := by
  constructor
  · rintro ⟨i, v, hcov, hof⟩
    by_cases hik : i = bucket k
    · rw [hik, setBucket_hash_self] at hcov
      exact Or.inl ⟨v, hcov, hof⟩
    · rw [setBucket_hash_ne t ls acc hik] at hcov
      exact Or.inr ⟨i, hik, v, hcov, hof⟩
  · rintro (⟨v, hcov, hof⟩ | ⟨i, hik, v, hcov, hof⟩)
    · exact ⟨bucket k, v, by rwa [setBucket_hash_self], hof⟩
    · exact ⟨i, v, by rwa [setBucket_hash_ne t ls acc hik], hof⟩

/-- The entries of the table with the range cleared. -/
theorem entries_cleared (hi : Inv t) (req : Request) (acc : Accounts) :
    (t.setBucket req.file (cleared req (t.hash (bucket req.file))) acc).entries =
      { e | ¬ req.About e ∧ e ∈ t.entries } := by
  ext e
  rw [mem_entries_setBucket]
  constructor
  · rintro (⟨v, hcov, hof⟩ | ⟨i, hib, v, hcov, hof⟩)
    · obtain ⟨hold, hout⟩ := (Lib.RangeList.covers_remove v e.byte).mp hcov
      refine ⟨fun habout => hout ⟨owns_iff.mpr ?_, habout.2.2.2⟩, bucket req.file, v, hold, hof⟩
      exact ⟨hof.1.trans habout.1, hof.2.1.trans habout.2.1, hof.2.2.1.trans habout.2.2.1⟩
    · refine ⟨fun habout => hib ?_, i, v, hcov, hof⟩
      obtain ⟨l, hl, hval, -⟩ := hcov
      rw [← habout.1, ← hof.1, ← hval]
      exact (hi.placed i l hl).symm
  · rintro ⟨hnot, i, v, hcov, hof⟩
    by_cases hib : i = bucket req.file
    · refine Or.inl ⟨v, (Lib.RangeList.covers_remove v e.byte).mpr ⟨hib ▸ hcov, fun ⟨hown, hin⟩ =>
        hnot ?_⟩, hof⟩
      obtain ⟨h₁, h₂, h₃⟩ := owns_iff.mp hown
      exact ⟨hof.1.symm.trans h₁, hof.2.1.symm.trans h₂, hof.2.2.1.symm.trans h₃, hin⟩
    · exact Or.inr ⟨i, hib, v, hcov, hof⟩

/-- A record that does not stand in the way of a new one overlaps it only if the new one's owner
holds it, or if they do not exclude each other. -/
theorem apart_of_not_conflicts {l : Flk} (h : conflicts l req type = false)
    (hown : req.owns l.val = false) {n : LockInfo}
    (hn : n.file = req.file ∧ n.kind = req.kind ∧ n.owner = req.owner ∧ n.type = type)
    (hex : Exclusive n l.val) : req.stop < l.lo ∨ l.hi < req.start := by
  obtain ⟨hn₁, hn₂, hn₃, hn₄⟩ := hn
  obtain ⟨hfile, hbsd, hcase⟩ := hex
  have hfile' : l.val.file = req.file := hfile.symm.trans hn₁
  have hsame : ¬ (l.val.kind = req.kind ∧ l.val.owner = req.owner) := fun hs =>
    absurd (owns_iff.mpr ⟨hfile', hs.1, hs.2⟩) (by simp [hown])
  have hread : ¬ (l.val.type = .rdlck ∧ type = .rdlck) := by
    rcases hcase with ⟨hk, ho⟩ | hr
    · exact absurd ⟨hk.symm.trans hn₂, ho.symm.trans hn₃⟩ hsame
    · exact fun h => hr ⟨hn₄.trans h.2, h.1⟩
  have hkind : ¬ (l.val.file ≠ req.file ∨ bsdKind l.val.kind ≠ bsdKind req.kind) := by
    rw [← hn₂]
    simp [hfile', hbsd]
  unfold conflicts at h
  rw [if_neg hkind, if_neg hsame, if_neg hread] at h
  have := of_decide_eq_false h
  omega

/-- The record `set_lock_locked` makes for a request. -/
def newLock (req : Request) (type : LockType) (env : Env) : Flk :=
  ⟨req.start, req.stop, req.file, req.kind, type, req.owner, env.tgid, env.uid⟩

/-- The table after a granted lock: the range cleared, and the new record in front. -/
def granted (t : LockTable) (req : Request) (type : LockType) (env : Env) (acc : Accounts) :
    LockTable :=
  t.setBucket req.file (newLock req type env :: cleared req (t.hash (bucket req.file))) acc

variable (hi : Inv t)

include hi

/-- Everything `set_lock_locked` can do with the table. -/
theorem setLockLocked_cases (req : Request) (nb : Bool) (env : Env) :
    (∃ acc, setLockLocked t req nb env =
      .ret 0 (t.setBucket req.file (cleared req (t.hash (bucket req.file))) acc) ∧
      req.type = none) ∨
    (∃ type acc, setLockLocked t req nb env = .ret 0 (granted t req type env acc) ∧
      req.type = some type ∧ (findConflict t req type).isSome = false) ∨
    (∃ r acc, r ≠ 0 ∧ setLockLocked t req nb env = .ret r { t with accounts := acc }) ∨
    setLockLocked t req nb env = .sleep t := by
  unfold setLockLocked
  cases htype : req.type with
  | none =>
    obtain ⟨acc, hok | hfail⟩ := unlockRange_spec hi req env.memSplit
    · refine Or.inl ⟨acc, ?_, rfl⟩
      simp only [hok]
    · simp only [hfail]
      exact Or.inr (Or.inr (Or.inl ⟨_, acc, by decide, rfl⟩))
  | some type =>
    by_cases hconf : (findConflict t req type).isSome = true
    · simp only [if_pos hconf]
      refine Or.inr (Or.inr ?_)
      split
      · exact Or.inl ⟨_, t.accounts, by decide, rfl⟩
      split
      · exact Or.inl ⟨_, t.accounts, by decide, rfl⟩
      · exact Or.inr rfl
    · simp only [if_neg hconf]
      cases flkAlloc env.uid env.memNew t.accounts with
      | error acc => exact Or.inr (Or.inr (Or.inl ⟨_, acc, by decide, rfl⟩))
      | ok acc =>
        have hi' : Inv { t with accounts := acc } := { hi with }
        obtain ⟨acc', hok | hfail⟩ := unlockRange_spec hi' req env.memSplit
        · simp only [hok, if_neg (show ¬ (0 : Int) < 0 by decide), setBucket_hash_self]
          refine Or.inr (Or.inl ⟨type, acc', ?_, rfl, by simpa using hconf⟩)
          simp only [granted, newLock, LockTable.setBucket, Function.update_idem]
        · simp only [hfail, if_pos (show -enolck < 0 by decide)]
          exact Or.inr (Or.inr (Or.inl ⟨_, _, by decide, rfl⟩))

theorem Inv.granted {env : Env} {acc : Accounts}
    (hconf : (findConflict t req type).isSome = false) : Inv (granted t req type env acc) := by
  obtain ⟨hplaced, hranged, hapart⟩ := hi.cleared req
  refine hi.update ?_ ?_ (pairwise_cons.mpr ⟨fun l hl hex => ?_, hapart⟩)
  · exact forall_mem_cons.mpr ⟨rfl, hplaced⟩
  · exact forall_mem_cons.mpr ⟨req.start_le_stop, hranged⟩
  · show req.stop < l.lo ∨ l.hi < req.start
    by_cases hown : req.owns l.val = true
    · have := Lib.RangeList.remove_misses req.start_le_stop (hi.ranged _) hl hown
      omega
    · -- another owner's record was not touched, and did not stand in the way
      obtain ⟨m, hm, hcut⟩ := Lib.RangeList.mem_remove.mp hl
      have hval := (Ranged.mem_cut hcut).1
      have hml : l = m := by
        rw [Ranged.cut_of_not_overlap fun h => hown (hval ▸ h.1)] at hcut
        exact mem_singleton.mp hcut
      subst hml
      rw [findConflict, Option.isSome_eq_false_iff, Option.isNone_iff_eq_none,
        find?_eq_none] at hconf
      have hno : conflicts l req type = false := by simpa using hconf l hm
      exact apart_of_not_conflicts hno (by simpa using hown) ⟨rfl, rfl, rfl, rfl⟩ hex

theorem Inv.setLockLocked (req : Request) (nb : Bool) (env : Env) :
    Inv (setLockLocked t req nb env).table := by
  obtain ⟨hplaced, hranged, hapart⟩ := hi.cleared req
  rcases setLockLocked_cases hi req nb env with ⟨acc, h, -⟩ | ⟨type, acc, h, -, hconf⟩ |
    ⟨r, acc, -, h⟩ | h
  · rw [h]
    exact hi.update hplaced hranged hapart
  · rw [h]
    exact hi.granted hconf
  · rw [h]
    exact { hi with }
  · rw [h]
    exact hi

/-- **A granted request is an assignment.** -/
theorem setLockLocked_granted {nb : Bool} {env : Env} {t' : LockTable}
    (h : setLockLocked t req nb env = .ret 0 t') : t'.entries = t.entries.assign req := by
  rcases setLockLocked_cases hi req nb env with ⟨acc, h', htype⟩ | ⟨type, acc, h', htype, -⟩ |
    ⟨r, acc, hr, h'⟩ | h'
  · rw [h] at h'
    cases h'
    rw [entries_cleared hi]
    ext e
    simp [LockMap.assign, htype]
  · rw [h] at h'
    cases h'
    have hclear := Set.ext_iff.mp (entries_cleared hi req acc)
    ext e
    -- an entry of the new table is the new record's or one that was left
    have hnew : (∃ v, ((newLock req type env).val = v ∧ (newLock req type env).Has e.byte) ∧
        e.Of v) ↔ req.About e ∧ req.type = some e.type := by
      rw [htype, Option.some_inj]
      constructor
      · rintro ⟨_, ⟨rfl, hin⟩, h₁, h₂, h₃, h₄⟩
        exact ⟨⟨h₁.symm, h₂.symm, h₃.symm, hin⟩, h₄⟩
      · rintro ⟨⟨h₁, h₂, h₃, hin⟩, h₄⟩
        exact ⟨_, ⟨rfl, hin⟩, h₁.symm, h₂.symm, h₃.symm, h₄⟩
    have hleft := hclear e
    rw [mem_entries_setBucket] at hleft
    simp only [granted, mem_entries_setBucket, Lib.RangeList.covers_cons, or_and_right, exists_or,
      or_assoc, hnew, hleft]
    rfl
  · rw [h] at h'
    cases h'
    exact absurd rfl hr
  · rw [h] at h'
    cases h'

theorem Inv.dropIn (sel : LockInfo → Bool) (i : Fin lockHash) : Inv (dropIn t sel i) := by
  have hfst := dropWalk_fst sel (t.hash i) t.accounts
  show Inv ⟨Function.update t.hash i (dropWalk sel (t.hash i) t.accounts).1, _⟩
  rw [hfst]
  exact hi.update (fun l hl => hi.placed i l (mem_filter.mp hl).1)
    (fun l hl => hi.ranged i l (mem_filter.mp hl).1) ((hi.apart i).filter _)

theorem Inv.unlockRange (req : Request) (mem : Bool) : Inv (unlockRange t req mem).2 := by
  obtain ⟨acc, hok | hfail⟩ := unlockRange_spec hi req mem
  · rw [hok]
    obtain ⟨hplaced, hranged, hapart⟩ := hi.cleared req
    exact hi.update hplaced hranged hapart
  · rw [hfail]
    exact { hi with }

end Table

/-! ## Whole runs -/

section Runs

variable {P : LockTable → Prop} (hset : ∀ t req nb env, P t → P (setLockLocked t req nb env).table)
  (hunlock : ∀ t req mem, P t → P (unlockRange t req mem).2) (hdrop : ∀ t sel i, P t →
    P (dropIn t sel i))
  {t : LockTable} (h : P t)

include hdrop h

theorem dropAll_keeps (sel : LockInfo → Bool) : P (dropAll t sel) := by
  unfold dropAll
  generalize finRange lockHash = is
  induction is generalizing t with
  | nil => exact h
  | cons i is ih => exact ih (hdrop _ sel i h)

theorem flockFdClosed_keeps (f : ProcFile) (table : Option UInt32) (fidInUse : Bool) :
    P (flockFdClosed t f table fidInUse) := by
  unfold flockFdClosed
  split
  · exact h
  next node _ =>
  have h₁ : P (closePosix t (keyOf node) table) := by
    cases table with
    | none => exact h
    | some table => exact hdrop _ _ _ h
  show P (if _ then _ else if _ then _ else _)
  split
  · exact h
  split
  · exact hdrop _ _ _ h₁
  · exact h₁

include hset hunlock

/-- **What the calls are made of**: a property of the table that taking a lock, clearing a range and
dropping locks from a list keep is kept by every call. -/
theorem apply_keeps (e : Event) : P (e.apply t).table := by
  cases e with
  | fcntl f ofd wait uarg table newFid env =>
    show P (flockFcntl t f ofd wait uarg table newFid env).table
    unfold flockFcntl
    split
    · exact h
    · exact hset _ _ _ _ h
  | woken req fdUnchanged env =>
    show P (setLockWoken t req fdUnchanged env).table
    unfold setLockWoken
    split
    · exact hset _ _ _ _ h
    · exact h
  | flock f op newFid env =>
    show P (flockBsd t f op newFid env).table
    unfold flockBsd bsdLock
    split
    · exact h
    split
    · exact h
    split
    · exact h
    split
    · exact h
    split
    · exact hset _ _ _ _ h
    split
    · exact h
    · exact hset _ _ _ _ (hunlock _ _ _ h)
  | fdClosed f table fidInUse => exact flockFdClosed_keeps hdrop h f table fidInUse
  | ownerGone owner =>
    show P (flockOwnerGone t owner)
    unfold flockOwnerGone
    split
    · exact h
    · exact dropAll_keeps hdrop h _

end Runs

theorem inv_of_run {es : List Event} {t : LockTable} (hrun : Run system es t) : Inv t := by
  refine hrun.invariant ?_ ?_
  · rintro _ rfl
    refine ⟨?_, ?_, fun _ => List.Pairwise.nil⟩
    all_goals exact nofun
  · rintro t e _ hi rfl
    exact apply_keeps (fun _ req nb env h => h.setLockLocked req nb env)
      (fun _ req mem h => h.unlockRange req mem) (fun _ sel i h => h.dropIn sel i) hi e

/-- All the records. -/
def LockTable.locks (t : LockTable) : List Flk := (List.finRange lockHash).flatMap t.hash

/-- Records on one file hang on one list, so what holds there holds of the whole table. -/
theorem Inv.locks_pairwise {t : LockTable} (hi : Inv t) :
    t.locks.Pairwise fun l m => Exclusive l.val m.val → l.Apart m := by
  refine pairwise_flatMap.mpr ⟨fun i _ => hi.apart i, ?_⟩
  refine (nodup_finRange lockHash).imp fun {i j} hij l hl m hm hex => ?_
  exact absurd ((hi.placed i l hl).symm.trans (by rw [hex.1]; exact hi.placed j m hm)) hij

/-- The call tries to get this lock: `fcntl` with its decoded argument, or a sleeper's next turn. -/
def Event.Attempts (req : Request) : Event → Prop
  | fcntl f ofd _ uarg table newFid _ => fcntlRequest f ofd uarg table newFid = .ok req
  | woken req' fdUnchanged _ => req' = req ∧ fdUnchanged = true
  | _ => False

/-- **The record locks are a map from bytes and owners to lock types.** In every state of every run
an owner's locks of one kind on one file are disjoint and overlapping locks of different owners are
read locks; and a request that succeeds assigns its type to the requester's bytes in its range,
leaving every other entry as it was. -/
theorem record_locks_refine {es : List Event} {t : LockTable} (hrun : Run system es t) :
    (t.locks.Pairwise fun l m =>
      l.val.file = m.val.file → l.val.kind = m.val.kind → l.val.owner = m.val.owner →
        l.Apart m) ∧
    (t.locks.Pairwise fun l m =>
      l.val.file = m.val.file → l.val.kind ≠ .flock → m.val.kind ≠ .flock →
        ¬ (l.val.kind = m.val.kind ∧ l.val.owner = m.val.owner) →
        l.Apart m ∨ (l.val.type = .rdlck ∧ m.val.type = .rdlck)) ∧
    ∀ (e : Event) (req : Request) (t' : LockTable), e.Attempts req → e.apply t = .ret 0 t' →
      t'.entries = t.entries.assign req := by
  have hi := inv_of_run hrun
  refine ⟨hi.locks_pairwise.imp ?_, hi.locks_pairwise.imp ?_, ?_⟩
  · intro l m hex hfile hkind howner
    exact hex ⟨hfile, by rw [hkind], Or.inl ⟨hkind, howner⟩⟩
  · intro l m hex hfile hl hm hne
    by_cases hread : l.val.type = .rdlck ∧ m.val.type = .rdlck
    · exact Or.inr hread
    · exact Or.inl (hex ⟨hfile, by simp [bsdKind, hl, hm], Or.inr hread⟩)
  · intro e req t' hatt happly
    cases e with
    | fcntl f ofd wait uarg table newFid env =>
      have hreq : fcntlRequest f ofd uarg table newFid = .ok req := hatt
      simp only [Event.apply, flockFcntl, hreq] at happly
      exact setLockLocked_granted hi happly
    | woken req' fdUnchanged env =>
      obtain ⟨rfl, rfl⟩ := hatt
      exact setLockLocked_granted hi happly
    | flock f op newFid env | fdClosed f table fidInUse | ownerGone owner => exact hatt.elim

/-- A descriptor open for reading and writing on inode 12. -/
def someFile : ProcFile :=
  ⟨.file, some ⟨0x1000, 0, 12, 0x2000, 100⟩, 0, 7, true, true⟩

def someEnv : Env := ⟨1000, 42, false, true, true⟩

/-- `F_SETLK` of a lock over bytes 0 to 9, and of an unlock of bytes 3 to 5. -/
def lockTen : Event := .fcntl someFile false false (some ⟨1, 0, 0, 10, 0⟩) 0x3000 8 someEnv

def unlockMiddle : Event := .fcntl someFile false false (some ⟨2, 0, 3, 3, 0⟩) 0x3000 8 someEnv

def middle : Request :=
  ⟨⟨0, 12, 0x2000⟩, .posix, 0x3000, none, 3, 5, by decide, by decide, by decide⟩

/-- Punching a hole into a lock. -/
theorem record_locks_refine_hole :
    Run system [lockTen] (lockTen.apply emptyTable).table ∧
      (unlockMiddle.apply (lockTen.apply emptyTable).table).table.entries =
        (lockTen.apply emptyTable).table.entries.assign middle := by
  have hrun : Run system [lockTen] (lockTen.apply emptyTable).table := .step (.init rfl) rfl
  exact ⟨hrun, (record_locks_refine hrun).2.2 unlockMiddle middle _ rfl rfl⟩

end MaeroOS.Flock
