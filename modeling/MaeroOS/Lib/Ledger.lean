import Mathlib.Algebra.Ring.Int.Defs
import Mathlib.Data.List.Nodup
import Mathlib.Data.List.Perm.Subperm

/-!
# Ledgers

A table of a fixed number of entries, each free or holding an integer amount for a key: a finitely
supported function `κ → ℤ` in an array. An amount that returns to zero gives its entry back, a new
one takes the first free entry, and no amount may leave `[-bound, bound]`. Posting can therefore be
refused for two reasons, and a refused posting changes nothing.

`post_spec` is all the rest of a proof needs: on a ledger without duplicate keys, a posting that
succeeds adds to one amount. A `batch` of postings that meets a refusal takes back what it has
posted, in the same order and without looking at refusals. `batch_atomic` says when that takes
everything back.
-/

namespace MaeroOS.Lib

open List

variable {κ : Type} [DecidableEq κ]

/-- The entries in table order; `none` is a free one. -/
abbrev Ledger (κ : Type) := List (Option (κ × Int))

namespace Ledger

/-- The first entry for the key. -/
def lookup (k : κ) : Ledger κ → Option Int
  | [] => none
  | none :: t => lookup k t
  | some (k', a) :: t => if k' = k then some a else lookup k t

/-- The amount of a key; a key without an entry has amount 0. -/
def amount (t : Ledger κ) (k : κ) : Int := (lookup k t).getD 0

/-- The first entry for the key, overwritten. -/
def overwrite (k : κ) (x : Option (κ × Int)) : Ledger κ → Ledger κ
  | [] => []
  | none :: t => none :: overwrite k x t
  | some (k', a) :: t => if k' = k then x :: t else some (k', a) :: overwrite k x t

/-- The first free entry, taken. -/
def take (x : κ × Int) : Ledger κ → Ledger κ
  | [] => []
  | none :: t => some x :: t
  | some e :: t => some e :: take x t

inductive Refusal where
  | bound
  | full
  deriving DecidableEq, Repr

/-- Add `d` to the amount of `k`. -/
def post (bound : Int) (k : κ) (d : Int) (t : Ledger κ) : Except Refusal (Ledger κ) :=
  match lookup k t with
  | some a =>
      if bound < a + d ∨ a + d < -bound then .error .bound
      else .ok (overwrite k (if a + d = 0 then none else some (k, a + d)) t)
  | none =>
      if d = 0 then .ok t
      else if none ∈ t then .ok (take (k, d) t)
      else .error .full

def keys (t : Ledger κ) : List κ := t.filterMap (·.map Prod.fst)

omit [DecidableEq κ] in
@[simp] theorem keys_nil : keys ([] : Ledger κ) = [] := rfl

omit [DecidableEq κ] in
@[simp] theorem keys_none (t : Ledger κ) : keys (none :: t) = keys t := rfl

omit [DecidableEq κ] in
@[simp] theorem keys_some (e : κ × Int) (t : Ledger κ) : keys (some e :: t) = e.1 :: keys t := rfl

omit [DecidableEq κ] in
theorem mem_keys {t : Ledger κ} {k : κ} : k ∈ keys t ↔ ∃ a, some (k, a) ∈ t := by
  simp [keys]

/-- No key has two entries, and every entry holds an amount within the bound that is not 0. -/
structure Ok (bound : Int) (t : Ledger κ) : Prop where
  nodup : (keys t).Nodup
  bounded : ∀ k a, some (k, a) ∈ t → a ≠ 0 ∧ -bound ≤ a ∧ a ≤ bound

variable {k k' : κ} {t t' : Ledger κ} {bound d : Int} {e x : Option (κ × Int)} {a b : Int}

/-! ## Entries -/

theorem lookup_eq_none : lookup k t = none ↔ k ∉ keys t := by
  fun_induction lookup k t with
  | case1 | case3 => simp
  | case2 t ih => simpa using ih
  | case4 k' a t hk ih => simp [ih, Ne.symm hk]

/-- The entry of a key, which `overwrite` replaces. -/
theorem split_of_lookup (h : lookup k t = some a) :
    ∃ pre post, t = pre ++ some (k, a) :: post ∧ ∀ x, overwrite k x t = pre ++ x :: post := by
  fun_induction lookup k t with
  | case1 => cases h
  | case2 t ih =>
    obtain ⟨pre, post, rfl, hover⟩ := ih h
    exact ⟨none :: pre, post, rfl, fun x => congrArg (none :: ·) (hover x)⟩
  | case3 b t =>
    cases h
    exact ⟨[], t, rfl, fun x => if_pos rfl⟩
  | case4 k' b t hk ih =>
    obtain ⟨pre, post, rfl, hover⟩ := ih h
    exact ⟨some (k', b) :: pre, post, rfl, fun x =>
      (if_neg hk).trans (congrArg (some (k', b) :: ·) (hover x))⟩

omit [DecidableEq κ] in
/-- The free entry that `take` fills. -/
theorem split_of_free (h : none ∈ t) : ∃ pre post, t = pre ++ none :: post ∧ ∀ x,
    take x t = pre ++ some x :: post := by
  induction t with
  | nil => exact absurd h not_mem_nil
  | cons e t ih =>
    match e with
    | none => exact ⟨[], t, rfl, fun _ => rfl⟩
    | some e =>
      obtain ⟨pre, post, rfl, htake⟩ := ih (by simpa using h)
      exact ⟨some e :: pre, post, rfl, fun x => congrArg (some e :: ·) (htake x)⟩

theorem lookup_of_mem (hn : (keys t).Nodup) (h : some (k, a) ∈ t) : lookup k t = some a := by
  fun_induction lookup k t with
  | case1 => exact absurd h not_mem_nil
  | case2 t ih => exact ih hn (by simpa using h)
  | case3 b t =>
    rcases mem_cons.mp h with heq | h
    · cases heq
      rfl
    · exact absurd (mem_keys.mpr ⟨a, h⟩) (nodup_cons.mp hn).1
  | case4 k' b t hk ih =>
    rcases mem_cons.mp h with heq | h
    · cases heq
      exact absurd rfl hk
    · exact ih (nodup_cons.mp hn).2 h

/-! ## Amounts -/

theorem amount_of_mem (hn : (keys t).Nodup) (h : some (k, a) ∈ t) : amount t k = a := by
  rw [amount, lookup_of_mem hn h]
  rfl

theorem amount_of_not_mem (h : k ∉ keys t) : amount t k = 0 := by
  rw [amount, lookup_eq_none.mpr h]
  rfl

/-- The amount of a key is known from the entries for it. -/
theorem amount_congr (hn : (keys t).Nodup) (hn' : (keys t').Nodup)
    (h : ∀ a, some (k, a) ∈ t' ↔ some (k, a) ∈ t) : amount t' k = amount t k := by
  by_cases hk : k ∈ keys t
  · obtain ⟨a, ha⟩ := mem_keys.mp hk
    rw [amount_of_mem hn ha, amount_of_mem hn' ((h a).mpr ha)]
  · have hk' : k ∉ keys t' := fun hk' => hk (mem_keys.mpr ((mem_keys.mp hk').imp fun a => (h a).mp))
    rw [amount_of_not_mem hk, amount_of_not_mem hk']

/-- The keys with an entry are those with an amount. -/
theorem amount_ne_zero (hok : Ok bound t) : amount t k ≠ 0 ↔ k ∈ keys t := by
  refine ⟨fun h => by_contra fun hk => h (amount_of_not_mem hk), fun hk => ?_⟩
  obtain ⟨a, ha⟩ := mem_keys.mp hk
  rw [amount_of_mem hok.nodup ha]
  exact (hok.bounded k a ha).1

theorem amount_bounded (hok : Ok bound t) (hb : 0 ≤ bound) (k : κ) :
    -bound ≤ amount t k ∧ amount t k ≤ bound := by
  by_cases hk : k ∈ keys t
  · obtain ⟨a, ha⟩ := mem_keys.mp hk
    rw [amount_of_mem hok.nodup ha]
    exact (hok.bounded k a ha).2
  · rw [amount_of_not_mem hk]
    omega

omit [DecidableEq κ] in
/-- A key stands in one place. -/
theorem index_unique (hn : (keys t).Nodup) {i j : Nat} (hi : t[i]? = some (some (k, a)))
    (hj : t[j]? = some (some (k, b))) : i = j := by
  induction t generalizing i j with
  | nil => simp at hi
  | cons e t ih =>
    have htail : (keys t).Nodup := by
      match e with
      | none => exact hn
      | some e => exact (nodup_cons.mp hn).2
    -- the key cannot be at the head and further down
    have hhead : ∀ {l : Nat} {c d : Int}, e = some (k, c) → t[l]? = some (some (k, d)) → False := by
      intro l c d he hl
      subst he
      exact (nodup_cons.mp hn).1 (mem_keys.mpr ⟨d, mem_of_getElem? hl⟩)
    match i, j with
    | 0, 0 => rfl
    | 0, j + 1 => exact (hhead (by simpa using hi) (by simpa using hj)).elim
    | i + 1, 0 => exact (hhead (by simpa using hj) (by simpa using hi)).elim
    | i + 1, j + 1 => exact congrArg (· + 1) (ih htail (by simpa using hi) (by simpa using hj))

/-- A table of free entries. -/
theorem replicate_spec (bound : Int) (n : Nat) :
    Ok bound (replicate n none : Ledger κ) ∧
      ∀ k, amount (replicate n none : Ledger κ) k = 0 := by
  have hkeys : keys (replicate n none : Ledger κ) = [] := by simp [keys]
  exact ⟨⟨hkeys ▸ nodup_nil, fun k a ha => by simp at ha⟩, fun k =>
    amount_of_not_mem (by simp [hkeys])⟩

/-- The entry of `k`, or a free one if it has none, gets the amount `d` for `k`. -/
theorem replace_spec {pre post : Ledger κ} (hok : Ok bound (pre ++ e :: post))
    (he : (∃ a, e = some (k, a)) ∨ e = none ∧ k ∉ keys (pre ++ e :: post))
    (hd : -bound ≤ d ∧ d ≤ bound) :
    Ok bound (pre ++ (if d = 0 then none else some (k, d)) :: post) ∧
      ∀ k', amount (pre ++ (if d = 0 then none else some (k, d)) :: post) k' =
        if k' = k then d else amount (pre ++ e :: post) k' := by
  have hkey : k ∉ keys (pre ++ post) := by
    have hn := hok.nodup
    rcases he with ⟨a, rfl⟩ | ⟨rfl, hnot⟩
    · simp only [keys, filterMap_append, filterMap_cons, Option.map_some, nodup_middle,
        nodup_cons] at hn ⊢
      exact hn.1
    · simpa [keys, filterMap_append] using hnot
  replace he : e = none ∨ ∃ a, e = some (k, a) := he.symm.imp_left And.left
  have hmem : ∀ {x y : Option (κ × Int)}, y ∈ pre ++ x :: post ↔ y = x ∨ y ∈ pre ++ post := by
    intro x y
    rw [mem_append, mem_cons, mem_append]
    exact or_left_comm
  have hkeys : ∀ x : Option (κ × Int), (x = none ∨ ∃ a, x = some (k, a)) →
      ((keys (pre ++ x :: post)).Nodup ↔ (keys (pre ++ post)).Nodup) := by
    rintro _ (rfl | ⟨a, rfl⟩)
    · simp only [keys, filterMap_append]
      rfl
    · simp only [keys, filterMap_append, filterMap_cons, Option.map_some, nodup_middle,
        nodup_cons] at hkey ⊢
      exact and_iff_right hkey
  obtain ⟨x, hx⟩ : ∃ x, x = if d = 0 then none else some (k, d) := ⟨_, rfl⟩
  have hxk : x = none ∨ ∃ a, x = some (k, a) := by
    rw [hx]
    split
    · exact Or.inl rfl
    · exact Or.inr ⟨d, rfl⟩
  have hn : (keys (pre ++ x :: post)).Nodup := (hkeys x hxk).mpr ((hkeys e he).mp hok.nodup)
  rw [← hx]
  refine ⟨⟨hn, fun k' b hb => ?_⟩, fun k' => ?_⟩
  · rcases hmem.mp hb with hb | hb
    · rw [hx] at hb
      split at hb <;> cases hb
      exact ⟨‹_›, hd⟩
    · exact hok.bounded k' b (hmem.mpr (Or.inr hb))
  by_cases hk : k' = k
  · rw [if_pos hk, hk]
    by_cases hz : d = 0
    · rw [hx, if_pos hz, hz]
      exact amount_of_not_mem (by simpa [keys, filterMap_append] using hkey)
    · exact amount_of_mem hn (hmem.mpr (Or.inl (by rw [hx, if_neg hz])))
  · rw [if_neg hk]
    have hne : ∀ {a}, ∀ y : Option (κ × Int), (y = none ∨ ∃ a, y = some (k, a)) →
        some (k', a) ≠ y := by
      rintro a _ (rfl | ⟨b, rfl⟩) heq
      · cases heq
      · cases heq
        exact hk rfl
    exact amount_congr hok.nodup hn fun a => by
      rw [hmem, hmem, or_iff_right (hne x hxk), or_iff_right (hne e he)]

/-- **A posting adds to one amount.** -/
theorem post_spec (hok : Ok bound t) (hd : -bound ≤ d ∧ d ≤ bound) (h : post bound k d t = .ok t') :
    Ok bound t' ∧ ∀ k', amount t' k' = amount t k' + if k' = k then d else 0 := by
  unfold post at h
  split at h
  · next a ha =>
    split at h
    · cases h
    next hb =>
    cases h
    obtain ⟨pre, post, rfl, hover⟩ := split_of_lookup ha
    obtain ⟨hok', hamount⟩ :=
      replace_spec hok (Or.inl ⟨a, rfl⟩) (show -bound ≤ a + d ∧ a + d ≤ bound by omega)
    rw [hover]
    refine ⟨hok', fun k' => ?_⟩
    rw [hamount]
    split
    · next hk => rw [hk, amount, ha, Option.getD_some]
    · rw [Int.add_zero]
  next hnone =>
  have hnot := lookup_eq_none.mp hnone
  split at h
  · cases h
    exact ⟨hok, fun k' => by split <;> omega⟩
  next hz =>
  split at h
  · next hfree =>
    cases h
    obtain ⟨pre, post, rfl, htake⟩ := split_of_free hfree
    obtain ⟨hok', hamount⟩ := replace_spec hok (Or.inr ⟨rfl, hnot⟩) hd
    rw [if_neg hz, ← htake] at hok' hamount
    refine ⟨hok', fun k' => ?_⟩
    rw [hamount]
    split
    · next hk => rw [hk, amount_of_not_mem hnot, Int.zero_add]
    · rw [Int.add_zero]
  · cases h

/-! ## Closing entries -/

/-- Every entry whose key is selected, freed. -/
def close (sel : κ → Bool) (t : Ledger κ) : Ledger κ :=
  t.map fun e => e.filter fun x => !sel x.1

omit [DecidableEq κ] in
theorem mem_close {sel : κ → Bool} : some (k, a) ∈ close sel t ↔
    some (k, a) ∈ t ∧ sel k = false := by
  simp only [close, mem_map, Option.filter_eq_some_iff]
  constructor
  · rintro ⟨e, he, rfl, hsel⟩
    exact ⟨he, by simpa using hsel⟩
  · rintro ⟨he, hsel⟩
    exact ⟨_, he, rfl, by simpa using hsel⟩

omit [DecidableEq κ] in
theorem keys_close (sel : κ → Bool) : keys (close sel t) = (keys t).filter fun k => !sel k := by
  induction t with
  | nil => rfl
  | cons e t ih =>
    match e with
    | none => simpa [close] using ih
    | some (k', a) =>
      have hstep : close sel (some (k', a) :: t) =
          (some (k', a)).filter (fun x => !sel x.1) :: close sel t := rfl
      rw [hstep, keys_some, filter_cons, ← ih]
      cases hsel : sel k' with
      | true | false => simp [Option.filter, hsel]

theorem close_spec (hok : Ok bound t) (sel : κ → Bool) :
    Ok bound (close sel t) ∧ ∀ k, amount (close sel t) k = if sel k = true then 0
      else amount t k := by
  have hok' : Ok bound (close sel t) := by
    refine ⟨?_, fun k a h => hok.bounded k a (mem_close.mp h).1⟩
    rw [keys_close]
    exact hok.nodup.filter _
  refine ⟨hok', fun k => ?_⟩
  by_cases hsel : sel k = true
  · rw [if_pos hsel]
    refine amount_of_not_mem ?_
    rw [keys_close]
    simp [hsel]
  · rw [if_neg hsel]
    exact amount_congr hok.nodup hok'.nodup fun a =>
      mem_close.trans (and_iff_left (Bool.eq_false_iff.mpr hsel))

/-! ## Batches -/

/-- What a list of postings adds to the amount of a key. -/
def total (ps : List (κ × Int)) (k : κ) : Int := ((ps.filter fun p => p.1 = k).map Prod.snd).sum

@[simp] theorem total_nil (k : κ) : total ([] : List (κ × Int)) k = 0 := rfl

theorem total_cons (p : κ × Int) (ps : List (κ × Int)) (k : κ) :
    total (p :: ps) k = (if k = p.1 then p.2 else 0) + total ps k := by
  unfold total
  by_cases h : p.1 = k
  · simp [h]
  · simp [h, Ne.symm h]

theorem total_append (ps qs : List (κ × Int)) (k : κ) :
    total (ps ++ qs) k = total ps k + total qs k := by
  simp [total]

/-- The postings that take `ps` back. -/
def inverse (ps : List (κ × Int)) : List (κ × Int) := ps.map fun p => (p.1, -p.2)

/-- Post each one, skipping those that are refused. -/
def postAll (bound : Int) : List (κ × Int) → Ledger κ → Ledger κ
  | [], t => t
  | p :: ps, t =>
      match post bound p.1 p.2 t with
      | .ok t' => postAll bound ps t'
      | .error _ => postAll bound ps t

/-- Each posting is itself within the bound. -/
def Small (bound : Int) (ps : List (κ × Int)) : Prop := ∀ p ∈ ps, -bound ≤ p.2 ∧ p.2 ≤ bound

variable {p : κ × Int} {ps done : List (κ × Int)}

omit [DecidableEq κ] in
theorem Small.tail (h : Small bound (p :: ps)) : Small bound ps :=
  fun q hq => h q (mem_cons_of_mem p hq)

omit [DecidableEq κ] in
theorem Small.snoc (h : Small bound (p :: ps)) (hdone : Small bound done) :
    Small bound (done ++ [p]) := by
  intro q hq
  rcases mem_append.mp hq with hq | hq
  · exact hdone q hq
  · exact mem_singleton.mp hq ▸ h p mem_cons_self

omit [DecidableEq κ] in
theorem Small.inverse (h : Small bound ps) : Small bound (inverse ps) := by
  intro q hq
  obtain ⟨p, hp, rfl⟩ := mem_map.mp hq
  have := h p hp
  exact ⟨by show -bound ≤ -p.2; omega, by show -p.2 ≤ bound; omega⟩

omit [DecidableEq κ] in
theorem keys_inverse (ps : List (κ × Int)) : (inverse ps).map Prod.fst = ps.map Prod.fst := by
  simp [Ledger.inverse]

theorem postAll_spec (hok : Ok bound t) (hsmall : Small bound ps) :
    Ok bound (postAll bound ps t) ∧
      ∀ k ∉ ps.map Prod.fst, amount (postAll bound ps t) k = amount t k := by
  fun_induction postAll bound ps t with
  | case1 => exact ⟨hok, fun _ _ => rfl⟩
  | case2 p ps t t' h ih =>
    obtain ⟨hok', hamount⟩ := post_spec hok (hsmall p mem_cons_self) h
    obtain ⟨hok'', hothers⟩ := ih hok' hsmall.tail
    refine ⟨hok'', fun k hk => ?_⟩
    rw [map_cons, mem_cons, not_or] at hk
    rw [hothers k hk.2, hamount, if_neg hk.1, Int.add_zero]
  | case3 p ps t r h ih =>
    obtain ⟨hok', hothers⟩ := ih hok hsmall.tail
    exact ⟨hok', fun k hk => hothers k fun hmem => hk (mem_cons_of_mem _ hmem)⟩

/-- Post the batch. The first refusal ends it: what has been posted (`done`) is taken back, in the
same order, and refusals of that are ignored. -/
def batch (bound : Int) : List (κ × Int) → List (κ × Int) → Ledger κ → Option Refusal × Ledger κ
  | _, [], t => (none, t)
  | done, p :: ps, t =>
      match post bound p.1 p.2 t with
      | .ok t' => batch bound (done ++ [p]) ps t'
      | .error r => (some r, postAll bound (inverse done) t)

/-- **What a batch does**: one that is not refused makes all of its postings, and no other key is
touched. -/
theorem batch_spec (hok : Ok bound t) (hps : Small bound ps) (hdone : Small bound done) :
    let r := batch bound done ps t
    Ok bound r.2 ∧ (r.1 = none → ∀ k, amount r.2 k = amount t k + total ps k) ∧
      ∀ k ∉ (done ++ ps).map Prod.fst, amount r.2 k = amount t k := by
  fun_induction batch bound done ps t with
  | case1 => exact ⟨hok, fun _ k => by simp, fun _ _ => rfl⟩
  | case2 done p ps t t' h ih =>
    obtain ⟨hok', hamount⟩ := post_spec hok (hps p mem_cons_self) h
    obtain ⟨hok'', htotal, hothers⟩ := ih hok' hps.tail (hps.snoc hdone)
    refine ⟨hok'', fun hnone k => ?_, fun k hk => ?_⟩
    · rw [htotal hnone k, hamount k, total_cons]
      omega
    · have hne : k ≠ p.1 := fun heq => hk (by simp [heq])
      rw [hothers k (by simpa using hk), hamount k, if_neg hne, Int.add_zero]
  | case3 done p ps t r h =>
    obtain ⟨hok', hothers⟩ := postAll_spec hok hdone.inverse
    refine ⟨hok', nofun, fun k hk => hothers k fun hmem => hk ?_⟩
    rw [map_append]
    exact mem_append_left _ (keys_inverse done ▸ hmem)

/-! ## Batches that are all or nothing -/

/-- A table for the keys `S`: it has entries for no other key, and as many entries as there are
keys. -/
structure Roomy (S : List κ) (t : Ledger κ) : Prop where
  keys : keys t ⊆ S
  length : S.length ≤ t.length

omit [DecidableEq κ] in
theorem length_keys_of_full (h : none ∉ t) : (keys t).length = t.length := by
  induction t with
  | nil => rfl
  | cons e t ih =>
    match e with
    | none => exact absurd mem_cons_self h
    | some e => rw [keys_some, length_cons, length_cons, ih fun hmem => h (mem_cons_of_mem _ hmem)]

theorem length_post (h : post bound k d t = .ok t') : t'.length = t.length := by
  unfold post at h
  split at h
  · next a ha =>
    split at h
    · cases h
    cases h
    obtain ⟨pre, post, rfl, hover⟩ := split_of_lookup ha
    simp [hover]
  split at h
  · cases h
    rfl
  split at h
  · next hfree =>
    cases h
    obtain ⟨pre, post, rfl, htake⟩ := split_of_free hfree
    simp [htake]
  · cases h

/-- A key of a roomy table is refused for the bound only. -/
theorem Roomy.post {S : List κ} (hroom : Roomy S t) (hok : Ok bound t) (hk : k ∈ S)
    (hd : -bound ≤ d ∧ d ≤ bound) (hb : -bound ≤ amount t k + d ∧ amount t k + d ≤ bound) :
    ∃ t', post bound k d t = .ok t' ∧ Roomy S t' := by
  have hsucceeds : ∃ t', Ledger.post bound k d t = .ok t' := by
    unfold Ledger.post
    split
    · next a ha =>
      rw [amount, ha, Option.getD_some] at hb
      exact ⟨_, if_neg (by omega)⟩
    next hnone =>
    split
    · exact ⟨_, rfl⟩
    refine ⟨_, if_pos (by_contra fun hfull => ?_)⟩
    -- a full table has an entry for each key of `S`, so one for `k`
    have hnodup : (k :: Ledger.keys t).Nodup := nodup_cons.mpr ⟨lookup_eq_none.mp hnone, hok.nodup⟩
    have hle := (subperm_of_subset hnodup (cons_subset.mpr ⟨hk, hroom.keys⟩)).length_le
    rw [length_cons, length_keys_of_full hfull] at hle
    have := hroom.length
    omega
  obtain ⟨t', ht'⟩ := hsucceeds
  obtain ⟨hok', hamount⟩ := post_spec hok hd ht'
  refine ⟨t', ht', fun k' hk' => ?_, (length_post ht').symm ▸ hroom.length⟩
  by_cases heq : k' = k
  · exact heq ▸ hk
  · refine hroom.keys ((amount_ne_zero hok).mp ?_)
    have := (amount_ne_zero hok').mpr hk'
    rwa [hamount, if_neg heq, Int.add_zero] at this

/-- A batch whose amounts stay within the bound is not refused. -/
theorem batch_succeeds {S : List κ} (hroom : Roomy S t) (hok : Ok bound t) (hsmall : Small bound ps)
    (hkeys : ps.map Prod.fst ⊆ S)
    (hb : ∀ pre, pre <+: ps → ∀ k, -bound ≤ amount t k + total pre k ∧
      amount t k + total pre k ≤ bound) :
    (batch bound done ps t).1 = none := by
  induction ps generalizing done t with
  | nil => rfl
  | cons p ps ih =>
    have hp := hb [p] (by simp) p.1
    rw [total_cons, if_pos rfl, total_nil, Int.add_zero] at hp
    rw [map_cons, cons_subset] at hkeys
    obtain ⟨t', ht', hroom'⟩ := hroom.post hok hkeys.1 (hsmall p mem_cons_self) hp
    obtain ⟨hok', hamount⟩ := post_spec hok (hsmall p mem_cons_self) ht'
    rw [batch, ht']
    refine ih hroom' hok' hsmall.tail hkeys.2 fun pre hpre k => ?_
    have := hb (p :: pre) (cons_prefix_cons.mpr ⟨rfl, hpre⟩) k
    rw [total_cons] at this
    rw [hamount]
    omega

/-- Postings to different keys are all taken back. -/
theorem postAll_inverse {S : List κ} (hroom : Roomy S t) (hok : Ok bound t)
    (hsmall : Small bound ps) (hkeys : ps.map Prod.fst ⊆ S) (hnodup : (ps.map Prod.fst).Nodup)
    (hb : ∀ p ∈ ps, -bound ≤ amount t p.1 - p.2 ∧ amount t p.1 - p.2 ≤ bound) :
    ∀ k, amount (postAll bound (inverse ps) t) k = amount t k - total ps k := by
  induction ps generalizing t with
  | nil => exact fun k => by simp [Ledger.inverse, postAll]
  | cons p ps ih =>
    rw [map_cons, nodup_cons] at hnodup
    rw [map_cons, cons_subset] at hkeys
    have hp := hsmall.inverse (p.1, -p.2) mem_cons_self
    obtain ⟨t', ht', hroom'⟩ := hroom.post hok hkeys.1 hp (hb p mem_cons_self)
    obtain ⟨hok', hamount⟩ := post_spec hok hp ht'
    have hrest := ih hroom' hok' hsmall.tail hkeys.2 hnodup.2 fun q hq => by
      -- another key, which has not been touched
      have hne : q.1 ≠ p.1 := fun heq => hnodup.1 (heq ▸ mem_map_of_mem hq)
      rw [hamount, if_neg hne, Int.add_zero]
      exact hb q (mem_cons_of_mem p hq)
    intro k
    show amount (postAll bound ((p.1, -p.2) :: inverse ps) t) k = _
    rw [postAll, ht']
    simp only
    rw [hrest k, hamount k, total_cons]
    grind

/-- A refused batch with different keys ends as it began. -/
theorem batch_reverts {S : List κ} (hroom : Roomy S t) (hok : Ok bound t) (hps : Small bound ps)
    (hdone : Small bound done) (hkeys : (done ++ ps).map Prod.fst ⊆ S)
    (hnodup : ((done ++ ps).map Prod.fst).Nodup)
    (hb : ∀ p ∈ done, -bound ≤ amount t p.1 - p.2 ∧ amount t p.1 - p.2 ≤ bound)
    (hr : (batch bound done ps t).1 ≠ none) :
    ∀ k, amount (batch bound done ps t).2 k = amount t k - total done k := by
  fun_induction batch bound done ps t with
  | case1 => exact absurd rfl hr
  | case2 done p ps t t' h ih =>
    have hp := hps p mem_cons_self
    have hpos : 0 ≤ bound := by omega
    obtain ⟨hok', hamount⟩ := post_spec hok hp h
    have hroom' : Roomy S t' := by
      have hbound := amount_bounded hok' hpos p.1
      rw [hamount, if_pos rfl] at hbound
      obtain ⟨t'', ht'', hroom'⟩ := hroom.post hok (hkeys (by simp : p.1 ∈ _)) hp hbound
      cases h.symm.trans ht''
      exact hroom'
    have hrest :=
      ih hroom' hok' hps.tail (hps.snoc hdone) (by simpa using hkeys) (by simpa using hnodup)
        (fun q hq => ?_) hr
    · intro k
      rw [hrest k, hamount k, total_append, total_cons, total_nil]
      omega
    rcases mem_append.mp hq with hq | hq
    · have hne : q.1 ≠ p.1 := by
        rw [map_append, map_cons, nodup_append] at hnodup
        exact hnodup.2.2 _ (mem_map_of_mem hq) _ mem_cons_self
      rw [hamount, if_neg hne, Int.add_zero]
      exact hb q hq
    · rw [mem_singleton.mp hq, hamount, if_pos rfl]
      have := amount_bounded hok hpos p.1
      omega
  | case3 done p ps t r h =>
    rw [map_append] at hkeys hnodup
    exact postAll_inverse hroom hok hdone (append_subset.mp hkeys).1 (nodup_append.mp hnodup).1 hb

/-- The postings can be taken back: there is one at most; or there is a free entry for each whose
key has none, and no key is posted to twice or no amount leaves the bound. -/
def Reversible (bound : Int) (t : Ledger κ) (ps : List (κ × Int)) : Prop :=
  ps.length ≤ 1 ∨
    ((ps.map Prod.fst).filter (· ∉ keys t)).length ≤ t.count none ∧
      ((ps.map Prod.fst).Nodup ∨ ∀ pre, pre <+: ps →
        ∀ k, -bound ≤ amount t k + total pre k ∧ amount t k + total pre k ≤ bound)

/-- The table has room for the keys it holds and for as many as it has free entries. -/
theorem roomy_append {S : List κ} (h : S.length ≤ t.count none) : Roomy (keys t ++ S) t := by
  refine ⟨subset_append_left .., ?_⟩
  have hsum : (keys t).length + t.count none = t.length := by
    clear h
    induction t with
    | nil => rfl
    | cons e t ih =>
      match e with
      | none => rw [keys_none, count_cons_self, length_cons, ← Nat.add_assoc, ih]
      | some e => rw [keys_some, count_cons_of_ne (by simp), length_cons, length_cons, ← ih]; omega
  rw [length_append]
  omega

/-- **A batch that is refused changes nothing** if its postings can be taken back. -/
theorem batch_atomic (hok : Ok bound t) (hsmall : Small bound ps) (h : Reversible bound t ps)
    (hr : (batch bound [] ps t).1 ≠ none) : ∀ k, amount (batch bound [] ps t).2 k = amount t k := by
  rcases h with hone | ⟨hfree, hps⟩
  · match ps with
    | [] => exact absurd rfl hr
    | [p] =>
      intro k
      unfold batch at hr ⊢
      split at hr
      · exact absurd rfl hr
      · rfl
  · have hroom := roomy_append hfree
    have hkeys : ps.map Prod.fst ⊆ keys t ++ (ps.map Prod.fst).filter (· ∉ keys t) := by
      intro k hk
      by_cases hmem : k ∈ keys t
      · exact mem_append_left _ hmem
      · exact mem_append_right _ (mem_filter.mpr ⟨hk, by simpa using hmem⟩)
    rcases hps with hnodup | hb
    · have hback : ∀ k, amount (batch bound [] ps t).2 k = amount t k - total [] k :=
        batch_reverts hroom hok hsmall (fun _ h => absurd h not_mem_nil) hkeys hnodup
          (fun _ h => absurd h not_mem_nil) hr
      simpa using hback
    · exact absurd (batch_succeeds hroom hok hsmall hkeys hb) hr

end Ledger

end MaeroOS.Lib
