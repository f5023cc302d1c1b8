import MaeroOS.Virtio.Queue
import MaeroOS.Lib.LinkedList
import Mathlib.Data.List.Perm.Subperm
import Mathlib.Data.Nat.ModEq

/-!
# Who owns a descriptor

At all times the descriptors are split between the free list and the chains the device has
(`Owned`), whatever the device writes into the used ring: `virtq_get_used` takes an entry only if it
names the head of such a chain. So a cookie comes back once, for an entry that names the head of its
chain.

The available ring has as many slots as there are descriptors, and a slot is written again when that
many chains have been added after it. If the chain in it is still with the device then, the device
has named a later one: it does not complete the chains in the order they were added
(`VirtqOk.overwritten`).
-/

namespace MaeroOS.Virtio

open Function List
open Lib (Run Seg drive run_drive seg_append seg_concat)

variable {vq : Virtqueue} {s s' : VqState} {desc : Nat → VirtqDesc}

/-- The `next` field, as the link of a list. -/
def link (desc : Nat → VirtqDesc) (d : Nat) : Option Nat := some (desc d).next

/-- The free list `free` and the chain `chain h` of each head `h` (empty if `h` is not the head of
one). -/
structure Owned (vq : Virtqueue) (free : List Nat) (chain : Nat → List Nat) : Prop where
  freeList : ∃ q, Seg (link vq.desc) (some vq.freeHead) free (some q)
  freeLen : free.length = vq.numFree
  chains : ∀ h < vq.size, ∃ q, Seg (link vq.desc) (some h) (chain h) (some q)
  chainLens : ∀ h < vq.size, (chain h).length = vq.chainLen h
  noChain : ∀ h, vq.size ≤ h → chain h = []
  freeNodup : free.Nodup
  chainNodup : ∀ h, (chain h).Nodup
  freeApart : ∀ h d, d ∈ chain h → d ∉ free
  chainsApart : ∀ h h' d, d ∈ chain h → d ∈ chain h' → h = h'
  cover : ∀ d, d < vq.size ↔ d ∈ free ∨ ∃ h, d ∈ chain h

/-! ## The loops -/

/-- The loop of `virtq_add` leaves every `next` field as it was and stops behind the descriptors it
fills. -/
theorem fillChain_spec (bufs : Nat → VirtqBuf) (nOut n : Nat) :
    ∀ {l : List Nat} (i : Nat) {d q : Nat} {desc : Nat → VirtqDesc},
      Seg (link desc) (some d) l (some q) →
      (∀ x, ((fillChain bufs nOut n l.length i d desc).1 x).next = (desc x).next) ∧
        (fillChain bufs nOut n l.length i d desc).2 = q := by
  intro l
  induction l with
  | nil =>
    intro i d q desc h
    cases h
    exact ⟨fun _ => rfl, rfl⟩
  | cons a l ih =>
    intro i d q desc h
    obtain ⟨hd, h⟩ := h
    cases hd
    -- filling a descriptor does not change its link
    have hnext : ∀ x, (update desc a
        ⟨(bufs i).phys, (bufs i).len, descFlags nOut n i, (desc a).next⟩ x).next =
          (desc x).next := by
      intro x
      by_cases hx : x = a
      · rw [hx, update_self]
      · rw [update_of_ne hx]
    have hseg : Seg (link (update desc a
        ⟨(bufs i).phys, (bufs i).len, descFlags nOut n i, (desc a).next⟩)) (link desc a) l
          (some q) :=
      h.congr fun x _ => by rw [link, link, hnext]
    obtain ⟨hkeep, hstop⟩ := ih (i + 1) hseg
    exact ⟨fun x => (hkeep x).trans (hnext x), hstop⟩

/-- The walk of `virtq_get_used` ends at the last descriptor of the chain. -/
theorem chainTail_spec : ∀ {l : List Nat} {d b q : Nat},
    Seg (link desc) (some d) (l ++ [b]) (some q) → chainTail desc l.length d = b := by
  intro l
  induction l with
  | nil =>
    intro d b q h
    exact Option.some.inj h.1
  | cons a l ih =>
    intro d b q h
    obtain ⟨hd, h⟩ := h
    cases hd
    exact ih h

/-! ## The free list and the chains -/

namespace Owned

variable {free : List Nat} {chain : Nat → List Nat} {n : Nat} (o : Owned vq free chain)

include o

/-- A chain starts at its head. -/
theorem head_mem {h : Nat} (hh : h < vq.size) (hne : chain h ≠ []) :
    h ∈ chain h := by
  obtain ⟨q, hseg⟩ := o.chains h hh
  obtain ⟨a, l, hl⟩ := exists_cons_of_ne_nil hne
  rw [hl] at hseg ⊢
  cases hseg.1
  exact mem_cons_self

theorem freeHead_mem (hne : free ≠ []) : vq.freeHead ∈ free := by
  obtain ⟨q, hseg⟩ := o.freeList
  obtain ⟨a, l, rfl⟩ := exists_cons_of_ne_nil hne
  cases hseg.1
  exact mem_cons_self

theorem freeHead_lt (hne : free ≠ []) : vq.freeHead < vq.size :=
  (o.cover _).mpr (.inl (o.freeHead_mem hne))

/-- The first free descriptor is not the head of a chain. -/
theorem chain_freeHead (hne : free ≠ []) : chain vq.freeHead = [] := by
  by_contra hc
  exact o.freeApart _ _ (o.head_mem (o.freeHead_lt hne) hc) (o.freeHead_mem hne)

/-- All the descriptors of a queue. -/
theorem freeLen_le {l : List Nat} (hl : (l ++ free).Nodup)
    (hlt : ∀ d ∈ l, d < vq.size) : l.length + vq.numFree ≤ vq.size := by
  have hsub : (l ++ free) ⊆ List.range vq.size := by
    intro d hd
    rw [mem_range]
    rcases mem_append.mp hd with hd | hd
    · exact hlt d hd
    · exact (o.cover d).mpr (.inl hd)
  have hlen := (hl.subperm hsub).length_le
  rwa [length_append, length_range, o.freeLen] at hlen

omit o in
/-- Where the first part of a segment ends. -/
theorem seg_split {p : Option Nat} {l l' : List Nat} {q : Nat}
    (h : Seg (link desc) p (l ++ l') (some q)) :
    ∃ r, Seg (link desc) p l (some r) ∧ Seg (link desc) (some r) l' (some q) := by
  obtain ⟨r, hl, hl'⟩ := seg_append.mp h
  cases l' with
  | nil =>
    cases hl'
    exact ⟨q, hl, rfl⟩
  | cons a l' =>
    cases hl'.1
    exact ⟨a, hl, rfl, hl'.2⟩

/-- **Descriptors change hands between the free list and the chain of one head.** The two have the
same descriptors together as before, and what is in neither is left alone. -/
theorem exchange {vq' : Virtqueue} {free' l : List Nat} {id : Nat} (hid : id < vq.size)
    (hsize : vq'.size = vq.size)
    (hnodup : (l ++ free').Nodup) (hmem : ∀ d, d ∈ l ++ free' ↔ d ∈ chain id ++ free)
    (hfree : ∃ q, Seg (link vq'.desc) (some vq'.freeHead) free' (some q))
    (hfreeLen : free'.length = vq'.numFree)
    (hchain : ∃ q, Seg (link vq'.desc) (some id) l (some q)) (hlen : l.length = vq'.chainLen id)
    (hchains : ∀ h < vq.size, h ≠ id → ∃ q, Seg (link vq'.desc) (some h) (chain h) (some q))
    (hlens : ∀ h ≠ id, vq'.chainLen h = vq.chainLen h) : Owned vq' free' (update chain id l) := by
  have hold : ∀ h ≠ id, update chain id l h = chain h := fun h hh => update_of_ne hh ..
  have hapart : ∀ h ≠ id, ∀ d ∈ chain h, d ∉ l ++ free' := by
    intro h hh d hd hd'
    rcases mem_append.mp ((hmem d).mp hd') with hd' | hd'
    · exact hh (o.chainsApart h id d hd hd')
    · exact o.freeApart h d hd hd'
  refine ⟨hfree, hfreeLen, fun h hh => ?_, fun h hh => ?_, fun h hh => ?_,
    (nodup_append.mp hnodup).2.1, fun h => ?_,
    fun h d hd => ?_, fun h h' d hd hd' => ?_, fun d => ?_⟩
  · by_cases hc : h = id
    · subst hc
      rwa [update_self]
    · rw [hold h hc]
      exact hchains h (hsize ▸ hh) hc
  · by_cases hc : h = id
    · subst hc
      rwa [update_self]
    · rw [hold h hc, hlens h hc]
      exact o.chainLens h (hsize ▸ hh)
  · have hc : h ≠ id := fun he => absurd hid (not_lt.mpr (he ▸ hsize ▸ hh))
    rw [hold h hc]
    exact o.noChain h (hsize ▸ hh)
  · by_cases hc : h = id
    · rw [hc, update_self]
      exact (nodup_append.mp hnodup).1
    · rw [hold h hc]
      exact o.chainNodup h
  · by_cases hc : h = id
    · rw [hc, update_self] at hd
      exact fun hd' => (nodup_append.mp hnodup).2.2 d hd d hd' rfl
    · rw [hold h hc] at hd
      exact fun hd' => hapart h hc d hd (mem_append_right l hd')
  · by_cases hc : h = id <;> by_cases hc' : h' = id
    · rw [hc, hc']
    · rw [hc, update_self] at hd
      rw [hold h' hc'] at hd'
      exact absurd (mem_append_left free' hd) (hapart h' hc' d hd')
    · rw [hc', update_self] at hd'
      rw [hold h hc] at hd
      exact absurd (mem_append_left free' hd') (hapart h hc d hd)
    · rw [hold h hc] at hd
      rw [hold h' hc'] at hd'
      exact o.chainsApart h h' d hd hd'
  · rw [hsize, o.cover d]
    constructor
    · intro hd
      by_cases hin : d ∈ l ++ free'
      · rcases mem_append.mp hin with hl | hf
        · exact .inr ⟨id, by rwa [update_self]⟩
        · exact .inl hf
      · have hout := mt (hmem d).mpr hin
        obtain ⟨h, hd⟩ := hd.resolve_left fun hf => hout (mem_append_right _ hf)
        exact .inr ⟨h, by rwa [hold h fun he => hout (mem_append_left _ (he ▸ hd))]⟩
    · have hback : d ∈ l ++ free' → d ∈ free ∨ ∃ h, d ∈ chain h := fun hd =>
        (mem_append.mp ((hmem d).mp hd)).elim (fun hc => .inr ⟨id, hc⟩) .inl
      rintro (hf | ⟨h, hd⟩)
      · exact hback (mem_append_right l hf)
      · by_cases hc : h = id
        · rw [hc, update_self] at hd
          exact hback (mem_append_left free' hd)
        · rw [hold h hc] at hd
          exact .inr ⟨h, hd⟩

/-- **A chain is made** of the first `n` free descriptors. -/
theorem add (hsize : vq.size ≤ virtqMaxSize) (hn : 0 < n) (hle : n ≤ vq.numFree)
    {bufs : Nat → VirtqBuf} {nOut cookie : Nat} :
    Owned (addChain vq bufs nOut n cookie) (free.drop n)
      (update chain vq.freeHead (free.take n)) := by
  have hlen : (free.take n).length = n := by
    rw [length_take, o.freeLen]
    omega
  have hne : free ≠ [] := by
    rintro rfl
    simp at hlen
    omega
  obtain ⟨q, hseg⟩ := o.freeList
  rw [← take_append_drop n free] at hseg
  obtain ⟨r, htake, hdrop⟩ := seg_split hseg
  obtain ⟨hkeep, hstop⟩ := fillChain_spec bufs nOut n 0 htake
  rw [hlen] at hkeep hstop
  -- no link changes
  have hlink : link (addChain vq bufs nOut n cookie).desc = link vq.desc :=
    funext fun x => congrArg some (hkeep x)
  refine o.exchange (o.freeHead_lt hne) rfl ?_ (fun d => ?_) ⟨q, ?_⟩ ?_ ⟨r, ?_⟩ ?_
    (fun h hh _ => ?_) fun h hh => update_of_ne hh ..
  · rw [take_append_drop]
    exact o.freeNodup
  · rw [take_append_drop, o.chain_freeHead hne, nil_append]
  · show Seg (link (addChain vq bufs nOut n cookie).desc) (some _) _ _
    rw [hlink]
    show Seg _ (some (fillChain bufs nOut n n 0 vq.freeHead vq.desc).2) _ _
    rwa [hstop]
  · show (free.drop n).length = vq.numFree - n
    rw [length_drop, o.freeLen]
  · rwa [hlink]
  · show _ = update vq.chainLen vq.freeHead (n % 2 ^ 16) vq.freeHead
    have hall := o.freeLen_le (l := []) (by simpa using o.freeNodup) (by simp)
    have hsmall : n < 2 ^ 16 := by
      unfold virtqMaxSize at hsize
      omega
    rw [update_self, hlen, Nat.mod_eq_of_lt hsmall]
  · rw [hlink]
    exact o.chains h hh

/-- **A chain is freed**: it is put in front of the free list. -/
theorem putBack (hsize : vq.size ≤ virtqMaxSize) {id : Nat} (hid : id < vq.size)
    (hlen : vq.chainLen id ≠ 0) :
    Owned (freeChain vq id) (chain id ++ free) (update chain id []) := by
  have hne : chain id ≠ [] := fun he => hlen (by rw [← o.chainLens id hid, he]; rfl)
  obtain ⟨l, b, hl⟩ := (chain id).eq_nil_or_concat'.resolve_left hne
  obtain ⟨q, hseg⟩ := o.chains id hid
  have htail : chainTail vq.desc (vq.chainLen id - 1) id = b := by
    rw [hl] at hseg
    rw [← o.chainLens id hid, hl, length_append]
    exact chainTail_spec hseg
  have hb : b ∈ chain id := by simp [hl]
  have hlink_tail : link (freeChain vq id).desc b = some vq.freeHead := by
    show some (update vq.desc (chainTail vq.desc (vq.chainLen id - 1) id) _ b).next = _
    rw [htail, update_self]
  have hlink : ∀ x, x ≠ b → link (freeChain vq id).desc x = link vq.desc x := by
    intro x hx
    show some (update vq.desc (chainTail vq.desc (vq.chainLen id - 1) id) _ x).next = _
    rw [htail, update_of_ne hx]
    rfl
  have hnodup : (chain id ++ free).Nodup :=
    nodup_append.mpr ⟨o.chainNodup id, o.freeNodup, fun d hd d' hd' he =>
      o.freeApart id d hd (he ▸ hd')⟩
  refine o.exchange hid rfl hnodup (fun d => Iff.rfl) ?_ ?_ ⟨id, rfl⟩
    (update_self id 0 vq.chainLen).symm (fun h hh hc => ?_) fun h hh => update_of_ne hh ..
  · -- down the chain to its last descriptor, which now leads to the free list
    obtain ⟨qf, hfree⟩ := o.freeList
    refine ⟨qf, seg_append.mpr ⟨some vq.freeHead, ?_, ?_⟩⟩
    · rw [hl] at hseg ⊢
      refine seg_concat.mpr ⟨(seg_concat.mp hseg).1.congr fun x hx => hlink x ?_, hlink_tail⟩
      rintro rfl
      have hdup := o.chainNodup id
      rw [hl] at hdup
      exact (nodup_append.mp hdup).2.2 x hx x (by simp) rfl
    · exact hfree.congr fun x hx => hlink x fun he => o.freeApart id b hb (he ▸ hx)
  · show _ = (vq.numFree + vq.chainLen id) % 2 ^ 16
    have hall := o.freeLen_le hnodup fun d hd => (o.cover d).mpr (.inr ⟨id, hd⟩)
    rw [o.chainLens id hid] at hall
    unfold virtqMaxSize at hsize
    rw [length_append, o.chainLens id hid, o.freeLen, Nat.mod_eq_of_lt (by omega), add_comm]
  · obtain ⟨q', hq'⟩ := o.chains h hh
    exact ⟨q', hq'.congr fun x hx => hlink x fun he => hc (o.chainsApart h id b (he ▸ hx) hb)⟩

/-- Only the descriptors and the lengths matter. -/
theorem congr {vq' : Virtqueue} (hsize : vq'.size = vq.size)
    (hdesc : vq'.desc = vq.desc) (hhead : vq'.freeHead = vq.freeHead)
    (hfree : vq'.numFree = vq.numFree)
    (hlens : vq'.chainLen = vq.chainLen) : Owned vq' free chain := by
  obtain ⟨h1, h2, h3, h4, h5, h6, h7, h8, h9, h10⟩ := o
  exact ⟨hdesc ▸ hhead ▸ h1, hfree ▸ h2, hsize ▸ hdesc ▸ h3, hsize ▸ hlens ▸ h4, hsize ▸ h5,
    h6, h7, h8, h9, hsize ▸ h10⟩

end Owned

/-- At first all descriptors are free, in their order. -/
theorem owned_virtqInit {size : Nat} {m : Areas} (hsize : size ≤ virtqMaxSize) :
    Owned (virtqInit size m) (List.range size) fun _ => [] := by
  have hseg : ∀ k i, i + k ≤ size →
      Seg (link (virtqInit size m).desc) (some i) (List.range' i k) (some (i + k)) := by
    intro k
    induction k with
    | zero => exact fun i _ => rfl
    | succ k ih =>
      intro i hi
      refine ⟨rfl, ?_⟩
      have hnext : link (virtqInit size m).desc i = some (i + 1) := by
        unfold virtqMaxSize at hsize
        simp only [link, virtqInit, if_pos (show i < size by omega)]
        rw [Nat.mod_eq_of_lt (by omega)]
      rw [hnext, show i + (k + 1) = i + 1 + k by omega]
      exact ih (i + 1) (by omega)
  refine ⟨⟨size, ?_⟩, by simp [virtqInit], fun h _ => ⟨h, rfl⟩, fun h hh => ?_, fun _ _ => rfl,
    nodup_range, fun _ => nodup_nil, by simp, by simp, by simp [virtqInit]⟩
  · simpa [range_eq_range', virtqInit] using hseg size 0 (by omega)
  · exact (if_pos hh).symm

/-! ## Cookies and slots -/

/-- Chain `j` has been added and its cookie has not come back. -/
def VqState.Outstanding (s : VqState) (j : Nat) : Prop :=
  j < s.added.length ∧ ∀ r ∈ s.returned, r.serial ≠ j

/-- The cookies: the chains with the device are those that are outstanding, with the cookies they
were added with; and what came back came back once, for an entry that named the head. -/
structure Cookies (s : VqState) : Prop where
  heads : ∀ h < s.vq.size, s.vq.chainLen h ≠ 0 →
    s.Outstanding (s.serial h) ∧ s.added[s.serial h]? = some ⟨h, s.vq.cookie h⟩
  outstanding : ∀ j, s.Outstanding j → ∃ h < s.vq.size, s.vq.chainLen h ≠ 0 ∧ s.serial h = j
  once : (s.returned.map Returned.serial).Nodup
  matched : ∀ r ∈ s.returned, s.added[r.serial]? = some ⟨r.id, r.cookie⟩

/-- The available ring: a chain's entry stays until its slot comes around, and if that happens to an
outstanding chain then a later one has come back. -/
structure Slots (s : VqState) : Prop where
  availIdx : s.vq.availIdx = s.added.length % 2 ^ 16
  entry : ∀ j a, s.added[j]? = some a → s.added.length ≤ j + s.vq.size →
    s.vq.availRing (j % s.vq.size) = a.head
  overwritten : ∀ j, s.Outstanding j → j + s.vq.size < s.added.length →
    ∃ j', j < j' ∧ j' < j + s.vq.size ∧ ∃ r ∈ s.returned, r.serial = j'

structure VqInv (s : VqState) : Prop where
  size : ∃ k, s.vq.size = 2 ^ k ∧ 2 ^ k ≤ virtqMaxSize
  owned : ∃ free chain, Owned s.vq free chain
  cookies : Cookies s
  slots : Slots s

/-- The slot of an index that wraps at 16 bits. -/
theorem ringSlot_eq {k n : Nat} (hk : 2 ^ k ≤ virtqMaxSize) :
    ringSlot (2 ^ k) (n % 2 ^ 16) = n % 2 ^ k := by
  have hk : k ≤ 16 := by
    by_contra hlt
    have : 2 ^ 16 ≤ 2 ^ k := Nat.pow_le_pow_right (by decide) (by omega)
    unfold virtqMaxSize at hk
    omega
  rw [ringSlot, Nat.and_two_pow_sub_one_eq_mod, Nat.mod_mod_of_dvd _ (Nat.pow_dvd_pow 2 hk)]

/-- If the slot of an outstanding chain comes around, a later chain has come back: otherwise there
would be as many outstanding chains as descriptors, and none free. -/
theorem later_returned {free : List Nat} {chain : Nat → List Nat} (o : Owned s.vq free chain)
    (hc : Cookies s) (hfree : 0 < s.vq.numFree) {j : Nat} (hj : s.Outstanding j)
    (hlen : j + s.vq.size = s.added.length) :
    ∃ j', j < j' ∧ j' < j + s.vq.size ∧ ∃ r ∈ s.returned, r.serial = j' := by
  by_contra hno
  have hall : ∀ i, j ≤ i → i < j + s.vq.size → s.Outstanding i := by
    intro i hji hi
    rcases eq_or_lt_of_le hji with rfl | hlt
    · exact hj
    · exact ⟨by omega, fun r hr he => hno ⟨i, hlt, hi, r, hr, he⟩⟩
  choose! head hhead using fun i (hi : j ≤ i ∧ i < j + s.vq.size) =>
    hc.outstanding i (hall i hi.1 hi.2)
  have hmem : ∀ i ∈ List.range' j s.vq.size, j ≤ i ∧ i < j + s.vq.size := by
    intro i hi
    simpa using hi
  have hchain : ∀ i ∈ List.range' j s.vq.size, head i ∈ chain (head i) := by
    intro i hi
    obtain ⟨hlt, hne, -⟩ := hhead i (hmem i hi)
    refine o.head_mem hlt fun he => hne ?_
    rw [← o.chainLens _ hlt, he]
    rfl
  have hnodup : ((List.range' j s.vq.size).map head ++ free).Nodup := by
    refine nodup_append.mpr ⟨?_, o.freeNodup, ?_⟩
    · refine List.Nodup.map_on ?_ (nodup_range')
      intro i hi i' hi' he
      rw [← (hhead i (hmem i hi)).2.2, ← (hhead i' (hmem i' hi')).2.2, he]
    · intro d hd d' hd' he
      obtain ⟨i, hi, rfl⟩ := mem_map.mp hd
      exact o.freeApart _ _ (hchain i hi) (he ▸ hd')
  have hcount := o.freeLen_le hnodup fun d hd => by
    obtain ⟨i, hi, rfl⟩ := mem_map.mp hd
    exact (hhead i (hmem i hi)).1
  rw [length_map, length_range'] at hcount
  omega

/-! ## Every call -/

section Calls

variable {bufs : Nat → VirtqBuf} {nOut n cookie : Nat} {used : VirtqUsed}

/-- The state after a chain of `n` descriptors was added. -/
def VqState.adds (s : VqState) (bufs : Nat → VirtqBuf) (nOut n cookie : Nat) : VqState :=
  { s with
    vq := addChain s.vq bufs nOut n cookie
    added := s.added ++ [⟨s.vq.freeHead, cookie⟩]
    serial := Function.update s.serial s.vq.freeHead s.added.length }

/-- The state after the entry that names `id` was taken. -/
def VqState.takes (s : VqState) (id : Nat) : VqState :=
  { s with
    vq := freeChain { s.vq with lastUsed := (s.vq.lastUsed + 1) % 2 ^ 16 } id
    returned := ⟨s.serial id, id, s.vq.cookie id⟩ :: s.returned }

/-- Adding a chain does not change which of the earlier ones are outstanding. -/
theorem outstanding_adds {j : Nat} :
    (s.adds bufs nOut n cookie).Outstanding j ↔ s.Outstanding j ∨ j = s.added.length ∧
      ∀ r ∈ s.returned, r.serial ≠ j := by
  show j < (s.added ++ [_]).length ∧ (∀ r ∈ s.returned, r.serial ≠ j) ↔ _
  rw [length_append, VqState.Outstanding, length_singleton]
  constructor
  · rintro ⟨hlt, hr⟩
    by_cases hj : j < s.added.length
    · exact .inl ⟨hj, hr⟩
    · exact .inr ⟨by omega, hr⟩
  · rintro (⟨hlt, hr⟩ | ⟨rfl, hr⟩)
    · exact ⟨by omega, hr⟩
    · exact ⟨by omega, hr⟩

theorem outstanding_takes {id j : Nat} :
    (s.takes id).Outstanding j ↔ s.Outstanding j ∧ s.serial id ≠ j := by
  show j < s.added.length ∧ (∀ r ∈ _ :: s.returned, r.serial ≠ j) ↔ _
  rw [forall_mem_cons, VqState.Outstanding]
  tauto

theorem adds_inv (h : VqInv s) (hn : 0 < n) (hle : n ≤ s.vq.numFree) :
    VqInv (s.adds bufs nOut n cookie) := by
  obtain ⟨⟨k, hk, hmax⟩, ⟨free, chain, o⟩, hc, hs⟩ := h
  have hne : free ≠ [] := fun he => by
    have := o.freeLen
    rw [he] at this
    simp at this
    omega
  have hsize : s.vq.size ≤ virtqMaxSize := hk ▸ hmax
  have hhead := o.freeHead_lt hne
  have hfresh : ∀ h < s.vq.size, s.vq.chainLen h ≠ 0 → h ≠ s.vq.freeHead := by
    rintro h hh hne' rfl
    rw [← o.chainLens _ hh, o.chain_freeHead hne] at hne'
    exact hne' rfl
  have hnew : ∀ r ∈ s.returned, r.serial ≠ s.added.length := by
    intro r hr he
    have := hc.matched r hr
    rw [he] at this
    simp at this
  have hold : ∀ {j : Nat} {a : Added}, s.added[j]? = some a →
      (s.added ++ [⟨s.vq.freeHead, cookie⟩])[j]? = some a := by
    intro j a hj
    rw [List.getElem?_append_left (List.getElem?_eq_some_iff.mp hj).1, hj]
  have hn16 : n % 2 ^ 16 ≠ 0 := by
    have hall := o.freeLen_le (l := []) (by simpa using o.freeNodup) (by simp)
    unfold virtqMaxSize at hsize
    omega
  refine ⟨⟨k, hk, hmax⟩, ⟨_, _, o.add hsize hn hle⟩, ?_, ?_⟩
  · refine ⟨fun h hh hne' => ?_, fun j hj => ?_, hc.once, fun r hr => hold (hc.matched r hr)⟩
    · show (s.adds bufs nOut n cookie).Outstanding (update s.serial s.vq.freeHead _ h) ∧
        (s.added ++ [_])[update s.serial s.vq.freeHead _ h]? =
          some ⟨h, update s.vq.cookie s.vq.freeHead cookie h⟩
      by_cases hf : h = s.vq.freeHead
      · rw [hf, update_self, update_self]
        exact ⟨outstanding_adds.mpr (.inr ⟨rfl, hnew⟩), List.getElem?_concat_length⟩
      · rw [update_of_ne hf, update_of_ne hf]
        replace hne' : update s.vq.chainLen s.vq.freeHead _ h ≠ 0 := hne'
        rw [update_of_ne hf] at hne'
        obtain ⟨hout, hadded⟩ := hc.heads h hh hne'
        exact ⟨outstanding_adds.mpr (.inl hout), hold hadded⟩
    · show ∃ h < s.vq.size, update s.vq.chainLen s.vq.freeHead _ h ≠ 0 ∧
        update s.serial s.vq.freeHead _ h = j
      rcases outstanding_adds.mp hj with hj | ⟨rfl, -⟩
      · obtain ⟨h, hh, hne', rfl⟩ := hc.outstanding j hj
        have hf := hfresh h hh hne'
        exact ⟨h, hh, by rwa [update_of_ne hf], update_of_ne hf ..⟩
      · exact ⟨s.vq.freeHead, hhead, by rwa [update_self], update_self ..⟩
  · have hslot : ringSlot s.vq.size s.vq.availIdx = s.added.length % s.vq.size := by
      rw [hs.availIdx, hk, ringSlot_eq hmax]
    refine ⟨?_, fun j a hj hlen => ?_, fun j hj hlt => ?_⟩
    · show (s.vq.availIdx + 1) % 2 ^ 16 = (s.added ++ [_]).length % 2 ^ 16
      rw [hs.availIdx, Nat.mod_add_mod, length_append]
      rfl
    · replace hj : (s.added ++ [⟨s.vq.freeHead, cookie⟩])[j]? = some a := hj
      replace hlen : (s.added ++ [_]).length ≤ j + s.vq.size := hlen
      rw [length_append, length_singleton] at hlen
      show update s.vq.availRing (ringSlot s.vq.size s.vq.availIdx) s.vq.freeHead
        (j % s.vq.size) = a.head
      rw [hslot]
      by_cases hjl : j < s.added.length
      · -- less than a turn of the ring apart
        have hne' : j % s.vq.size ≠ s.added.length % s.vq.size := by
          intro he
          have hdvd : s.vq.size ∣ s.added.length - j := (Nat.modEq_iff_dvd' hjl.le).mp he
          have := Nat.le_of_dvd (by omega) hdvd
          omega
        rw [List.getElem?_append_left hjl] at hj
        rw [update_of_ne hne']
        exact hs.entry j a hj (by omega)
      · have hj' := (List.getElem?_eq_some_iff.mp hj).1
        rw [length_append, length_singleton] at hj'
        obtain rfl : j = s.added.length := by omega
        rw [List.getElem?_concat_length] at hj
        cases hj
        exact update_self ..
    · replace hlt : j + s.vq.size < (s.added ++ [_]).length := hlt
      rw [length_append, length_singleton] at hlt
      rcases outstanding_adds.mp hj with hj | ⟨rfl, -⟩
      · rcases lt_or_ge (j + s.vq.size) s.added.length with hlt' | hge
        · exact hs.overwritten j hj hlt'
        · exact later_returned o hc (by omega) hj (by omega)
      · omega

theorem takes_inv (h : VqInv s) {id : Nat} (hid : id < s.vq.size) (hlen : s.vq.chainLen id ≠ 0) :
    VqInv (s.takes id) := by
  obtain ⟨⟨k, hk, hmax⟩, ⟨free, chain, o⟩, hc, hs⟩ := h
  have hsize : s.vq.size ≤ virtqMaxSize := hk ▸ hmax
  obtain ⟨hout, hadded⟩ := hc.heads id hid hlen
  refine ⟨⟨k, hk, hmax⟩, ⟨_, _, (o.putBack hsize hid hlen).congr rfl rfl rfl rfl rfl⟩, ?_, ?_⟩
  · refine ⟨fun h hh hne => ?_, fun j hj => ?_, ?_, ?_⟩
    · -- another head than the one that is freed
      replace hne : update s.vq.chainLen id 0 h ≠ 0 := hne
      have hhid : h ≠ id := fun he => hne (by rw [he, update_self])
      rw [update_of_ne hhid] at hne
      obtain ⟨hout', hadded'⟩ := hc.heads h hh hne
      refine ⟨outstanding_takes.mpr ⟨hout', fun he => hhid ?_⟩, ?_⟩
      · replace hadded' : s.added[s.serial h]? = _ := hadded'
        rw [show s.serial id = s.serial h from he] at hadded
        have heq := hadded'.symm.trans hadded
        cases heq
        rfl
      · show s.added[s.serial h]? = some ⟨h, update s.vq.cookie id 0 h⟩
        rw [update_of_ne hhid]
        exact hadded'
    · obtain ⟨hj, hne⟩ := outstanding_takes.mp hj
      obtain ⟨h, hh, hne', rfl⟩ := hc.outstanding j hj
      have hhid : h ≠ id := fun he => hne (by rw [he])
      refine ⟨h, hh, ?_, rfl⟩
      show update s.vq.chainLen id 0 h ≠ 0
      rwa [update_of_ne hhid]
    · show ((_ :: s.returned).map Returned.serial).Nodup
      rw [map_cons, nodup_cons]
      refine ⟨fun hmem => ?_, hc.once⟩
      obtain ⟨r, hr, he⟩ := mem_map.mp hmem
      exact hout.2 r hr he
    · exact forall_mem_cons.mpr ⟨hadded, hc.matched⟩
  · refine ⟨hs.availIdx, hs.entry, fun j hj hlt => ?_⟩
    obtain ⟨j', h1, h2, r, hr, he⟩ := hs.overwritten j (outstanding_takes.mp hj).1 hlt
    exact ⟨j', h1, h2, r, mem_cons_of_mem _ hr, he⟩

/-- Only what the calls change matters. -/
theorem VqInv.congr (h : VqInv s) (hvq : s'.vq.size = s.vq.size ∧ s'.vq.desc = s.vq.desc ∧
    s'.vq.freeHead = s.vq.freeHead ∧ s'.vq.numFree = s.vq.numFree ∧ s'.vq.chainLen = s.vq.chainLen ∧
    s'.vq.cookie = s.vq.cookie ∧ s'.vq.availIdx = s.vq.availIdx ∧ s'.vq.availRing = s.vq.availRing)
    (hadded : s'.added = s.added) (hserial : s'.serial = s.serial)
    (hret : s'.returned = s.returned) : VqInv s' := by
  obtain ⟨hsize, hdesc, hhead, hfree, hlens, hcookie, hidx, hring⟩ := hvq
  obtain ⟨hk, ⟨free, chain, o⟩, ⟨h1, h2, h3, h4⟩, ⟨h5, h6, h7⟩⟩ := h
  refine ⟨hsize ▸ hk, ⟨free, chain, o.congr hsize hdesc hhead hfree hlens⟩, ⟨?_, ?_, ?_, ?_⟩,
    ?_, ?_, ?_⟩
  all_goals
    simp only [VqState.Outstanding, hsize, hlens, hcookie, hidx, hring, hadded, hserial, hret] at *
    assumption

/-- **Every call keeps the invariant**, whatever the device has written. -/
theorem apply_inv (h : VqInv s) (e : VqEvent) : VqInv (e.apply s) := by
  cases e with
  | add bufs nOut nIn cookie =>
    unfold VqEvent.apply virtqAdd
    by_cases hn : chainCount nOut nIn = 0 ∨ s.vq.numFree < chainCount nOut nIn
    · simp only [if_pos hn]
      exact h
    · simp only [if_neg hn]
      exact adds_inv h (by omega) (by omega)
  | publish used =>
    simp only [VqEvent.apply, virtqPublish]
    split
    · exact h
    · exact h.congr ⟨rfl, rfl, rfl, rfl, rfl, rfl, rfl, rfl⟩ rfl rfl rfl
  | getUsed used =>
    unfold VqEvent.apply virtqGetUsed
    by_cases hidx : used.idx = s.vq.lastUsed
    · simp only [if_pos hidx]
      exact h
    · simp only [if_neg hidx]
      by_cases ht : takesEntry s.vq used = true
      · simp only [if_pos ht]
        simp only [takesEntry, Bool.and_eq_true, decide_eq_true_eq] at ht
        exact takes_inv h ht.1 ht.2
      · simp only [if_neg ht]
        exact h.congr ⟨rfl, rfl, rfl, rfl, rfl, rfl, rfl, rfl⟩ rfl rfl rfl

theorem newQueue_inv {k : Nat} {m : Areas} (hk : 2 ^ k ≤ virtqMaxSize) :
    VqInv (newQueue (2 ^ k) m) := by
  refine ⟨⟨k, rfl, hk⟩, ⟨_, _, owned_virtqInit hk⟩, ⟨fun h hh hne => ?_, fun j hj => ?_, ?_, ?_⟩,
    rfl, ?_, ?_⟩
  · exact absurd (if_pos hh) hne
  · exact absurd hj.1 (by simp [newQueue])
  · exact nodup_nil
  · simp [newQueue]
  · simp [newQueue]
  · exact fun j hj => absurd hj.1 (by simp [newQueue])

end Calls

/-! ## The property -/

/-- A queue at work: every descriptor is on the free list or on one chain; the chains are those of
the outstanding heads; cookies come back once and for their own head; and a slot of the available
ring is written again over an outstanding chain only after a later chain has come back. -/
structure VirtqOk (s : VqState) : Prop where
  owned : ∃ free chain, Owned s.vq free chain
  outstanding : ∀ h < s.vq.size, s.vq.chainLen h ≠ 0 ↔
    ∃ j a, s.Outstanding j ∧ s.added[j]? = some a ∧ a.head = h
  once : (s.returned.map Returned.serial).Nodup
  matched : ∀ r ∈ s.returned, s.added[r.serial]? = some ⟨r.id, r.cookie⟩
  entry : ∀ j a, s.Outstanding j → s.added[j]? = some a → s.added.length ≤ j + s.vq.size →
    s.vq.availRing (j % s.vq.size) = a.head
  overwritten : ∀ j, s.Outstanding j → j + s.vq.size < s.added.length →
    ∃ j', j < j' ∧ j' < j + s.vq.size ∧ ∃ r ∈ s.returned, r.serial = j'

theorem VqInv.ok (h : VqInv s) : VirtqOk s := by
  refine ⟨h.owned, fun x hx => ⟨fun hne => ?_, ?_⟩, h.cookies.once, h.cookies.matched,
    fun j a _ => h.slots.entry j a, h.slots.overwritten⟩
  · obtain ⟨hout, hadded⟩ := h.cookies.heads x hx hne
    exact ⟨_, _, hout, hadded, rfl⟩
  · rintro ⟨j, a, hout, hadded, rfl⟩
    obtain ⟨h', hh', hne, rfl⟩ := h.cookies.outstanding j hout
    have heq := (h.cookies.heads h' hh' hne).2.symm.trans hadded
    cases heq
    exact hne

/-- **Ownership in a virtqueue**, in every state that any calls and any device lead to. -/
theorem virtqueue_ownership {tr : List VqEvent} (hr : Run vqSystem tr s) : VirtqOk s := by
  refine (hr.invariant (P := VqInv) ?_ ?_).ok
  · rintro s ⟨k, m, hk, rfl⟩
    exact newQueue_inv hk
  · rintro s e s' hs rfl
    exact apply_inv hs e

/-! ## Runs -/

/-- A queue of two descriptors on cleared memory. -/
def smallQueue : VqState :=
  newQueue (2 ^ 1) ⟨fun _ => ⟨0, 0, 0, 0⟩, fun _ => 0, fun _ => 0, fun _ => 0⟩

/-- A chain of one buffer for the device to read. -/
def addOne (cookie : Nat) : VqEvent := .add (fun _ => ⟨0x1000, 64⟩) 1 0 cookie

/-- The device has `idx` entries in the used ring, all of which name `id`. -/
def names (idx id : Nat) : VqEvent := .getUsed ⟨0, idx, fun _ => id, fun _ => 64⟩

/-- What the calls lead to, one after the other. -/
theorem run_smallQueue (es : List VqEvent) {P : VqState → Prop}
    (h : ∃ s ∈ drive (fun s e => some (VqEvent.apply s e)) smallQueue es, P s) :
    ∃ tr s, Run vqSystem tr s ∧ P s :=
  run_drive _ es smallQueue (fun _ _ _ _ h => (Option.some.inj h).symm)
    (.init ⟨1, _, by decide, rfl⟩) h

/-- Two chains are added; the device names one that does not exist, then the second one twice. -/
def oddDevice : List VqEvent :=
  [addOne 10, addOne 11, .publish ⟨0, 0, fun _ => 0, fun _ => 0⟩, names 1 7, names 2 1, names 3 1]

theorem virtqueue_ownership_odd : ∃ tr s, Run vqSystem tr s ∧ s.vq.numFree = 1 ∧
    s.returned.map Returned.cookie = [11] ∧ VirtqOk s := by
  obtain ⟨tr, s, hr, hfree, hreturned⟩ : ∃ tr s, Run vqSystem tr s ∧ s.vq.numFree = 1 ∧
      s.returned.map Returned.cookie = [11] := run_smallQueue oddDevice (by decide)
  exact ⟨tr, s, hr, hfree, hreturned, virtqueue_ownership hr⟩

/-- Two chains are added, the second one comes back, and a third is added. -/
def outOfOrder : List VqEvent := [addOne 10, addOne 11, names 1 1, addOne 12]

/-- **The entry of an outstanding chain is overwritten** when a later chain comes back first. -/
theorem entry_overwritten : ∃ tr s j a, Run vqSystem tr s ∧ s.Outstanding j ∧ s.added[j]? = some a ∧
    s.vq.availRing (j % s.vq.size) ≠ a.head := by
  obtain ⟨tr, s, hr, hout, hadded⟩ : ∃ tr s, Run vqSystem tr s ∧
      (0 < s.added.length ∧ ∀ r ∈ s.returned, r.serial ≠ 0) ∧
      s.added[0]? = some ⟨0, 10⟩ ∧ s.vq.availRing (0 % s.vq.size) ≠ 0 :=
    run_smallQueue outOfOrder ⟨_, rfl, by decide, rfl, by decide⟩
  exact ⟨tr, s, 0, ⟨0, 10⟩, hr, hout, hadded⟩

end MaeroOS.Virtio
