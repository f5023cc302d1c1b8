import MaeroOS.Seccomp.Install

/-!
# Chains only grow

What the events of `MaeroOS.Seccomp.Install` do to the chains, over whole runs. The invariant
`Sound` says that the counts are exact for the table of heads (`RefChain.Inv`), that only a thread
in filter mode has filters and only a slot in use does, and that process ids are handed out once.

Each primitive is described once, by what it does to the heads and to the chains of the other
threads (`Sound.assign`, `Sound.attach`); the two loops of a synchronising install are inductions
over the slots; `Event.apply_spec` collects them, and the run theorem only reads it off.
-/

namespace MaeroOS.Seccomp

open Function List
open Lib (Run Path)
open Lib.RefChain (Heap Inv Chain Shrinks)
open Lib.Table (holders)

variable {j : Slot}

namespace Kernel

/-- The table of chain heads. -/
def heads (k : Kernel) : Slot → Option Addr := fun i => (k.ptable i).filter

/-- The thread `i` has the chain `l`. -/
def Has (k : Kernel) (i : Slot) (l : List (Addr × SeccompFilter)) : Prop :=
  Chain k.heap (k.heads i) l

variable (k : Kernel) (t : Thread) (h : Heap Addr SeccompFilter)

@[simp] theorem setThread_heap (i : Slot) : (k.setThread i t).heap = k.heap := rfl

@[simp] theorem setHeap_heap : (k.setHeap h).heap = h := rfl

@[simp] theorem setHeap_ptable : (k.setHeap h).ptable = k.ptable := rfl

@[simp] theorem setThread_nextPid (i : Slot) : (k.setThread i t).nextPid = k.nextPid := rfl

@[simp] theorem setHeap_nextPid : (k.setHeap h).nextPid = k.nextPid := rfl

@[simp] theorem setThread_self (i : Slot) :
    (k.setThread i t).ptable i = t := by simp [setThread]

theorem setThread_ne (h : j ≠ i) :
    (k.setThread i t).ptable j = k.ptable j := by simp [setThread, h]

@[simp] theorem setHeap_heads : (k.setHeap h).heads = k.heads := rfl

theorem setThread_heads (i : Slot) :
    (k.setThread i t).heads = update k.heads i t.filter := by
  funext j
  by_cases h : j = i
  · subst h; simp [heads]
  · simp [heads, setThread_ne k t h, h]

end Kernel

/-- The invariant of every reachable state. -/
structure Sound (k : Kernel) : Prop where
  counts : Inv k.heap (holders k.heads)
  mode : ∀ i, (k.ptable i).mode ≠ .filter → (k.ptable i).filter = none
  unused : ∀ i, (k.ptable i).state = .unused → (k.ptable i).filter = none
  pids : ∀ i, (k.ptable i).state ≠ .unused → (k.ptable i).pid < k.nextPid

variable {l : List (Addr × SeccompFilter)}

namespace Sound

variable {k : Kernel}

theorem chain_eq (hs : Sound k) (hl : k.Has i l) : k.chain i = some l :=
  Chain.chain_eq hl hs.counts

theorem exists_has (hs : Sound k) (i : Slot) : ∃ l, k.Has i l :=
  hs.counts.exists_chain _ hs.counts.mem_live

end Sound

/-- What `Sound` asks of one entry of the table. -/
structure Thread.Ok (t : Thread) (nextPid : Nat) : Prop where
  mode : t.mode ≠ .filter → t.filter = none
  unused : t.state = .unused → t.filter = none
  pid : t.state ≠ .unused → t.pid < nextPid

/-- From `k` to `k'` the slot `i` becomes `t` and no other thread notices. -/
structure Change (k k' : Kernel) (i : Slot) (t : Thread) : Prop where
  sound : Sound k'
  ptable : k'.ptable = Function.update k.ptable i t
  nextPid : k.nextPid ≤ k'.nextPid
  others : ∀ j, j ≠ i → ∀ l, k.Has j l → k'.Has j l

namespace Change

variable {k k' k'' : Kernel} {i : Slot} {t t' : Thread}

theorem self (hc : Change k k' i t) : k'.ptable i = t := by rw [hc.ptable, update_self]

theorem other (hc : Change k k' i t) (hj : j ≠ i) : k'.ptable j = k.ptable j := by
  rw [hc.ptable, update_of_ne hj]

theorem trans (hc : Change k k' i t) (hc' : Change k' k'' i t') : Change k k'' i t' where
  sound := hc'.sound
  ptable := by rw [hc'.ptable, hc.ptable, update_idem]
  nextPid := le_trans hc.nextPid hc'.nextPid
  others := fun j hj l hl => hc'.others j hj l (hc.others j hj l hl)

end Change

section Primitives

variable {k : Kernel} {i : Slot} {t : Thread} {h : Heap Addr SeccompFilter}

variable (hs : Sound k)

include hs

/-- The other entries keep what `Sound` asks of them. -/
theorem Sound.of_update (hinv : Inv h (holders (update k.heads i t.filter))) (ht : t.Ok k.nextPid) :
    Sound ((k.setHeap h).setThread i t) := by
  refine ⟨?_, ?_, ?_, ?_⟩
  · rw [Kernel.setThread_heads]
    exact hinv
  all_goals
    intro j
    by_cases hj : j = i
  · subst hj; simpa using ht.mode
  · rw [Kernel.setThread_ne _ _ hj]; exact hs.mode j
  · subst hj; simpa using ht.unused
  · rw [Kernel.setThread_ne _ _ hj]; exact hs.unused j
  · subst hj; simpa using ht.pid
  · rw [Kernel.setThread_ne _ _ hj]; exact hs.pids j

/-- An update of the heap that only loses nodes, together with the slot that no longer needs
them. -/
theorem Sound.change (hinv : Inv h (holders (update k.heads i t.filter))) (hsh : Shrinks k.heap h)
    (ht : t.Ok k.nextPid) : Change k ((k.setHeap h).setThread i t) i t where
  sound := hs.of_update hinv ht
  ptable := rfl
  nextPid := le_refl _
  others := by
    intro j hj l hl
    have hhead : ((k.setHeap h).setThread i t).heads j = k.heads j := by
      rw [Kernel.setThread_heads, update_of_ne hj]
      rfl
    unfold Kernel.Has
    rw [hhead]
    refine Chain.shrink hl hinv hsh fun a ha => ?_
    refine hinv.mem_live (i := j) a ?_
    rw [update_of_ne hj]
    exact ha

/-- A change to the fields of a thread that leaves its head alone. -/
theorem Sound.setFields (hf : t.filter = (k.ptable i).filter)
    (ht : t.Ok k.nextPid) : Change k (k.setThread i t) i t := by
  have hheads : update k.heads i t.filter = k.heads := by
    rw [hf]
    exact update_eq_self i k.heads
  exact hs.change (h := k.heap) (by rw [hheads]; exact hs.counts) (Shrinks.refl _) ht

omit hs in
/-- The chain of a thread whose head is left alone. -/
theorem Kernel.Has.setFields (hl : k.Has i l) (hf : t.filter = (k.ptable i).filter) :
    (k.setThread i t).Has i l := by
  unfold Kernel.Has
  rw [Kernel.setThread_heads, update_self, hf]
  exact hl

theorem Sound.ok (i : Slot) : (k.ptable i).Ok k.nextPid :=
  ⟨hs.mode i, hs.unused i, hs.pids i⟩

/-- `seccomp_release` empties the thread's chain. -/
theorem seccompRelease_spec (p : Slot) :
    ∃ k', seccompRelease k p = some k' ∧ Change k k' p { k.ptable p with filter := none } := by
  obtain ⟨h₁, h, hget, hput, hinv, hsh⟩ := hs.counts.assign p (v := none) (by simp)
  cases hget
  refine ⟨_, ?_, hs.change hinv hsh ⟨fun _ => rfl, fun _ => rfl, (hs.ok p).pid⟩⟩
  show (Heap.put k.heap.live.card k.heap (k.ptable p).filter).map _ = _
  rw [show (k.ptable p).filter = k.heads p from rfl, hput]
  rfl

/-- `seccomp_fork` into a slot without filters. -/
theorem seccompFork_spec (child parent : Slot)
    (hnone : (k.ptable child).filter = none) (hused : (k.ptable child).state ≠ .unused) :
    ∃ k', seccompFork k child parent = some k' ∧ Change k k' child
      { k.ptable child with
        noNewPrivs := (k.ptable parent).noNewPrivs
        mode := (k.ptable parent).mode
        filter := (k.ptable parent).filter } := by
  obtain ⟨h₁, h, hget, hput, hinv, hsh⟩ :=
    hs.counts.assign child (v := k.heads parent) hs.counts.mem_live
  have hput' : h₁ = h := by
    rw [show k.heads child = none from hnone] at hput
    cases hc : h₁.live.card <;> (rw [hc] at hput; exact Option.some.inj hput)
  subst hput'
  refine ⟨_, ?_, hs.change hinv hsh ⟨hs.mode parent, fun h => absurd h hused, (hs.ok child).pid⟩⟩
  show (k.heap.get (k.heads parent)).map _ = _
  rw [hget]
  rfl

/-- The caller's chain grows by the new filter; the others stay. -/
theorem attach_spec (p : Slot) {a : Addr} (ha : a ∉ k.heap.live)
    (hp : (k.ptable p).state ≠ .unused) (f : SeccompFilter) :
    Change k (attach k p a f) p { k.ptable p with mode := .filter, filter := some a } ∧
      ∀ l, k.Has p l → (attach k p a f).Has p ((a, f) :: l) := by
  have hinv := hs.counts.push p ha f
  refine ⟨⟨hs.of_update hinv ⟨fun h => absurd rfl h, fun h => absurd h hp, (hs.ok p).pid⟩, rfl,
    le_refl _, ?_⟩, ?_⟩
  · intro j hj l hl
    unfold Kernel.Has attach
    rw [Kernel.setThread_heads, update_of_ne hj]
    exact Chain.alloc hl ha
  · intro l hl
    unfold Kernel.Has attach
    rw [Kernel.setThread_heads, update_self]
    have hcons := Chain.cons (h := k.heap.alloc a ⟨1, (k.ptable p).filter, f⟩) (a := a) (l := l)
      (Finset.mem_insert_self _ _)
    rw [Heap.alloc_node_self] at hcons
    exact hcons (Chain.alloc hl ha)

end Primitives

/-! ## Synchronising a thread group -/

section Tsync

variable {k k' : Kernel} {p q : Slot} {a : Addr}

theorem isSibling_iff : isSibling k p q = true ↔
    q ≠ p ∧ (k.ptable q).tgid = (k.ptable p).tgid ∧ (k.ptable q).Live := by
  simp [isSibling]

theorem isSibling_congr (htgid : (k'.ptable q).tgid = (k.ptable q).tgid)
    (hstate : (k'.ptable q).state = (k.ptable q).state)
    (hp : (k'.ptable p).tgid = (k.ptable p).tgid) : isSibling k' p q = isSibling k p q := by
  rw [Bool.eq_iff_iff, isSibling_iff, isSibling_iff, Thread.Live, Thread.Live, htgid, hstate, hp]

/-- The chain of `i` is an ancestor of the chain of `p`. -/
def Ancestor (k : Kernel) (i p : Slot) : Prop := ∃ l lp, k.Has i l ∧ k.Has p lp ∧ l <:+ lp

theorem Ancestor.of_filter_none (hs : Sound k) (hq : (k.ptable q).filter = none) :
    Ancestor k q p := by
  obtain ⟨lp, hlp⟩ := hs.exists_has p
  refine ⟨[], lp, ?_, hlp, nil_suffix⟩
  show Chain k.heap (k.ptable q).filter []
  rw [hq]
  exact .nil

theorem isAncestor_spec (hs : Sound k) (p q : Slot) :
    ∃ b, isAncestor k.heap (k.ptable q).filter (k.ptable p).filter = some b ∧
      (b = true → Ancestor k q p) := by
  cases hq : (k.ptable q).filter with
  | none => exact ⟨true, rfl, fun _ => Ancestor.of_filter_none hs hq⟩
  | some a =>
    obtain ⟨lp, hlp⟩ := hs.exists_has p
    refine ⟨(lp.map Prod.fst).contains a, ?_, ?_⟩
    · show (k.chain p).map _ = _
      rw [hs.chain_eq hlp]
      rfl
    · intro hmem
      obtain ⟨l, hl, hsuf⟩ := Chain.suffix_of_mem hlp (contains_iff_mem.mp hmem)
      refine ⟨l, lp, ?_, hlp, hsuf⟩
      show Chain k.heap (k.ptable q).filter l
      rw [hq]
      exact hl

/-- The check lets through only groups whose chains are all ancestors of the caller's. -/
theorem tsyncRefuser_spec (hs : Sound k) (p : Slot) : ∀ qs : List Slot,
    ∃ r, tsyncRefuser k p qs = some r ∧
      (r = none → ∀ q ∈ qs, isSibling k p q = true → Ancestor k q p) := by
  intro qs
  induction qs with
  | nil => exact ⟨none, rfl, nofun⟩
  | cons q qs ih =>
    obtain ⟨r, hr, hall⟩ := ih
    have hgo : Ancestor k q p ∨ isSibling k p q = false →
        (r = none → ∀ q' ∈ q :: qs, isSibling k p q' = true → Ancestor k q' p) := by
      intro hq hnone q' hq' hsib
      rcases mem_cons.mp hq' with rfl | hq'
      · exact hq.resolve_right (by simp [hsib])
      · exact hall hnone q' hq' hsib
    unfold tsyncRefuser
    by_cases hsib : isSibling k p q = true
    · rw [if_pos hsib]
      cases hmode : (k.ptable q).mode with
      | disabled =>
        exact ⟨r, hr, hgo (Or.inl (Ancestor.of_filter_none hs (hs.mode q (by simp [hmode]))))⟩
      | strict => exact ⟨some q, rfl, nofun⟩
      | filter =>
        obtain ⟨b, hb, hanc⟩ := isAncestor_spec hs p q
        simp only [hb]
        cases b with
        | true => exact ⟨r, hr, hgo (Or.inl (hanc rfl))⟩
        | false => exact ⟨some q, rfl, nofun⟩
    · rw [if_neg hsib]
      exact ⟨r, hr, hgo (Or.inr (by simpa using hsib))⟩

/-- Moving one sibling onto the chain of `p`. -/
theorem tsyncMoveOne_spec (hs : Sound k) (hp : (k.ptable p).filter = some a)
    (hq : isSibling k p q = true) :
    ∃ k' t, tsyncMoveOne k p a q = some k' ∧ Change k k' q t ∧ t.pid = (k.ptable q).pid ∧
      t.tgid = (k.ptable q).tgid ∧ t.state = (k.ptable q).state ∧
      ∀ l, k.Has p l → k'.Has q l := by
  obtain ⟨hqp, -, hlive⟩ := isSibling_iff.mp hq
  have ha : ∀ b, some a = some b → b ∈ k.heap.live :=
    fun b hb => hs.counts.mem_live (i := p) b (hp.trans hb)
  obtain ⟨h₁, h, hget, hput, hinv, hsh⟩ := hs.counts.assign q ha
  -- the sibling's entry as it is at the end of the iteration
  refine ⟨_, { k.ptable q with
      filter := some a
      noNewPrivs := (k.ptable p).noNewPrivs || (k.ptable q).noNewPrivs
      mode := .filter }, ?_, hs.change hinv hsh ⟨fun h => absurd rfl h, fun h => absurd h hlive.1,
        (hs.ok q).pid⟩, rfl, rfl, rfl, ?_⟩
  · have hfp : filterPut ((k.setHeap h₁).setThread q { k.ptable q with filter := some a })
        (k.ptable q).filter =
        some ((k.setHeap h).setThread q { k.ptable q with filter := some a }) := by
      show (Heap.put h₁.live.card h₁ (k.heads q)).map _ = _
      rw [hput]
      rfl
    unfold tsyncMoveOne
    simp only [hget, hfp, Kernel.setThread_self, Kernel.setThread_ne _ _ hqp.symm]
    simp only [Kernel.setThread, update_idem, Kernel.setHeap]
  · intro l hl
    unfold Kernel.Has
    rw [Kernel.setThread_heads, update_self]
    refine Chain.shrink (hp ▸ hl : Chain k.heap (some a) l) hinv hsh fun b hb => ?_
    exact hinv.mem_live (i := q) b (by rw [update_self]; exact hb)

end Tsync

/-! ## What a step does to the threads -/

/-- The thread in slot `i` is still the one it was, and its chain has its old chain as a suffix. -/
def Follows (k k' : Kernel) (i : Slot) : Prop :=
  (k.ptable i).Live ∧ (k'.ptable i).pid = (k.ptable i).pid ∧
    ∀ l, k.Has i l → ∃ l', k'.Has i l' ∧ l <:+ l'

/-- Every live thread follows from one before, or is new. -/
structure Outcome (k k' : Kernel) : Prop where
  sound : Sound k'
  nextPid : k.nextPid ≤ k'.nextPid
  threads : ∀ i, (k'.ptable i).Live → Follows k k' i ∨ k.nextPid ≤ (k'.ptable i).pid

namespace Outcome

variable {k k' k'' : Kernel} {i : Slot} {t : Thread}

theorem refl (hs : Sound k) : Outcome k k :=
  ⟨hs, le_refl _, fun _ hl => Or.inl ⟨hl, rfl, fun l h => ⟨l, h, suffix_refl l⟩⟩⟩

theorem trans (h : Outcome k k') (h' : Outcome k' k'') : Outcome k k'' where
  sound := h'.sound
  nextPid := le_trans h.nextPid h'.nextPid
  threads := by
    intro i hlive
    rcases h'.threads i hlive with ⟨hlive', hpid', hext'⟩ | hnew
    · rcases h.threads i hlive' with ⟨hlive, hpid, hext⟩ | hnew
      · refine Or.inl ⟨hlive, hpid'.trans hpid, fun l hl => ?_⟩
        obtain ⟨l', hl', hsuf⟩ := hext l hl
        obtain ⟨l'', hl'', hsuf'⟩ := hext' l' hl'
        exact ⟨l'', hl'', hsuf.trans hsuf'⟩
      · exact Or.inr (hpid' ▸ hnew)
    · exact Or.inr (le_trans h.nextPid hnew)

/-- Only the changed slot needs an argument. -/
theorem of_change (hc : Change k k' i t) (hi : t.Live → Follows k k' i ∨ k.nextPid ≤ t.pid) :
    Outcome k k' where
  sound := hc.sound
  nextPid := hc.nextPid
  threads := by
    intro j hlive
    by_cases hj : j = i
    · subst hj
      rw [hc.self] at hlive ⊢
      exact hi hlive
    · rw [hc.other hj] at hlive ⊢
      exact Or.inl ⟨hlive, by rw [hc.other hj],
        fun l hl => ⟨l, hc.others j hj l hl, suffix_refl l⟩⟩

/-- A change to the fields of a thread that leaves its head and its id alone. -/
theorem of_fields (hs : Sound k) (hf : t.filter = (k.ptable i).filter)
    (hpid : t.pid = (k.ptable i).pid) (ht : t.Ok k.nextPid) (hl : t.Live → (k.ptable i).Live) :
    Outcome k (k.setThread i t) := by
  refine of_change (hs.setFields hf ht) fun hlive => Or.inl ⟨hl hlive, ?_, ?_⟩
  · rw [Kernel.setThread_self]
    exact hpid
  · exact fun l h => ⟨l, h.setFields hf, suffix_refl l⟩

end Outcome

section Install

variable {k : Kernel} {p : Slot} {a : Addr} {f : SeccompFilter}

/-- The second loop of a synchronising install: each sibling it moves had an ancestor of the chain
it gets, and it moves nobody else. -/
theorem tsyncMove_spec : ∀ (qs : List Slot) (k : Kernel), qs.Nodup → Sound k →
    (k.ptable p).filter = some a → (∀ q ∈ qs, isSibling k p q = true → Ancestor k q p) →
    ∃ k', tsyncMove p a qs k = some k' ∧ Outcome k k' ∧
      ∀ i, isSibling k p i = false → ∀ l, k.Has i l → k'.Has i l := by
  intro qs
  induction qs with
  | nil =>
    intro k _ hs _ _
    exact ⟨k, rfl, Outcome.refl hs, fun _ _ _ hl => hl⟩
  | cons q qs ih =>
    intro k hnodup hs hp hanc
    obtain ⟨hnotin, hnodup⟩ := nodup_cons.mp hnodup
    have hanc' := fun q' hq' => hanc q' (mem_cons_of_mem q hq')
    unfold tsyncMove
    by_cases hsib : isSibling k p q = true
    · rw [if_pos hsib]
      obtain ⟨k₁, t, hmove, hc, hpid, htgid, hstate, hchain⟩ := tsyncMoveOne_spec hs hp hsib
      obtain ⟨hqp, -, hlive⟩ := isSibling_iff.mp hsib
      simp only [hmove]
      -- the other slots look the same to the rest of the loop
      have hsame : ∀ i, isSibling k₁ p i = isSibling k p i := by
        intro i
        have hp : k₁.ptable p = k.ptable p := hc.other hqp.symm
        by_cases hi : i = q
        · subst hi
          exact isSibling_congr (by rw [hc.self, htgid]) (by rw [hc.self, hstate]) (by rw [hp])
        · exact isSibling_congr (by rw [hc.other hi]) (by rw [hc.other hi]) (by rw [hp])
      have hrest : ∀ q' ∈ qs, isSibling k₁ p q' = true → Ancestor k₁ q' p := by
        intro q' hq' hsib'
        obtain ⟨l, lp, hl, hlp, hsuf⟩ := hanc' q' hq' (hsame q' ▸ hsib')
        have hne : q' ≠ q := fun h => hnotin (h ▸ hq')
        exact ⟨l, lp, hc.others q' hne l hl, hc.others p hqp.symm lp hlp, hsuf⟩
      have hp₁ : (k₁.ptable p).filter = some a := by
        rw [hc.other hqp.symm]
        exact hp
      obtain ⟨k', hk', hout, hothers⟩ := ih k₁ hnodup hc.sound hp₁ hrest
      have hstep : Outcome k k₁ := by
        refine Outcome.of_change hc fun _ => Or.inl ⟨hlive, ?_, fun l hl => ?_⟩
        · rw [hc.self]
          exact hpid
        · obtain ⟨l', lp, hl', hlp, hsuf⟩ := hanc q mem_cons_self hsib
          exact ⟨lp, hchain lp hlp, Chain.unique hl' hl ▸ hsuf⟩
      refine ⟨k', hk', hstep.trans hout, fun i hi l hl => ?_⟩
      have hiq : i ≠ q := fun h => by simp [h, hsib] at hi
      exact hothers i ((hsame i).trans hi) l (hc.others i hiq l hl)
    · rw [if_neg hsib]
      exact ih k hnodup hs hp hanc'

/-- What a call that may install a filter for `p` does. -/
structure Installs (k : Kernel) (p : Slot) (r : Int) (k' : Kernel) : Prop where
  outcome : Outcome k k'
  failed : r ≠ 0 → k' = k
  others : ∀ i, i ≠ p → (∀ l, k.Has i l → k'.Has i l) ∨ Ancestor k i p

theorem Installs.unchanged (hs : Sound k) (r : Int) : Installs k p r k :=
  ⟨Outcome.refl hs, fun _ => rfl, fun _ _ => Or.inl fun _ hl => hl⟩

theorem attach_outcome (hs : Sound k) (ha : a ∉ k.heap.live) (hp : (k.ptable p).state = .running) :
    Outcome k (attach k p a f) := by
  obtain ⟨hc, hgrow⟩ := attach_spec hs p ha (by simp [hp]) f
  have hlive : (k.ptable p).Live := by simp [Thread.Live, hp]
  refine Outcome.of_change hc fun _ => Or.inl ⟨hlive, ?_, fun l hl => ?_⟩
  · rw [hc.self]
  · exact ⟨_, hgrow l hl, suffix_cons _ l⟩

theorem installFilter_spec (hs : Sound k) (flags : UInt32) (ha : a ∉ k.heap.live)
    (hp : (k.ptable p).state = .running) :
    ∃ r k', installFilter k p flags a f = some (r, k') ∧ Installs k p r k' := by
  obtain ⟨hc, -⟩ := attach_spec hs p ha (by simp [hp]) f
  have hattach : Outcome k (attach k p a f) := attach_outcome hs ha hp
  obtain ⟨lp, hlp⟩ := hs.exists_has p
  unfold installFilter
  split
  · exact ⟨_, k, rfl, Installs.unchanged hs _⟩
  simp only [hs.chain_eq hlp]
  split
  · exact ⟨_, k, rfl, Installs.unchanged hs _⟩
  split
  · exact ⟨0, _, rfl, hattach, fun h => absurd rfl h, fun i hi => Or.inl (hc.others i hi)⟩
  obtain ⟨r, hr, hanc⟩ := tsyncRefuser_spec hs p (finRange maxProcs)
  cases r with
  | some q =>
    simp only [hr]
    exact ⟨_, k, rfl, Installs.unchanged hs _⟩
  | none =>
    simp only [hr]
    have hsame : ∀ i, isSibling (attach k p a f) p i = isSibling k p i := by
      intro i
      by_cases hi : i = p
      · simp [isSibling, hi]
      · exact isSibling_congr (by rw [hc.other hi]) (by rw [hc.other hi]) (by rw [hc.self])
    have hanc' : ∀ q ∈ finRange maxProcs, isSibling (attach k p a f) p q = true →
        Ancestor (attach k p a f) q p := by
      intro q hq hsib
      obtain ⟨l, lp, hl, hlp, hsuf⟩ := hanc rfl q hq (hsame q ▸ hsib)
      have hqp := (isSibling_iff.mp hsib).1
      obtain ⟨-, hgrow⟩ := attach_spec hs p ha (by simp [hp]) f
      exact ⟨l, _, hc.others q hqp l hl, hgrow lp hlp, hsuf.trans (suffix_cons _ lp)⟩
    obtain ⟨k', hk', hout, hothers⟩ := tsyncMove_spec (finRange maxProcs) _
      (nodup_finRange _) hc.sound (by rw [hc.self]) hanc'
    refine ⟨0, k', by rw [hk']; rfl, hattach.trans hout, fun h => absurd rfl h, fun i hi => ?_⟩
    by_cases hsib : isSibling k p i = true
    · exact Or.inr (hanc rfl i (mem_finRange i) hsib)
    refine Or.inl fun l hl => hothers i ?_ l (hc.others i hi l hl)
    rw [hsame]
    simpa using hsib

theorem setModeFilter_spec (hs : Sound k) (flags : UInt32) (uprog : Option SockFprog)
    (mem : Option Addr) (known : Bool) (hp : (k.ptable p).state = .running)
    (hmem : ∀ a, mem = some a → a ∉ k.heap.live) :
    ∃ r k', setModeFilter k p flags uprog mem known = some (r, k') ∧ Installs k p r k' := by
  have hstop : ∀ r : Int, ∃ r' k', some (r, k) = some (r', k') ∧ Installs k p r' k' :=
    fun r => ⟨r, k, rfl, Installs.unchanged hs r⟩
  unfold setModeFilter
  split
  · exact hstop _
  split
  · exact hstop _
  split
  · exact hstop _
  split
  · exact hstop _
  split
  · exact hstop _
  · exact hstop _
  split
  · exact hstop _
  · exact installFilter_spec hs flags (hmem _ rfl) hp

end Install

/-! ## Every event -/

section Events

variable {k : Kernel}

theorem setModeStrict_spec (hs : Sound k) (hp : (k.ptable p).state = .running) :
    Outcome k (setModeStrict k p).2 ∧ ((setModeStrict k p).1 ≠ 0 → (setModeStrict k p).2 = k) := by
  unfold setModeStrict
  split
  · exact ⟨Outcome.refl hs, fun _ => rfl⟩
  next hmode =>
  have hnone : (k.ptable p).filter = none := hs.mode p (by grind)
  have hlive : (k.ptable p).Live := by simp [Thread.Live, hp]
  refine ⟨Outcome.of_fields hs rfl rfl ⟨fun _ => hnone, (hs.ok p).unused, (hs.ok p).pid⟩
    fun _ => hlive, fun h => absurd rfl h⟩

theorem allocproc_spec (hs : Sound k) (hi : (k.ptable i).state = .unused) :
    Change k (allocproc k i) i ⟨.embryo, k.nextPid, k.nextPid, 0, false, .disabled, none⟩ := by
  -- the heads do not move: a free slot has none
  have hheads : (allocproc k i).heads = k.heads := by
    funext j
    by_cases hj : j = i
    · subst hj
      simp [Kernel.heads, allocproc, Kernel.setThread, hs.unused j hi]
    · simp [Kernel.heads, allocproc, Kernel.setThread, hj]
  refine ⟨⟨?_, ?_, ?_, ?_⟩, rfl, Nat.le_succ _, ?_⟩
  · rw [hheads]
    exact hs.counts
  · intro j hm
    rw [show ((allocproc k i).ptable j).filter = k.heads j from congrFun hheads j]
    by_cases hj : j = i
    · exact hj ▸ hs.unused i hi
    · exact hs.mode j (by simpa [allocproc, Kernel.setThread, hj] using hm)
  · intro j hu
    rw [show ((allocproc k i).ptable j).filter = k.heads j from congrFun hheads j]
    by_cases hj : j = i
    · exact hj ▸ hs.unused i hi
    · exact hs.unused j (by simpa [allocproc, Kernel.setThread, hj] using hu)
  · intro j hu
    by_cases hj : j = i
    · subst hj
      simp [allocproc, Kernel.setThread]
    · have := hs.pids j (by simpa [allocproc, Kernel.setThread, hj] using hu)
      simpa [allocproc, Kernel.setThread, hj] using Nat.lt_succ_of_lt this
  · intro j _ l hl
    unfold Kernel.Has
    rw [hheads]
    exact hl

theorem fork_spec (hs : Sound k) {parent child : Slot} (thread : Bool)
    (hparent : (k.ptable parent).state = .running) (hchild : (k.ptable child).state = .unused) :
    ∃ k', fork k parent child thread = some k' ∧ Outcome k k' := by
  have hne : parent ≠ child := fun h => by simp [h, hchild] at hparent
  have h₁ := allocproc_spec hs hchild
  have hslot := h₁.self
  set k₁ := allocproc k child with hk₁
  have h₂ : Change k₁ _ child { k₁.ptable child with euid := (k.ptable parent).euid } :=
    h₁.sound.setFields rfl ⟨by simp [hslot], by simp [hslot], by
      intro _
      exact h₁.sound.pids child (by simp [hslot])⟩
  set k₂ := k₁.setThread child { k₁.ptable child with euid := (k.ptable parent).euid } with hk₂
  have hslot₂ := h₂.self
  obtain ⟨k₃, hfork, h₃⟩ := seccompFork_spec h₂.sound child parent
    (by simp [hslot₂, hslot]) (by simp [hslot₂, hslot])
  have hslot₃ := h₃.self
  have hpid : (k₃.ptable child).pid = k.nextPid := by simp [hslot₃, hslot₂, hslot]
  have h₁₃ := (h₁.trans h₂).trans h₃
  unfold fork
  simp only [← hk₁, ← hk₂, hfork, Option.map_some]
  cases thread with
  | false =>
    exact ⟨k₃, rfl, Outcome.of_change h₁₃ fun _ => Or.inr (by rw [← h₁₃.self, hpid])⟩
  | true =>
    have h₄ : Change k₃ _ child { k₃.ptable child with tgid := (k.ptable parent).tgid } :=
      h₃.sound.setFields rfl
        ⟨(h₃.sound.ok child).mode, (h₃.sound.ok child).unused, (h₃.sound.ok child).pid⟩
    refine ⟨_, rfl, Outcome.of_change (h₁₃.trans h₄) fun _ => Or.inr ?_⟩
    exact le_of_eq hpid.symm

/-- `seccomp_release` of a thread that is not live afterwards. -/
theorem release_outcome (hs : Sound k) {state : ProcState}
    (hstate : state = .unused ∨ state = .zombie) (hp : (k.ptable p).state ≠ .unused) :
    ∃ k', seccompRelease k p = some k' ∧
      Outcome k (k'.setThread p { k'.ptable p with state := state }) := by
  obtain ⟨k', hk', hc⟩ := seccompRelease_spec hs p
  refine ⟨k', hk', ?_⟩
  have hslot := hc.self
  have hc' : Change k' _ p { k'.ptable p with state := state } :=
    hc.sound.setFields rfl ⟨by simp [hslot], by simp [hslot],
      fun _ => hc.sound.pids p (by simp [hslot, hp])⟩
  refine Outcome.of_change (hc.trans hc') fun hlive => ?_
  rcases hstate with rfl | rfl
  · exact absurd rfl hlive.1
  · exact absurd rfl hlive.2

/-- What every event does, from any state of a run. -/
structure Does (k : Kernel) (e : Event) (r : Int) (k' : Kernel) : Prop where
  outcome : Outcome k k'
  failed : r ≠ 0 → k' = k
  others : ∀ p flags uprog mem known, e = .setModeFilter p flags uprog mem known →
    ∀ i, i ≠ p → (∀ l, k.Has i l → k'.Has i l) ∨ Ancestor k i p

theorem Event.apply_spec (hs : Sound k) (e : Event) (he : e.Enabled k) :
    ∃ r k', e.apply k = some (r, k') ∧ Does k e r k' := by
  have hrunning : ∀ {i : Slot}, (k.ptable i).state = .running → (k.ptable i).Live :=
    fun h => by simp [Thread.Live, h]
  cases e with
  | setModeFilter p flags uprog mem known =>
    obtain ⟨r, k', hk', hins⟩ := setModeFilter_spec hs flags uprog mem known he.1 he.2
    refine ⟨r, k', hk', hins.outcome, hins.failed, ?_⟩
    rintro _ _ _ _ _ ⟨⟩
    exact hins.others
  | setModeStrict p =>
    obtain ⟨hout, hfail⟩ := setModeStrict_spec hs (p := p) he
    exact ⟨_, _, rfl, hout, hfail, nofun⟩
  | setNoNewPrivs p | setEuid p euid =>
    exact ⟨_, _, rfl, Outcome.of_fields hs rfl rfl
      ⟨(hs.ok p).mode, (hs.ok p).unused, (hs.ok p).pid⟩ fun _ => hrunning he,
      fun h => absurd rfl h, nofun⟩
  | create i =>
    exact ⟨_, _, rfl, Outcome.of_change (allocproc_spec hs he) fun _ => Or.inr (le_refl _),
      fun h => absurd rfl h, nofun⟩
  | fork parent child thread =>
    obtain ⟨k', hk', hout⟩ := fork_spec hs thread he.1 he.2
    refine ⟨0, k', ?_, hout, fun h => absurd rfl h, nofun⟩
    simp only [Event.apply, hk', Option.map_some]
  | forkAbort child =>
    obtain ⟨k', hk', hout⟩ := release_outcome hs (p := child) (Or.inl rfl)
      (by rw [show (k.ptable child).state = .embryo from he]; decide)
    refine ⟨0, _, ?_, hout, fun h => absurd rfl h, nofun⟩
    simp only [Event.apply, hk', Option.map_some]
  | schedule i state =>
    obtain ⟨hlive, hunused, -, -⟩ := he
    exact ⟨_, _, rfl, Outcome.of_fields hs rfl rfl
      ⟨(hs.ok i).mode, fun h => absurd h hunused, fun _ => hs.pids i hlive.1⟩ fun _ => hlive,
      fun h => absurd rfl h, nofun⟩
  | exit p =>
    have hlive := hrunning (i := p) he
    exact ⟨_, _, rfl, Outcome.of_fields hs rfl rfl
      ⟨(hs.ok p).mode, nofun, fun _ => hs.pids p hlive.1⟩ fun _ => hlive,
      fun h => absurd rfl h, nofun⟩
  | seccompRelease p =>
    have hz : (k.ptable p).state = .zombie := he
    obtain ⟨k', hk', hc⟩ := seccompRelease_spec hs p
    refine ⟨0, k', ?_, Outcome.of_change hc fun hlive => absurd hz hlive.2,
      fun h => absurd rfl h, nofun⟩
    simp only [Event.apply, hk', Option.map_some]
  | procRelease p =>
    obtain ⟨k', hk', hout⟩ := release_outcome hs (p := p) (Or.inl rfl)
      (by rw [show (k.ptable p).state = .zombie from he]; decide)
    refine ⟨0, _, ?_, hout, fun h => absurd rfl h, nofun⟩
    simp only [Event.apply, hk', Option.map_some]

end Events

/-! ## Whole runs -/

theorem sound_of_init (hk : system.init k) : Sound k := by
  obtain ⟨hslots, hlive⟩ := hk
  have hholders : ∀ a, holders k.heads a = 0 := by
    intro a
    simp [holders, Kernel.heads, (hslots _).2.1]
  refine ⟨⟨?_, ?_, ⟨fun _ => 0, ?_⟩, ?_, ?_⟩, fun i _ => (hslots i).2.1, fun i _ => (hslots i).2.1,
    fun i h => absurd (hslots i).1 h⟩
  · intro a ha
    rw [hholders] at ha
    exact absurd ha (lt_irrefl 0)
  all_goals
    intro a ha
    rw [hlive] at ha
    exact absurd ha (Finset.notMem_empty a)

theorem system_step_outcome {e : Event} (hs : Sound k) (hstep : system.step k e k') :
    ∃ r, e.apply k = some (r, k') ∧ Does k e r k' := by
  obtain ⟨he, r, hr⟩ := hstep
  obtain ⟨r', k'', hr', hdoes⟩ := Event.apply_spec hs e he
  rw [hr] at hr'
  cases hr'
  exact ⟨r, hr, hdoes⟩

theorem sound_of_run {es : List Event} (hrun : Run system es k) : Sound k := by
  refine hrun.invariant (fun k hk => sound_of_init hk) fun k e k' hs hstep => ?_
  obtain ⟨_, _, hdoes⟩ := system_step_outcome hs hstep
  exact hdoes.outcome.sound

theorem outcome_of_path {es : List Event} (hs : Sound k) (hpath : Path system k es k') :
    Outcome k k' := by
  induction hpath with
  | refl => exact Outcome.refl hs
  | step _ hstep ih =>
    obtain ⟨_, _, hdoes⟩ := system_step_outcome ih.sound hstep
    exact ih.trans hdoes.outcome

/-- **Chain discipline.** In every state of every run:

* no event meets a freed filter;
* from then on a thread that is still there has its old chain as a suffix of its new one, and an
  install moves another thread only if its chain is an ancestor of the caller's;
* a call that does not return 0 leaves the whole state as it was;
* a filter's count is the number of threads whose head it is plus the number of live filters whose
  `prev` it is, and a filter is allocated exactly as long as it is on some thread's chain. -/
theorem chain_discipline {es : List Event} {k : Kernel} (hrun : Run system es k) :
    (∀ e : Event, e.Enabled k → ∃ r k', e.apply k = some (r, k')) ∧
    (∀ es' k', Path system k es' k' → ∀ i, (k.ptable i).Live → (k'.ptable i).Live →
      (k'.ptable i).pid = (k.ptable i).pid →
      ∃ l l', k.chain i = some l ∧ k'.chain i = some l' ∧ l <:+ l') ∧
    (∀ p flags uprog mem known k',
      system.step k (.setModeFilter p flags uprog mem known) k' → ∀ i, i ≠ p →
      k'.chain i = k.chain i ∨
        ∃ l lp, k.chain i = some l ∧ k.chain p = some lp ∧ l <:+ lp) ∧
    (∀ (e : Event) r k', e.Enabled k → e.apply k = some (r, k') → r ≠ 0 → k' = k) ∧
    (∀ a ∈ k.heap.live, (k.heap.node a).ref =
      (Finset.univ.filter fun i => (k.ptable i).filter = some a).card +
        (k.heap.live.filter fun b => (k.heap.node b).prev = some a).card) ∧
    (∀ a, a ∈ k.heap.live ↔ ∃ i l, k.chain i = some l ∧ a ∈ l.map Prod.fst) := by
  have hs := sound_of_run hrun
  refine ⟨?_, ?_, ?_, ?_, hs.counts.count, fun a => ⟨fun ha => ?_, ?_⟩⟩
  · intro e he
    obtain ⟨r, k', hk', -⟩ := Event.apply_spec hs e he
    exact ⟨r, k', hk'⟩
  · intro es' k' hpath i hlive hlive' hpid
    have hout := outcome_of_path hs hpath
    rcases hout.threads i hlive' with ⟨-, -, hext⟩ | hnew
    · obtain ⟨l, hl⟩ := hs.exists_has i
      obtain ⟨l', hl', hsuf⟩ := hext l hl
      exact ⟨l, l', hs.chain_eq hl, hout.sound.chain_eq hl', hsuf⟩
    · have := hs.pids i hlive.1
      omega
  · intro p flags uprog mem known k' hstep i hi
    obtain ⟨r, -, hdoes⟩ := system_step_outcome hs hstep
    rcases hdoes.others p flags uprog mem known rfl i hi with hsame | ⟨l, lp, hl, hlp, hsuf⟩
    · obtain ⟨l, hl⟩ := hs.exists_has i
      exact Or.inl ((hdoes.outcome.sound.chain_eq (hsame l hl)).trans (hs.chain_eq hl).symm)
    · exact Or.inr ⟨l, lp, hs.chain_eq hl, hs.chain_eq hlp, hsuf⟩
  · intro e r k' he hk' hr
    obtain ⟨r', k'', hk'', hdoes⟩ := Event.apply_spec hs e he
    rw [hk'] at hk''
    cases hk''
    exact hdoes.failed hr
  · obtain ⟨i, l, hl, hmem⟩ := hs.counts.on_chain_of_live ha
    exact ⟨i, l, hs.chain_eq hl, hmem⟩
  · rintro ⟨i, l, hl, hmem⟩
    obtain ⟨l', hl'⟩ := hs.exists_has i
    rw [hs.chain_eq hl'] at hl
    cases hl
    exact Chain.mem_live hl' a hmem

/-- The kernel at boot. -/
def boot : Kernel :=
  ⟨fun _ => ⟨.unused, 0, 0, 0, false, .disabled, none⟩, 1,
    ⟨∅, fun _ => ⟨0, none, answers retAllow (by decide)⟩⟩⟩

/-- The slot `init` gets. -/
def initSlot : Slot := ⟨0, by decide⟩

/-- The program that allows every call, as user memory holds it. -/
def allowAll : SockFprog := ⟨1, some ⟨#[⟨0x06, 0, 0, retAllow⟩], rfl⟩⟩

/-- The first process installs a filter at address 64. -/
theorem chain_discipline_first_filter :
    ∃ k, Run system
        [.setModeFilter initSlot 0 (some allowAll) (some 64) true, .schedule initSlot .running,
          .create initSlot] k ∧
      k.heap.live = {64} ∧
      ∀ a, a ∈ k.heap.live ↔ ∃ i l, k.chain i = some l ∧ a ∈ l.map Prod.fst := by
  have hboot : system.init boot := ⟨fun _ => ⟨rfl, rfl, rfl⟩, rfl⟩
  have hcreate : Run system [.create initSlot] (allocproc boot initSlot) :=
    .step (.init hboot) ⟨rfl, 0, rfl⟩
  have hstart : Run system [.schedule initSlot .running, .create initSlot] _ :=
    .step hcreate ⟨⟨by decide, by decide, by decide, by decide⟩, 0, rfl⟩
  have hrun : Run system [.setModeFilter initSlot 0 (some allowAll) (some 64) true,
      .schedule initSlot .running, .create initSlot] _ :=
    .step hstart ⟨⟨rfl, fun a _ => Finset.notMem_empty a⟩, 0, rfl⟩
  obtain ⟨-, -, -, -, -, hlive⟩ := chain_discipline hrun
  exact ⟨_, hrun, rfl, hlive⟩

end MaeroOS.Seccomp
