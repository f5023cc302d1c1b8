import MaeroOS.Lib.Lives
import MaeroOS.SysV.Shm
import Mathlib.Algebra.Order.BigOperators.Group.Finset
import Mathlib.Algebra.BigOperators.Fin

/-!
# The life of a segment

What keeps a segment alive, over whole runs. An attach record always names a segment in use
(`ShmInv.named`), so the checks against stale records never fire, and `nattch` is the number of
records (`ShmInv.nattch`). A segment that is marked is therefore there just as long as it has
records (`Waiting`): the code looks after every event that could end its life.

Between freeing a record and `shm_maybe_destroy` a marked segment may have no record left. That is
why `Waiting` is not part of `ShmInv`; `shmMaybeDestroy_spec` brings it back.
-/

namespace MaeroOS.SysV

open Function (update_of_ne update_self)
open Lib (Lives Run run_play)
open Lib.Table

/-! ## Frames -/

theorem foldl_decref (l : List Frame) : ∀ (refs : Frame → Nat) (f : Frame),
    l.foldl decref refs f = refs f - l.count f := by
  induction l with
  | nil => intro refs f; simp
  | cons a l ih =>
    intro refs f
    rw [List.foldl_cons, ih]
    by_cases hf : f = a
    · subst hf
      rw [decref, update_self, List.count_cons_self]
      omega
    · rw [decref, update_of_ne hf, List.count_cons_of_ne (Ne.symm hf)]

theorem incref_apply (refs : Frame → Nat) (a f : Frame) :
    incref refs a f = refs f + [a].count f := by
  by_cases hf : f = a
  · subst hf
    simp [incref]
  · rw [incref, update_of_ne hf, List.count_cons_of_ne (Ne.symm hf), List.count_nil, Nat.add_zero]

/-- Either all frames are taken, with one reference each, or none. `base` is without the frames
taken so far. -/
theorem takeFrames_spec (alloc : Nat → Frame) (base : Frame → Nat) :
    ∀ (n : Nat) (frames : List Frame) (refs : Frame → Nat),
      (∀ f, refs f = base f + frames.count f) → 0 ∉ frames →
      match takeFrames alloc n frames refs with
      | (none, refs') => refs' = base
      | (some frames', refs') => frames'.length = frames.length + n ∧ 0 ∉ frames' ∧
          ∀ f, refs' f = base f + frames'.count f := by
  intro n frames refs hrefs hzero
  fun_induction takeFrames alloc n frames refs with
  | case1 => exact ⟨rfl, hzero, hrefs⟩
  | case2 n frames refs ha =>
    funext f
    rw [foldl_decref, hrefs]
    omega
  | case3 n frames refs ha ih =>
    have hrefs' : ∀ f, incref refs (alloc frames.length) f =
        base f + (frames ++ [alloc frames.length]).count f := by
      intro f
      rw [incref_apply, hrefs, List.count_append, Nat.add_assoc]
    have hzero' : 0 ∉ frames ++ [alloc frames.length] := by
      rw [List.mem_append, List.mem_singleton]
      rintro (h | h)
      · exact hzero h
      · exact ha h.symm
    have hnext := ih hrefs' hzero'
    rwa [List.length_append, List.length_singleton, Nat.add_right_comm, Nat.add_assoc] at hnext

/-! ## The invariant -/

/-- The pages that a segment is counted with. -/
def ShmSeg.pageCount (s : ShmSeg) : Nat := if s.used then s.npages.toNat else 0

/-- The references that it holds on a frame. -/
def ShmSeg.frameRefs (f : Frame) (s : ShmSeg) : Nat := if s.used then s.frames.count f else 0

/-- Its stamp, while it is in use. -/
def ShmSeg.life (s : ShmSeg) : Option Nat := if s.used then some s.stamp else none

theorem life_of_used {s : ShmSeg} (h : s.used = true) : s.life = some s.stamp := if_pos h

theorem life_of_unused {s : ShmSeg} (h : s.used = false) : s.life = none := by
  rw [ShmSeg.life, h, if_neg Bool.false_ne_true]

/-- Every segment that was ever created is in use or has been released, and not both; and what has
been released was marked and had no records. -/
structure LogOk (segs : ShmSlot → ShmSeg) (released : List Release) (born : Nat) : Prop where
  lives : Lives (ShmSeg.life ∘ segs) (released.map fun r => r.seg.stamp) born
  total : ∀ n < born, n ∈ released.map (fun r => r.seg.stamp) ∨ ∃ slot, (segs slot).life = some n
  cause : ∀ r ∈ released, r.seg.marked = true ∧ r.records = 0

variable {j slot : ShmSlot}

namespace LogOk

variable {segs segs' : ShmSlot → ShmSeg} {released : List Release} {born : Nat} {s : ShmSeg}

variable (h : LogOk segs released born)

include h

theorem congr (hlife : ∀ j, (segs' j).life = (segs j).life) : LogOk segs' released born := by
  have heq : ShmSeg.life ∘ segs' = ShmSeg.life ∘ segs := funext hlife
  refine ⟨heq ▸ h.lives, fun n hn => ?_, h.cause⟩
  simp only [hlife]
  exact h.total n hn

theorem release (hused : (segs slot).used = true)
    (hmarked : (segs slot).marked = true) {n : Nat} (hn : n = 0) (hs : s.used = false) :
    LogOk (Function.update segs slot s) (⟨segs slot, n⟩ :: released) born := by
  refine ⟨?_, fun m hm => ?_, fun r hr => ?_⟩
  · rw [Function.comp_update, life_of_unused hs]
    exact h.lives.die (life_of_used hused)
  · rcases h.total m hm with hdead | ⟨j, hj⟩
    · exact .inl (List.mem_cons_of_mem _ hdead)
    by_cases hjs : j = slot
    · rw [hjs, life_of_used hused] at hj
      cases hj
      exact .inl List.mem_cons_self
    · exact .inr ⟨j, by rwa [update_of_ne hjs]⟩
  · rcases List.mem_cons.mp hr with rfl | hr
    · exact ⟨hmarked, hn⟩
    · exact h.cause r hr

theorem create (hfree : (segs slot).used = false) (hs : s.used = true)
    (hstamp : s.stamp = born) : LogOk (Function.update segs slot s) released (born + 1) := by
  have hlife : s.life = some born := (life_of_used hs).trans (congrArg some hstamp)
  refine ⟨?_, fun m hm => ?_, h.cause⟩
  · rw [Function.comp_update, hlife]
    exact h.lives.birth (life_of_unused hfree)
  · rcases Nat.lt_succ_iff_lt_or_eq.mp hm with hm | rfl
    · rcases h.total m hm with hdead | ⟨j, hj⟩
      · exact .inl hdead
      · have hne : j ≠ slot := by
          rintro rfl
          rw [life_of_unused hfree] at hj
          cases hj
        exact .inr ⟨j, by rwa [update_of_ne hne]⟩
    · exact .inr ⟨slot, by rwa [update_self]⟩

/-- The stamps given out are those of the segments released and of those in use. -/
theorem lt_born_iff {n : Nat} : n < born ↔ n ∈ released.map (fun r => r.seg.stamp) ∨
    ∃ slot, (segs slot).used = true ∧ (segs slot).stamp = n := by
  constructor
  · intro hn
    refine (h.total n hn).imp_right fun ⟨j, hj⟩ => ⟨j, ?_⟩
    unfold ShmSeg.life at hj
    split at hj
    · next hused => exact ⟨hused, Option.some.inj hj⟩
    · cases hj
  · rintro (hn | ⟨j, hused, rfl⟩)
    · exact h.lives.dead_lt n hn
    · exact h.lives.live_lt j _ (life_of_used hused)

end LogOk

structure ShmInv (st : ShmState) : Prop where
  named : ∀ i slot seq, (st.atts i).names = some (slot, seq) →
    (st.segs slot).used = true ∧ (st.segs slot).perm.seq = seq
  nattch : ∀ slot, (st.segs slot).used = true →
    (st.segs slot).nattch = st.records slot (st.segs slot).perm.seq
  pages : st.pagesTotal.toNat = ∑ slot, (st.segs slot).pageCount
  limit : st.pagesTotal ≤ shmall
  frames : ∀ slot, (st.segs slot).used = true →
    (st.segs slot).frames.length = (st.segs slot).npages.toNat ∧ 0 ∉ (st.segs slot).frames
  refs : ∀ f, st.refs f = ∑ slot, (st.segs slot).frameRefs f
  log : LogOk st.segs st.released st.born

/-- A segment that is marked waits for its last record to go. -/
def Waiting (s : ShmSeg) : Prop := s.used = true → s.marked = true → 0 < s.nattch

/-- What `nattch` and permissions are not part of. -/
structure ShmSeg.Same (s s' : ShmSeg) : Prop where
  used : s'.used = s.used
  seq : s'.perm.seq = s.perm.seq
  npages : s'.npages = s.npages
  frames : s'.frames = s.frames
  stamp : s'.stamp = s.stamp

theorem ShmSeg.Same.refl (s : ShmSeg) : s.Same s := ⟨rfl, rfl, rfl, rfl, rfl⟩

@[simp] theorem segs_setSeg_self (st : ShmState) (slot : ShmSlot) (s : ShmSeg) :
    (st.setSeg slot s).segs slot = s := update_self ..

theorem segs_setSeg_of_ne (st : ShmState) (s : ShmSeg) (hj : j ≠ slot) :
    (st.setSeg slot s).segs j = st.segs j := update_of_ne hj ..

@[simp] theorem atts_setAtt_self (st : ShmState) (i : AttSlot) (a : ShmAtt) :
    (st.setAtt i a).atts i = a := update_self ..

theorem atts_setAtt_of_ne (st : ShmState) {i j : AttSlot} (a : ShmAtt) (hj : j ≠ i) :
    (st.setAtt i a).atts j = st.atts j := update_of_ne hj ..

theorem sum_setSeg (st : ShmState) (slot : ShmSlot) (s : ShmSeg) (g : ShmSeg → Nat) :
    ∑ j, g ((st.setSeg slot s).segs j) + g (st.segs slot) = ∑ j, g (st.segs j) + g s :=
  sum_update g st.segs slot s

/-- Replacing one segment by one that is the same. -/
theorem same_setSeg (st : ShmState) (slot : ShmSlot) {s : ShmSeg} (h : (st.segs slot).Same s)
    (j : ShmSlot) : (st.segs j).Same ((st.setSeg slot s).segs j) := by
  by_cases hj : j = slot
  · subst hj
    rw [segs_setSeg_self]
    exact h
  · rw [segs_setSeg_of_ne _ _ hj]
    exact .refl _

variable {a : ShmAtt}

theorem names_of_mm_ne (h : a.mm ≠ 0) : a.names = some (a.slot, a.seq) := if_neg h

theorem names_free (a : ShmAtt) : ({ a with mm := 0 } : ShmAtt).names = none := rfl

theorem names_setAtt (st : ShmState) (i : AttSlot) (a : ShmAtt) :
    (fun j => ((st.setAtt i a).atts j).names) = Function.update (fun j => (st.atts j).names) i
      a.names := by
  funext j
  by_cases hj : j = i
  · subst hj
    rw [atts_setAtt_self, update_self]
  · rw [atts_setAtt_of_ne _ _ hj, update_of_ne hj]

/-- How the number of records changes with one of them. -/
theorem records_setAtt (st : ShmState) (i : AttSlot) (a : ShmAtt) (slot : ShmSlot) (seq : Nat) :
    (st.setAtt i a).records slot seq + one (st.atts i).names (slot, seq) =
      st.records slot seq + one a.names (slot, seq) := by
  unfold ShmState.records
  rw [names_setAtt]
  exact holders_update (t := fun j => (st.atts j).names) a.names

variable {i : AttSlot}

namespace ShmInv

variable {st st' : ShmState}

variable (h : ShmInv st)

include h

/-- An unused slot is not named. -/
theorem records_unused (hused : (st.segs slot).used = false) (seq : Nat) :
    st.records slot seq = 0 := by
  apply holders_eq_zero
  intro i hi
  rw [(h.named i slot seq hi).1] at hused
  cases hused

/-- Records come and go, and `nattch` with them; the segments are the same otherwise. -/
theorem recount (hsame : ∀ j, (st.segs j).Same (st'.segs j))
    (hpages : st'.pagesTotal = st.pagesTotal) (hrefs : st'.refs = st.refs)
    (hborn : st'.born = st.born) (hreleased : st'.released = st.released)
    (hnamed : ∀ i slot seq, (st'.atts i).names = some (slot, seq) →
      (st.segs slot).used = true ∧ (st.segs slot).perm.seq = seq)
    (hnattch : ∀ slot, (st.segs slot).used = true →
      (st'.segs slot).nattch = st'.records slot (st.segs slot).perm.seq) : ShmInv st' where
  named i slot seq hi := by
    rw [(hsame slot).used, (hsame slot).seq]
    exact hnamed i slot seq hi
  nattch slot hused := by
    rw [(hsame slot).seq]
    exact hnattch slot ((hsame slot).used ▸ hused)
  pages := by
    rw [hpages, h.pages]
    apply Finset.sum_congr rfl
    intro j _
    rw [ShmSeg.pageCount, ShmSeg.pageCount, (hsame j).used, (hsame j).npages]
  limit := hpages ▸ h.limit
  frames slot hused := by
    rw [(hsame slot).frames, (hsame slot).npages]
    exact h.frames slot ((hsame slot).used ▸ hused)
  refs f := by
    rw [hrefs, h.refs]
    apply Finset.sum_congr rfl
    intro j _
    rw [ShmSeg.frameRefs, ShmSeg.frameRefs, (hsame j).used, (hsame j).frames]
  log := by
    rw [hborn, hreleased]
    refine h.log.congr fun j => ?_
    rw [ShmSeg.life, ShmSeg.life, (hsame j).used, (hsame j).stamp]

/-- New permissions, with the same sequence number. -/
theorem setPerm (slot : ShmSlot) {p : IpcPerm} (hp : p.seq = (st.segs slot).perm.seq) :
    ShmInv (st.setPerm slot p) := by
  have hsame := same_setSeg st slot (s := { st.segs slot with perm := p }) ⟨rfl, hp, rfl, rfl, rfl⟩
  refine h.recount hsame rfl rfl rfl rfl h.named ?_
  intro j hused
  have hn : ((st.setPerm slot p).segs j).nattch = (st.segs j).nattch := by
    by_cases hj : j = slot
    · subst hj
      rw [ShmState.setPerm, segs_setSeg_self]
    · rw [ShmState.setPerm, segs_setSeg_of_ne _ _ hj]
  rw [hn]
  exact h.nattch j hused

/-- A free record is used for a segment that is there. -/
theorem addRecord (hfree : (st.atts i).mm = 0)
    (hused : (st.segs a.slot).used = true) (hseq : (st.segs a.slot).perm.seq = a.seq)
    (hmm : a.mm ≠ 0) : ShmInv (addRecord st i a) := by
  have hold : (st.atts i).names = none := if_pos hfree
  have hnew : a.names = some (a.slot, a.seq) := names_of_mm_ne hmm
  have hcount : ∀ slot seq, (SysV.addRecord st i a).records slot seq =
      st.records slot seq + one (some (a.slot, a.seq)) (slot, seq) := by
    intro slot seq
    have hset := records_setAtt st i a slot seq
    rwa [hold, hnew, one_none, Nat.add_zero] at hset
  refine h.recount (same_setSeg (st.setAtt i a) a.slot ⟨rfl, rfl, rfl, rfl, rfl⟩) rfl rfl rfl
    rfl ?_ ?_
  · intro j slot seq hj
    change ((st.setAtt i a).atts j).names = some (slot, seq) at hj
    by_cases hji : j = i
    · subst hji
      rw [atts_setAtt_self, hnew] at hj
      cases hj
      exact ⟨hused, hseq⟩
    · rw [atts_setAtt_of_ne _ _ hji] at hj
      exact h.named j slot seq hj
  · intro slot hslot
    rw [hcount]
    by_cases hs : slot = a.slot
    · subst hs
      rw [SysV.addRecord, segs_setSeg_self, hseq, one_self, ← hseq, h.nattch _ hslot]
      rfl
    · have hne : (slot, (st.segs slot).perm.seq) ≠ (a.slot, a.seq) :=
        fun he => hs (Prod.mk.inj he).1
      rw [SysV.addRecord, segs_setSeg_of_ne _ _ hs, one_ne hne, Nat.add_zero]
      exact h.nattch slot hslot

/-- A record goes, and the segment it names no longer counts it. -/
theorem uncount (hmm : (st.atts i).mm ≠ 0) : ShmInv (uncount st i) := by
  have hold : (st.atts i).names = some ((st.atts i).slot, (st.atts i).seq) := names_of_mm_ne hmm
  obtain ⟨hused, hseq⟩ := h.named i _ _ hold
  have hcount : ∀ slot seq, (SysV.uncount st i).records slot seq +
      one (some ((st.atts i).slot, (st.atts i).seq)) (slot, seq) = st.records slot seq := by
    intro slot seq
    have hset := records_setAtt st i { st.atts i with mm := 0 } slot seq
    rwa [hold, names_free, one_none, Nat.add_zero] at hset
  refine h.recount (same_setSeg (freeRecord st i) (st.atts i).slot ⟨rfl, rfl, rfl, rfl, rfl⟩)
    rfl rfl rfl rfl ?_ ?_
  · intro j slot seq hj
    change ((freeRecord st i).atts j).names = some (slot, seq) at hj
    by_cases hji : j = i
    · subst hji
      rw [freeRecord, atts_setAtt_self, names_free] at hj
      cases hj
    · rw [freeRecord, atts_setAtt_of_ne _ _ hji] at hj
      exact h.named j slot seq hj
  · intro slot hslot
    have hc := hcount slot (st.segs slot).perm.seq
    have hn := h.nattch slot hslot
    by_cases hs : slot = (st.atts i).slot
    · subst hs
      rw [hseq, one_self] at hc
      rw [SysV.uncount, segs_setSeg_self, hseq]
      rw [hseq] at hn
      show (st.segs _).nattch - 1 = ((SysV.uncount st i).records _ _ : Int)
      omega
    · have hne : (slot, (st.segs slot).perm.seq) ≠ ((st.atts i).slot, (st.atts i).seq) :=
        fun he => hs (Prod.mk.inj he).1
      rw [one_ne hne, Nat.add_zero] at hc
      rw [SysV.uncount, segs_setSeg_of_ne _ _ hs]
      show (st.segs slot).nattch = ((SysV.uncount st i).records _ _ : Int)
      rw [hc]
      exact hn

theorem npages_le (hused : (st.segs slot).used = true) :
    (st.segs slot).npages.toNat ≤ st.pagesTotal.toNat := by
  rw [h.pages]
  have hle := Finset.single_le_sum (f := fun j => (st.segs j).pageCount) (fun _ _ => Nat.zero_le _)
    (Finset.mem_univ slot)
  rwa [ShmSeg.pageCount, if_pos hused] at hle

/-- **A segment that is marked and has no record can be destroyed.** -/
theorem shmDestroy (hused : (st.segs slot).used = true)
    (hmarked : (st.segs slot).marked = true) (hzero : st.records slot (st.segs slot).perm.seq = 0) :
    ShmInv (shmDestroy st slot) := by
  have hgone : ((SysV.shmDestroy st slot).segs slot).used = false := by
    rw [SysV.shmDestroy, segs_setSeg_self]
  have hother : ∀ j, j ≠ slot → (SysV.shmDestroy st slot).segs j = st.segs j :=
    fun j hj => segs_setSeg_of_ne st _ hj
  have hkept : ∀ j, ((SysV.shmDestroy st slot).segs j).used = true → j ≠ slot := by
    rintro j hj rfl
    rw [hgone] at hj
    cases hj
  obtain ⟨hlen, hframes⟩ := h.frames slot hused
  have hle : (st.segs slot).npages ≤ st.pagesTotal := UInt32.le_iff_toNat_le.mpr (h.npages_le hused)
  let dead : ShmSeg := { st.segs slot with frames := [], used := false }
  constructor
  · intro i j seq hi
    obtain ⟨hj, hseq⟩ := h.named i j seq hi
    have hne : j ≠ slot := by
      rintro rfl
      rw [hseq] at hzero
      exact absurd hzero (ne_of_gt (holders_pos hi))
    rw [hother j hne]
    exact ⟨hj, hseq⟩
  · intro j hj
    have hne := hkept j hj
    rw [hother j hne] at hj ⊢
    exact h.nattch j hj
  · have hsum := sum_setSeg st slot dead ShmSeg.pageCount
    rw [← h.pages, ShmSeg.pageCount, if_pos hused] at hsum
    show (st.pagesTotal - (st.segs slot).npages).toNat = _
    rw [UInt32.toNat_sub_of_le _ _ hle]
    exact (Nat.eq_sub_of_add_eq hsum).symm
  · show st.pagesTotal - (st.segs slot).npages ≤ shmall
    exact UInt32.le_trans (UInt32.sub_le hle) h.limit
  · intro j hj
    have hne := hkept j hj
    rw [hother j hne] at hj ⊢
    exact h.frames j hj
  · intro f
    have hsum := sum_setSeg st slot dead (ShmSeg.frameRefs f)
    rw [← h.refs, ShmSeg.frameRefs, if_pos hused] at hsum
    -- all frames are given back: there are `npages` of them, and none is 0
    have hall : ((st.segs slot).frames.take (st.segs slot).npages.toNat).filter (· ≠ 0) =
        (st.segs slot).frames := by
      rw [← hlen, List.take_length, List.filter_eq_self]
      intro a ha
      exact decide_eq_true fun h0 => hframes (h0 ▸ ha)
    show (((st.segs slot).frames.take _).filter _).foldl decref st.refs f = _
    rw [hall, foldl_decref]
    exact (Nat.eq_sub_of_add_eq hsum).symm
  · exact h.log.release hused hmarked hzero rfl

/-- A new segment in a free slot. Its pages are not too many, so the sum does not wrap. -/
theorem shmCreate {frames : List Frame} {refs : Frame → Nat}
    (c : Cred) (key : Int) {size : UInt32} (flag : UInt32) (hfree : (st.segs slot).used = false)
    (hsize : (pagesOf size).toNat ≤ 8192) (hlimit : st.pagesTotal + pagesOf size ≤ shmall)
    (hlen : frames.length = (pagesOf size).toNat) (hzero : 0 ∉ frames)
    (hrefs : ∀ f, refs f = st.refs f + frames.count f) :
    ShmInv (shmCreate { st with refs := refs } c key size flag slot frames) := by
  let new : ShmSeg :=
    ⟨true, permInit c key flag st.seqNext, size, pagesOf size, frames, 0, st.born⟩
  let st' := SysV.shmCreate { st with refs := refs } c key size flag slot frames
  have hself : st'.segs slot = new := segs_setSeg_self st slot new
  have hother : ∀ j, j ≠ slot → st'.segs j = st.segs j := fun j hj => segs_setSeg_of_ne st new hj
  constructor
  · intro i j seq hi
    obtain ⟨hj, hseq⟩ := h.named i j seq hi
    have hne : j ≠ slot := by
      rintro rfl
      rw [hfree] at hj
      cases hj
    rw [hother j hne]
    exact ⟨hj, hseq⟩
  · intro j hj
    by_cases hjs : j = slot
    · subst hjs
      rw [hself]
      exact congrArg Int.ofNat (h.records_unused hfree st.seqNext).symm
    · rw [hother j hjs] at hj ⊢
      exact h.nattch j hj
  · have hsum := sum_setSeg st slot new ShmSeg.pageCount
    have hold : (st.segs slot).pageCount = 0 := by rw [ShmSeg.pageCount, hfree]; rfl
    rw [← h.pages, hold, Nat.add_zero] at hsum
    have hwrap : st.pagesTotal.toNat + (pagesOf size).toNat < 2 ^ 32 := by
      have hle := UInt32.le_iff_toNat_le.mp h.limit
      have hall : shmall.toNat = 16384 := rfl
      omega
    show (st.pagesTotal + pagesOf size).toNat = _
    rw [UInt32.toNat_add, Nat.mod_eq_of_lt hwrap]
    exact hsum.symm
  · exact hlimit
  · intro j hj
    by_cases hjs : j = slot
    · subst hjs
      rw [hself]
      exact ⟨hlen, hzero⟩
    · rw [hother j hjs] at hj ⊢
      exact h.frames j hj
  · intro f
    have hsum := sum_setSeg st slot new (ShmSeg.frameRefs f)
    have hold : (st.segs slot).frameRefs f = 0 := by rw [ShmSeg.frameRefs, hfree]; rfl
    rw [← h.refs, hold, Nat.add_zero] at hsum
    exact (hrefs f).trans hsum.symm
  · exact h.log.create hfree rfl rfl

end ShmInv

/-! ## What the calls keep -/

/-- What holds between two events. -/
structure ShmOk (st : ShmState) : Prop where
  inv : ShmInv st
  waiting : ∀ slot, Waiting (st.segs slot)

variable {st : ShmState}

/-- **`shm_maybe_destroy` restores what waiting segments need**, if only this one may lack it. -/
theorem shmMaybeDestroy_spec (h : ShmInv st) (slot : ShmSlot)
    (hwait : ∀ j, j ≠ slot → Waiting (st.segs j)) : ShmOk (shmMaybeDestroy st slot) := by
  unfold shmMaybeDestroy
  split
  · rename_i hdead
    obtain ⟨hused, hmarked, hle⟩ := hdead
    have hzero : st.records slot (st.segs slot).perm.seq = 0 := by
      have hn := h.nattch slot hused
      omega
    refine ⟨h.shmDestroy hused hmarked hzero, ?_⟩
    intro j
    by_cases hj : j = slot
    · subst hj
      intro hj'
      rw [shmDestroy, segs_setSeg_self] at hj'
      cases hj'
    · rw [show (shmDestroy st slot).segs j = st.segs j from segs_setSeg_of_ne st _ hj]
      exact hwait j hj
  · rename_i halive
    refine ⟨h, ?_⟩
    intro j
    by_cases hj : j = slot
    · subst hj
      intro hused hmarked
      by_contra hle
      exact halive ⟨hused, hmarked, Int.not_lt.mp hle⟩
    · exact hwait j hj

namespace ShmOk

variable {st : ShmState}

/-- A record that is in use is not stale. -/
theorem not_stale (h : ShmOk st) (hmm : (st.atts i).mm ≠ 0) : st.stale (st.atts i) = false := by
  obtain ⟨hused, hseq⟩ := h.inv.named i _ _ (names_of_mm_ne hmm)
  simp [ShmState.stale, hused, hseq]

theorem dropRecord (h : ShmOk st) (hmm : (st.atts i).mm ≠ 0) : ShmOk (dropRecord st i) := by
  rw [SysV.dropRecord, h.not_stale hmm, if_neg Bool.false_ne_true]
  apply shmMaybeDestroy_spec (h.inv.uncount hmm)
  intro j hj
  rw [uncount, segs_setSeg_of_ne _ _ hj]
  exact h.waiting j

theorem addRecord (h : ShmOk st) (hfree : (st.atts i).mm = 0)
    (hused : (st.segs a.slot).used = true) (hseq : (st.segs a.slot).perm.seq = a.seq)
    (hmm : a.mm ≠ 0) : ShmOk (addRecord st i a) := by
  refine ⟨h.inv.addRecord hfree hused hseq hmm, ?_⟩
  intro j
  by_cases hj : j = a.slot
  · subst hj
    intro _ hmarked
    rw [SysV.addRecord, segs_setSeg_self] at hmarked ⊢
    exact Int.lt_add_one_of_le (Int.le_of_lt (h.waiting _ hused hmarked))
  · rw [SysV.addRecord, segs_setSeg_of_ne _ _ hj]
    exact h.waiting j

/-- Permissions that leave the mark alone. -/
theorem setPerm (h : ShmOk st) (slot : ShmSlot) {p : IpcPerm}
    (hseq : p.seq = (st.segs slot).perm.seq)
    (hdest : p.mode &&& shmDest = (st.segs slot).perm.mode &&& shmDest) :
    ShmOk (st.setPerm slot p) := by
  refine ⟨h.inv.setPerm slot hseq, ?_⟩
  intro j
  by_cases hj : j = slot
  · subst hj
    intro hused hmarked
    rw [ShmState.setPerm, segs_setSeg_self] at hused hmarked ⊢
    rw [ShmSeg.marked, hdest] at hmarked
    exact h.waiting j hused hmarked
  · rw [ShmState.setPerm, segs_setSeg_of_ne _ _ hj]
    exact h.waiting j

end ShmOk

theorem freeAtt_spec (h : st.freeAtt = some i) : (st.atts i).mm = 0 := by
  simpa using List.find?_some h

theorem freeSeg_spec (h : st.freeSeg = some slot) : (st.segs slot).used = false := by
  simpa using List.find?_some h

theorem shmById_spec {id : Int} (h : st.shmById id = some slot) : (st.segs slot).used = true := by
  unfold ShmState.shmById at h
  split at h
  · cases h
  split at h
  · rename_i hslot
    cases h
    exact hslot.1
  · cases h

theorem pagesOf_le {size : UInt32} (h : ¬ shmmax < size) : (pagesOf size).toNat ≤ 8192 := by
  have hsize : size.toNat ≤ 33554432 := UInt32.le_iff_toNat_le.mp (UInt32.not_lt.mp h)
  have hp : pageSize.toNat = 4096 := rfl
  unfold pagesOf
  rw [UInt32.toNat_div, UInt32.toNat_sub, UInt32.toNat_add, hp, UInt32.toNat_one]
  omega

theorem or_and_mask (a b m : UInt32) : (a ||| b) &&& m = (a &&& m) ||| (b &&& m) :=
  UInt32.eq_of_toBitVec_eq (by simp [BitVec.and_or_distrib_right])

theorem permInit_dest (c : Cred) (key : Int) (flag : UInt32) (seq : Nat) :
    (permInit c key flag seq).mode &&& shmDest = 0 := by
  show (flag &&& 0o777) &&& shmDest = 0
  rw [UInt32.and_assoc, show (0o777 : UInt32) &&& shmDest = 0 by decide, UInt32.and_zero]

theorem permSet_dest (p : IpcPerm) (uid gid mode : UInt32) :
    (permSet p uid gid mode).mode &&& shmDest = p.mode &&& shmDest := by
  have hkeep : (~~~(0o777 : UInt32)) &&& shmDest = shmDest := by decide
  have hdrop : (0o777 : UInt32) &&& shmDest = 0 := by decide
  show ((p.mode &&& ~~~0o777) ||| (mode &&& 0o777)) &&& shmDest = _
  rw [or_and_mask, UInt32.and_assoc, hkeep, UInt32.and_assoc, hdrop, UInt32.and_zero,
    UInt32.or_zero]

theorem permLock_dest (p : IpcPerm) (on : Bool) :
    (permLock p on).mode &&& shmDest = p.mode &&& shmDest := by
  cases on with
  | true =>
    show (p.mode ||| shmLocked) &&& shmDest = _
    rw [or_and_mask, show shmLocked &&& shmDest = 0 by decide, UInt32.or_zero]
  | false =>
    show (p.mode &&& ~~~shmLocked) &&& shmDest = _
    rw [UInt32.and_assoc, show ~~~shmLocked &&& shmDest = shmDest by decide]

namespace ShmOk

variable {st : ShmState}

theorem boot : ShmOk shmBoot := by
  refine ⟨⟨?_, ?_, ?_, by decide, ?_, ?_, ?_⟩, ?_⟩
  · intro i slot seq hi
    cases hi
  · intro slot hused
    cases hused
  · exact (Finset.sum_eq_zero fun j _ => rfl).symm
  · intro slot hused
    cases hused
  · exact fun f => (Finset.sum_eq_zero fun j _ => rfl).symm
  · have hnone : ∀ slot n, (ShmSeg.life ∘ shmBoot.segs) slot ≠ some n := fun _ _ h => nomatch h
    refine ⟨⟨List.nodup_nil, fun j n hj => absurd hj (hnone j n),
      fun j _ n hj => absurd hj (hnone j n), fun j n hj => absurd hj (hnone j n),
      fun _ hn => absurd hn List.not_mem_nil⟩, fun n hn => absurd hn (Nat.not_lt_zero n),
      fun _ hr => absurd hr List.not_mem_nil⟩
  · intro slot hused
    cases hused

/-- A new segment is not marked. -/
theorem waiting_shmCreate (st : ShmState) (h : ∀ j, Waiting (st.segs j)) (c : Cred) (key : Int)
    (size flag : UInt32) (slot : ShmSlot) (frames : List Frame) :
    ∀ j, Waiting ((shmCreate st c key size flag slot frames).segs j) := by
  intro j
  by_cases hj : j = slot
  · subst hj
    intro _ hmarked
    rw [shmCreate, segs_setSeg_self] at hmarked
    exact absurd (permInit_dest ..) (of_decide_eq_true hmarked)
  · rw [shmCreate, segs_setSeg_of_ne _ _ hj]
    exact h j

variable (h : ShmOk st)

include h

/-- If a frame cannot be had, those taken before are given back. -/
theorem shmget (c : Cred) (key : Int) (size flag : UInt32) (mem : Bool)
    (alloc : Nat → Frame) : ShmOk (shmget st c key size flag mem alloc).2 := by
  unfold SysV.shmget
  split
  · split
    · exact h
    split
    · exact h
    split
    · exact h
    · exact h
  split
  · exact h
  split
  · exact h
  rename_i hsize
  split
  · exact h
  rename_i hlimit
  split
  · exact h
  split
  · exact h
  rename_i slot hslot
  split
  · exact h
  have hspec :=
    takeFrames_spec alloc st.refs (pagesOf size).toNat [] st.refs (fun f => rfl) (by simp)
  rcases htake : takeFrames alloc (pagesOf size).toNat [] st.refs with ⟨frames, refs⟩
  rw [htake] at hspec
  cases frames with
  | none =>
    cases hspec
    exact h
  | some frames =>
    obtain ⟨hlen, hzero, hrefs⟩ := hspec
    rw [List.length_nil, Nat.zero_add] at hlen
    have hmax : ¬ shmmax < size := fun hlt => hsize (.inr hlt)
    have hinv := h.inv.shmCreate c key flag (freeSeg_spec hslot) (pagesOf_le hmax)
      (UInt32.not_lt.mp hlimit) hlen hzero hrefs
    exact ⟨hinv, waiting_shmCreate { st with refs := refs } h.waiting c key size flag slot frames⟩

theorem shmat (c : ShmCaller) (id : Int) (addr flag base : UInt32) :
    ShmOk (shmat st c id addr flag base).2 := by
  unfold SysV.shmat
  split
  · exact h
  rename_i slot hslot
  split
  · exact h
  split
  · exact h
  split
  · exact h
  rename_i i hi
  split
  · exact h
  · exact h.addRecord (freeAtt_spec hi) (shmById_spec hslot) rfl c.mm_ne

theorem shmdt (c : ShmCaller) (addr : UInt32) : ShmOk (shmdt st c addr).2 := by
  unfold SysV.shmdt
  split
  · exact h
  rename_i i hi
  have hmm : (st.atts i).mm = c.mm ∧ (st.atts i).addr = addr := by simpa using List.find?_some hi
  exact h.dropRecord (hmm.1 ▸ c.mm_ne)

theorem shmForkOne {pm cm : Nat} (hpm : pm ≠ 0) (hcm : cm ≠ 0) (i : AttSlot) :
    ShmOk (shmForkOne pm cm st i) := by
  unfold SysV.shmForkOne
  split
  · exact h
  rename_i hmm
  split
  · exact h
  split
  · exact h
  rename_i j hj
  have hne : (st.atts i).mm ≠ 0 := by
    rw [not_not.mp hmm]
    exact hpm
  obtain ⟨hused, hseq⟩ := h.inv.named i _ _ (names_of_mm_ne hne)
  exact h.addRecord (a := { st.atts i with mm := cm }) (freeAtt_spec hj) hused hseq hcm

/-- Fork keeps the counts right however many records it finds room for. -/
theorem shmFork (pm cm : Nat) : ShmOk (shmFork st pm cm) := by
  unfold SysV.shmFork
  split
  · exact h
  rename_i hne
  push Not at hne
  exact List.foldlRecOn _ _ h fun st' h' i _ => h'.shmForkOne hne.1 hne.2.1 i

theorem shmMmRelease (mm : Nat) : ShmOk (shmMmRelease st mm) := by
  unfold SysV.shmMmRelease
  split
  · exact h
  rename_i hmm
  refine List.foldlRecOn _ _ h fun st' h' i _ => ?_
  unfold shmReleaseOne
  split
  · exact h'
  · rename_i heq
    exact h'.dropRecord (not_not.mp heq ▸ hmm)

theorem shmRmid (c : Cred) (id : Int) : ShmOk (shmRmid st c id).2 := by
  unfold SysV.shmRmid
  split
  · exact h
  split
  · exact h
  rename_i slot _ _
  have hinv := h.inv.setPerm slot (p := permDest (st.segs slot).perm) rfl
  apply shmMaybeDestroy_spec hinv
  intro j hj
  rw [ShmState.setPerm, segs_setSeg_of_ne _ _ hj]
  exact h.waiting j

theorem shmIpcSet (c : Cred) (slot : ShmSlot) (d : Option (UInt32 × UInt32 × UInt32)) :
    ShmOk (shmIpcSet st c slot d).2 := by
  unfold SysV.shmIpcSet
  split
  · exact h
  split
  · exact h
  · exact h.setPerm slot rfl (permSet_dest ..)

theorem shmLock (c : Cred) (id : Int) (on : Bool) : ShmOk (shmLock st c id on).2 := by
  unfold SysV.shmLock
  split
  · exact h
  split
  · exact h
  · exact h.setPerm _ rfl (permLock_dest ..)

theorem apply (e : ShmEvent) : ShmOk (e.apply st).2 := by
  cases e with
  | shmget c key size flag mem alloc => exact h.shmget c key size flag mem alloc
  | shmat c id addr flag base => exact h.shmat c id addr flag base
  | shmdt c addr => exact h.shmdt c addr
  | fork pm cm => exact h.shmFork pm cm
  | mmRelease mm => exact h.shmMmRelease mm
  | rmid c id => exact h.shmRmid c id
  | ipcSet c slot d => exact h.shmIpcSet c slot d
  | lock c id on => exact h.shmLock c id on

end ShmOk

theorem ShmOk.of_run {tr : List (ShmEvent × Int)} (hrun : Run shmSystem tr st) : ShmOk st := by
  refine Run.invariant (P := ShmOk) ?_ ?_ hrun
  · rintro st rfl
    exact ShmOk.boot
  · rintro st ⟨e, r⟩ st' hok ⟨happly, _⟩
    have hstep := hok.apply e
    rw [happly] at hstep
    exact hstep

/-- What holds of the segments and their frames. -/
structure SegmentsOk (st : ShmState) : Prop where
  /-- `nattch` is the number of attach records, and every record names a segment that is there. -/
  nattch : ∀ slot, (st.segs slot).used = true →
    (st.segs slot).nattch = st.records slot (st.segs slot).perm.seq
  named : ∀ i, (st.atts i).mm ≠ 0 → (st.segs (st.atts i).slot).used = true ∧
    (st.segs (st.atts i).slot).perm.seq = (st.atts i).seq
  /-- The total is the sum. -/
  total : st.pagesTotal.toNat = ∑ slot,
    if (st.segs slot).used then (st.segs slot).npages.toNat else 0
  /-- The segments in use hold one reference to each of their frames, and there are no others. -/
  frames : ∀ slot, (st.segs slot).used = true →
    (st.segs slot).frames.length = (st.segs slot).npages.toNat
  refs : ∀ f, st.refs f = ∑ slot, if (st.segs slot).used then (st.segs slot).frames.count f else 0
  /-- Whatever was created is in use or has been released, once. -/
  once : (st.released.map fun r => r.seg.stamp).Nodup
  born : ∀ n, n < st.born ↔ n ∈ st.released.map (fun r => r.seg.stamp) ∨
    ∃ slot, (st.segs slot).used = true ∧ (st.segs slot).stamp = n
  apart : ∀ slot, (st.segs slot).used = true →
    (st.segs slot).stamp ∉ st.released.map fun r => r.seg.stamp
  /-- What has been released was marked and no record named it, and what is marked and still there
  has a record. -/
  cause : ∀ r ∈ st.released, r.seg.marked = true ∧ r.records = 0
  waiting : ∀ slot, (st.segs slot).used = true → (st.segs slot).marked = true →
    0 < st.records slot (st.segs slot).perm.seq

/-- **Segments live as long as they should**, in every run. -/
theorem shared_memory_lifetime {tr : List (ShmEvent × Int)} {st : ShmState}
    (hrun : Run shmSystem tr st) : SegmentsOk st := by
  obtain ⟨hinv, hwaiting⟩ := ShmOk.of_run hrun
  constructor
  · exact hinv.nattch
  · exact fun i hmm => hinv.named i _ _ (names_of_mm_ne hmm)
  · exact hinv.pages
  · exact fun slot hused => (hinv.frames slot hused).1
  · exact hinv.refs
  · exact hinv.log.lives.once
  · exact fun n => hinv.log.lt_born_iff
  · exact fun slot hused => hinv.log.lives.apart slot _ (life_of_used hused)
  · exact hinv.log.cause
  · intro slot hused hmarked
    have hn := hinv.nattch slot hused
    have hpos := hwaiting slot hused hmarked
    omega

/-- A segment of two pages is attached and marked, and goes when it is detached. -/
def lastDetach : List ShmEvent :=
  [ .shmget root ipcPrivate 5000 0o600 true fun i => i + 1,
    .shmat ⟨root, 7, by decide⟩ 128 0 0 0x10000,
    .rmid root 128,
    .shmdt ⟨root, 7, by decide⟩ 0x10000 ]

theorem shared_memory_lifetime_last_detach :
    ∃ tr st, Run shmSystem tr st ∧ (st.released.map fun r => (r.seg.stamp, r.seg.frames)) =
      [(0, [1, 2])] ∧ st.born = 1 ∧ SegmentsOk st := by
  obtain ⟨tr, st, hrun, hrest⟩ : ∃ tr st, Run shmSystem tr st ∧
      (st.released.map fun r => (r.seg.stamp, r.seg.frames)) = [(0, [1, 2])] ∧ st.born = 1 :=
    run_play ShmEvent.apply (fun _ => False) lastDetach shmBoot (fun _ _ _ hbad => ⟨rfl, hbad⟩)
      (.init rfl) (by decide +kernel)
  exact ⟨tr, st, hrun, hrest.1, hrest.2, shared_memory_lifetime hrun⟩

end MaeroOS.SysV
