import MaeroOS.Vm.MremapKeeps

/-!
# A `mremap` that succeeds

What `mremap` is for, over pages: `View` is what is at each page, its attributes and its entry, and
the steps of the call are operations on it (`clear`, `shift`, `extend`). A call that succeeds with
memory for its nodes composes them to a relocation (`Remapped`).

The one exception is a size in the last page of the address space, which is rounded up to nothing
after it has been checked: then the mapping is unmapped, and that is a success.
-/

namespace MaeroOS.Vm

open List
open Lib Lib.Segments

/-! ## Views -/

/-- What is at each page. -/
def View := Nat → Option PageAttr × Option Pte

variable {i size : Nat}

namespace View

variable {V : View} {a c k k' m n p : Nat} {attr : Nat → PageAttr}

/-- The `m` pages from `c` on are empty. -/
def clear (V : View) (c m : Nat) : View := fun p => if c ≤ p ∧ p < c + m then (none, none) else V p

/-- The `m` pages from `a` on are at `n`. -/
def shift (V : View) (a m n : Nat) : View := fun p =>
  if n ≤ p ∧ p < n + m then V (a + (p - n)) else if a ≤ p ∧ p < a + m then (none, none) else V p

/-- The `m` pages from `c` on have attributes. -/
def extend (V : View) (c m : Nat) (attr : Nat → PageAttr) : View := fun p =>
  if c ≤ p ∧ p < c + m then (some (attr p), (V p).2) else V p

@[simp] theorem clear_zero (V : View) (c : Nat) : V.clear c 0 = V := by
  funext p
  exact if_neg (by omega)

@[simp] theorem extend_zero (V : View) (c : Nat) (attr : Nat → PageAttr) :
    V.extend c 0 attr = V := by
  funext p
  exact if_neg (by omega)

/-- A mapping of `k` pages at `a` becomes one of `k'` pages at `n`, where there was nothing or what
was there goes. -/
def relocate (V : View) (a k n k' : Nat) (attr : Nat → PageAttr) : View :=
  (((V.clear n k').shift a (min k k') n).clear (a + min k k') (k - k')).extend (n + min k k')
    (k' - k) attr

theorem relocate_moved (hapart : n + k' ≤ a ∨ a + k ≤ n) (hk : i < k) (hk' : i < k') :
    V.relocate a k n k' attr (n + i) = V (a + i) := by
  have hi : a + (n + i - n) = a + i := by omega
  unfold relocate extend clear shift
  dsimp only
  rw [if_neg (by omega), if_neg (by omega), if_pos (by omega), if_neg (by omega), hi]

theorem relocate_grown (hapart : n + k' ≤ a ∨ a + k ≤ n) (hk : k ≤ i) (hk' : i < k') :
    V.relocate a k n k' attr (n + i) = (some (attr (n + i)), none) := by
  unfold relocate extend clear shift
  dsimp only
  rw [if_pos (by omega), if_neg (by omega), if_neg (by omega), if_neg (by omega), if_pos (by omega)]

theorem relocate_gone (ha : a ≤ p) (hp : p < a + k) (hout : ¬ (n ≤ p ∧ p < n + k')) :
    V.relocate a k n k' attr p = (none, none) := by
  unfold relocate extend clear shift
  rw [if_neg (by omega)]
  split_ifs <;> first | rfl | omega

theorem relocate_kept (hin : ¬ (a ≤ p ∧ p < a + k)) (hout : ¬ (n ≤ p ∧ p < n + k')) :
    V.relocate a k n k' attr p = V p := by
  unfold relocate extend clear shift
  dsimp only
  rw [if_neg (by omega), if_neg (by omega), if_neg (by omega), if_neg (by omega), if_neg (by omega)]

end View

/-- The attributes of the page `j` pages on in the same mapping. -/
def PageAttr.later (x : PageAttr) (j : Nat) : PageAttr :=
  { x with backing := x.backing.map fun b =>
    { b with off := b.off + BitVec.ofNat 64 (j * pageSize) } }

/-- The number of pages that `size` bytes take. -/
def pagesIn (size : Nat) : Nat := (size + pageSize - 1) / pageSize

theorem pageUp_eq (h : size ≤ 0xFFFFF000) : pageUp size = pagesIn size * pageSize := by
  unfold pageUp pagesIn
  rw [u32_of_lt]
  unfold pageSize
  omega

theorem pagesIn_pos (h : 0 < size) : 0 < pagesIn size := by
  unfold pagesIn pageSize
  omega

/-- The `m` pages from `c` on. -/
def PageRange.ofPages (c m : Nat) (hm : 0 < m) : PageRange where
  start := c * pageSize
  stop := (c + m) * pageSize
  lt := by unfold pageSize; omega
  start_dvd := Nat.dvd_mul_left _ _
  stop_dvd := Nat.dvd_mul_left _ _

theorem PageRange.ofPages_has {c m p : Nat} {hm : 0 < m} :
    (PageRange.ofPages c m hm).Has p ↔ c ≤ p ∧ p < c + m := by
  show c * pageSize ≤ p * pageSize ∧ p * pageSize < (c + m) * pageSize ↔ _
  unfold pageSize
  omega

namespace Mm

variable {s s' : Mm} {a c k k' m n p f : Nat}

/-- The attributes and the entry of each page. -/
def view (s : Mm) : View := fun p => (pageMap s.owner.vmas p, s.pt.owned p)

/-- The frames of pages, once for each entry that owns one. -/
def framesOf (s : Mm) (ps : List Nat) : List Nat :=
  ps.filterMap fun p => (s.pt.owned p).map (·.frame)

/-- The frames a relocation gives back: those of what was at the destination, and of the end that is
cut off. -/
def remapFreed (s : Mm) (a k n k' : Nat) : List Nat :=
  s.framesOf ((if n = a then [] else List.range' n k') ++ List.range' (a + min k k') (k - k'))

/-- **A mapping of `k` pages at page `a` has become one of `k'` pages at page `n`.** Of the frames
that were in use, those that are given back have lost a reference for each entry that is gone, and
no other has. -/
structure Remapped (s s' : Mm) (a k n k' : Nat) : Prop where
  moved : ∀ i, i < k → i < k' → s'.view (n + i) = s.view (a + i)
  grown : ∀ i, k ≤ i → i < k' →
    s'.view (n + i) = ((pageMap s.owner.vmas (a + (k - 1))).map (·.later (i - (k - 1))), none)
  gone : ∀ p, a ≤ p → p < a + k → ¬ (n ≤ p ∧ p < n + k') → s'.view p = (none, none)
  kept : ∀ p, ¬ (a ≤ p ∧ p < a + k) → ¬ (n ≤ p ∧ p < n + k') → s'.view p = s.view p
  released : ∀ f, s.frames.used f = true →
    s'.frames.refs f = ((s.remapFreed a k n k').foldl Frames.decref s.frames).refs f
  data : s'.frames.data = s.frames.data

/-! ## The steps as operations on views -/

/-- The list is in order, and there is memory for nodes. -/
structure Roomy (s : Mm) : Prop where
  valid : Valid s.owner.vmas
  plenty : s.kmem.Plenty

theorem mem_pagesOf_mul : p ∈ pagesOf (c * pageSize) ((c + m) * pageSize) ↔ c ≤ p ∧ p < c + m := by
  rw [mem_pagesOf (Nat.dvd_mul_left _ _) (Nat.dvd_mul_left _ _)
    (Nat.mul_le_mul_right _ (Nat.le_add_right c m))]
  unfold pageSize
  omega

theorem unmapRange_view (h : Roomy s) (c m : Nat) :
    let s' := s.unmapRange (c * pageSize) ((c + m) * pageSize)
    Roomy s' ∧ s'.view = s.view.clear c m := by
  rcases Nat.eq_zero_or_pos m with rfl | hm
  · rw [Nat.add_zero, unmapRange_self, View.clear_zero]
    exact ⟨h, rfl⟩
  let r := PageRange.ofPages c m hm
  refine ⟨⟨?_, ?_⟩, funext fun p => ?_⟩
  · rw [unmapRange_vmas]
    exact h.valid.vmaRemoveRange r s.kmem
  · rw [unmapRange_kmem]
    exact removeRange_plenty _ _ h.plenty
  · have hmap := pageMap_unmapRange h.valid r p
    have hremoved : Removed s.owner.vmas (kmalloc s.kmem).1 r.start r.stop (p * pageSize) ↔
        c ≤ p ∧ p < c + m :=
      (removed_iff fun _ => h.plenty.first).trans PageRange.ofPages_has
    rw [if_congr hremoved rfl rfl] at hmap
    show (pageMap _ p, _) = _
    rw [show pageMap (s.unmapRange (c * pageSize) ((c + m) * pageSize)).owner.vmas p = _ from hmap,
      unmapRange_owned, if_congr mem_pagesOf_mul rfl rfl]
    unfold View.clear
    split <;> rfl

theorem Moved.view (h : Roomy s) (hm : Moved s s' (a * pageSize) (m * pageSize) (n * pageSize)) :
    Roomy s' ∧ s'.view = s.view.shift a m n := by
  refine ⟨⟨hm.valid, hm.plenty h.plenty⟩, funext fun p => ?_⟩
  have hmap : pageMap s'.owner.vmas p = if n ≤ p ∧ p < n + m then pageMap s.owner.vmas (a + (p - n))
      else if a ≤ p ∧ p < a + m then none else pageMap s.owner.vmas p := by
    refine (hm.vmas h.plenty (p * pageSize)).trans ?_
    refine ite_congr (propext ?_) (fun hp => ?_) fun _ =>
      ite_congr (propext ?_) (fun _ => rfl) fun _ => rfl
    · unfold pageSize
      omega
    · have haddr : a * pageSize + (p * pageSize - n * pageSize) = (a + (p - n)) * pageSize := by
        rw [← Nat.sub_mul, Nat.add_mul]
      rw [haddr]
      rfl
    · unfold pageSize
      omega
  have howned := hm.owned p
  rw [Nat.mul_div_cancel _ (by decide), Nat.mul_div_cancel _ (by decide),
    Nat.mul_div_cancel _ (by decide)] at howned
  show (pageMap s'.owner.vmas p, s'.pt.owned p) = _
  rw [hmap, howned]
  unfold View.shift
  split_ifs <;> rfl

end Mm

/-- What an extension from page `c` on says of a page. -/
def MremapTail.attr (t : MremapTail) (c p : Nat) : PageAttr :=
  ⟨t.prot, t.flags, t.file.map fun file =>
    ⟨file, t.off + BitVec.ofNat 64 (p * pageSize - c * pageSize), t.fsize⟩⟩

/-- An extension continues the last page of the mapping. -/
theorem MremapTail.attr_ofVma {last : Vma} {tail x c i k : Nat} (htail : tail = x + pageSize)
    (hx : last.start ≤ x) (hk : 0 < k) (hi : k ≤ i) :
    (MremapTail.ofVma last tail).attr (c + k) (c + i) = (last.attrAt x).later (i - (k - 1)) := by
  unfold attr ofVma PageAttr.later Vma.attrAt
  cases hfile : last.file with
  | none => rfl
  | some file =>
    have hsum : tail - last.start + ((c + i) * pageSize - (c + k) * pageSize) =
        x - last.start + (i - (k - 1)) * pageSize := by
      unfold pageSize at *
      omega
    simp [BitVec.add_assoc, ← BitVec.ofNat_add, hsum]

namespace Mm

variable {s s' : Mm} {t : MremapTail} {c m p : Nat}

theorem mremapExtend_view (h : Roomy s) (hm : 0 < m)
    (hfree : ∀ p, c ≤ p → p < c + m → pageMap s.owner.vmas p = none)
    (hext : s.mremapExtend (c * pageSize) ((c + m) * pageSize) t = (true, s')) :
    s'.view = s.view.extend c m (t.attr c) ∧ s'.frames = s.frames := by
  unfold mremapExtend at hext
  split at hext
  · cases hext
  dsimp only at hext
  rw [h.plenty.first, if_pos rfl] at hext
  cases hext
  have hhas : ∀ p, (PageRange.ofPages c m hm).Has p ↔ c ≤ p ∧ p < c + m := fun _ =>
    PageRange.ofPages_has
  set v := newVma (c * pageSize) ((c + m) * pageSize) t.prot t.flags t.file t.off t.fsize
  obtain ⟨-, hlookup⟩ := vmaInsert_of_free (v := v) (r := .ofPages c m hm) h.valid rfl rfl
    fun p hp => hfree p ((hhas p).mp hp).1 ((hhas p).mp hp).2
  refine ⟨funext fun p => ?_, rfl⟩
  have hattr : v.attrAt (p * pageSize) = t.attr c p := by
    unfold v Vma.attrAt newVma MremapTail.attr
    cases t.file <;> rfl
  have hmap : pageMap (vmaInsert s.owner v).vmas p = if c ≤ p ∧ p < c + m then some (t.attr c p)
      else pageMap s.owner.vmas p :=
    (hlookup (p * pageSize)).trans
      (ite_congr (propext (hhas p)) (fun _ => congrArg some hattr) fun _ => rfl)
  show (pageMap _ p, s.pt.owned p) = _
  rw [hmap]
  unfold View.extend
  split <;> rfl

/-! ## Frames -/

theorem pagesOf_mul (c m : Nat) : pagesOf (c * pageSize) ((c + m) * pageSize) = range' c m := by
  unfold pagesOf
  congr 1
  · exact Nat.mul_div_cancel c (by decide)
  · unfold pageSize
    omega

theorem framesOf_congr {ps : List Nat} (h : ∀ p ∈ ps, s'.pt.owned p = s.pt.owned p) :
    s'.framesOf ps = s.framesOf ps := by
  unfold framesOf
  induction ps with
  | nil => rfl
  | cons p ps ih =>
    rw [filterMap_cons, filterMap_cons, h p mem_cons_self, ih fun q hq =>
      h q (mem_cons_of_mem p hq)]

theorem framesOf_append (ps qs : List Nat) :
    s.framesOf (ps ++ qs) = s.framesOf ps ++ s.framesOf qs := filterMap_append

theorem framesOf_eq_nil {ps : List Nat} (h : ∀ p ∈ ps, s.pt.owned p = none) : s.framesOf ps = [] :=
  filterMap_eq_nil_iff.mpr fun p hp => by rw [h p hp]; rfl

theorem unmapPage_owned (s : Mm) (p q : Nat) : (s.unmapPage p).pt.owned q = if q = p then none
    else s.pt.owned q := by
  unfold PageTables.owned
  rw [unmapPage_read]
  by_cases hq : q = p <;> by_cases hm : (s.pt.pteRead q).mapped = true <;> simp [hq, hm]
  all_goals simp_all

/-- Unmapping pages gives back the frame of each entry that owned one. -/
theorem unmapRange_frames (s : Mm) (start stop : Nat) :
    (s.unmapRange start stop).frames = (s.framesOf (pagesOf start stop)).foldl Frames.decref
      s.frames := by
  show ((pagesOf start stop).foldl unmapPage (s.removeRange start stop)).frames =
    ((s.removeRange start stop).framesOf (pagesOf start stop)).foldl Frames.decref
      (s.removeRange start stop).frames
  generalize s.removeRange start stop = s
  have hnodup := nodup_pagesOf start stop
  generalize pagesOf start stop = ps at hnodup
  induction ps generalizing s with
  | nil => rfl
  | cons p ps ih =>
    obtain ⟨hp, hps⟩ := nodup_cons.mp hnodup
    have hrest : (s.unmapPage p).framesOf ps = s.framesOf ps := framesOf_congr fun q hq => by
      rw [unmapPage_owned, if_neg]
      rintro rfl
      exact hp hq
    rw [foldl_cons, ih (s.unmapPage p) hps, hrest]
    unfold framesOf unmapPage
    by_cases hm : (s.pt.pteRead p).mapped = true
    · rw [if_pos hm, filterMap_cons, PageTables.owned_of_mapped hm]
      rfl
    · have hnone : s.pt.owned p = none := PageTables.owned_eq_none.mpr (by simpa using hm)
      rw [if_neg hm, filterMap_cons, hnone]
      rfl

end Mm

namespace Frames

variable {fr fr' : Frames} {f x : Nat}

/-- References are dropped alike where the counts are alike. -/
theorem refs_foldl_decref_congr {P : Nat → Prop} (htotal : fr'.total = fr.total)
    (h : ∀ f, P f → fr'.refs f = fr.refs f)
    (xs : List Nat) : ∀ f, P f → (xs.foldl decref fr').refs f = (xs.foldl decref fr).refs f := by
  induction xs generalizing fr fr' with
  | nil => exact h
  | cons x xs ih =>
    refine ih (by rw [total_decref, total_decref, htotal]) fun f hf => ?_
    rw [refs_decref, refs_decref, htotal, h f hf]

/-- A frame that is freed has no reference left. -/
theorem used_or_refs_foldl_decref (h : fr.used f = true ∨ fr.refs f = 0) (xs : List Nat) :
    (xs.foldl decref fr).used f = true ∨ (xs.foldl decref fr).refs f = 0 := by
  induction xs generalizing fr with
  | nil => exact h
  | cons x xs ih =>
    refine ih ?_
    rcases h with hused | hzero
    · unfold decref
      split
      · next hx =>
        split
        · next hone =>
          unfold free
          rw [if_pos hx.1]
          by_cases hf : f = x
          · exact Or.inr (by simp [hf, hone])
          · exact Or.inl (by simpa [hf] using hused)
        · exact Or.inl hused
      · exact Or.inl hused
    · refine Or.inr ?_
      rw [refs_decref, hzero]
      split <;> rfl

/-- Frames that are taken between two times that references are dropped do not show in the counts of
the others. -/
theorem refs_grown_between {xs ys : List Nat} (h : Grown (xs.foldl decref fr) fr')
    (hused : fr.used f = true) :
    (ys.foldl decref fr').refs f = ((xs ++ ys).foldl decref fr).refs f := by
  rw [foldl_append]
  refine refs_foldl_decref_congr (P := fun f => fr.used f = true) h.total (fun g hg => ?_)
    ys f hused
  rcases h.each g with ⟨-, heq⟩ | ⟨hfree, -, hzero⟩
  · exact heq
  · rw [hzero]
    exact (((used_or_refs_foldl_decref (Or.inl hg) xs).resolve_left fun hu =>
      Bool.noConfusion (hfree.symm.trans hu))).symm

end Frames

namespace Mm

variable {s s' s₁ s₂ s₃ : Mm} {t : MremapTail} {args : MremapArgs} {a b c k k' m n p f : Nat}
  {attr : Nat → PageAttr}

/-! ## The four ways to succeed -/

/-- From its `k`-th page on a mapping at `n` continues the last page of the one at `a`. -/
def Continues (s : Mm) (a k n : Nat) (attr : Nat → PageAttr) : Prop :=
  ∀ i, k ≤ i → some (attr (n + i)) = (pageMap s.owner.vmas (a + (k - 1))).map
    (·.later (i - (k - 1)))

theorem Remapped.of_relocate (hna : n ≠ a) (hapart : n + k' ≤ a ∨ a + k ≤ n)
    (hview : s'.view = s.view.relocate a k n k' attr) (hattr : s.Continues a k n attr)
    (hgrown : Frames.Grown ((s.framesOf (range' n k')).foldl Frames.decref s.frames) s₂.frames)
    (hframes : s'.frames = (s.framesOf (range' (a + min k k') (k - k'))).foldl Frames.decref
      s₂.frames)
    (hdata : s'.frames.data = s.frames.data) : Remapped s s' a k n k' := by
  refine ⟨fun i hk hk' => ?_, fun i hk hk' => ?_, fun p ha hp hout => ?_, fun p hin hout => ?_,
    fun f hf => ?_, hdata⟩
  · rw [hview, View.relocate_moved hapart hk hk']
  · rw [hview, View.relocate_grown hapart hk hk', hattr i hk]
  · rw [hview, View.relocate_gone ha hp hout]
  · rw [hview, View.relocate_kept hin hout]
  · rw [hframes, Frames.refs_grown_between hgrown hf, remapFreed, if_neg hna, framesOf_append]

theorem Remapped.of_shrink (hle : k' ≤ k) (hview : s'.view = s.view.clear (a + k') (k - k'))
    (hframes : s'.frames = (s.framesOf (range' (a + k') (k - k'))).foldl Frames.decref s.frames)
    (hdata : s'.frames.data = s.frames.data) : Remapped s s' a k a k' := by
  refine ⟨fun i hk hk' => ?_, fun i hk hk' => absurd hk (by omega), fun p ha hp hout => ?_,
    fun p hin hout => ?_, fun f hf => ?_, hdata⟩
  · rw [hview]
    exact if_neg (by omega)
  · rw [hview]
    exact if_pos (by omega)
  · rw [hview]
    exact if_neg (by omega)
  · rw [hframes, remapFreed, if_pos rfl, min_eq_right hle]
    rfl

theorem Remapped.of_grow (hle : k ≤ k') (hview : s'.view = s.view.extend (a + k) (k' - k) attr)
    (hattr : s.Continues a k a attr) (hfree : ∀ p, a + k ≤ p → p < a + k' → s.pt.owned p = none)
    (hframes : s'.frames = s.frames) : Remapped s s' a k a k' := by
  refine ⟨fun i hk hk' => ?_, fun i hk hk' => ?_, fun p ha hp hout => absurd hout (by omega),
    fun p hin hout => ?_, fun f hf => ?_, by rw [hframes]⟩
  · rw [hview]
    exact if_neg (by omega)
  · rw [hview]
    refine (if_pos (by omega)).trans ?_
    rw [hattr i hk]
    exact congrArg (Prod.mk _) (hfree _ (by omega) (by omega))
  · rw [hview]
    exact if_neg (by omega)
  · rw [hframes, remapFreed, if_pos rfl, Nat.sub_eq_zero_of_le hle]
    rfl

/-- The extension of a mapping that the checks have passed continues its last page. -/
theorem MremapReady.attr_eq (h : MremapReady s args t) (hold : args.oldAddr = a * pageSize)
    (hsize : pageUp args.oldSize = k * pageSize) (hk : 0 < k) (c : Nat) :
    s.Continues a k c (t.attr (c + k)) := by
  intro i hi
  obtain ⟨last, hfind, rfl⟩ := h.tail
  have hpage : args.oldAddr + pageUp args.oldSize - pageSize = (a + (k - 1)) * pageSize := by
    rw [hold, hsize]
    unfold pageSize
    omega
  rw [hpage] at hfind
  have htail : args.oldAddr + pageUp args.oldSize = (a + (k - 1)) * pageSize + pageSize := by
    rw [hold, hsize]
    unfold pageSize
    omega
  unfold pageMap
  rw [lookup_of_find hfind, Option.map_some]
  exact congrArg some (MremapTail.attr_ofVma htail (has_of_find hfind).1 hk hi)

/-- A relocation to a place that is free once what is there has been unmapped: the steps after
that. -/
theorem remapped_of_steps (hready : MremapReady s args t) (hold : args.oldAddr = a * pageSize)
    (hsize : pageUp args.oldSize = k * pageSize) (hk : 0 < k) (hapart : n + k' ≤ a ∨ a + k ≤ n)
    (hna : n ≠ a) (hroomy : Roomy s₁) (hview₁ : s₁.view = s.view.clear n k')
    (hframes₁ : s₁.frames = (s.framesOf (range' n k')).foldl Frames.decref s.frames)
    (hdata₁ : s₁.frames.data = s.frames.data)
    (hmoved : Moved s₁ s₂ (a * pageSize) (min k k' * pageSize) (n * pageSize))
    (hext : k < k' → (s₂.unmapRange ((a + min k k') * pageSize) ((a + k) * pageSize)).mremapExtend
      ((n + k) * pageSize) ((n + k') * pageSize) t = (true, s'))
    (hsame : k' ≤ k → s' = s₂.unmapRange ((a + min k k') * pageSize) ((a + k) * pageSize)) :
    Remapped s s' a k n k' := by
  obtain ⟨hroomy₂, hview₂⟩ := hmoved.view hroomy
  have hcount : a + min k k' + (k - k') = a + k := by omega
  obtain ⟨hroomy₃, hview₃⟩ := unmapRange_view hroomy₂ (a + min k k') (k - k')
  have hframes₃ :=
    unmapRange_frames s₂ ((a + min k k') * pageSize) ((a + min k k' + (k - k')) * pageSize)
  have hdata₃ :=
    data_unmapRange s₂ ((a + min k k') * pageSize) ((a + min k k' + (k - k')) * pageSize)
  rw [pagesOf_mul] at hframes₃
  rw [hcount] at hroomy₃ hview₃ hframes₃ hdata₃
  rw [hview₂, hview₁] at hview₃
  generalize s₂.unmapRange ((a + min k k') * pageSize) ((a + k) * pageSize) = s₃ at *
  -- the end that is cut off has not been moved, and is not at the destination
  have htail : s₂.framesOf (range' (a + min k k') (k - k')) =
      s.framesOf (range' (a + min k k') (k - k')) := by
    refine framesOf_congr fun p hp => ?_
    rw [mem_range'_1] at hp
    have hp₂ : s₂.view p = s.view p := by
      rw [hview₂, hview₁]
      unfold View.shift View.clear
      rw [if_neg (by omega), if_neg (by omega), if_neg (by omega)]
    exact congrArg Prod.snd hp₂
  rw [htail] at hframes₃
  have hdata : s₃.frames.data = s.frames.data := hdata₃.trans (hmoved.grown.data.trans hdata₁)
  have hgrown := hmoved.grown
  rw [hframes₁] at hgrown
  have hattr := hready.attr_eq hold hsize hk n
  rcases lt_or_ge k k' with hlt | hge
  · have hmin : min k k' = k := by omega
    have hnew : n + k + (k' - k) = n + k' := by omega
    obtain ⟨hview₄, hframes₄⟩ :=
      mremapExtend_view (c := n + k) (m := k' - k) hroomy₃ (by omega) (fun p hlo hhi => by
        have hp₃ : s₃.view p = (none, none) := by
          rw [hview₃]
          unfold View.clear View.shift
          dsimp only
          split_ifs <;> first | rfl | omega
        exact congrArg Prod.fst hp₃) (by rw [hnew]; exact hext hlt)
    refine Remapped.of_relocate hna hapart ?_ hattr hgrown (hframes₄.trans hframes₃)
      (by rw [hframes₄, hdata])
    rw [hview₄, hview₃]
    unfold View.relocate
    rw [hmin]
  · rw [hsame hge]
    refine Remapped.of_relocate hna hapart ?_ hattr hgrown hframes₃ hdata
    rw [hview₃]
    unfold View.relocate
    rw [Nat.sub_eq_zero_of_le hge, View.extend_zero]

section Exits

variable (hroomy : Roomy s) (hready : MremapReady s args t) (hnewAddr : args.newAddr < 2 ^ 32)
  (hold : args.oldAddr = a * pageSize) (hsize : pageUp args.oldSize = k * pageSize)
    (hnew : pageUp args.newSize = k' * pageSize)

include hroomy hready hnew

include hnewAddr in
/-- What was at the destination is gone when the mapping is moved there. -/
theorem mremapCleared_view (h : s.mremapDest args t = some (b * pageSize)) :
    let s' := s.mremapCleared args (b * pageSize)
    Roomy s' ∧ s'.view = s.view.clear b k' ∧
      s'.frames = (s.framesOf (range' b k')).foldl Frames.decref s.frames := by
  obtain ⟨-, -, hgap⟩ := mremapDest_spec hroomy.valid hready hnewAddr h
  unfold mremapCleared
  rw [hnew, ← Nat.add_mul] at hgap ⊢
  split
  · dsimp only
    rw [unmapRange_frames, pagesOf_mul]
    exact ⟨(unmapRange_view hroomy b k').1, (unmapRange_view hroomy b k').2, rfl⟩
  next hfixed =>
  obtain ⟨hpages, hvmas⟩ := hgap (by simpa using hfixed)
  have hnone : ∀ p, b ≤ p ∧ p < b + k' → s.view p = (none, none) := fun p hp =>
    Prod.ext (hvmas.lookup (Nat.mul_le_mul_right _ hp.1)
      ((Nat.mul_lt_mul_right (by decide)).mpr hp.2))
      (PageTables.owned_eq_none.mpr (hpages p (mem_pagesOf_mul.mpr hp)))
  refine ⟨hroomy, ?_, ?_⟩
  · funext p
    unfold View.clear
    split
    · next hp => exact hnone p hp
    · rfl
  · rw [framesOf_eq_nil fun p hp => congrArg Prod.snd (hnone p (mem_range'_1.mp hp))]
    rfl

include hold hsize

include hnewAddr in
/-- A mapping that is moved, and cut or grown. -/
theorem moves_remapped (hk : 0 < k) (hk' : 0 < k') (hmove : MremapMove s args t n true s₂)
    (hext : (if pageUp args.oldSize < pageUp args.newSize then
        s₂.mremapExtend (n + pageUp args.oldSize) (n + pageUp args.newSize) t
      else (true, s₂.unmapRange (args.oldAddr + pageUp args.newSize)
        (args.oldAddr + pageUp args.oldSize))) = (true, s')) :
    Remapped s s' a k (n / pageSize) k' := by
  have hpage : 0 < pageSize := by decide
  obtain ⟨hdvd, hapart, -⟩ := mremapDest_spec hroomy.valid hready hnewAddr hmove.dest_eq
  obtain ⟨b, rfl⟩ : ∃ b, n = b * pageSize := ⟨n / pageSize, (Nat.div_mul_cancel hdvd).symm⟩
  have hmin : min (pageUp args.oldSize) (pageUp args.newSize) = min k k' * pageSize := by
    rw [hsize, hnew, Nat.mul_min_mul_right]
  obtain ⟨hroomy₁, hview₁, hframes₁⟩ := mremapCleared_view hroomy hready hnewAddr hnew hmove.dest_eq
  obtain ⟨-, hmovable⟩ := movable_of_dest hroomy.valid hready hnewAddr
    (by rw [hmin]; exact Nat.mul_pos (by omega) hpage) hmove.dest_eq
  have hmoved := mremapMove_moved hroomy₁.valid hmovable hmove.step
  rw [hold, hmin] at hmoved
  rw [hold, hsize, hnew] at hapart hext
  have hapart' : b + k' ≤ a ∨ a + k ≤ b := by
    unfold pageSize at hapart
    omega
  rw [Nat.mul_div_cancel b hpage]
  refine remapped_of_steps hready hold hsize hk hapart' (by omega) hroomy₁ hview₁ hframes₁
    (data_mremapCleared s args _) hmoved (fun hlt => ?_) fun hge => ?_
  · rwa [if_pos ((Nat.mul_lt_mul_right hpage).mpr hlt), ← Nat.add_mul, ← Nat.add_mul,
      min_eq_left hlt.le, unmapRange_self] at *
  · rw [if_neg (not_lt.mpr (Nat.mul_le_mul_right _ hge)), ← Nat.add_mul, ← Nat.add_mul] at hext
    rw [min_eq_right hge]
    exact (Prod.mk.inj hext).2.symm

/-- A mapping that grows where it is. -/
theorem grows_remapped (hk : 0 < k) (hlt : pageUp args.oldSize < pageUp args.newSize)
    (hroom : s.mremapRoom (args.oldAddr + pageUp args.oldSize)
      (pageUp args.newSize - pageUp args.oldSize) = true)
    (hext : s.mremapExtend (args.oldAddr + pageUp args.oldSize) (args.oldAddr + pageUp args.newSize)
      t = (true, s')) :
    Remapped s s' a k a k' := by
  have hpage : 0 < pageSize := by decide
  -- the range after the mapping is free
  unfold mremapRoom at hroom
  simp only [Bool.and_eq_true, decide_eq_true_eq] at hroom
  obtain ⟨⟨hwrap, -⟩, hfree⟩ := hroom
  have hpages := (vmaRangeFree_pages hfree).2
  have hvmas := vmaRangeFree_vmas hroomy.valid hfree
  have hstop : u32 (args.oldAddr + pageUp args.oldSize +
      (pageUp args.newSize - pageUp args.oldSize)) = args.oldAddr + pageUp args.newSize := by
    have := pageUp_lt args.newSize
    have hhigh := hready.high
    unfold kernelVma at hhigh
    obtain ⟨-, heq⟩ :=
      (add_lt_of_le_u32 (by omega) (by omega) (le_of_lt hwrap)).resolve_right (by omega)
    omega
  rw [hstop] at hpages hvmas
  rw [hsize, hnew, Nat.mul_lt_mul_right hpage] at hlt
  have hend : a + k' = a + k + (k' - k) := by omega
  rw [hold, hsize, hnew, ← Nat.add_mul, ← Nat.add_mul, hend] at hpages hvmas hext
  obtain ⟨hview, hframes⟩ := mremapExtend_view hroomy (by omega)
    (fun p hlo hhi => hvmas.lookup (Nat.mul_le_mul_right _ hlo)
      ((Nat.mul_lt_mul_right hpage).mpr hhi)) hext
  refine Remapped.of_grow hlt.le hview (hready.attr_eq hold hsize hk a)
    (fun p hlo hhi => ?_) hframes
  exact PageTables.owned_eq_none.mpr (hpages p (mem_pagesOf_mul.mpr ⟨hlo, by omega⟩))

end Exits

theorem mremap_remapped (hroomy : Roomy s) (haddr : args.oldAddr < 2 ^ 32)
    (hold : args.oldSize < 2 ^ 32)
    (hnewAddr : args.newAddr < 2 ^ 32) (hnew : args.newSize ≤ 0xFFFFF000)
    (h : s.sysMremap args = (.ok n, s')) :
    Remapped s s' (args.oldAddr / pageSize) (pagesIn args.oldSize) (n / pageSize)
      (pagesIn args.newSize) := by
  rcases hstart : s.mremapStart args with err | t
  · simp [sysMremap, hstart] at h
  have hready := mremapStart_ready hroomy.valid haddr hold hstart
  have ha : args.oldAddr = args.oldAddr / pageSize * pageSize :=
    (Nat.div_mul_cancel hready.dvd).symm
  have hk := pagesIn_pos hready.pos
  have hsize := pageUp_eq hready.le
  have hsize' := pageUp_eq hnew
  have hexit := sysMremap_exit hstart
  rw [h] at hexit
  cases hexit with
  | shrinks hle =>
    rw [hsize, hsize', Nat.mul_le_mul_right_iff (by decide)] at hle
    have hend : pagesIn args.oldSize =
        pagesIn args.newSize + (pagesIn args.oldSize - pagesIn args.newSize) := by omega
    have hframes :=
      unmapRange_frames s (args.oldAddr + pageUp args.newSize) (args.oldAddr + pageUp args.oldSize)
    have hview := (unmapRange_view hroomy (args.oldAddr / pageSize + pagesIn args.newSize)
      (pagesIn args.oldSize - pagesIn args.newSize)).2
    have hpages :=
      pagesOf_mul (args.oldAddr / pageSize + pagesIn args.newSize)
        (pagesIn args.oldSize - pagesIn args.newSize)
    rw [Nat.add_assoc, ← hend, Nat.add_mul, Nat.add_mul, ← ha, ← hsize, ← hsize'] at hview hpages
    rw [hpages] at hframes
    exact Remapped.of_shrink hle hview hframes (data_unmapRange s _ _)
  | grows hlt hroom hext => exact grows_remapped hroomy hready ha hsize hsize' hk hlt hroom hext
  | moves hmove hext =>
    exact moves_remapped hroomy hready hnewAddr ha hsize hsize' hk (pagesIn_pos hready.newPos)
      hmove hext

end Mm

/-! ## A size that is rounded to nothing -/

/-- The nodes of the list end at `top` or before. -/
def Below (top : Nat) (l : List Vma) : Prop := ∀ v ∈ l, v.stop ≤ top

namespace Below

variable {top start stop : Nat} {l l' : List Vma} {v : Vma} {o : Owner}

theorem cons (hv : v.stop ≤ top) (hl : Below top l) : Below top (v :: l) := by
  intro w hw
  rcases mem_cons.mp hw with rfl | hw
  · exact hv
  · exact hl w hw

theorem append (hl : Below top l) (hl' : Below top l') : Below top (l ++ l') := by
  intro w hw
  rcases mem_append.mp hw with hw | hw
  · exact hl w hw
  · exact hl' w hw

theorem of_sublist (h : Below top l) (hsub : l'.Sublist l) : Below top l' :=
  fun v hv => h v (hsub.subset hv)

theorem removeFrom (h : Below top l) (m : Kmem) : Below top (removeFrom start stop l m).1 := by
  induction l generalizing m with
  | nil => exact h
  | cons v l ih =>
    have hv := h v mem_cons_self
    have hl := h.of_sublist (sublist_cons_self v l)
    simp only [Vm.removeFrom, Vma.allocTail_eq]
    split
    · exact h
    split
    · exact cons hv (ih hl m)
    next hmeets =>
    split
    · exact ih hl m
    split
    · cases (kmalloc m).1 with
      | true => exact cons (by show start ≤ top; omega) (cons hv hl)
      | false => exact cons (by show start ≤ top; omega) (ih hl _)
    split
    · exact cons (by show start ≤ top; omega) (ih hl m)
    · exact cons hv (ih hl m)

theorem vmaRemoveRange (h : Below top l) (m : Kmem) :
    Below top (vmaRemoveRange l m start stop).1 := by
  unfold Vm.vmaRemoveRange
  split
  · exact h
  · exact h.removeFrom m

theorem mergeSucc (hv : v.stop ≤ top) (hl : Below top l) : Below top (mergeSucc v l) := by
  cases l with
  | nil => exact cons hv hl
  | cons n l =>
    simp only [Vm.mergeSucc]
    split
    · exact cons (hl n mem_cons_self) (hl.of_sublist (sublist_cons_self n l))
    · exact cons hv hl

theorem mergePred (hl : Below top l) (hl' : Below top l') : Below top (mergePred l l') := by
  cases l' with
  | nil => exact hl
  | cons v rest =>
    simp only [Vm.mergePred]
    split
    · split
      · exact (hl.of_sublist (dropLast_sublist l)).append
          (cons (hl' v mem_cons_self) (hl'.of_sublist (sublist_cons_self v rest)))
      · exact hl.append hl'
    · exact hl'

theorem vmaInsert (hv : v.stop ≤ top) (hl : Below top o.vmas) : Below top (vmaInsert o v).vmas :=
  (hl.of_sublist (takeWhile_sublist _)).mergePred
    (mergeSucc hv (hl.of_sublist (dropWhile_sublist _)))

theorem insertAll {vs : List Vma} (hvs : Below top vs) (hl : Below top o.vmas) :
    Below top (vs.foldl Vm.vmaInsert o).vmas := by
  induction vs generalizing o with
  | nil => exact hl
  | cons v vs ih =>
    exact ih (hvs.of_sublist (sublist_cons_self v vs)) (vmaInsert (hvs v mem_cons_self) hl)

/-- No page from `top` on is covered. -/
theorem pageMap_eq_none (h : Below top l) (hp : top ≤ p * pageSize) : pageMap l p = none := by
  refine lookup_eq_none.mpr fun v hv hhas => ?_
  obtain ⟨-, hlt⟩ : v.start ≤ p * pageSize ∧ p * pageSize < v.stop := hhas
  have := h v hv
  omega

end Below

namespace Mm

variable {s s' : Mm} {t : MremapTail} {args : MremapArgs} {old len dest top n : Nat}

theorem Keeps.movePage (old dest : Nat) (s : Mm) (i : Nat) : Keeps s (movePage old dest s i) := by
  unfold Mm.movePage
  dsimp only
  split
  · exact (Keeps.setPte s _ _).trans (Keeps.pagingMap _ _ _ _)
  · exact Keeps.refl s

/-- A move does not take the list beyond its destination. -/
theorem mremapMove_below (h : Below top s.owner.vmas) (hdest : dest + len ≤ top)
    (hmove : s.mremapMove old len dest = (true, s')) : Below top s'.owner.vmas := by
  unfold mremapMove at hmove
  dsimp only at hmove
  split at hmove
  · cases hmove
  have hreserve := s.pagingReserveRange_spec dest (dest + len)
  generalize s.pagingReserveRange dest (dest + len) = res at hmove hreserve
  obtain ⟨ok, s₁⟩ := res
  rcases ok with _ | _
  · cases hmove
  have hpieces : Below top (mremapPieces old len dest s.owner.vmas) := by
    intro v hv
    obtain ⟨w, -, rfl⟩ := mem_map.mp hv
    show dest + (min w.stop (old + len) - old) ≤ top
    omega
  obtain ⟨ws, kmem, hsub, -, hinsert⟩ := insertPieces_spec (mremapPieces old len dest s.owner.vmas)
    ((range (len / pageSize)).foldl (movePage old dest) (s₁.removeRange old (old + len)))
  have hs' := (Prod.mk.inj hmove).2
  rw [hinsert] at hs'
  subst hs'
  refine (hpieces.of_sublist hsub).insertAll ?_
  rw [(foldl_rel Keeps.refl (fun _ _ _ => Keeps.trans) (Keeps.movePage old dest) _ _).owner]
  refine Below.vmaRemoveRange ?_ _
  rwa [hreserve.keeps.owner]

/-- What a move leaves that is asked for no pages at all: only `MREMAP_FIXED` is. -/
theorem moves_nothing (hbelow : Below (2 ^ 32) s.owner.vmas) (hnewAddr : args.newAddr < 2 ^ 32)
    (hzero : pageUp args.newSize = 0) (hmove : MremapMove s args t dest true s') :
    userMinAddr ≤ dest ∧ Below (2 ^ 32) s'.owner.vmas := by
  obtain ⟨hdest, hstep⟩ := hmove
  have hclear : s.mremapCleared args dest = s := by
    unfold mremapCleared
    rw [hzero, Nat.add_zero, unmapRange_self, ite_self]
  unfold mremapDest at hdest
  rw [hzero] at hdest
  split at hdest
  · split at hdest
    · next hok =>
      cases hdest
      obtain ⟨hlow, -⟩ :=
        mremapBadDest_eq_none hnewAddr (by decide) (Option.isNone_iff_eq_none.mp hok)
      rw [hclear, hzero, Nat.min_zero] at hstep
      exact ⟨hlow, mremapMove_below hbelow (by omega) hstep⟩
    · cases hdest
  · rw [if_pos (Nat.zero_le _)] at hdest
    cases hdest

/-- **A successful `mremap` relocates exactly the mapping**, unless the new size is rounded up to
nothing. -/
theorem mremap_relocates_iff (s : Mm) (args : MremapArgs) (n : Nat) (hvalid : Valid s.owner.vmas)
    (hbelow : Below (2 ^ 32) s.owner.vmas) (hplenty : s.kmem.Plenty) (haddr : args.oldAddr < 2 ^ 32)
    (hold : args.oldSize < 2 ^ 32) (hnew : args.newSize < 2 ^ 32) (hnewAddr : args.newAddr < 2 ^ 32)
    (h : (s.sysMremap args).1 = .ok n) :
    Remapped s (s.sysMremap args).2 (args.oldAddr / pageSize) (pagesIn args.oldSize) (n / pageSize)
      (pagesIn args.newSize) ↔ args.newSize ≤ 0xFFFFF000 := by
  constructor
  · intro hremap
    by_contra hwrap
    have hzero : pageUp args.newSize = 0 := pageUp_wrap (not_le.mp hwrap) hnew
    have hcall : s.sysMremap args = (.ok n, (s.sysMremap args).2) := Prod.ext h rfl
    generalize (s.sysMremap args).2 = s' at hremap hcall
    rcases hstart : s.mremapStart args with err | t
    · simp [sysMremap, hstart] at hcall
    have hready := mremapStart_ready hvalid haddr hold hstart
    have hk := pagesIn_pos hready.pos
    have ha : args.oldAddr = args.oldAddr / pageSize * pageSize :=
      (Nat.div_mul_cancel hready.dvd).symm
    have hsize := pageUp_eq hready.le
    have hhigh := hready.high
    have hcov : ∀ i < pagesIn args.oldSize, pageMap s.owner.vmas (args.oldAddr / pageSize + i) ≠
        none := by
      intro i hi
      refine hready.covered _ ?_ ?_
      · rw [Nat.add_mul, ← ha]
        exact Nat.le_add_right _ _
      · rw [hsize, Nat.add_mul, ← ha]
        exact Nat.add_lt_add_left ((Nat.mul_lt_mul_right (by decide)).mpr hi) _
    have hexit := sysMremap_exit hstart
    rw [hcall] at hexit
    cases hexit with
    | shrinks =>
      have hview :=
        (unmapRange_view ⟨hvalid, hplenty⟩ (args.oldAddr / pageSize) (pagesIn args.oldSize)).2
      rw [Nat.add_mul, ← ha, ← hsize] at hview
      have hfirst := hremap.moved 0 hk (by unfold pagesIn pageSize; omega)
      rw [hzero, Nat.add_zero, hview, Nat.add_zero] at hfirst
      have hgone : s.view.clear (args.oldAddr / pageSize) (pagesIn args.oldSize)
          (args.oldAddr / pageSize) = (none, none) :=
        if_pos ⟨le_rfl, by omega⟩
      rw [hgone] at hfirst
      exact hcov 0 hk (congrArg Prod.fst hfirst).symm
    | grows hlt => omega
    | moves hmove hext =>
      obtain ⟨hlow, hbelow₁⟩ := moves_nothing hbelow hnewAddr hzero hmove
      rw [if_neg (by omega)] at hext
      have hbelow' : Below (2 ^ 32) s'.owner.vmas := by
        rw [← (Prod.mk.inj hext).2, unmapRange_vmas]
        exact hbelow₁.vmaRemoveRange _
      -- the last page of the new size would have to be mapped, beyond the address space
      have hlast := hremap.grown 0xFFFFF
        (by unfold pageSize kernelVma at *; omega) (by unfold pagesIn pageSize; omega)
      have hnone := hbelow'.pageMap_eq_none (p := n / pageSize + 0xFFFFF)
        (by unfold userMinAddr pageSize at *; omega)
      rw [show s'.view _ = (_, s'.pt.owned _) from rfl, hnone] at hlast
      exact hcov _ (by omega) (Option.map_eq_none_iff.mp (congrArg Prod.fst hlast).symm)
  · intro hle
    exact mremap_remapped ⟨hvalid, hplenty⟩ haddr hold hnewAddr hle (Prod.ext h rfl)

/-- A page in frame 5, with a mapping right behind it. -/
def crampedPage : Mm :=
  { Mm.empty with
    owner := ⟨[newVma 0x40000000 0x40001000 ⟨true, true, false⟩ .none none 0 0,
      newVma 0x40001000 0x40002000 ⟨true, false, false⟩ .none none 0 0], 0x40002000⟩
    pt := { Mm.empty.pt with
      table := fun _ => some 1
      entry :=
        fun p => if p = 0x40000 then ⟨pteFlagsFor ⟨true, true, false⟩ false, 5⟩ else Pte.zero }
    frames := ⟨16, fun f => if f = 5 then 1 else 0, fun f => f == 5, fun _ => zeroPage, []⟩ }

theorem crampedPage_valid : Valid crampedPage.owner.vmas :=
  Valid.cons ⟨by decide, by decide, by decide⟩ (by decide)
    (Valid.single ⟨by decide, by decide, by decide⟩)

/-- It can grow only somewhere else, and takes its frame along. -/
theorem mremap_relocates_moved :
    (crampedPage.sysMremap ⟨0x40000000, 0x1000, 0x2000, true, false, false, 0⟩).1 = .ok 0x40002000 ∧
      Remapped crampedPage
        (crampedPage.sysMremap ⟨0x40000000, 0x1000, 0x2000, true, false, false, 0⟩).2
        (0x40000000 / pageSize) (pagesIn 0x1000) (0x40002000 / pageSize) (pagesIn 0x2000) ∧
      ((crampedPage.sysMremap ⟨0x40000000, 0x1000, 0x2000, true, false, false, 0⟩).2.pt.pteRead
        0x40002).frame = 5 := by
  refine ⟨by decide +kernel, ?_, by decide +kernel⟩
  exact (mremap_relocates_iff crampedPage ⟨0x40000000, 0x1000, 0x2000, true, false, false, 0⟩
    0x40002000
    crampedPage_valid (by unfold Below; decide) nofun (by decide) (by decide) (by decide)
      (by decide)
    (by decide +kernel)).mpr (by decide)

/-- Asked for almost all of the address space, `mremap` unmaps the three pages and answers with
their address. -/
theorem mremap_unmaps_on_success :
    Valid (threePages []).owner.vmas ∧
      ((threePages []).sysMremap ⟨0x40000000, 0x3000, 0xFFFFF001, false, false, false, 0⟩).1 =
        .ok 0x40000000 ∧
      (pageMap (threePages []).owner.vmas 0x40000).isSome = true ∧
      pageMap ((threePages []).sysMremap ⟨0x40000000, 0x3000, 0xFFFFF001, false, false, false,
        0⟩).2.owner.vmas 0x40000 = none :=
  ⟨threePages_valid [], rfl, by decide +kernel, by decide +kernel⟩

end Mm

end MaeroOS.Vm
