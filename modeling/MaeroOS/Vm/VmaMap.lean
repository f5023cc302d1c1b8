import Mathlib.Data.List.Basic
import Mathlib.Data.List.TakeWhile
import MaeroOS.Lib.System
import MaeroOS.Vm.Vma

/-!
# A VMA list is a page map

A VMA list that is in order, with nodes that are non-empty ranges of whole pages (`Valid`), stands
for a partial map from addresses to page attributes (`lookup Vma.seg`). Each function of the list is
described by what it does to that map.

* Merging nodes does not change it (`lookup_vmaMergeAll`).
* `vma_remove_range` and `vma_protect_range` replace nodes by pieces of them. Over one call there
  are at most one split, or two; `removeFrom_eq` and `protectFrom_eq` say which pieces, for every
  way in which the allocations of the call can fail.
* `vma_insert` adds what the new node says, if nothing was there (`lookup_vmaInsert`).

`PageMap` is the map from page numbers, with the operations as a specification would have them; a
list of operations on the VMA list refines the same operations on the page map.
-/

namespace MaeroOS.Vm

open List
open Lib Lib.Segments

variable {l : List Vma} {v n p : Vma} {m : Kmem} {start stop addr x : Nat} {prot : Prot}

/-! ## Nodes and their pieces -/

namespace Vma

/-- Offsets into the file count on from a cut. -/
theorem off_add (off : BitVec 64) (hx : v.start ≤ x) (haddr : x ≤ addr) :
    off + BitVec.ofNat 64 (x - v.start) + BitVec.ofNat 64 (addr - x) =
      off + BitVec.ofNat 64 (addr - v.start) := by
  rw [BitVec.add_assoc, ← BitVec.ofNat_add]
  have hsum : x - v.start + (addr - x) = addr - v.start := by omega
  rw [hsum]

/-- A node that is trimmed says what the tail of a split would. -/
theorem seg_trimLeft : (v.trimLeft x).seg = (v.tail x).seg := by
  unfold seg attrAt trimLeft tail newVma
  cases v.file <;> rfl

theorem attrAt_tail (hx : v.start ≤ x) (haddr : x ≤ addr) :
    (v.tail x).attrAt addr = v.attrAt addr := by
  unfold attrAt tail newVma
  cases hfile : v.file with
  | none => rfl
  | some file => simp [off_add v.fileOff hx haddr]

theorem Ok.upto (h : v.Ok) (hlt : v.start < x) (hdvd : pageSize ∣ x) : { v with stop := x }.Ok :=
  ⟨hlt, h.start_dvd, hdvd⟩

theorem Ok.tail (h : v.Ok) (hlt : x < v.stop) (hdvd : pageSize ∣ x) : (v.tail x).Ok :=
  ⟨hlt, hdvd, h.stop_dvd⟩

theorem Ok.trimLeft (h : v.Ok) (hlt : x < v.stop) (hdvd : pageSize ∣ x) : (v.trimLeft x).Ok :=
  ⟨hlt, hdvd, h.stop_dvd⟩

theorem Ok.recolour (h : v.Ok) (prot : Prot) : { v with prot }.Ok := { h with }

end Vma

/-! Looking an address up in a list that starts with a piece of a node. -/

theorem lookup_upto_cons : lookup Vma.seg ({ v with stop := x } :: l) addr =
    if v.start ≤ addr ∧ addr < x then some (v.attrAt addr) else lookup Vma.seg l addr := lookup_cons

theorem lookup_tail_cons (hx : v.start ≤ x) : lookup Vma.seg (v.tail x :: l) addr =
    if x ≤ addr ∧ addr < v.stop then some (v.attrAt addr) else lookup Vma.seg l addr := by
  rw [lookup_cons]
  refine ite_congr rfl (fun hhas => ?_) fun _ => rfl
  exact congrArg some (Vma.attrAt_tail hx hhas.1)

theorem lookup_recolour_cons : lookup Vma.seg ({ v with stop := x, prot := prot } :: l) addr =
    if v.start ≤ addr ∧ addr < x then some { v.attrAt addr with prot } else lookup Vma.seg l addr :=
  lookup_cons

/-! ## Lists in order -/

/-- Sorted, disjoint, and made of non-empty ranges of whole pages. -/
structure Valid (l : List Vma) : Prop where
  ordered : Ordered Vma.seg l
  ok : ∀ v ∈ l, v.Ok

namespace Valid

theorem nil : Valid [] := ⟨List.Pairwise.nil, nofun⟩

variable (h : Valid (v :: l))

include h

theorem of_cons : Valid l :=
  ⟨(pairwise_cons.mp h.ordered).2, fun w hw => h.ok w (mem_cons_of_mem v hw)⟩

theorem head : v.Ok := h.ok v mem_cons_self

/-- The nodes after the first one start where it ends, or later. -/
theorem head_le : ∀ w ∈ l, v.stop ≤ w.start := (pairwise_cons.mp h.ordered).1

theorem not_has (hw : w ∈ l) (hv : v.seg.Has x) : ¬ w.seg.Has x :=
  fun hwx => not_lt.mpr ((h.head_le w hw).trans hwx.1) hv.2

theorem rest_le (hx : x ≤ v.stop) : ∀ w ∈ l, x ≤ w.start := fun w hw => le_trans hx (h.head_le w hw)

omit h

theorem cons (hv : v.Ok) (hle : ∀ w ∈ l, v.stop ≤ w.start) (hl : Valid l) : Valid (v :: l) := by
  refine ⟨pairwise_cons.mpr ⟨hle, hl.ordered⟩, fun w hw => ?_⟩
  rcases mem_cons.mp hw with rfl | hw
  · exact hv
  · exact hl.ok w hw

theorem flatMap {g : Vma → List Vma} (h : Valid l) (hin : ∀ v ∈ l, ∀ p ∈ g v, p.seg.Within v.seg)
    (hg : ∀ v ∈ l, Valid (g v)) : Valid (l.flatMap g) := by
  refine ⟨h.ordered.flatMap hin fun v hv => (hg v hv).ordered, fun p hp => ?_⟩
  obtain ⟨v, hv, hpv⟩ := mem_flatMap.mp hp
  exact (hg v hv).ok p hpv

end Valid

theorem Valid.single (hv : v.Ok) : Valid [v] := Valid.cons hv nofun Valid.nil

/-- One piece of a node. -/
theorem Vma.Ok.piece (hp : p.Ok) (hin : p.seg.Within v.seg) :
    Valid [p] ∧ ∀ q ∈ [p], q.seg.Within v.seg :=
  ⟨Valid.single hp, fun _ hq => mem_singleton.mp hq ▸ hin⟩

/-- Two pieces of a node. -/
theorem Vma.Ok.pieces {q : Vma} (hp : p.Ok) (hq : q.Ok) (hle : p.stop ≤ q.start)
    (hpin : p.seg.Within v.seg)
    (hqin : q.seg.Within v.seg) : Valid [p, q] ∧ ∀ s ∈ [p, q], s.seg.Within v.seg :=
  ⟨Valid.cons hp (fun _ hw => mem_singleton.mp hw ▸ hle) (Valid.single hq),
    forall_mem_cons.mpr ⟨hpin, fun _ hs => mem_singleton.mp hs ▸ hqin⟩⟩

/-- The walk of `vma_find` finds the node that has the address. -/
theorem vmaFind_eq (h : Valid l) (addr : Nat) : vmaFind l addr = find Vma.seg l addr := by
  fun_induction vmaFind l addr with
  | case1 => rfl
  | case2 v l addr hstart hstop => rw [find_cons_of_has (show v.seg.Has addr from ⟨hstart, hstop⟩)]
  | case3 v l addr hstart hstop ih =>
    rw [find_cons_of_not_has fun hhas : v.seg.Has addr => hstop hhas.2]
    exact ih h.of_cons
  | case4 v l addr hstart =>
    -- the list is sorted: no later node starts at or below the address
    refine (find_eq_none.mpr fun w hw hhas => ?_).symm
    have hlo : w.start ≤ addr := hhas.1
    rcases mem_cons.mp hw with rfl | hw
    · exact hstart hlo
    have hle := h.head_le w hw
    have hlt := h.head.lt
    omega

/-! ## Merging -/

theorem joins_of_canMerge (h : vmaCanMerge v n = true) :
    Segment.Joins { v with stop := n.stop }.seg v.seg n.seg := by
  obtain ⟨htouch, hvf, hnf, hprot, hflags⟩ := of_decide_eq_true h
  refine ⟨rfl, rfl, htouch, fun _ _ => rfl, fun a _ => ?_⟩
  show v.attrAt a = n.attrAt a
  unfold Vma.attrAt
  rw [hvf, hnf, hprot, hflags]
  rfl

theorem Vma.Ok.merge (hv : v.Ok) (hn : n.Ok) (h : vmaCanMerge v n = true) :
    { v with stop := n.stop }.Ok := by
  have htouch : v.stop = n.start := (of_decide_eq_true h).1
  refine ⟨?_, hv.start_dvd, hn.stop_dvd⟩
  show v.start < n.stop
  have := hv.lt
  have := hn.lt
  omega

theorem Valid.merge (h : Valid (v :: n :: l)) (hm : vmaCanMerge v n = true) :
    Valid ({ v with stop := n.stop } :: l) := by
  refine ⟨h.ordered.join (joins_of_canMerge hm), fun w hw => ?_⟩
  rcases mem_cons.mp hw with rfl | hw
  · exact h.head.merge h.of_cons.head hm
  · exact h.of_cons.of_cons.ok w hw

theorem lookup_merge (h : Valid (v :: n :: l)) (hm : vmaCanMerge v n = true) (addr : Nat) :
    lookup Vma.seg ({ v with stop := n.stop } :: l) addr = lookup Vma.seg (v :: n :: l) addr :=
  lookup_join (joins_of_canMerge hm) (le_of_lt h.head.lt) (le_of_lt h.of_cons.head.lt) addr

/-- No node of the merged list starts before the first one did. -/
theorem start_le_of_mem_mergeInto (h : Valid (v :: l)) :
    ∀ w ∈ mergeInto v l, v.start ≤ w.start := by
  intro w hw
  fun_induction mergeInto v l with
  | case1 v => rw [mem_singleton.mp hw]
  | case2 v n l hm ih => exact ih (h.merge hm) hw
  | case3 v n l hm ih =>
    rcases mem_cons.mp hw with rfl | hw
    · exact le_rfl
    have hn := ih h.of_cons hw
    have hle := h.head_le n mem_cons_self
    have hlt := h.head.lt
    omega

theorem Valid.mergeInto (h : Valid (v :: l)) : Valid (mergeInto v l) := by
  fun_induction Vm.mergeInto v l with
  | case1 => exact h
  | case2 v n l hm ih => exact ih (h.merge hm)
  | case3 v n l hm ih =>
    refine Valid.cons h.head (fun w hw => ?_) (ih h.of_cons)
    exact le_trans (h.head_le n mem_cons_self) (start_le_of_mem_mergeInto h.of_cons w hw)

theorem lookup_mergeInto (h : Valid (v :: l)) (addr : Nat) :
    lookup Vma.seg (mergeInto v l) addr = lookup Vma.seg (v :: l) addr := by
  fun_induction mergeInto v l with
  | case1 => rfl
  | case2 v n l hm ih => rw [ih (h.merge hm), lookup_merge h hm]
  | case3 v n l hm ih => rw [lookup_cons, lookup_cons, ih h.of_cons]

theorem Valid.vmaMergeAll (h : Valid l) : Valid (vmaMergeAll l) := by
  cases l with
  | nil => exact h
  | cons v l => exact h.mergeInto

/-- **Merging never changes the map.** -/
theorem lookup_vmaMergeAll (h : Valid l) (addr : Nat) :
    lookup Vma.seg (vmaMergeAll l) addr = lookup Vma.seg l addr := by
  cases l with
  | nil => rfl
  | cons v l => exact lookup_mergeInto h addr

/-! ## Inserting -/

/-- No node of the list meets the new one. -/
def FreeFor (l : List Vma) (v : Vma) : Prop := ∀ w ∈ l, w.stop ≤ v.start ∨ v.stop ≤ w.start

section Insert

variable {before after : List Vma}

theorem Valid.mergeSucc (h : Valid (v :: l)) : Valid (mergeSucc v l) := by
  cases l with
  | nil => exact h
  | cons n l =>
    simp only [Vm.mergeSucc]
    split
    · next hm => exact h.merge hm
    · exact h

theorem lookup_mergeSucc (h : Valid (v :: l)) (addr : Nat) :
    lookup Vma.seg (mergeSucc v l) addr = lookup Vma.seg (v :: l) addr := by
  cases l with
  | nil => rfl
  | cons n l =>
    simp only [mergeSucc]
    split
    · next hm => exact lookup_merge h hm addr
    · rfl

theorem Valid.append_iff : Valid (before ++ after) ↔
    Valid before ∧ Valid after ∧ ∀ v ∈ before, ∀ w ∈ after, v.stop ≤ w.start := by
  constructor
  · rintro ⟨hord, hok⟩
    obtain ⟨hb, ha, hcross⟩ := pairwise_append.mp hord
    exact ⟨⟨hb, fun v hv => hok v (mem_append_left _ hv)⟩,
      ⟨ha, fun v hv => hok v (mem_append_right _ hv)⟩, hcross⟩
  · rintro ⟨hb, ha, hcross⟩
    refine ⟨pairwise_append.mpr ⟨hb.ordered, ha.ordered, hcross⟩, fun v hv => ?_⟩
    exact (mem_append.mp hv).elim (hb.ok v) (ha.ok v)

/-- The predecessor takes the new node in, or it does not: the list is as good, and its map is the
same. -/
theorem mergePred_spec (h : Valid (before ++ after)) :
    Valid (mergePred before after) ∧
      ∀ addr, lookup Vma.seg (mergePred before after) addr =
        lookup Vma.seg (before ++ after) addr := by
  cases after with
  | nil =>
    rw [append_nil] at h ⊢
    exact ⟨h, fun _ => rfl⟩
  | cons v rest =>
    simp only [mergePred]
    split
    · next prev hlast =>
      obtain ⟨init, rfl⟩ := getLast?_eq_some_iff.mp hlast
      split
      · next hm =>
        rw [append_assoc] at h
        obtain ⟨hinit, hpair, hcross⟩ := Valid.append_iff.mp h
        have hmerged := Valid.merge hpair hm
        rw [dropLast_concat]
        refine ⟨Valid.append_iff.mpr ⟨hinit, hmerged, fun w hw u hu => ?_⟩, fun addr => ?_⟩
        · rcases mem_cons.mp hu with rfl | hu
          · exact hcross w hw prev mem_cons_self
          · exact hcross w hw u (mem_cons_of_mem _ (mem_cons_of_mem _ hu))
        · rw [append_assoc, lookup_append, lookup_append, lookup_merge hpair hm]
          rfl
      · exact ⟨h, fun _ => rfl⟩
    · next hlast =>
      rw [getLast?_eq_none_iff.mp hlast] at h ⊢
      exact ⟨h, fun _ => rfl⟩

/-- The nodes that start before a free range end before it. -/
theorem takeWhile_stop_le (hfree : FreeFor l v) (hv : v.start < v.stop) :
    ∀ w ∈ l.takeWhile (·.start < v.start), w.stop ≤ v.start := by
  intro w hw
  have hlt : w.start < v.start := by simpa using mem_takeWhile_imp hw
  rcases hfree w (takeWhile_sublist _ |>.subset hw) with hle | hle <;> omega

/-- The others start after it. -/
theorem le_dropWhile_start (h : Valid l) (hfree : FreeFor l v) :
    ∀ w ∈ l.dropWhile (·.start < v.start), v.stop ≤ w.start := by
  intro w hw
  have hmem := dropWhile_sublist (p := fun w : Vma => decide (w.start < v.start)) |>.subset hw
  have hge : v.start ≤ w.start := by
    induction l with
    | nil => cases hw
    | cons u l ih =>
      rw [dropWhile_cons] at hw
      split at hw
      · next hu =>
        refine ih h.of_cons (fun w hw => hfree w (mem_cons_of_mem u hw)) hw ?_
        exact dropWhile_sublist _ |>.subset hw
      · next hu =>
        have hu : v.start ≤ u.start := by simpa using hu
        rcases mem_cons.mp hw with rfl | hw
        · exact hu
        have := h.head_le w hw
        have := h.head.lt
        omega
  have hlt := (h.ok w hmem).lt
  rcases hfree w hmem with hle | hle <;> omega

theorem vmaInsert_spec {o : Owner} (h : Valid o.vmas) (hv : v.Ok) (hfree : FreeFor o.vmas v) :
    Valid (vmaInsert o v).vmas ∧
      ∀ addr, lookup Vma.seg (vmaInsert o v).vmas addr =
        if v.seg.Has addr then some (v.attrAt addr) else lookup Vma.seg o.vmas addr := by
  have hbefore := takeWhile_stop_le hfree hv.lt
  have hafter := le_dropWhile_start h hfree
  have hsplit : o.vmas.takeWhile (·.start < v.start) ++ o.vmas.dropWhile (·.start < v.start) =
      o.vmas :=
    takeWhile_append_dropWhile
  show Valid (mergePred _ (mergeSucc v _)) ∧ ∀ addr,
    lookup Vma.seg (mergePred _ (mergeSucc v _)) addr = _
  generalize o.vmas.takeWhile (·.start < v.start) = before at *
  generalize o.vmas.dropWhile (·.start < v.start) = after at *
  rw [← hsplit] at h ⊢
  obtain ⟨hb, ha, hcross⟩ := Valid.append_iff.mp h
  have hva : Valid (v :: after) := Valid.cons hv hafter ha
  have hsucc : ∀ w ∈ mergeSucc v after, v.start ≤ w.start := by
    intro w hw
    cases after with
    | nil => rw [mem_singleton.mp hw]
    | cons n rest =>
      have hrest : ∀ u ∈ n :: rest, v.start ≤ u.start := fun u hu => by
        have := hafter u hu
        have := hv.lt
        omega
      simp only [mergeSucc] at hw
      split at hw
      · rcases mem_cons.mp hw with rfl | hw
        · exact le_rfl
        · exact hrest w (mem_cons_of_mem n hw)
      · rcases mem_cons.mp hw with rfl | hw
        · exact le_rfl
        · exact hrest w hw
  have hwhole : Valid (before ++ mergeSucc v after) := Valid.append_iff.mpr
    ⟨hb, hva.mergeSucc, fun w hw u hu => le_trans (hbefore w hw) (hsucc u hu)⟩
  obtain ⟨hvalid, hmap⟩ := mergePred_spec hwhole
  refine ⟨hvalid, fun addr => ?_⟩
  rw [hmap, lookup_append, lookup_mergeSucc hva, ← lookup_append]
  exact lookup_insert hbefore addr

end Insert

/-! ## Removing a range -/

/-- A range of whole pages. -/
structure PageRange where
  start : Nat
  stop : Nat
  lt : start < stop
  start_dvd : pageSize ∣ start
  stop_dvd : pageSize ∣ stop

/-- What `vma_remove_range` leaves of a node, if the allocation for a split does (`ok`) or does not
succeed. -/
def Vma.cut (ok : Bool) (start stop : Nat) (v : Vma) : List Vma :=
  if v.stop ≤ start ∨ stop ≤ v.start then [v]
  else if start ≤ v.start ∧ v.stop ≤ stop then []
  else if v.start < start ∧
    stop < v.stop then { v with stop := start } :: (if ok then [v.tail stop] else [])
  else if v.start < start then [{ v with stop := start }]
  else [v.trimLeft stop]

section Remove

variable {ok : Bool} (r : PageRange)

theorem Vma.cut_of_apart (h : v.stop ≤ start ∨ stop ≤ v.start) : v.cut ok start stop = [v] :=
  if_pos h

theorem flatMap_cut_of_le (h : ∀ v ∈ l, stop ≤ v.start) : l.flatMap (Vma.cut ok start stop) = l :=
  (flatMap_congr fun v hv => Vma.cut_of_apart (Or.inr (h v hv))).trans (flatMap_singleton' l)

/-- **One call of `vma_remove_range` splits at most one node**, so one answer of the heap decides
what is left. -/
theorem removeFrom_eq (h : Valid l) (m : Kmem) :
    (removeFrom start stop l m).1 = l.flatMap (Vma.cut (kmalloc m).1 start stop) := by
  induction l with
  | nil => rfl
  | cons v l ih =>
    have hih := ih h.of_cons
    have hv := h.head.lt
    rw [flatMap_cons]
    unfold removeFrom
    by_cases hafter : stop ≤ v.start
    · have hrest := h.rest_le (show stop ≤ v.stop by omega)
      rw [if_pos hafter, Vma.cut_of_apart (Or.inr hafter), flatMap_cut_of_le hrest]
      rfl
    rw [if_neg hafter]
    by_cases hbefore : v.stop ≤ start
    · rw [if_pos hbefore, Vma.cut_of_apart (Or.inl hbefore), ← hih]
      rfl
    have hmeets : ¬ (v.stop ≤ start ∨ stop ≤ v.start) := by omega
    rw [if_neg hbefore, Vma.cut, if_neg hmeets]
    by_cases hcovered : start ≤ v.start ∧ v.stop ≤ stop
    · rw [if_pos hcovered, if_pos hcovered]
      exact hih
    rw [if_neg hcovered, if_neg hcovered]
    by_cases hsplit : v.start < start ∧ stop < v.stop
    · rw [if_pos hsplit, if_pos hsplit, Vma.allocTail_eq]
      have hrest := h.rest_le (le_of_lt hsplit.2)
      rw [flatMap_cut_of_le hrest]
      cases (kmalloc m).1 with
      | true => rfl
      | false =>
        -- the walk goes on, and finds nothing more that meets the range
        cases l with
        | nil => rfl
        | cons w l => simp [removeFrom, hrest w mem_cons_self]
    rw [if_neg hsplit, if_neg hsplit]
    by_cases hleft : v.start < start
    · rw [if_pos hleft, if_pos hleft, ← hih]
      rfl
    · rw [if_neg hleft, if_neg hleft, ← hih]
      rfl

/-- What is left of a node is a valid list inside it. -/
theorem Vma.cut_valid (hv : v.Ok) :
    Valid (v.cut ok r.start r.stop) ∧ ∀ p ∈ v.cut ok r.start r.stop, p.seg.Within v.seg := by
  have hlt := r.lt
  unfold Vma.cut
  split
  · exact hv.piece (Segment.Within.refl _)
  next hmeets =>
  split
  · exact ⟨Valid.nil, nofun⟩
  next hcovered =>
  split
  · next hsplit =>
    have hleft : { v with stop := r.start }.Ok := hv.upto hsplit.1 r.start_dvd
    have hleftIn : { v with stop := r.start }.seg.Within v.seg :=
      ⟨le_rfl, by show r.start ≤ v.stop; omega⟩
    cases ok with
    | false => exact hleft.piece hleftIn
    | true =>
      have hright : (v.tail r.stop).Ok := hv.tail hsplit.2 r.stop_dvd
      exact hleft.pieces hright (le_of_lt hlt) hleftIn ⟨by show v.start ≤ r.stop; omega, le_rfl⟩
  next hsplit =>
  split
  · next hleft => exact (hv.upto hleft r.start_dvd).piece ⟨le_rfl, by show r.start ≤ v.stop; omega⟩
  · next hleft => exact (hv.trimLeft (by omega) r.stop_dvd).piece ⟨by show v.start ≤ r.stop; omega,
      le_rfl⟩

/-- The map of what is left of a node. A failed split loses what was after the range. -/
theorem Vma.lookup_cut (hhas : v.seg.Has addr) :
    lookup Vma.seg (v.cut ok r.start r.stop) addr =
      if r.start ≤ addr ∧ (addr < r.stop ∨ ok = false ∧ v.start < r.start ∧ r.stop < v.stop) then
        none
      else some (v.attrAt addr) := by
  obtain ⟨hlo, hhi⟩ : v.start ≤ addr ∧ addr < v.stop := hhas
  have hlt := r.lt
  unfold Vma.cut
  split
  · next hapart =>
    rw [lookup_cons_of_has ⟨hlo, hhi⟩, if_neg (by omega)]
    rfl
  next hmeets =>
  split
  · next hcovered => rw [lookup_nil, if_pos (by omega)]
  next hcovered =>
  split
  · next hsplit =>
    rw [lookup_upto_cons]
    cases ok with
    | false =>
      simp only [Bool.false_eq_true, reduceIte, lookup_nil, true_and]
      split_ifs <;> first | rfl | omega
    | true =>
      simp only [reduceIte, lookup_tail_cons (show v.start ≤ r.stop by omega), lookup_nil,
        Bool.true_eq_false, false_and, or_false]
      split_ifs <;> first | rfl | omega
  next hsplit =>
  split
  · rw [lookup_upto_cons, lookup_nil]
    split_ifs <;> first | rfl | omega
  · rw [lookup_cons, Vma.seg_trimLeft, ← lookup_cons, lookup_tail_cons (by omega), lookup_nil]
    split_ifs <;> first | rfl | omega

/-- A node reaches past the range on both sides. -/
def Spans (l : List Vma) (start stop : Nat) : Prop := ∃ v ∈ l, v.start < start ∧ stop < v.stop

/-- The addresses `vma_remove_range` takes out of the map: those of the range, and those after it in
a node that spans the range and could not be split. -/
def Removed (l : List Vma) (ok : Bool) (start stop addr : Nat) : Prop :=
  start ≤ addr ∧ (addr < stop ∨ ok = false ∧ ∃ v ∈ l, v.seg.Has addr ∧ v.start < start ∧
    stop < v.stop)

instance (ok : Bool) : Decidable (Removed l ok start stop addr) :=
  inferInstanceAs (Decidable (_ ∧ _))

theorem lookup_removeFrom (h : Valid l) (m : Kmem) (addr : Nat) :
    lookup Vma.seg (removeFrom r.start r.stop l m).1 addr =
      if Removed l (kmalloc m).1 r.start r.stop addr then none else lookup Vma.seg l addr := by
  rw [removeFrom_eq h, lookup_flatMap h.ordered fun v hv => (Vma.cut_valid r (h.ok v hv)).2]
  cases hfind : find Vma.seg l addr with
  | none =>
    have hnone : lookup Vma.seg l addr = none := lookup_eq_none.mpr (find_eq_none.mp hfind)
    rw [hnone, ite_self]
    rfl
  | some v =>
    have hhas := has_of_find hfind
    have hmem := mem_of_find hfind
    rw [lookup_of_find hfind, Option.bind_some, Vma.lookup_cut r hhas]
    refine if_congr ?_ rfl rfl
    refine and_congr_right fun _ => or_congr_right (and_congr_right fun _ => ?_)
    constructor
    · exact fun hspan => ⟨v, hmem, hhas, hspan⟩
    · rintro ⟨w, hw, hwhas, hspan⟩
      rwa [h.ordered.unique hmem hw hhas hwhas]

theorem Valid.removeFrom (h : Valid l) (m : Kmem) : Valid (removeFrom r.start r.stop l m).1 := by
  rw [removeFrom_eq h]
  exact h.flatMap (fun v hv => (Vma.cut_valid r (h.ok v hv)).2)
    fun v hv => (Vma.cut_valid r (h.ok v hv)).1

end Remove

/-! ## Changing the protection of a range -/

/-- What becomes of a node that does not start before the range. -/
def Vma.recolourHead (ok : Bool) (stop : Nat) (prot : Prot) (v : Vma) : List Vma :=
  if stop < v.stop then
    if ok then [{ v with stop := stop, prot := prot }, v.tail stop] else [{ v with prot }]
  else [{ v with prot }]

/-- What `vma_protect_range` makes of a node, if the allocations at its left and its right edge do
or do not succeed. -/
def Vma.recolour (okL okR : Bool) (start stop : Nat) (prot : Prot) (v : Vma) : List Vma :=
  if v.stop ≤ start ∨ stop ≤ v.start ∨ v.prot = prot then [v]
  else if v.start < start then
    if okL then { v with stop := start } :: (v.tail start).recolourHead okR stop prot
      else [{ v with prot }]
  else v.recolourHead okR stop prot

/-- A node whose protection changes has the address in its inside: it has to be split there. -/
def Straddles (l : List Vma) (x : Nat) (prot : Prot) : Prop :=
  ∃ v ∈ l, v.start < x ∧ x < v.stop ∧ v.prot ≠ prot

instance : Decidable (Straddles l x prot) := inferInstanceAs (Decidable (∃ v ∈ l, _))

/-- The answer of the heap to the split at the right edge of the range: there may be one at the left
edge before. -/
def rightOk (l : List Vma) (m : Kmem) (start : Nat) (prot : Prot) : Bool :=
  if Straddles l start prot then (kmalloc (kmalloc m).2).1 else (kmalloc m).1

section Protect

variable {okL okR : Bool} (r : PageRange)

theorem straddles_cons : Straddles (v :: l) x prot ↔ (v.start < x ∧ x < v.stop ∧ v.prot ≠ prot) ∨
    Straddles l x prot := by
  simp [Straddles]

theorem not_straddles_of_le (h : ∀ v ∈ l, x ≤ v.start) : ¬ Straddles l x prot := by
  rintro ⟨v, hv, hlt, -⟩
  exact not_lt.mpr (h v hv) hlt

theorem flatMap_recolour_of_le (h : ∀ v ∈ l, stop ≤ v.start) :
    l.flatMap (Vma.recolour okL okR start stop prot) = l :=
  (flatMap_congr fun v hv => if_pos (Or.inr (Or.inl (h v hv)))).trans (flatMap_singleton' l)

theorem protectFrom_of_le (h : ∀ v ∈ l, stop ≤ v.start) (m : Kmem) :
    (protectFrom start stop prot l m).1 = l := by
  cases l with
  | nil => rfl
  | cons v l => simp [protectFrom, h v mem_cons_self]

/-- The second half of a step: the pieces of the node, and then the rest. -/
theorem protectHead_eq {next : Kmem → List Vma × Kmem} {ce : Nat} (hce : ce = min v.stop stop)
    (hnext : stop < v.stop → ∀ m, (next m).1 = l) (m : Kmem) :
    (protectHead ce prot v l next m).1 = v.recolourHead (kmalloc m).1 stop prot ++ (next m).1 := by
  unfold protectHead Vma.recolourHead
  by_cases hright : stop < v.stop
  · have hstop : ce = stop := by omega
    rw [if_pos (by omega), if_pos hright, Vma.allocTail_eq, hstop, hnext hright]
    cases (kmalloc m).1 with
    | true => rfl
    | false => simp [hnext hright]
  · rw [if_neg (by omega), if_neg hright]
    rfl

/-- **One call of `vma_protect_range` splits at most at the two edges of the range**, so two answers
of the heap decide what becomes of each node. -/
theorem protectFrom_eq (h : Valid l) (m : Kmem) :
    (protectFrom start stop prot l m).1 =
      l.flatMap (Vma.recolour (kmalloc m).1 (rightOk l m start prot) start stop prot) := by
  induction l generalizing m with
  | nil => rfl
  | cons v l ih =>
    have hv := h.head.lt
    rw [flatMap_cons]
    unfold protectFrom
    by_cases hafter : stop ≤ v.start
    · have hrest := h.rest_le (show stop ≤ v.stop by omega)
      rw [if_pos hafter, Vma.recolour, if_pos (Or.inr (Or.inl hafter)),
        flatMap_recolour_of_le hrest]
      rfl
    rw [if_neg hafter]
    by_cases hskip : v.stop ≤ start ∨ v.prot = prot
    · -- nothing to do: no allocation, and the node is not one that has to be split
      have hright : rightOk (v :: l) m start prot = rightOk l m start prot := by
        have hnot : ¬ (v.start < start ∧ start < v.stop ∧ v.prot ≠ prot) := fun hs =>
          hskip.elim (fun h => not_lt.mpr h hs.2.1) hs.2.2
        exact ite_congr (propext (straddles_cons.trans (or_iff_right hnot))) (fun _ => rfl) fun _ =>
          rfl
      have hkeep : ∀ okL okR, v.recolour okL okR start stop prot = [v] := fun _ _ =>
        if_pos (hskip.elim Or.inl (Or.inr ∘ Or.inr))
      rw [if_pos hskip, hkeep, hright, ← ih h.of_cons]
      rfl
    obtain ⟨hmeets, hprot⟩ := not_or.mp hskip
    have hdiffers : ¬ (v.stop ≤ start ∨ stop ≤ v.start ∨ v.prot = prot) := by
      rintro (h | h | h)
      · exact hmeets h
      · exact hafter h
      · exact hprot h
    have hrestStart := h.rest_le (le_of_not_ge hmeets)
    have hrestStop : stop < v.stop → ∀ w ∈ l, stop ≤ w.start := fun hlt => h.rest_le (le_of_lt hlt)
    -- the walk over the rest, which has no node to split at the left edge
    have hnext : ∀ m okL, (protectFrom start stop prot l m).1 =
        l.flatMap (Vma.recolour okL (kmalloc m).1 start stop prot) := fun m okL => by
      rw [ih h.of_cons, rightOk, if_neg (not_straddles_of_le hrestStart)]
      -- the left answer does not matter to its nodes
      refine flatMap_congr fun w hw => ?_
      have hle := not_lt.mpr (hrestStart w hw)
      rw [Vma.recolour, Vma.recolour, if_neg hle, if_neg hle]
    rw [if_neg hskip, Vma.recolour, if_neg hdiffers]
    by_cases hleft : v.start < start
    · have hcs : max v.start start = start := by omega
      have hstr : Straddles (v :: l) start prot :=
        straddles_cons.mpr (Or.inl ⟨hleft, by omega, hprot⟩)
      rw [if_pos (by omega), if_pos hleft, Vma.allocTail_eq, hcs, rightOk, if_pos hstr]
      cases (kmalloc m).1 with
      | true =>
        show { v with stop := start } :: (protectHead _ prot (v.tail start) l _ _).1 = _
        have hce : min v.stop stop = min (v.tail start).stop stop := rfl
        rw [protectHead_eq hce fun hlt m => protectFrom_of_le (hrestStop hlt) m, hnext _ true]
        rfl
      | false =>
        show { v with prot } :: (protectFrom start stop prot l _).1 = _
        rw [hnext _ false]
        rfl
    · dsimp only
      rw [if_neg (by omega), if_neg hleft, protectHead_eq rfl fun hlt m =>
        protectFrom_of_le (hrestStop hlt) m, rightOk, if_neg, hnext m (kmalloc m).1]
      refine not_straddles_of_le fun w hw => ?_
      rcases mem_cons.mp hw with rfl | hw
      · exact not_lt.mp hleft
      · exact hrestStart w hw

theorem Vma.recolourHead_valid (hv : v.Ok) (hlt : v.start < stop) (hstop : pageSize ∣ stop) :
    Valid (v.recolourHead okR stop prot) ∧ ∀ p ∈ v.recolourHead okR stop prot,
      p.seg.Within v.seg := by
  have hsame : Valid [{ v with prot }] ∧ ∀ p ∈ [{ v with prot }], p.seg.Within v.seg :=
    (hv.recolour prot).piece (Segment.Within.refl v.seg)
  unfold Vma.recolourHead
  split
  · next hright =>
    cases okR with
    | false => exact hsame
    | true =>
      have htail : (v.tail stop).Ok := hv.tail hright hstop
      exact ((hv.recolour prot).upto hlt hstop).pieces htail le_rfl ⟨le_rfl, le_of_lt hright⟩
        ⟨le_of_lt hlt, le_rfl⟩
  · exact hsame

theorem Vma.recolour_valid (hv : v.Ok) :
    Valid (v.recolour okL okR r.start r.stop prot) ∧ ∀ p ∈ v.recolour okL okR r.start r.stop prot,
      p.seg.Within v.seg := by
  unfold Vma.recolour
  split
  · exact hv.piece (Segment.Within.refl _)
  next hdiffers =>
  rw [not_or, not_or] at hdiffers
  obtain ⟨hmeets, hafter, -⟩ := hdiffers
  split
  · next hleft =>
    split
    · have htail : (v.tail r.start).Ok := hv.tail (by omega) r.start_dvd
      have hpieces : Valid ((v.tail r.start).recolourHead okR r.stop prot) ∧
          ∀ p ∈ (v.tail r.start).recolourHead okR r.stop prot, r.start ≤ p.start ∧
            p.stop ≤ v.stop :=
        Vma.recolourHead_valid htail r.lt r.stop_dvd
      obtain ⟨hvalid, hinside⟩ := hpieces
      refine ⟨Valid.cons (hv.upto hleft r.start_dvd) (fun w hw => (hinside w hw).1) hvalid,
        fun p hp => ?_⟩
      rcases mem_cons.mp hp with rfl | hp
      · exact ⟨le_rfl, by show r.start ≤ v.stop; omega⟩
      · exact ⟨le_trans (le_of_lt hleft) (hinside p hp).1, (hinside p hp).2⟩
    · exact (hv.recolour prot).piece (Segment.Within.refl v.seg)
  · exact Vma.recolourHead_valid hv (by omega) r.stop_dvd

theorem Vma.lookup_recolourHead (hlt : v.start < stop) (hhas : v.seg.Has addr) :
    lookup Vma.seg (v.recolourHead okR stop prot) addr =
      some (if addr < stop ∨ stop < v.stop ∧ okR = false then { v.attrAt addr with prot }
        else v.attrAt addr) := by
  obtain ⟨hlo, hhi⟩ : v.start ≤ addr ∧ addr < v.stop := hhas
  have hsame : lookup Vma.seg [{ v with prot }] addr = some { v.attrAt addr with prot } :=
    lookup_cons_of_has (show Segment.Has { v with prot }.seg addr from ⟨hlo, hhi⟩)
  unfold Vma.recolourHead
  split
  · next hright =>
    cases okR with
    | false => rw [if_neg Bool.false_ne_true, hsame, if_pos (Or.inr ⟨hright, rfl⟩)]
    | true =>
      simp only [reduceIte, lookup_recolour_cons, lookup_tail_cons (le_of_lt hlt), lookup_nil,
        Bool.true_eq_false, and_false, or_false]
      split_ifs <;> first | rfl | omega
  · rw [hsame, if_pos (Or.inl (by omega))]

/-- The addresses of a node that get the new protection. A failed split at the left edge changes the
whole node, one at the right edge all of it from the range on. -/
def Vma.Repainted (v : Vma) (okL okR : Bool) (start stop addr : Nat) : Prop :=
  start < v.stop ∧ v.start < stop ∧
    (v.start < start ∧ okL = false ∨ start ≤ addr ∧ (addr < stop ∨ stop < v.stop ∧ okR = false))

instance : Decidable (v.Repainted okL okR start stop addr) := inferInstanceAs (Decidable (_ ∧ _))

theorem Vma.lookup_recolour (hhas : v.seg.Has addr) :
    lookup Vma.seg (v.recolour okL okR r.start r.stop prot) addr =
      some (if v.Repainted okL okR r.start r.stop addr then { v.attrAt addr with prot }
        else v.attrAt addr) := by
  obtain ⟨hlo, hhi⟩ : v.start ≤ addr ∧ addr < v.stop := hhas
  have hlt := r.lt
  unfold Vma.recolour
  split
  · next hskip =>
    rw [lookup_cons_of_has ⟨hlo, hhi⟩]
    split
    · next hpaint =>
      have hprot : v.prot = prot := by
        rcases hskip with h | h | h
        · exact absurd hpaint.1 (not_lt.mpr h)
        · exact absurd hpaint.2.1 (not_lt.mpr h)
        · exact h
      rw [← hprot]
      rfl
    · rfl
  next hdiffers =>
  rw [not_or, not_or] at hdiffers
  obtain ⟨hmeets, hafter, -⟩ := hdiffers
  have hpaint : v.Repainted okL okR r.start r.stop addr ↔
      v.start < r.start ∧ okL = false ∨ r.start ≤ addr ∧
        (addr < r.stop ∨ r.stop < v.stop ∧ okR = false) :=
    ⟨fun h => h.2.2, fun h => ⟨not_le.mp hmeets, not_le.mp hafter, h⟩⟩
  simp only [hpaint]
  split
  · next hleft =>
    cases okL with
    | false =>
      rw [if_neg Bool.false_ne_true, if_pos (Or.inl ⟨hleft, rfl⟩)]
      exact lookup_cons_of_has (show Segment.Has { v with prot }.seg addr from ⟨hlo, hhi⟩)
    | true =>
      rw [if_pos rfl, lookup_upto_cons]
      simp only [Bool.true_eq_false, and_false, false_or]
      split
      · next hin => rw [if_neg fun h => not_lt.mpr h.1 hin.2]
      next hin =>
      have hge : r.start ≤ addr := by omega
      rw [Vma.lookup_recolourHead hlt (show (v.tail r.start).seg.Has addr from ⟨hge, hhi⟩),
        Vma.attrAt_tail (le_of_lt hleft) hge]
      simp only [hge, true_and]
      rfl
  · next hleft =>
    rw [Vma.lookup_recolourHead (by omega) (show v.seg.Has addr from ⟨hlo, hhi⟩)]
    have hge : r.start ≤ addr := by omega
    simp only [hleft, hge, false_and, false_or, true_and]

/-- The addresses whose protection `vma_protect_range` sets. -/
def Repainted (l : List Vma) (okL okR : Bool) (start stop addr : Nat) : Prop :=
  ∃ v ∈ l, v.seg.Has addr ∧ v.Repainted okL okR start stop addr

instance : Decidable (Repainted l okL okR start stop addr) :=
  inferInstanceAs (Decidable (∃ v ∈ l, _))

theorem lookup_protectFrom (h : Valid l) (m : Kmem) (addr : Nat) :
    lookup Vma.seg (protectFrom r.start r.stop prot l m).1 addr =
      (lookup Vma.seg l addr).map fun x =>
        if Repainted l (kmalloc m).1 (rightOk l m r.start prot) r.start r.stop addr
          then { x with prot } else x := by
  rw [protectFrom_eq h, lookup_flatMap h.ordered fun v hv => (Vma.recolour_valid r (h.ok v hv)).2]
  cases hfind : find Vma.seg l addr with
  | none =>
    rw [lookup_eq_none.mpr (find_eq_none.mp hfind)]
    rfl
  | some v =>
    have hhas := has_of_find hfind
    have hmem := mem_of_find hfind
    rw [lookup_of_find hfind, Option.bind_some, Vma.lookup_recolour r hhas, Option.map_some]
    refine congrArg some (if_congr ?_ rfl rfl)
    constructor
    · exact fun hpaint => ⟨v, hmem, hhas, hpaint⟩
    · rintro ⟨w, hw, hwhas, hpaint⟩
      rwa [h.ordered.unique hmem hw hhas hwhas]

theorem Valid.protectFrom (h : Valid l) (m : Kmem) :
    Valid (protectFrom r.start r.stop prot l m).1 := by
  rw [protectFrom_eq h]
  exact h.flatMap (fun v hv => (Vma.recolour_valid r (h.ok v hv)).2)
    fun v hv => (Vma.recolour_valid r (h.ok v hv)).1

end Protect

/-! ## The functions of the list -/

section Ranges

variable (r : PageRange)

theorem Valid.vmaRemoveRange (h : Valid l) (m : Kmem) :
    Valid (vmaRemoveRange l m r.start r.stop).1 := by
  rw [Vm.vmaRemoveRange, if_neg (not_le.mpr r.lt)]
  exact h.removeFrom r m

theorem lookup_vmaRemoveRange (h : Valid l) (m : Kmem) (addr : Nat) :
    lookup Vma.seg (vmaRemoveRange l m r.start r.stop).1 addr =
      if Removed l (kmalloc m).1 r.start r.stop addr then none else lookup Vma.seg l addr := by
  rw [vmaRemoveRange, if_neg (not_le.mpr r.lt)]
  exact lookup_removeFrom r h m addr

theorem Valid.vmaProtectRange (h : Valid l) (m : Kmem) (prot : Prot) :
    Valid (vmaProtectRange l m r.start r.stop prot).1 := by
  rw [Vm.vmaProtectRange, if_neg (not_le.mpr r.lt)]
  exact (h.protectFrom r m).vmaMergeAll

theorem lookup_vmaProtectRange (h : Valid l) (m : Kmem) (prot : Prot) (addr : Nat) :
    lookup Vma.seg (vmaProtectRange l m r.start r.stop prot).1 addr =
      (lookup Vma.seg l addr).map fun x =>
        if Repainted l (kmalloc m).1 (rightOk l m r.start prot) r.start r.stop addr
          then { x with prot } else x := by
  rw [vmaProtectRange, if_neg (not_le.mpr r.lt)]
  show lookup Vma.seg (vmaMergeAll _) addr = _
  rw [lookup_vmaMergeAll (h.protectFrom r m)]
  exact lookup_protectFrom r h m addr

end Ranges

end MaeroOS.Vm
