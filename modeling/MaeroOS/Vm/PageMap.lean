import MaeroOS.Vm.VmaMap

/-!
# The page map of an address space

What a VMA list is for: a partial map from page numbers to attributes. `PageMap` has the operations
as one would write them down, each changing the pages of its range and no other.
`vma_list_refines_page_map` is the refinement: a run of the list's functions in which no allocation
fails answers every search as the map does and ends in a list in order that stands for the map.
-/

namespace MaeroOS.Vm

open Lib Lib.Segments

/-- From page numbers to what is mapped there. -/
def PageMap := Nat → Option PageAttr

/-- The page is in the range. -/
def PageRange.Has (r : PageRange) (p : Nat) : Prop := r.start ≤ p * pageSize ∧ p * pageSize < r.stop

instance (r : PageRange) (p : Nat) : Decidable (r.Has p) := inferInstanceAs (Decidable (_ ∧ _))

/-- The map a list stands for. -/
def pageMap (l : List Vma) : PageMap := fun p => lookup Vma.seg l (p * pageSize)

/-- What is asked of a VMA list. -/
inductive VmaOp
  /-- `vma_add` of a range: its protection, flags and backing file, with the offset and the size of
  the file. -/
  | add (r : PageRange) (prot : Prot) (flags : VmaFlags) (file : Option Nat) (off size : BitVec 64)
  | remove (r : PageRange)
  | protect (r : PageRange) (prot : Prot)
  | mergeAll
  | find (addr : Nat)

/-- What a new mapping says of a page of its range. -/
def newAttr (r : PageRange) (prot : Prot) (flags : VmaFlags) (file : Option Nat)
    (off size : BitVec 64) (p : Nat) : PageAttr where
  prot := prot
  flags := flags
  backing := file.map fun f => ⟨f, off + BitVec.ofNat 64 (p * pageSize - r.start), size⟩

namespace PageMap

/-- The operations on the map. -/
def apply (M : PageMap) : VmaOp → Option PageAttr × PageMap
  | .add r prot flags file off size =>
      (none, fun p => if r.Has p then some (newAttr r prot flags file off size p) else M p)
  | .remove r => (none, fun p => if r.Has p then none else M p)
  | .protect r prot => (none, fun p => if r.Has p then (M p).map fun x => { x with prot } else M p)
  | .mergeAll => (none, M)
  | .find addr => (M (addr / pageSize), M)

end PageMap

/-- The functions of the list, each with a heap. A search answers with the attributes its node has
for the page. -/
def VmaOp.apply (o : Owner) : VmaOp × Kmem → Option PageAttr × Owner
  | (.add r prot flags file off size, m) =>
      (none, (vmaAdd o m r.start r.stop prot flags file off size).1.getD o)
  | (.remove r, m) => (none, { o with vmas := (vmaRemoveRange o.vmas m r.start r.stop).1 })
  | (.protect r prot, m) =>
      (none, { o with vmas := (vmaProtectRange o.vmas m r.start r.stop prot).1 })
  | (.mergeAll, _) => (none, { o with vmas := vmaMergeAll o.vmas })
  | (.find addr, _) => ((vmaFind o.vmas addr).map (·.attrAt (addr / pageSize * pageSize)), o)

/-- No allocation fails, and a new mapping goes where there is none. -/
def VmaOp.Fits (o : Owner) : VmaOp × Kmem → Prop
  | (.add r _ _ _ _ _, m) => m.Plenty ∧ ∀ p, r.Has p → pageMap o.vmas p = none
  | (_, m) => m.Plenty

variable {l : List Vma} {v : Vma} {m : Kmem} {o : Owner} {r : PageRange}

/-! ## One operation -/

/-- A node has an address if it has the first one of its page. -/
theorem Vma.Ok.has_page (h : v.Ok) (addr : Nat) : v.seg.Has (addr / pageSize * pageSize) ↔
    v.seg.Has addr := by
  obtain ⟨s, hs⟩ := h.start_dvd
  obtain ⟨t, ht⟩ := h.stop_dvd
  rw [Vma.has_iff, Vma.has_iff, hs, ht]
  unfold pageSize
  omega

theorem find_page (h : Valid l) (addr : Nat) :
    find Vma.seg l (addr / pageSize * pageSize) = find Vma.seg l addr :=
  find_congr fun v hv => (h.ok v hv).has_page addr

/-- Two ranges of whole pages without a common page are apart. -/
theorem freeFor_of_pages (h : Valid l) (hstart : v.start = r.start) (hstop : v.stop = r.stop)
    (hfree : ∀ p, r.Has p → pageMap l p = none) : FreeFor l v := by
  intro w hw
  by_contra hmeets
  obtain ⟨a, ha⟩ := (h.ok w hw).start_dvd
  obtain ⟨b, hb⟩ := r.start_dvd
  have hw' := (h.ok w hw).lt
  have hr := r.lt
  -- the later of the two starts is the address of a common page
  have hpage : max a b * pageSize = max w.start r.start := by
    rw [ha, hb, Nat.mul_max_mul_left, Nat.mul_comm]
  have hnone : lookup Vma.seg l (max a b * pageSize) = none :=
    hfree (max a b) ⟨by rw [hpage]; omega, by rw [hpage]; omega⟩
  exact lookup_eq_none.mp hnone w hw
    ⟨by rw [hpage]; exact le_max_left _ _, by rw [hpage]; show _ < w.stop; omega⟩

/-- `vma_insert` of a node for a range of pages that are free. -/
theorem vmaInsert_of_free (h : Valid o.vmas) (hstart : v.start = r.start) (hstop : v.stop = r.stop)
    (hfree : ∀ p, r.Has p → pageMap o.vmas p = none) :
    Valid (vmaInsert o v).vmas ∧
      ∀ addr, lookup Vma.seg (vmaInsert o v).vmas addr =
        if v.seg.Has addr then some (v.attrAt addr) else lookup Vma.seg o.vmas addr :=
  have hlt : v.start < v.stop := by rw [hstart, hstop]; exact r.lt
  vmaInsert_spec h ⟨hlt, hstart ▸ r.start_dvd, hstop ▸ r.stop_dvd⟩
    (freeFor_of_pages h hstart hstop hfree)

theorem add_refines {prot : Prot} {flags : VmaFlags} {file : Option Nat} {off size : BitVec 64}
    (h : Valid o.vmas) (hm : m.Plenty) (hfree : ∀ p, r.Has p → pageMap o.vmas p = none) :
    let o' := (VmaOp.apply o (.add r prot flags file off size, m)).2
    Valid o'.vmas ∧ pageMap o'.vmas =
      ((pageMap o.vmas).apply (.add r prot flags file off size)).2 := by
  have happly : (VmaOp.apply o (.add r prot flags file off size, m)).2 =
      vmaInsert o (newVma r.start r.stop prot flags file off size) := by
    simp only [VmaOp.apply, vmaAdd, vmaAlloc, if_neg (not_le.mpr r.lt), hm.first, reduceIte,
      Option.getD_some]
  have hattr : ∀ p, (newVma r.start r.stop prot flags file off size).attrAt (p * pageSize) =
      newAttr r prot flags file off size p := fun p => by
    cases file <;> rfl
  rw [happly]
  obtain ⟨hvalid, hmap⟩ := vmaInsert_of_free
    (v := newVma r.start r.stop prot flags file off size) h rfl rfl hfree
  refine ⟨hvalid, funext fun p => (hmap (p * pageSize)).trans ?_⟩
  exact ite_congr rfl (fun _ => congrArg some (hattr p)) fun _ => rfl

theorem remove_refines (h : Valid o.vmas) (hm : m.Plenty) :
    Valid (VmaOp.apply o (.remove r, m)).2.vmas ∧
      pageMap (VmaOp.apply o (.remove r, m)).2.vmas = ((pageMap o.vmas).apply (.remove r)).2 := by
  refine ⟨h.vmaRemoveRange r m, funext fun p =>
    (lookup_vmaRemoveRange r h m (p * pageSize)).trans ?_⟩
  refine ite_congr (propext ?_) (fun _ => rfl) fun _ => rfl
  simp only [Removed, hm.first, Bool.true_eq_false, false_and, or_false]
  rfl

theorem rightOk_of_plenty (hm : m.Plenty) (start : Nat) (prot : Prot) :
    rightOk l m start prot = true := by
  unfold rightOk
  split
  · exact hm.rest.first
  · exact hm.first

theorem protect_refines {prot : Prot} (h : Valid o.vmas) (hm : m.Plenty) :
    Valid (VmaOp.apply o (.protect r prot, m)).2.vmas ∧
      pageMap (VmaOp.apply o (.protect r prot, m)).2.vmas =
        ((pageMap o.vmas).apply (.protect r prot)).2 := by
  refine ⟨h.vmaProtectRange r m prot, funext fun p =>
    (lookup_vmaProtectRange r h m prot (p * pageSize)).trans ?_⟩
  show _ = if r.Has p then (pageMap o.vmas p).map _ else pageMap o.vmas p
  rw [hm.first, rightOk_of_plenty hm]
  cases hlook : lookup Vma.seg o.vmas (p * pageSize) with
  | none => simp [pageMap, hlook]
  | some x =>
    -- the node that has the page is repainted there exactly if the page is in the range
    have hpaint : Repainted o.vmas true true r.start r.stop (p * pageSize) ↔ r.Has p := by
      constructor
      · rintro ⟨v, hv, hhas, hpaint⟩
        simpa [PageRange.Has] using hpaint.2.2
      · intro hp
        obtain ⟨v, hfind, -⟩ := Option.map_eq_some_iff.mp hlook
        have hhas := has_of_find hfind
        exact ⟨v, mem_of_find hfind, hhas, lt_of_le_of_lt hp.1 hhas.2, lt_of_le_of_lt hhas.1 hp.2,
          Or.inr ⟨hp.1, Or.inl hp.2⟩⟩
    simp only [hpaint, pageMap, hlook, Option.map_some]
    split <;> rfl

/-- One operation on the list and the same on the map. -/
theorem apply_refines {e : VmaOp × Kmem} (h : Valid o.vmas) (hfits : VmaOp.Fits o e) :
    (VmaOp.apply o e).1 = ((pageMap o.vmas).apply e.1).1 ∧
      Valid (VmaOp.apply o e).2.vmas ∧ pageMap (VmaOp.apply o e).2.vmas =
        ((pageMap o.vmas).apply e.1).2 := by
  obtain ⟨op, m⟩ := e
  cases op with
  | add r prot flags file off size => exact ⟨rfl, add_refines h hfits.1 hfits.2⟩
  | remove r => exact ⟨rfl, remove_refines h hfits⟩
  | protect r prot => exact ⟨rfl, protect_refines h hfits⟩
  | mergeAll => exact ⟨rfl, h.vmaMergeAll, funext fun p => lookup_vmaMergeAll h (p * pageSize)⟩
  | find addr =>
    refine ⟨?_, h, rfl⟩
    show (vmaFind o.vmas addr).map _ = (find Vma.seg o.vmas (addr / pageSize * pageSize)).map _
    rw [vmaFind_eq h, find_page h]
    rfl

/-! ## Runs -/

/-- **A VMA list is a page map**: in every sequence of insertions where nothing is mapped, removals,
changes of protection, merges and searches in which every allocation succeeds, starting from a list
in order, the searches answer what the map says, and the list stays in order and stands for the
map. -/
theorem vma_list_refines_page_map (es : List (VmaOp × Kmem)) (o : Owner) (h : Valid o.vmas)
    (hfits : Along VmaOp.apply VmaOp.Fits o es) :
    (answers VmaOp.apply o es).1 = (answers PageMap.apply (pageMap o.vmas) (es.map (·.1))).1 ∧
      Valid (answers VmaOp.apply o es).2.vmas ∧
      pageMap (answers VmaOp.apply o es).2.vmas =
        (answers PageMap.apply (pageMap o.vmas) (es.map (·.1))).2 := by
  induction es generalizing o with
  | nil => exact ⟨rfl, h, rfl⟩
  | cons e es ih =>
    obtain ⟨hanswer, hvalid, hmap⟩ := apply_refines h hfits.1
    obtain ⟨hrest, hend⟩ := ih (VmaOp.apply o e).2 hvalid hfits.2
    rw [hmap] at hrest hend
    exact ⟨congrArg₂ List.cons hanswer hrest, hend⟩

/-- A file mapping of four pages of which the second becomes read-only and the third goes. -/
def carvedRun : List (VmaOp × Kmem) :=
  [(.add ⟨0x40000000, 0x40004000, by decide, by decide, by decide⟩ ⟨true, true, false⟩ .none
    (some 7) 0x1000 0x9000, []),
    (.protect ⟨0x40001000, 0x40002000, by decide, by decide, by decide⟩ ⟨true, false, false⟩,
      [true, true]),
    (.remove ⟨0x40002000, 0x40003000, by decide, by decide, by decide⟩, []),
    (.mergeAll, []),
    (.find 0x40003004, [])]

theorem vma_list_refines_page_map_carved :
    (answers VmaOp.apply ⟨[], 0x40000000⟩ carvedRun).1 =
        [none, none, none, none, some ⟨⟨true, true, false⟩, .none, some ⟨7, 0x4000, 0x9000⟩⟩] ∧
      Valid (answers VmaOp.apply ⟨[], 0x40000000⟩ carvedRun).2.vmas := by
  have hplenty : Kmem.Plenty [] := nofun
  have hsplits : Kmem.Plenty [true, true] := by simp [Kmem.Plenty]
  have hfits : Along VmaOp.apply VmaOp.Fits ⟨[], 0x40000000⟩ carvedRun :=
    ⟨⟨hplenty, fun _ _ => rfl⟩, hsplits, hplenty, hplenty, hplenty, trivial⟩
  exact ⟨by decide +kernel, (vma_list_refines_page_map carvedRun _ Valid.nil hfits).2.1⟩

end MaeroOS.Vm
