import MaeroOS.Vm.Mremap

/-!
# Moving a mapping

What `mremap_move` does to the VMA list and to the page tables. The list is cut and its pieces are
inserted at the destination, where they may merge; in the map of pages that is a shift. The entries
are moved one by one into tables that have been reserved, so that the walk cannot fail on the way.
-/

namespace MaeroOS.Vm

open List
open Lib Lib.Segments

variable {l vs : List Vma} {v : Vma} {o : Owner} {old len dest p : Nat}

/-! ## Inserting several nodes -/

/-- A range without an address of the list meets none of its nodes. -/
theorem freeFor_of_lookup (h : Valid l) (hv : v.start < v.stop)
    (hfree : ∀ a, v.seg.Has a → lookup Vma.seg l a = none) : FreeFor l v := by
  intro w hw
  by_contra hmeets
  have hw' := (h.ok w hw).lt
  have hhas : v.seg.Has (max v.start w.start) := ⟨le_max_left _ _, by show _ < v.stop; omega⟩
  exact lookup_eq_none.mp (hfree _ hhas) w hw ⟨le_max_right _ _, by show _ < w.stop; omega⟩

theorem insertAll_spec (h : Valid o.vmas) (hvs : Valid vs)
    (hfree : ∀ v ∈ vs, ∀ a, v.seg.Has a → lookup Vma.seg o.vmas a = none) :
    Valid (vs.foldl vmaInsert o).vmas ∧
      ∀ a, lookup Vma.seg (vs.foldl vmaInsert o).vmas a =
        (lookup Vma.seg vs a).or (lookup Vma.seg o.vmas a) := by
  induction vs generalizing o with
  | nil => exact ⟨h, fun _ => rfl⟩
  | cons v vs ih =>
    have hhead := hfree v mem_cons_self
    obtain ⟨hvalid, hlookup⟩ := vmaInsert_spec h hvs.head (freeFor_of_lookup h hvs.head.lt hhead)
    obtain ⟨hvalid', hlookup'⟩ := ih hvalid hvs.of_cons fun w hw a ha => by
      -- the nodes are disjoint, so the rest is still free with the first one in
      rw [hlookup, if_neg fun hva => hvs.not_has hw hva ha, hfree w (mem_cons_of_mem v hw) a ha]
    refine ⟨hvalid', fun a => ?_⟩
    rw [foldl_cons, hlookup', hlookup, lookup_cons]
    by_cases hva : v.seg.Has a
    · have hnone : lookup Vma.seg vs a = none := lookup_eq_none.mpr fun w hw => hvs.not_has hw hva
      rw [if_pos hva, if_pos hva, hnone]
      rfl
    · rw [if_neg hva, if_neg hva]

/-! ## The pieces -/

theorem mem_mremapPieces (h : Valid l) : v ∈ mremapPieces old len dest l ↔
    ∃ w ∈ l, w.start < old + len ∧ old < w.stop ∧ v = w.piece old len dest := by
  unfold mremapPieces
  rw [mem_map]
  constructor
  · rintro ⟨w, hw, rfl⟩
    obtain ⟨htake, hstop⟩ := mem_filter.mp hw
    exact ⟨w, takeWhile_sublist _ |>.subset htake, by simpa using mem_takeWhile_imp htake,
      of_decide_eq_true hstop, rfl⟩
  · rintro ⟨w, hw, hstart, hstop, rfl⟩
    exact ⟨w, mem_filter.mpr ⟨Mm.mem_takeWhile_start h hw hstart, decide_eq_true hstop⟩, rfl⟩

theorem Vma.Ok.piece_ok (h : v.Ok) (hold : pageSize ∣ old) (hlen : pageSize ∣ len)
    (hdest : pageSize ∣ dest)
    (hpos : 0 < len) (hstart : v.start < old + len) (hstop : old < v.stop) :
    (v.piece old len dest).Ok := by
  obtain ⟨i, hi⟩ := h.start_dvd
  obtain ⟨j, hj⟩ := h.stop_dvd
  obtain ⟨a, rfl⟩ := hold
  obtain ⟨k, rfl⟩ := hlen
  obtain ⟨b, rfl⟩ := hdest
  have hlt := h.lt
  have hmax : max v.start (pageSize * a) = pageSize * max i a := by rw [hi, Nat.mul_max_mul_left]
  have hmin : min v.stop (pageSize * a + pageSize * k) = pageSize * min j (a + k) := by
    rw [hj, ← Nat.mul_add, Nat.mul_min_mul_left]
  refine ⟨?_, ?_, ?_⟩
  · show pageSize * b + _ < pageSize * b + _
    omega
  · show pageSize ∣ pageSize * b + (max v.start (pageSize * a) - pageSize * a)
    rw [hmax, ← Nat.mul_sub]
    exact Nat.dvd_add (Nat.dvd_mul_right _ _) (Nat.dvd_mul_right _ _)
  · show pageSize ∣ pageSize * b + (min v.stop (pageSize * a + pageSize * k) - pageSize * a)
    rw [hmin, ← Nat.mul_sub]
    exact Nat.dvd_add (Nat.dvd_mul_right _ _) (Nat.dvd_mul_right _ _)

theorem mremapPieces_valid (h : Valid l) (hold : pageSize ∣ old) (hlen : pageSize ∣ len)
    (hdest : pageSize ∣ dest) (hpos : 0 < len) : Valid (mremapPieces old len dest l) := by
  refine ⟨?_, fun v hv => ?_⟩
  · refine pairwise_map.mpr
      (List.Pairwise.imp_of_mem ?_ ((h.ordered.sublist (takeWhile_sublist _)).filter _))
    intro v w _ hw hvw
    have hvw' : v.stop ≤ w.start := hvw
    show dest + (min v.stop (old + len) - old) ≤ dest + (max w.start old - old)
    omega
  · obtain ⟨w, hw, hstart, hstop, rfl⟩ := (mem_mremapPieces h).mp hv
    exact (h.ok w hw).piece_ok hold hlen hdest hpos hstart hstop

/-- The pieces say of an address of the destination what the list says of the one it comes from. -/
theorem lookup_mremapPieces (h : Valid l) (hpieces : Valid (mremapPieces old len dest l)) {d : Nat}
    (hd : d < len) :
    lookup Vma.seg (mremapPieces old len dest l) (dest + d) = lookup Vma.seg l (old + d) := by
  cases hfind : find Vma.seg l (old + d) with
  | none =>
    rw [lookup_eq_none.mpr (find_eq_none.mp hfind)]
    refine lookup_eq_none.mpr fun v hv hhas => ?_
    obtain ⟨w, hw, hstart, hstop, rfl⟩ := (mem_mremapPieces h).mp hv
    obtain ⟨hlo, hhi⟩ : dest + (max w.start old - old) ≤ dest + d ∧
        dest + d < dest + (min w.stop (old + len) - old) := hhas
    exact find_eq_none.mp hfind w hw
      ⟨by show w.start ≤ old + d; omega, by show old + d < w.stop; omega⟩
  | some w =>
    obtain ⟨hlo, hhi⟩ : w.start ≤ old + d ∧ old + d < w.stop := has_of_find hfind
    have hmem : w.piece old len dest ∈ mremapPieces old len dest l :=
      (mem_mremapPieces h).mpr ⟨w, mem_of_find hfind, by omega, by omega, rfl⟩
    have hhas : (w.piece old len dest).seg.Has (dest + d) := by
      show dest + (max w.start old - old) ≤ dest + d ∧
        dest + d < dest + (min w.stop (old + len) - old)
      omega
    rw [lookup_of_find hfind, lookup_of_mem hpieces.ordered hmem hhas]
    refine congrArg some ?_
    show (w.piece old len dest).attrAt (dest + d) = w.attrAt (old + d)
    unfold Vma.attrAt Vma.piece newVma
    cases hfile : w.file with
    | none => rfl
    | some file =>
      have hoff : max w.start old - w.start + (dest + d - (dest + (max w.start old - old))) =
          old + d - w.start := by omega
      simp [BitVec.add_assoc, ← BitVec.ofNat_add, hoff]

/-- Outside the destination they say nothing. -/
theorem lookup_mremapPieces_outside (h : Valid l) {a : Nat} (ha : ¬ (dest ≤ a ∧ a < dest + len)) :
    lookup Vma.seg (mremapPieces old len dest l) a = none := by
  refine lookup_eq_none.mpr fun v hv hhas => ha ?_
  obtain ⟨w, hw, hstart, hstop, rfl⟩ := (mem_mremapPieces h).mp hv
  obtain ⟨hlo, hhi⟩ : dest + (max w.start old - old) ≤ a ∧
      a < dest + (min w.stop (old + len) - old) := hhas
  omega

/-! ## Entries that own a frame -/

namespace PageTables

variable {pt : PageTables} {q : Nat} {e : Pte}

theorem owned_congr {pt' : PageTables} (h : pt'.pteRead p = pt.pteRead p) :
    pt'.owned p = pt.owned p := by
  unfold owned
  rw [h]

theorem owned_eq_none : pt.owned p = none ↔ (pt.pteRead p).mapped = false := by
  unfold owned
  split <;> simp_all

theorem owned_of_mapped (h : (pt.pteRead p).mapped = true) : pt.owned p = some (pt.pteRead p) :=
  if_pos h

theorem owned_pteSet (h : pt.pdePresent p = true) :
    (pt.pteSet p e).owned q = if q = p then (if e.mapped then some e else none)
      else pt.owned q := by
  unfold owned
  rw [pteRead_pteSet h]
  split <;> rfl

end PageTables

namespace Mm

variable {s : Mm} {q : Nat}

theorem unmapPages_owned (s : Mm) (start stop q : Nat) :
    (s.unmapPages start stop).pt.owned q = if q ∈ pagesOf start stop then none
      else s.pt.owned q := by
  unfold PageTables.owned
  rw [unmapPages_read]
  by_cases hq : q ∈ pagesOf start stop <;> by_cases hm : (s.pt.pteRead q).mapped =
    true <;> simp [hq, hm]

theorem unmapRange_owned (s : Mm) (start stop q : Nat) :
    (s.unmapRange start stop).pt.owned q = if q ∈ pagesOf start stop then none else s.pt.owned q :=
  unmapPages_owned _ start stop q

/-! ## The walk over the entries -/

/-- The state with other page tables, and all else the same. -/
theorem movePage_pt (old : Nat) {i : Nat} (h : s.pt.pdePresent (dest / pageSize + i) = true) :
    movePage old dest s i = { s with pt := (movePage old dest s i).pt } ∧
      (∀ q, (movePage old dest s i).pt.pdePresent q = s.pt.pdePresent q) ∧
      ∀ q, (movePage old dest s i).pt.owned q =
        if q = dest / pageSize + i then (s.pt.owned (old / pageSize + i)).or (s.pt.owned q)
        else if q = old / pageSize + i then none else s.pt.owned q := by
  unfold movePage
  dsimp only
  split
  · next hm =>
    have hpde := PageTables.pdePresent_of_mapped hm
    unfold pagingMap reserveTable
    rw [if_pos (by exact h)]
    refine ⟨rfl, fun _ => rfl, fun q => ?_⟩
    show ((s.pt.pteSet _ _).pteSet _ _).owned q = _
    rw [PageTables.owned_pteSet (by exact h), PageTables.owned_pteSet hpde, if_pos hm,
      PageTables.owned_of_mapped hm]
    rfl
  · next hm =>
    have hnone : s.pt.owned (old / pageSize + i) = none :=
      PageTables.owned_eq_none.mpr (by simpa using hm)
    refine ⟨rfl, fun _ => rfl, fun q => ?_⟩
    rw [hnone]
    split
    · rfl
    split
    · next hq => rw [hq, hnone]
    · rfl

/-- **The walk shifts the entries of the old range** to the destination. -/
theorem movePages_spec (s : Mm) (old dest : Nat) {k : Nat}
    (hpresent : ∀ i < k, s.pt.pdePresent (dest / pageSize + i) = true)
    (hfree : ∀ i < k, s.pt.owned (dest / pageSize + i) = none)
    (hapart : dest / pageSize + k ≤ old / pageSize ∨ old / pageSize + k ≤ dest / pageSize) :
    ∃ pt, (range k).foldl (movePage old dest) s = { s with pt } ∧
      (∀ q, pt.pdePresent q = s.pt.pdePresent q) ∧
      ∀ q, pt.owned q =
        if dest / pageSize ≤ q ∧ q < dest / pageSize + k then
          s.pt.owned (old / pageSize + (q - dest / pageSize))
        else if old / pageSize ≤ q ∧ q < old / pageSize + k then none else s.pt.owned q := by
  induction k with
  | zero => exact ⟨s.pt, rfl, fun _ => rfl, fun q => by rw [if_neg (by omega), if_neg (by omega)]⟩
  | succ k ih =>
    obtain ⟨pt, hfold, hpde, howned⟩ :=
      ih (fun i hi => hpresent i (by omega)) (fun i hi => hfree i (by omega)) (by omega)
    rw [range_succ, foldl_append, hfold, foldl_cons, foldl_nil]
    have hpde' : ({ s with pt } : Mm).pt.pdePresent (dest / pageSize + k) = true :=
      (hpde _).trans (hpresent k (Nat.lt_succ_self k))
    obtain ⟨hrest, hpde₁, howned₁⟩ := movePage_pt old hpde'
    refine ⟨_, hrest, fun q => (hpde₁ q).trans (hpde q), fun q => ?_⟩
    have hlast := hfree k (Nat.lt_succ_self k)
    rw [howned₁, howned, howned]
    generalize dest / pageSize = b at *
    generalize old / pageSize = a at *
    by_cases hq : q = b + k
    · -- the page that is filled in this step
      subst hq
      rw [if_pos rfl, if_neg (by omega), if_neg (by omega), if_neg (by omega), if_neg (by omega),
        if_pos (by omega), hlast, Nat.add_sub_cancel_left, Option.or_none]
    · rw [if_neg hq]
      by_cases hqa : q = a + k
      · rw [if_pos hqa, if_neg (by omega), if_pos (by omega)]
      · rw [if_neg hqa]
        split_ifs <;> first | rfl | omega

/-! ## Putting the pieces in -/

/-- With memory for it a piece is inserted, and without it is left out. -/
theorem insertPieces_spec (vs : List Vma) (s : Mm) :
    ∃ ws kmem, ws.Sublist vs ∧ (s.kmem.Plenty → ws = vs ∧ kmem.Plenty) ∧
      vs.foldl insertPiece s = { s with owner := ws.foldl vmaInsert s.owner, kmem } := by
  induction vs generalizing s with
  | nil => exact ⟨[], s.kmem, List.Sublist.refl [], fun h => ⟨rfl, h⟩, rfl⟩
  | cons v vs ih =>
    rw [foldl_cons]
    rcases hmem : kmalloc s.kmem with ⟨ok, kmem⟩
    have hplenty : s.kmem.Plenty → ok = true ∧ kmem.Plenty := fun h =>
      ⟨by rw [← h.first, hmem], by have := h.rest; rwa [hmem] at this⟩
    cases ok with
    | true =>
      obtain ⟨ws, kmem', hsub, hall, hfold⟩ := ih { s with owner := vmaInsert s.owner v, kmem }
      have hone : s.insertPiece v = { s with owner := vmaInsert s.owner v, kmem } := by
        simp [insertPiece, hmem]
      refine ⟨v :: ws, kmem', hsub.cons_cons v, fun h => ?_, by rw [hone, hfold]; rfl⟩
      obtain ⟨rfl, hkmem'⟩ := hall (hplenty h).2
      exact ⟨rfl, hkmem'⟩
    | false =>
      obtain ⟨ws, kmem', hsub, -, hfold⟩ := ih { s with kmem }
      have hone : s.insertPiece v = { s with kmem } := by simp [insertPiece, hmem]
      refine ⟨ws, kmem', hsub.cons v, fun h => ?_, by rw [hone, hfold]⟩
      exact absurd (hplenty h).1 Bool.noConfusion

/-! ## `mremap_move` -/

variable {s' : Mm}

/-- A move that fails has changed no entry and no node. -/
theorem mremapMove_false (h : s.mremapMove old len dest = (false, s')) : Reserves s s' := by
  unfold mremapMove at h
  dsimp only at h
  split at h
  · cases h
    exact Reserves.refl s
  · have hreserve := s.pagingReserveRange_spec dest (dest + len)
    generalize s.pagingReserveRange dest (dest + len) = res at h hreserve
    obtain ⟨ok, s₁⟩ := res
    cases ok with
    | false =>
      cases h
      exact hreserve
    | true => cases h

/-- What a move from `old` to `dest` has done. Whatever there is memory for, nothing is left in the
old range and the entries are at their new place; with memory enough so is the list. -/
structure Moved (s s' : Mm) (old len dest : Nat) : Prop where
  valid : Valid s'.owner.vmas
  gone : ∀ a, old ≤ a → a < old + len → lookup Vma.seg s'.owner.vmas a = none
  owned : ∀ q, s'.pt.owned q =
    if dest / pageSize ≤ q ∧ q < dest / pageSize + len / pageSize then
      s.pt.owned (old / pageSize + (q - dest / pageSize))
    else if old / pageSize ≤ q ∧ q < old / pageSize + len / pageSize then none else s.pt.owned q
  grown : s.frames.Grown s'.frames
  plenty : s.kmem.Plenty → s'.kmem.Plenty
  vmas : s.kmem.Plenty → ∀ a, lookup Vma.seg s'.owner.vmas a =
    if dest ≤ a ∧ a < dest + len then lookup Vma.seg s.owner.vmas (old + (a - dest))
    else if old ≤ a ∧ a < old + len then none else lookup Vma.seg s.owner.vmas a

/-- The ranges a mapping is moved between: whole pages, apart, and nothing at the destination. -/
structure Movable (s : Mm) (old len dest : Nat) : Prop where
  old_dvd : pageSize ∣ old
  len_dvd : pageSize ∣ len
  dest_dvd : pageSize ∣ dest
  pos : 0 < len
  apart : dest + len ≤ old ∨ old + len ≤ dest
  vmas : ∀ a, dest ≤ a → a < dest + len → lookup Vma.seg s.owner.vmas a = none
  pages : ∀ i < len / pageSize, s.pt.owned (dest / pageSize + i) = none

theorem Movable.apart_pages (h : Movable s old len dest) :
    dest / pageSize + len / pageSize ≤ old / pageSize ∨ old / pageSize + len / pageSize ≤
      dest / pageSize := by
  have := h.apart
  unfold pageSize at *
  omega

theorem mremapMove_moved (hvalid : Valid s.owner.vmas) (hm : Movable s old len dest)
    (h : s.mremapMove old len dest = (true, s')) : Moved s s' old len dest := by
  have hpieces := mremapPieces_valid hvalid hm.old_dvd hm.len_dvd hm.dest_dvd hm.pos
  have hlen := hm.pos
  have hapart := hm.apart
  unfold mremapMove at h
  dsimp only at h
  split at h
  · cases h
  have hreserve := s.pagingReserveRange_spec dest (dest + len)
  have hpresent := @pagingReserveRange_present s
  generalize hres : s.pagingReserveRange dest (dest + len) = res at h hreserve
  obtain ⟨ok, s₁⟩ := res
  rcases ok with _ | _
  · cases h
  set s₂ := s₁.removeRange old (old + len)
  -- the entries
  obtain ⟨pt, hfold, -, howned⟩ := movePages_spec s₂ old dest (k := len / pageSize)
    (fun i hi => by
      have hpage : (dest / pageSize + i) * pageSize = dest + i * pageSize := by
        rw [Nat.add_mul, Nat.div_mul_cancel hm.dest_dvd]
      have hi' : i * pageSize < len :=
        (Nat.lt_div_iff_mul_lt' hm.len_dvd i).mp hi |> (Nat.mul_comm _ _ ▸ ·)
      have := hpresent (p := dest / pageSize + i) (congrArg Prod.fst hres) (by omega) (by omega)
      rwa [hres] at this)
    (fun i hi => (PageTables.owned_congr (hreserve.read _)).trans (hm.pages i hi)) hm.apart_pages
  -- the nodes
  obtain ⟨ws, kmem, hsub, hall, hinsert⟩ :=
    insertPieces_spec (mremapPieces old len dest s.owner.vmas) { s₂ with pt }
  have hs' : s' = { s₂ with
      pt, kmem, owner := ws.foldl vmaInsert s₂.owner } := by
    have := (Prod.mk.inj h).2
    rw [hfold, hinsert] at this
    exact this.symm
  have hvmas : s₂.owner.vmas =
      (vmaRemoveRange s.owner.vmas s.kmem old (old + len)).1 := by
    show (vmaRemoveRange s₁.owner.vmas s₁.kmem old (old + len)).1 = _
    rw [hreserve.keeps.owner, hreserve.kmem]
  let r : PageRange :=
    ⟨old, old + len, Nat.lt_add_of_pos_right hlen, hm.old_dvd, Nat.dvd_add hm.old_dvd hm.len_dvd⟩
  have hcut : Valid s₂.owner.vmas := by
    rw [hvmas]
    exact hvalid.vmaRemoveRange r s.kmem
  have hlookup : ∀ a, lookup Vma.seg s₂.owner.vmas a =
      if Removed s.owner.vmas (kmalloc s.kmem).1 old (old + len) a then none
        else lookup Vma.seg s.owner.vmas a := by
    intro a
    rw [hvmas]
    exact lookup_vmaRemoveRange r hvalid s.kmem a
  have hdest : ∀ v ∈ ws, ∀ a, v.seg.Has a → dest ≤ a ∧ a < dest + len := by
    intro v hv a ha
    by_contra hout
    exact lookup_eq_none.mp (lookup_mremapPieces_outside hvalid hout) v (hsub.subset hv) ha
  obtain ⟨hvalid', hlookup'⟩ := insertAll_spec hcut
    ⟨hpieces.ordered.sublist hsub, fun v hv => hpieces.ok v (hsub.subset hv)⟩ fun v hv a ha => by
      rw [hlookup, hm.vmas a (hdest v hv a ha).1 (hdest v hv a ha).2, ite_self]
  have hplenty : s.kmem.Plenty → s₂.kmem.Plenty := fun hk =>
    removeRange_plenty old (old + len) (by rwa [hreserve.kmem])
  subst hs'
  refine ⟨hvalid', fun a hlo hhi => ?_, fun q => ?_, hreserve.grown, fun hk =>
    (hall (hplenty hk)).2, fun hk a => ?_⟩
  · show lookup Vma.seg (ws.foldl vmaInsert s₂.owner).vmas a = none
    have hnone : lookup Vma.seg ws a = none := lookup_eq_none.mpr fun v hv hva => by
      have := hdest v hv a hva
      omega
    rw [hlookup', hnone, hlookup, if_pos ⟨hlo, Or.inl hhi⟩]
    rfl
  · show pt.owned q = _
    rw [howned]
    have hsame : ∀ q, s₂.pt.owned q = s.pt.owned q :=
      fun q => PageTables.owned_congr (hreserve.read q)
    rw [hsame, hsame]
  · show lookup Vma.seg (ws.foldl vmaInsert s₂.owner).vmas a = _
    obtain ⟨rfl, -⟩ := hall (hplenty hk)
    have hremoved : Removed s.owner.vmas (kmalloc s.kmem).1 old (old + len) a ↔
        old ≤ a ∧ a < old + len := by
      simp [Removed, hk.first]
    rw [hlookup', hlookup, if_congr hremoved rfl rfl]
    by_cases hin : dest ≤ a ∧ a < dest + len
    · have hshift : dest + (a - dest) = a := by omega
      have hpiece := lookup_mremapPieces hvalid hpieces (d := a - dest) (by omega)
      rw [hshift] at hpiece
      rw [if_pos hin, hpiece, if_neg (by omega), hm.vmas a hin.1 hin.2, Option.or_none]
    · rw [if_neg hin, lookup_mremapPieces_outside hvalid hin]
      rfl

end Mm

end MaeroOS.Vm
