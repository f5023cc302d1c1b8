import MaeroOS.Vm.Mmap

/-!
# What the walks of an address space change

For each function below the system calls: which entries of the page tables it changes, and what it
leaves alone. The page tables are seen through `pteRead` only, for which a table that is reserved
but empty is the same as none.

`Keeps` collects what no function that maps and unmaps pages touches: the record of the owner, the
files and the framebuffer.
-/

namespace MaeroOS.Vm

open Function

/-! ## Pages of a range -/

theorem mem_pagesOf {start stop p : Nat} (hstart : pageSize ∣ start) (hstop : pageSize ∣ stop)
    (hle : start ≤ stop) : p ∈ pagesOf start stop ↔ start ≤ p * pageSize ∧ p * pageSize < stop := by
  unfold pagesOf
  rw [List.mem_range'_1]
  unfold pageSize at *
  omega

theorem nodup_pagesOf (start stop : Nat) : (pagesOf start stop).Nodup := List.nodup_range'

/-! ## Page tables -/

namespace PageTables

variable {pt : PageTables} {p q t f : Nat} {e : Pte}

@[simp] theorem pdePresent_pteSet : (pt.pteSet p e).pdePresent q = pt.pdePresent q := rfl

theorem pteRead_pteSet (h : pt.pdePresent p = true) : (pt.pteSet p e).pteRead q = if q = p then e
    else pt.pteRead q := by
  unfold pteRead
  rw [pdePresent_pteSet]
  by_cases hq : q = p
  · rw [hq, if_pos h, if_pos rfl]
    exact update_self p e pt.entry
  · rw [if_neg hq]
    have hentry : (pt.pteSet p e).entry q = pt.entry q := by simp [pteSet, hq]
    rw [hentry]

/-- An entry that owns a frame is in a table. -/
theorem pdePresent_of_mapped (h : (pt.pteRead p).mapped = true) : pt.pdePresent p = true := by
  unfold pteRead at h
  split at h
  · next hpde => exact hpde
  · cases h

/-- A new table reads as the absent one did. -/
theorem pteRead_addTable (h : pt.table t = none) : (pt.addTable t f).pteRead q = pt.pteRead q := by
  unfold pteRead pdePresent addTable
  by_cases hq : q / pt.perTable = t
  · simp [hq, h]
  · simp [hq]

theorem pdePresent_addTable :
    (pt.addTable t f).pdePresent q = (pt.pdePresent q || decide (q / pt.perTable = t)) := by
  unfold pdePresent addTable
  by_cases hq : q / pt.perTable = t
  · simp [hq]
  · simp [hq]

theorem firstMappedPage_eq_none {start stop : Nat} :
    pt.firstMappedPage start stop = none ↔ ∀ p ∈ pagesOf start stop,
      (pt.pteRead p).mapped = false := by
  simp [firstMappedPage]

end PageTables

namespace Mm

variable {s s' : Mm}

/-! ## What mapping and unmapping leave alone -/

/-- The parts of the state that are the same. -/
structure Keeps (s s' : Mm) : Prop where
  owner : s'.owner = s.owner
  files : s'.files = s.files
  fb : s'.fb = s.fb
  rie : s'.rie = s.rie
  stackExec : s'.stackExec = s.stackExec
  perTable : s'.pt.perTable = s.pt.perTable
  total : s'.frames.total = s.frames.total
  plenty : s.kmem.Plenty → s'.kmem.Plenty

namespace Keeps

theorem refl (s : Mm) : Keeps s s := ⟨rfl, rfl, rfl, rfl, rfl, rfl, rfl, id⟩

theorem trans {a b c : Mm} (h : Keeps a b) (h' : Keeps b c) : Keeps a c :=
  ⟨h'.owner.trans h.owner, h'.files.trans h.files, h'.fb.trans h.fb, h'.rie.trans h.rie,
    h'.stackExec.trans h.stackExec,
    h'.perTable.trans h.perTable, h'.total.trans h.total, h'.plenty ∘ h.plenty⟩

end Keeps

end Mm

namespace Frames

variable {fr : Frames} {f : Nat}

@[simp] theorem total_free : (fr.free f).total = fr.total := by
  unfold free
  split <;> rfl

@[simp] theorem total_incref : (fr.incref f).total = fr.total := by
  unfold incref
  split <;> rfl

@[simp] theorem total_decref : (fr.decref f).total = fr.total := by
  unfold decref
  split
  · dsimp only
    split
    · exact total_free
    · rfl
  · rfl

@[simp] theorem data_free : (fr.free f).data = fr.data := by
  unfold free
  split <;> rfl

@[simp] theorem data_decref : (fr.decref f).data = fr.data := by
  unfold decref
  split
  · dsimp only
    split
    · exact data_free
    · rfl
  · rfl

theorem refs_decref (fr : Frames) (x f : Nat) : (fr.decref x).refs f =
    if f = x ∧ f < fr.total ∧ 0 < fr.refs f ∧ fr.refs f < pmmRefSaturated then fr.refs f - 1
      else fr.refs f := by
  unfold decref
  by_cases hx : x < fr.total ∧ 0 < fr.refs x ∧ fr.refs x < pmmRefSaturated
  · rw [if_pos hx]
    have hrefs : ∀ g : Frames, g.refs = update fr.refs x (fr.refs x - 1) →
        g.refs f = if f = x ∧ f < fr.total ∧ 0 < fr.refs f ∧
          fr.refs f < pmmRefSaturated then fr.refs f - 1 else fr.refs f := by
      intro g hg
      rw [hg]
      by_cases hf : f = x
      · subst hf
        rw [if_pos ⟨rfl, hx⟩, update_self]
      · rw [if_neg fun h => hf h.1, update_of_ne hf]
    dsimp only
    split
    · refine hrefs _ ?_
      unfold free
      split <;> rfl
    · exact hrefs _ rfl
  · rw [if_neg hx, if_neg]
    rintro ⟨rfl, h⟩
    exact hx h

/-- What an allocation does: it has no answer and the frames are as they were, or it takes a free
frame. -/
theorem alloc_cases (fr : Frames) :
    (∃ supply, fr.alloc = (none, { fr with supply })) ∨
      ∃ f supply, f ≠ 0 ∧ f < fr.total ∧ fr.used f = false ∧
        fr.alloc = (some f, { fr with used := update fr.used f true
                                      refs := update fr.refs f 0
                                      supply }) := by
  unfold alloc
  split
  · exact Or.inl ⟨fr.supply, rfl⟩
  · next rest _ => exact Or.inl ⟨rest, rfl⟩
  next f rest _ =>
  split
  · next h => exact Or.inr ⟨f, rest, h.1, h.2.1, h.2.2, rfl⟩
  · exact Or.inl ⟨rest, rfl⟩

/-- Free frames have been taken, and all else is the same. -/
structure Grown (fr fr' : Frames) : Prop where
  total : fr'.total = fr.total
  data : fr'.data = fr.data
  each : ∀ f, fr'.used f = fr.used f ∧ fr'.refs f = fr.refs f ∨
    fr.used f = false ∧ fr'.used f = true ∧ fr'.refs f = 0

namespace Grown

theorem refl (fr : Frames) : Grown fr fr := ⟨rfl, rfl, fun _ => Or.inl ⟨rfl, rfl⟩⟩

theorem trans {a b c : Frames} (h : Grown a b) (h' : Grown b c) : Grown a c := by
  refine ⟨h'.total.trans h.total, h'.data.trans h.data, fun f => ?_⟩
  rcases h.each f with ⟨hu, hr⟩ | ⟨hu, hu', hr⟩ <;> rcases h'.each f with ⟨hv, hs⟩ | ⟨hv, hv', hs⟩
  · exact Or.inl ⟨hv.trans hu, hs.trans hr⟩
  · exact Or.inr ⟨hu ▸ hv, hv', hs⟩
  · exact Or.inr ⟨hu, hv.trans hu', hs.trans hr⟩
  · exact absurd (hv.symm.trans hu') Bool.noConfusion

end Grown

theorem alloc_grown (fr : Frames) : Grown fr fr.alloc.2 := by
  obtain ⟨supply, h⟩ | ⟨f, supply, -, -, hfree, h⟩ := fr.alloc_cases
  · rw [h]
    exact ⟨rfl, rfl, fun _ => Or.inl ⟨rfl, rfl⟩⟩
  · rw [h]
    refine ⟨rfl, rfl, fun g => ?_⟩
    by_cases hg : g = f
    · subst hg
      exact Or.inr ⟨hfree, update_self _ _ _, update_self _ _ _⟩
    · exact Or.inl ⟨update_of_ne hg _ _, update_of_ne hg _ _⟩

end Frames

namespace Mm

variable (s : Mm) {p q start stop : Nat}

theorem Keeps.setPte (p : Nat) (e : Pte) : Keeps s (s.setPte p e) :=
  ⟨rfl, rfl, rfl, rfl, rfl, rfl, rfl, id⟩

theorem Keeps.incref (f : Nat) : Keeps s (s.incref f) :=
  ⟨rfl, rfl, rfl, rfl, rfl, rfl, Frames.total_incref, id⟩

theorem Keeps.decref (f : Nat) : Keeps s (s.decref f) :=
  ⟨rfl, rfl, rfl, rfl, rfl, rfl, Frames.total_decref, id⟩

theorem Keeps.fill (f : Nat) (page : Page) : Keeps s (s.fill f page) :=
  ⟨rfl, rfl, rfl, rfl, rfl, rfl, rfl, id⟩

/-- An allocation changes the frames, no page table. -/
theorem allocFrame_eq : s.allocFrame = (s.frames.alloc.1, { s with frames := s.frames.alloc.2 }) :=
  rfl

theorem Keeps.allocFrame : Keeps s s.allocFrame.2 :=
  ⟨rfl, rfl, rfl, rfl, rfl, rfl, s.frames.alloc_grown.total, id⟩

/-! ## Reserving tables -/

/-- What a reservation does as far as entries are concerned: nothing, and its table is there if it
succeeds. -/
structure Reserves (s s' : Mm) : Prop where
  keeps : Keeps s s'
  read : ∀ q, s'.pt.pteRead q = s.pt.pteRead q
  present : ∀ q, s.pt.pdePresent q = true → s'.pt.pdePresent q = true
  kmem : s'.kmem = s.kmem
  shmaps : s'.shmaps = s.shmaps
  grown : s.frames.Grown s'.frames

namespace Reserves

theorem refl : Reserves s s :=
  ⟨Keeps.refl s, fun _ => rfl, fun _ h => h, rfl, rfl, Frames.Grown.refl _⟩

theorem trans {a b c : Mm} (h : Reserves a b) (h' : Reserves b c) : Reserves a c :=
  ⟨h.keeps.trans h'.keeps, fun q => (h'.read q).trans (h.read q), fun q hq =>
    h'.present q (h.present q hq),
    h'.kmem.trans h.kmem, h'.shmaps.trans h.shmaps, h.grown.trans h'.grown⟩

end Reserves

theorem reserveTable_spec (t : Nat) : Reserves s (s.reserveTable t).2 ∧
    ((s.reserveTable t).1 = true → ((s.reserveTable t).2.pt.table t).isSome = true) := by
  unfold reserveTable
  split
  · next h => exact ⟨Reserves.refl s, fun _ => h⟩
  next h =>
  have hnone : s.pt.table t = none := by simpa using h
  have hgrown := s.frames.alloc_grown
  rw [allocFrame_eq]
  generalize s.frames.alloc = taken at hgrown
  obtain ⟨f, frames⟩ := taken
  cases f with
  | none => exact ⟨⟨⟨rfl, rfl, rfl, rfl, rfl, rfl, hgrown.total, id⟩, fun _ => rfl, fun _ hq => hq,
      rfl, rfl, hgrown⟩, nofun⟩
  | some f =>
    refine ⟨⟨⟨rfl, rfl, rfl, rfl, rfl, rfl, hgrown.total, id⟩, fun q =>
      PageTables.pteRead_addTable hnone, fun q hq => ?_, rfl, rfl, hgrown⟩, fun _ => ?_⟩
    · show (s.pt.addTable t f).pdePresent q = true
      rw [PageTables.pdePresent_addTable, hq, Bool.true_or]
    · show (update s.pt.table t (some f) t).isSome = true
      rw [update_self]
      rfl

/-- **`paging_map`** sets the entry of its page, or changes no entry at all. -/
theorem pagingMap_spec (p f : Nat) (flags : PteFlags) :
    ∃ s₁, Reserves s s₁ ∧
      (s.pagingMap p f flags = (false, s₁) ∨
        s₁.pt.pdePresent p = true ∧
          s.pagingMap p f flags = (true, s₁.setPte p { flags with frame := f })) := by
  unfold pagingMap
  have hspec := s.reserveTable_spec (p / s.pt.perTable)
  generalize hres : s.reserveTable (p / s.pt.perTable) = res at hspec
  obtain ⟨ok, s₁⟩ := res
  obtain ⟨hreserves, hpresent⟩ := hspec
  cases ok with
  | false => exact ⟨s₁, hreserves, Or.inl rfl⟩
  | true =>
    refine ⟨s₁, hreserves, Or.inr ⟨?_, rfl⟩⟩
    unfold PageTables.pdePresent
    rw [hreserves.keeps.perTable]
    exact hpresent rfl

theorem reserveTables_spec (ts : List Nat) (s : Mm) : Reserves s (reserveTables ts s).2 := by
  induction ts generalizing s with
  | nil => exact Reserves.refl s
  | cons t ts ih =>
    unfold reserveTables
    have hspec := (s.reserveTable_spec t).1
    generalize s.reserveTable t = res at hspec
    obtain ⟨ok, s₁⟩ := res
    cases ok with
    | false => exact hspec
    | true => exact hspec.trans (ih s₁)

/-- After a reservation that succeeded all its tables are there. -/
theorem reserveTables_present {ts : List Nat} {s : Mm} (h : (reserveTables ts s).1 = true) :
    ∀ q, q / s.pt.perTable ∈ ts → (reserveTables ts s).2.pt.pdePresent q = true := by
  induction ts generalizing s with
  | nil => exact nofun
  | cons t ts ih =>
    intro q hq
    unfold reserveTables at h ⊢
    have hspec := s.reserveTable_spec t
    generalize s.reserveTable t = res at hspec h
    obtain ⟨ok, s₁⟩ := res
    obtain ⟨hreserves, hpresent⟩ := hspec
    cases ok with
    | false => cases h
    | true =>
      have hper := hreserves.keeps.perTable
      rcases List.mem_cons.mp hq with hq | hq
      · refine (reserveTables_spec ts s₁).present q ?_
        unfold PageTables.pdePresent
        rw [hper, hq]
        exact hpresent rfl
      · exact ih h q (by rwa [hper])

theorem pagingReserveRange_spec (start stop : Nat) :
    Reserves s (s.pagingReserveRange start stop).2 :=
  reserveTables_spec _ s

variable {s} in
theorem pagingReserveRange_present (h : (s.pagingReserveRange start stop).1 = true)
    (hlo : start ≤ p * pageSize) (hhi : p * pageSize < stop) :
    (s.pagingReserveRange start stop).2.pt.pdePresent p = true := by
  refine reserveTables_present h p ?_
  have hspan : 0 < s.pt.perTable * pageSize := Nat.mul_pos s.pt.perTable_pos (by decide)
  have htable : p * pageSize / (s.pt.perTable * pageSize) = p / s.pt.perTable :=
    Nat.mul_div_mul_right p s.pt.perTable (by decide)
  generalize s.pt.perTable * pageSize = span at *
  rw [List.mem_range'_1, ← htable]
  refine ⟨Nat.div_le_div_right hlo, ?_⟩
  -- the table of the last page of the range is below the end of the walk
  rw [Nat.div_lt_iff_lt_mul hspan, Nat.add_mul]
  have hup := Nat.lt_div_mul_add hspan (a := stop - start / span * span + span - 1)
  omega

/-! ## Unmapping -/

/-- One page of `unmap_pages`: a mapped entry is cleared. -/
theorem unmapPage_read (p q : Nat) : (s.unmapPage p).pt.pteRead q =
    if q = p ∧ (s.pt.pteRead q).mapped = true then Pte.zero else s.pt.pteRead q := by
  unfold unmapPage
  split
  · next h =>
    show (s.pt.pteSet p Pte.zero).pteRead q = _
    rw [PageTables.pteRead_pteSet (PageTables.pdePresent_of_mapped h)]
    by_cases hq : q = p
    · subst hq
      rw [if_pos rfl, if_pos ⟨rfl, h⟩]
    · rw [if_neg hq, if_neg fun hand => hq hand.1]
  · next h =>
    rw [if_neg]
    rintro ⟨rfl, hm⟩
    exact h hm

theorem Keeps.unmapPage (p : Nat) : Keeps s (s.unmapPage p) := by
  unfold Mm.unmapPage
  split
  · exact (Keeps.setPte s p Pte.zero).trans (Keeps.decref _ _)
  · exact Keeps.refl s

end Mm

/-! ## Walks -/

section Walk

variable {s : Mm} {step : Mm → Nat → Mm}

/-- A relation that each page of a walk keeps is kept by the walk. -/
theorem foldl_rel {R : Mm → Mm → Prop} (hrefl : ∀ s, R s s)
    (htrans : ∀ a b c, R a b → R b c → R a c)
    (hstep : ∀ s p, R s (step s p)) (ps : List Nat) (s : Mm) : R s (ps.foldl step s) := by
  induction ps generalizing s with
  | nil => exact hrefl s
  | cons p ps ih => exact htrans _ _ _ (hstep s p) (ih (step s p))

end Walk

namespace Mm

variable (s : Mm)

theorem Keeps.unmapPages (start stop : Nat) : Keeps s (s.unmapPages start stop) :=
  foldl_rel Keeps.refl (fun _ _ _ => Keeps.trans) Keeps.unmapPage _ s

@[simp] theorem unmapPage_kmem (p : Nat) : (s.unmapPage p).kmem = s.kmem := by
  unfold unmapPage
  split <;> rfl

@[simp] theorem unmapPages_kmem (start stop : Nat) : (s.unmapPages start stop).kmem = s.kmem :=
  foldl_rel (R := fun a b => b.kmem = a.kmem) (fun _ => rfl) (fun _ _ _ h h' => h'.trans h)
    unmapPage_kmem _ s

theorem unmapList_read (ps : List Nat) (s : Mm) (q : Nat) : (ps.foldl unmapPage s).pt.pteRead q =
    if q ∈ ps ∧ (s.pt.pteRead q).mapped = true then Pte.zero else s.pt.pteRead q := by
  induction ps generalizing s with
  | nil => simp
  | cons p ps ih =>
    rw [List.foldl_cons, ih, unmapPage_read]
    by_cases hm : (s.pt.pteRead q).mapped = true
    · by_cases hq : q = p
      · subst hq
        simp [hm]
      · simp [hq, hm]
    · simp [hm]

/-- **`unmap_pages`** clears the mapped entries of its range and changes no other. -/
theorem unmapPages_read (start stop q : Nat) : (s.unmapPages start stop).pt.pteRead q =
    if q ∈ pagesOf start stop ∧ (s.pt.pteRead q).mapped = true then Pte.zero else s.pt.pteRead q :=
  unmapList_read _ s q

@[simp] theorem unmapRange_vmas (start stop : Nat) :
    (s.unmapRange start stop).owner.vmas = (vmaRemoveRange s.owner.vmas s.kmem start stop).1 := by
  unfold unmapRange
  rw [(Keeps.unmapPages _ start stop).owner]
  rfl

@[simp] theorem unmapRange_kmem (start stop : Nat) :
    (s.unmapRange start stop).kmem = (vmaRemoveRange s.owner.vmas s.kmem start stop).2 := by
  unfold unmapRange
  rw [unmapPages_kmem]
  rfl

omit s in
/-- The heap that is left when nodes have been removed. -/
theorem removeFrom_plenty {m : Kmem} (start stop : Nat) (l : List Vma) (h : m.Plenty) :
    (removeFrom start stop l m).2.Plenty := by
  induction l generalizing m with
  | nil => exact h
  | cons v l ih =>
    simp only [removeFrom, Vma.allocTail_eq, h.first, reduceIte]
    split_ifs <;> first | exact h | exact ih h | exact h.rest

variable {s} in
theorem removeRange_plenty (start stop : Nat) (h : s.kmem.Plenty) :
    (s.removeRange start stop).kmem.Plenty := by
  show (vmaRemoveRange s.owner.vmas s.kmem start stop).2.Plenty
  unfold vmaRemoveRange
  split
  · exact h
  · exact removeFrom_plenty start stop _ h

theorem unmapRange_read (start stop q : Nat) : (s.unmapRange start stop).pt.pteRead q =
    if q ∈ pagesOf start stop ∧ (s.pt.pteRead q).mapped = true then Pte.zero else s.pt.pteRead q :=
  unmapPages_read _ start stop q

/-! ## The registry and the pages of a mapping -/

theorem Keeps.setShmap (i : Nat) (e : Option ShmapEntry) : Keeps s (s.setShmap i e) :=
  ⟨rfl, rfl, rfl, rfl, rfl, rfl, rfl, id⟩

theorem Keeps.shmapRelease (i : Nat) (e : ShmapEntry) : Keeps s (s.shmapRelease i e) := by
  refine Keeps.trans ?_ (Keeps.setShmap _ i none)
  refine foldl_rel Keeps.refl (fun _ _ _ => Keeps.trans) (fun s pg => ?_) _ s
  split
  · exact Keeps.decref s _
  · exact Keeps.refl s

theorem Keeps.shmapLookupFresh (node : Nat) : Keeps s (s.shmapLookupFresh node).2 := by
  unfold Mm.shmapLookupFresh
  split
  · exact Keeps.refl s
  split
  · exact Keeps.refl s
  split
  · exact Keeps.shmapRelease s _ _
  · exact Keeps.refl s

theorem Keeps.shmapReclaim (is : List Nat) : Keeps s (s.shmapReclaim is).2 := by
  induction is with
  | nil => exact Keeps.refl s
  | cons i is ih =>
    simp only [Mm.shmapReclaim]
    split
    · exact ih
    split
    · exact Keeps.shmapRelease s _ _
    · exact ih

theorem Keeps.shmapGet (node : Nat) : Keeps s (s.shmapGet node).2 := by
  unfold Mm.shmapGet
  have hfresh := Keeps.shmapLookupFresh s node
  generalize s.shmapLookupFresh node = found at hfresh
  obtain ⟨slot, s₁⟩ := found
  cases slot with
  | some i => exact hfresh
  | none =>
    dsimp only at *
    split
    · exact hfresh.trans (Keeps.setShmap s₁ _ _)
    have hreclaim := Keeps.shmapReclaim s₁ (List.range s₁.shmaps.length)
    generalize s₁.shmapReclaim (List.range s₁.shmaps.length) = found at hreclaim
    obtain ⟨slot, s₂⟩ := found
    cases slot with
    | some i => exact (hfresh.trans hreclaim).trans (Keeps.setShmap s₂ _ _)
    | none => exact hfresh.trans hreclaim

theorem Keeps.shmapRoom (i : Nat) (e : ShmapEntry) (pg : Nat) : Keeps s (s.shmapRoom i e pg).2 := by
  unfold Mm.shmapRoom
  split
  · exact Keeps.refl s
  · dsimp only
    split <;> exact ⟨rfl, rfl, rfl, rfl, rfl, rfl, rfl, Kmem.Plenty.rest⟩

theorem Keeps.shmapFrame (i node pg : Nat) : Keeps s (s.shmapFrame i node pg).2 := by
  unfold Mm.shmapFrame
  split
  · exact Keeps.refl s
  split
  · exact Keeps.refl s
  next e _ =>
  have hroom := Keeps.shmapRoom s i e pg
  generalize s.shmapRoom i e pg = room at hroom
  obtain ⟨e', s₁⟩ := room
  cases e' with
  | none => exact hroom
  | some e' =>
    dsimp only at *
    split
    · exact hroom
    have halloc := Keeps.allocFrame s₁
    generalize s₁.allocFrame = taken at halloc
    obtain ⟨f, s₂⟩ := taken
    cases f with
    | none => exact hroom.trans halloc
    | some f =>
      exact (((hroom.trans halloc).trans (Keeps.incref s₂ f)).trans (Keeps.fill _ f _)).trans
        (Keeps.setShmap _ i _)

theorem Keeps.pagingMap (p f : Nat) (flags : PteFlags) : Keeps s (s.pagingMap p f flags).2 := by
  obtain ⟨s₁, hreserves, h | ⟨-, h⟩⟩ := s.pagingMap_spec p f flags
  · rw [h]
    exact hreserves.keeps
  · rw [h]
    exact hreserves.keeps.trans (Keeps.setPte s₁ p _)

/-- Mapping a frame, with the reference given back if that fails. -/
theorem Keeps.pagingMap_or_decref (p f : Nat) (flags : PteFlags) :
    Keeps s (match s.pagingMap p f flags with
      | (true, s) => (true, s)
      | (false, s) => (false, s.decref f)).2 := by
  have hmap := Keeps.pagingMap s p f flags
  generalize s.pagingMap p f flags = res at hmap
  obtain ⟨ok, s₁⟩ := res
  cases ok with
  | true => exact hmap
  | false => exact hmap.trans (Keeps.decref s₁ f)

theorem Keeps.mapFresh (p : Nat) (page : Page) (flags : PteFlags) :
    Keeps s (s.mapFresh p page flags).2 := by
  unfold Mm.mapFresh
  have halloc := Keeps.allocFrame s
  generalize s.allocFrame = taken at halloc
  obtain ⟨f, s₁⟩ := taken
  cases f with
  | none => exact halloc
  | some f =>
    exact ((halloc.trans (Keeps.incref s₁ f)).trans (Keeps.fill _ f page)).trans
      (Keeps.pagingMap_or_decref _ p f flags)

theorem Keeps.mapSharedPage (va slot node pgoff : Nat) (flags : PteFlags) (i : Nat) :
    Keeps s (mapSharedPage va slot node pgoff flags i s).2 := by
  unfold Mm.mapSharedPage
  have hframe := Keeps.shmapFrame s slot node (pgoff + i)
  generalize s.shmapFrame slot node (pgoff + i) = found at hframe
  obtain ⟨f, s₁⟩ := found
  cases f with
  | none => exact hframe
  | some f =>
    dsimp only at *
    split
    · exact hframe
    · exact (hframe.trans (Keeps.incref s₁ f)).trans (Keeps.pagingMap_or_decref _ _ f flags)

theorem Keeps.mapFb0Page (va : Nat) (prot : Prot) (nowrite : Bool) (i : Nat) :
    Keeps s (mapFb0Page va prot nowrite i s).2 := by
  unfold Mm.mapFb0Page
  dsimp only
  generalize (if pmmRefLimit ≤ s.frames.refcount (s.fb.pagePhys i) then 0 else s.fb.pagePhys i) = f
  split
  · exact Keeps.refl s
  have hincref : Keeps s (if s.fb.cached = true then s.incref f else s) := by
    split
    · exact Keeps.incref s f
    · exact Keeps.refl s
  generalize (if s.fb.cached = true then s.incref f else s) = s₁ at hincref
  have hmap := Keeps.pagingMap s₁ (va / pageSize + i) f (fb0Flags s₁.fb.cached prot nowrite)
  generalize s₁.pagingMap (va / pageSize + i) f (fb0Flags s₁.fb.cached prot nowrite) = res at hmap
  obtain ⟨ok, s₂⟩ := res
  cases ok with
  | true => exact hincref.trans hmap
  | false =>
    refine (hincref.trans hmap).trans ?_
    dsimp only
    split
    · exact Keeps.decref s₂ f
    · exact Keeps.refl s₂

theorem Keeps.mapLoop {one : Nat → Mm → Bool × Mm} (hone : ∀ i s, Keeps s (one i s).2)
    (is : List Nat) (s : Mm) : Keeps s (mapLoop one is s).2 := by
  induction is generalizing s with
  | nil => exact Keeps.refl s
  | cons i is ih =>
    simp only [Mm.mapLoop]
    have hstep := hone i s
    generalize one i s = res at hstep
    obtain ⟨ok, s₁⟩ := res
    cases ok with
    | true => exact hstep.trans (ih s₁)
    | false => exact hstep

theorem Keeps.pteApplyProt (prot : Prot) (s : Mm) (p : Nat) : Keeps s (s.pteApplyProt prot p) := by
  unfold Mm.pteApplyProt
  split
  · exact Keeps.setPte s p _
  · exact Keeps.refl s

end Mm

end MaeroOS.Vm
