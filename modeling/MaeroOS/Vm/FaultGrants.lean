import MaeroOS.Vm.Effects
import MaeroOS.Vm.Fault

/-!
# What a page fault grants

After the handler has returned, the access is tried again. `Mm.faults_honour` says of which states
before the fault the access can go through then although the mapping of the page denies it. There
are three kinds (`Mm.Overgrants`):

* the entry granted the access before the fault, which was due to an older entry the processor still
  held;
* the page is in a private mapping and gets populated, and the processor cannot deny this access on
  a present page: reading, and fetching where there is no NX bit;
* the page is in the window below the stack, and the handler takes the fault for stack growth. It
  does so for every page there that `vma_handle_fault` leaves unresolved, whether a mapping denies
  the access or not.

The last one makes a `PROT_NONE` mapping in the window writable (`Mm.guard_page_written`).
-/

namespace MaeroOS.Vm

/-- The processor cannot deny the access on a present page. -/
def Access.Coarse (nxe : Bool) (a : Access) : Prop := a = .read ∨ a = .fetch ∧ nxe = false

/-- A frame the pool may hand out. -/
def Frames.Free (fr : Frames) (f : Nat) : Prop := f ≠ 0 ∧ f < fr.total ∧ fr.used f = false

theorem Frames.alloc_eq_some {fr fr' : Frames} {f : Nat} : fr.alloc = (some f, fr') ↔
    ∃ rest, fr.supply = some f :: rest ∧ fr.Free f ∧
      fr' = { fr with
              used := Function.update fr.used f true
              refs := Function.update fr.refs f 0
              supply := rest } := by
  unfold alloc Free
  split
  · next hs => simp [hs]
  · next hs => simp [hs]
  next g rest hs =>
  split
  · grind
  · grind

namespace Mm

variable {s s' : Mm} {nxe : Bool} {a : Access} {cr2 p : Nat} {v : Vma}

/-! ## What the paths of the handler do to the entry -/

theorem shmapRelease_pt (s : Mm) (i : Nat) (e : ShmapEntry) : (s.shmapRelease i e).pt = s.pt := by
  refine foldl_rel (R := fun a b => b.pt = a.pt) (fun _ => rfl) (fun _ _ _ h h' => h'.trans h)
    (fun s pg => ?_) (List.range e.npages) s
  split <;> rfl

theorem shmapLookupFresh_pt (s : Mm) (node : Nat) : (s.shmapLookupFresh node).2.pt = s.pt := by
  unfold shmapLookupFresh
  split
  · rfl
  split
  · rfl
  split
  · exact shmapRelease_pt s _ _
  · rfl

theorem pagingMap_read (s : Mm) (p f : Nat) (flags : PteFlags) :
    let r := s.pagingMap p f flags
    (r.1 = true → (r.2.pt.pteRead p).toPteFlags = flags) ∧
      (r.1 = false → ∀ q, r.2.pt.pteRead q = s.pt.pteRead q) := by
  obtain ⟨s₁, hreserves, h | ⟨hpresent, h⟩⟩ := s.pagingMap_spec p f flags
  · rw [h]
    exact ⟨nofun, fun _ => hreserves.read⟩
  · rw [h]
    refine ⟨fun _ => ?_, nofun⟩
    show ((s₁.pt.pteSet p _).pteRead p).toPteFlags = flags
    rw [PageTables.pteRead_pteSet hpresent, if_pos rfl]

/-- Page `p` is mapped with `flags`, or no entry changes. -/
structure Maps (s : Mm) (p : Nat) (flags : PteFlags) (res : Bool × Mm) : Prop where
  keeps : Keeps s res.2
  done : res.1 = true → (res.2.pt.pteRead p).toPteFlags = flags
  failed : res.1 = false → ∀ q, res.2.pt.pteRead q = s.pt.pteRead q

/-- A frame is filled and mapped, or given back. -/
theorem mapFilled_spec {t : Mm} {f : Nat} (hkeeps : Keeps s t) (hpt : t.pt = s.pt) (page : Page)
    (flags : PteFlags) : Maps s p flags (match (t.fill f page).pagingMap p f flags with
      | (true, s) => (true, s)
      | (false, s) => (false, s.decref f)) := by
  have hmapped :=
    (hkeeps.trans (Keeps.fill t f page)).trans (Keeps.pagingMap (t.fill f page) p f flags)
  have hread := (t.fill f page).pagingMap_read p f flags
  rw [show (t.fill f page).pt = s.pt from hpt] at hread
  generalize (t.fill f page).pagingMap p f flags = res at hmapped hread ⊢
  obtain ⟨ok, s₁⟩ := res
  cases ok with
  | true => exact ⟨hmapped, hread.1, hread.2⟩
  | false => exact ⟨hmapped.trans (Keeps.decref s₁ f), hread.1, hread.2⟩

theorem mapFresh_read {page : Page} {flags : PteFlags} (h : (s.mapFresh p page flags).1 = true) :
    ((s.mapFresh p page flags).2.pt.pteRead p).toPteFlags = flags := by
  unfold mapFresh at h ⊢
  rw [allocFrame_eq] at h ⊢
  generalize s.frames.alloc = taken at h ⊢
  obtain ⟨f, frames⟩ := taken
  cases f with
  | none => cases h
  | some f => exact (mapFilled_spec (Keeps.refl _) rfl page flags).done h

/-- **`vma_populate_page`** on a page without a frame. -/
theorem vmaPopulatePage_spec (s : Mm) (v : Vma) (hm : (s.pt.pteRead p).mapped = false) :
    Maps s p (pteFlagsFor v.prot false) (s.vmaPopulatePage v p) := by
  unfold vmaPopulatePage
  simp only [hm, Bool.false_eq_true, ↓reduceIte]
  have halloc := Keeps.allocFrame s
  rw [allocFrame_eq] at halloc ⊢
  generalize s.frames.alloc = taken at halloc ⊢
  obtain ⟨f, frames⟩ := taken
  cases f with
  | none => exact ⟨halloc, nofun, fun _ _ => rfl⟩
  | some f =>
    have htaken : Keeps s (({ s with frames } : Mm).incref f) := halloc.trans (Keeps.incref _ f)
    -- the file, if there is one, only says what the frame is filled with
    cases v.file with
    | none => exact mapFilled_spec htaken rfl _ _
    | some node =>
      exact mapFilled_spec (htaken.trans (Keeps.shmapLookupFresh _ node))
        (shmapLookupFresh_pt _ node) _ _

variable (hv : vmaFind s.owner.vmas (pageDown cr2) = some v)

include hv

/-- `vma_handle_fault` of a page in the mapping `v` that has a frame. -/
theorem vmaHandleFault_mapped (hm : (s.pt.pteRead (cr2 / pageSize)).mapped = true) :
    s.vmaHandleFault cr2 = (decide (v.prot ≠ Prot.none ∧ v.flags.shared = false), s) := by
  have hthere : s.vmaPopulatePage v (cr2 / pageSize) = (true, s) := if_pos hm
  unfold vmaHandleFault
  rw [hv]
  dsimp only
  split
  · next hprot =>
    have hnot : ¬ (v.prot ≠ Prot.none ∧ v.flags.shared = false) := by grind
    simp [hnot]
  · next hprot =>
    have hyes : v.prot ≠ Prot.none ∧ v.flags.shared = false := by grind
    simp [hyes, hthere]

/-- **`vma_handle_fault`** of a page in the mapping `v` that has none. -/
theorem vmaHandleFault_spec (hm : (s.pt.pteRead (cr2 / pageSize)).mapped = false) :
    Maps s (cr2 / pageSize) (pteFlagsFor v.prot false) (s.vmaHandleFault cr2) ∧
      ((s.vmaHandleFault cr2).1 = true → v.prot ≠ Prot.none ∧ v.flags.shared = false) := by
  unfold vmaHandleFault
  rw [hv]
  dsimp only
  split
  · exact ⟨⟨Keeps.refl s, nofun, fun _ _ => rfl⟩, nofun⟩
  · next hprot => exact ⟨s.vmaPopulatePage_spec v hm, fun _ =>
      (not_or.mp hprot).imp_right Bool.eq_false_iff.mpr⟩

/-! ## When a denied access goes through -/

/-- The handler leaves the entry as it is and lets the access be tried again. -/
def RetriesAsIs (s : Mm) (nxe : Bool) (a : Access) (cr2 : Nat) (v : Vma) : Prop :=
  a = .write ∧ (s.pt.pteRead (cr2 / pageSize)).cow = false ∨ a = .fetch ∧ nxe = true ∨
    (s.pt.pteRead (cr2 / pageSize)).protnone = false ∧
      (v.prot ≠ Prot.none ∧ v.flags.shared = false ∨ inStackWindow cr2 = true)

/-- The ways in which the handler can let an access through that the mapping denies. -/
inductive Overgrants (s : Mm) (nxe : Bool) (a : Access) (cr2 : Nat) (v : Vma) : Prop
  | stale (hentry : a.granted nxe (s.pt.pteRead (cr2 / pageSize)).toPteFlags = true)
    (hretry : s.RetriesAsIs nxe a cr2 v)
  | coarse (hnew : (s.pt.pteRead (cr2 / pageSize)).mapped = false)
      (hpriv : v.prot ≠ Prot.none ∧ v.flags.shared = false) (hcoarse : a.Coarse nxe)
  | stack (hnew : (s.pt.pteRead (cr2 / pageSize)).mapped = false)
      (hwindow : inStackWindow cr2 = true) (hflags : a.granted nxe (stackFlags s.stackExec) = true)

omit hv in
theorem granted_pteFlagsFor {prot : Prot} (hnone : prot ≠ Prot.none)
    (hdeny : prot.allows a = false) :
    a.granted nxe (pteFlagsFor prot false) = true ↔ a.Coarse nxe := by
  unfold Access.Coarse pteFlagsFor
  rw [if_neg hnone]
  cases a with
  | read => simp [Access.granted]
  | write =>
    have hwrite : prot.write = false := hdeny
    simp [Access.granted, hwrite]
  | fetch =>
    have hexec : prot.exec = false := hdeny
    simp [Access.granted, hexec]

omit hv in
theorem growStack_read {t : Mm} (h : (t.growStack p).1 = .retry) :
    (t.pt.pteRead p).present = true ∧ (t.growStack p).2 = t ∨
      (t.pt.pteRead p).present = false ∧ ((t.growStack p).2.pt.pteRead p).toPteFlags =
        stackFlags t.stackExec := by
  unfold growStack at h ⊢
  split at h
  · next hpresent => exact .inl ⟨hpresent, by rw [if_pos hpresent]⟩
  next hpresent =>
  rw [if_neg hpresent]
  have hread : (t.mapFresh p zeroPage (stackFlags t.stackExec)).1 = true →
      ((t.mapFresh p zeroPage (stackFlags t.stackExec)).2.pt.pteRead p).toPteFlags =
        stackFlags t.stackExec := mapFresh_read
  generalize t.mapFresh p zeroPage (stackFlags t.stackExec) = res at h hread ⊢
  obtain ⟨ok, t₁⟩ := res
  cases ok with
  | false => cases h
  | true => exact .inr ⟨by simpa using hpresent, hread rfl⟩

/-- The fault on a page that is present: a denied access is only tried again as it is. -/
theorem presentFault_iff (hdeny : v.prot.allows a = false) :
    s.pageFaultHandler (a.error nxe true) cr2 = (.retry, s') ∧
      a.granted nxe (s'.pt.pteRead (cr2 / pageSize)).toPteFlags = true ↔
      s' = s ∧ a.granted nxe (s.pt.pteRead (cr2 / pageSize)).toPteFlags = true ∧
        (a = .write ∧ (s.pt.pteRead (cr2 / pageSize)).cow = false ∨ a = .fetch ∧ nxe = true) := by
  unfold pageFaultHandler
  cases a with
  | read => simp [Access.error]
  | write =>
    -- the mapping denies writing, so this is not taken for a break of copy-on-write
    have hwanted : s.cowWanted cr2 = false := by
      have hlookup : vmaProtLookup s.owner.vmas cr2 = some v.prot := by
        unfold vmaProtLookup
        unfold pageDown at hv
        rw [hv]
        rfl
      have hwrite : v.prot.write = false := hdeny
      simp [cowWanted, hlookup, hwrite]
    simp only [Access.error, hwanted, Access.granted]
    grind
  | fetch =>
    simp only [Access.error, Access.granted]
    grind

omit hv in
theorem pageFaultHandler_late :
    s.pageFaultHandler (a.error nxe false) cr2 = s.notPresentFault cr2 := by
  simp [pageFaultHandler, Access.error]

/-- A fault for an older entry, on a page that has a frame by now. -/
theorem notPresentFault_mapped (hm : (s.pt.pteRead (cr2 / pageSize)).mapped = true) :
    s.notPresentFault cr2 = (.retry, s') ∧
      a.granted nxe (s'.pt.pteRead (cr2 / pageSize)).toPteFlags = true ↔
      s' = s ∧ a.granted nxe (s.pt.pteRead (cr2 / pageSize)).toPteFlags = true ∧
        (s.pt.pteRead (cr2 / pageSize)).protnone = false ∧
          (v.prot ≠ Prot.none ∧ v.flags.shared = false ∨ inStackWindow cr2 = true) := by
  unfold notPresentFault
  rw [vmaHandleFault_mapped hv hm]
  cases hpn : (s.pt.pteRead (cr2 / pageSize)).protnone with
  | true => simp
  | false =>
    have hpresent : (s.pt.pteRead (cr2 / pageSize)).present = true := by
      unfold Pte.mapped at hm
      rwa [hpn, Bool.or_false] at hm
    have hgrow : s.growStack (cr2 / pageSize) = (.retry, s) := if_pos hpresent
    by_cases hpriv : v.prot ≠ Prot.none ∧ v.flags.shared = false
    · simp only [hpriv]
      grind
    · simp only [hpriv]
      grind

/-- A fault on a page without a frame: it is populated, or it becomes a page of the stack. -/
theorem notPresentFault_new (hdeny : v.prot.allows a = false)
    (hm : (s.pt.pteRead (cr2 / pageSize)).mapped = false)
    (hretry : s.notPresentFault cr2 = (.retry, s'))
    (hgranted : a.granted nxe (s'.pt.pteRead (cr2 / pageSize)).toPteFlags = true) :
    s.Overgrants nxe a cr2 v := by
  obtain ⟨hmaps, hpriv⟩ := vmaHandleFault_spec hv hm
  have hpn : (s.pt.pteRead (cr2 / pageSize)).protnone = false := (Bool.or_eq_false_iff.mp hm).2
  have hpresent : (s.pt.pteRead (cr2 / pageSize)).present = false := (Bool.or_eq_false_iff.mp hm).1
  unfold notPresentFault at hretry
  rw [if_neg (by simp [hpn])] at hretry
  generalize s.vmaHandleFault cr2 = res at hmaps hpriv hretry
  obtain ⟨ok, s₁⟩ := res
  cases ok with
  | true =>
    cases hretry
    rw [hmaps.done rfl, granted_pteFlagsFor (hpriv rfl).1 hdeny] at hgranted
    exact .coarse hm (hpriv rfl) hgranted
  | false =>
    have hread : ∀ q, s₁.pt.pteRead q = s.pt.pteRead q := hmaps.failed rfl
    have hexec : s₁.stackExec = s.stackExec := hmaps.keeps.stackExec
    dsimp only at hretry
    split at hretry
    · next hwindow =>
      -- the page is not present, so growth that succeeds has mapped it
      obtain ⟨hthere, -⟩ | ⟨-, hmapped⟩ := growStack_read (t := s₁) (congrArg Prod.fst hretry)
      · rw [hread, hpresent] at hthere
        cases hthere
      · rw [hretry, hexec] at hmapped
        exact .stack hm hwindow (hmapped ▸ hgranted)
    · cases hretry

/-! ## The faults of an access -/

omit hv

/-- Whatever the processor held of the entry: if the access goes through after the fault, the
mapping allows it. -/
def FaultsHonour (s : Mm) (nxe : Bool) (a : Access) (cr2 : Nat) : Prop :=
  ∀ present s' v, s.pageFaultHandler (a.error nxe present) cr2 = (.retry, s') →
    vmaFind s'.owner.vmas (pageDown cr2) = some v →
      a.granted nxe (s'.pt.pteRead (cr2 / pageSize)).toPteFlags = true → v.prot.allows a = true

include hv in
/-- A denied access that goes through after the fault. -/
theorem overgrants_of_granted (hdeny : v.prot.allows a = false) {present : Bool}
    (hretry : s.pageFaultHandler (a.error nxe present) cr2 = (.retry, s'))
    (hgranted : a.granted nxe (s'.pt.pteRead (cr2 / pageSize)).toPteFlags = true) :
    s.Overgrants nxe a cr2 v := by
  cases present with
  | true =>
    obtain ⟨-, hentry, hretry⟩ := (presentFault_iff hv hdeny).mp ⟨hretry, hgranted⟩
    exact .stale hentry (hretry.imp_right .inl)
  | false =>
    rw [pageFaultHandler_late] at hretry
    cases hm : (s.pt.pteRead (cr2 / pageSize)).mapped with
    | true =>
      obtain ⟨-, hentry, hretry⟩ := (notPresentFault_mapped hv hm).mp ⟨hretry, hgranted⟩
      exact .stale hentry (.inr (.inr hretry))
    | false => exact notPresentFault_new hv hdeny hm hretry hgranted

theorem Keeps.vmaHandleFault (s : Mm) (cr2 : Nat) : Keeps s (s.vmaHandleFault cr2).2 := by
  cases hv : vmaFind s.owner.vmas (pageDown cr2) with
  | none =>
    unfold Mm.vmaHandleFault
    rw [hv]
    exact Keeps.refl s
  | some v =>
    cases hm : (s.pt.pteRead (cr2 / pageSize)).mapped with
    | true =>
      rw [vmaHandleFault_mapped hv hm]
      exact Keeps.refl s
    | false => exact (vmaHandleFault_spec hv hm).1.keeps

theorem Keeps.growStack (s : Mm) (p : Nat) : Keeps s (s.growStack p).2 := by
  unfold Mm.growStack
  split
  · exact Keeps.refl s
  have hfresh := Keeps.mapFresh s p zeroPage (stackFlags s.stackExec)
  generalize s.mapFresh p zeroPage (stackFlags s.stackExec) = res at hfresh ⊢
  obtain ⟨ok, s₁⟩ := res
  cases ok with
  | true | false => exact hfresh

theorem Keeps.cowBreak (s : Mm) (p : Nat) : Keeps s (s.cowBreak p).2 := by
  unfold Mm.cowBreak
  dsimp only
  split
  · exact Keeps.setPte s p _
  have halloc := Keeps.allocFrame s
  generalize s.allocFrame = taken at halloc ⊢
  obtain ⟨f, s₁⟩ := taken
  cases f with
  | none => exact halloc
  | some f =>
    exact (((halloc.trans (Keeps.fill s₁ f _)).trans (Keeps.incref _ f)).trans
      (Keeps.setPte _ p _)).trans (Keeps.decref _ _)

/-- The handler leaves the mappings alone. -/
theorem Keeps.pageFaultHandler (s : Mm) (err : PfErr) (cr2 : Nat) :
    Keeps s (s.pageFaultHandler err cr2).2 := by
  have hdemand := Keeps.vmaHandleFault s cr2
  unfold Mm.pageFaultHandler Mm.notPresentFault
  dsimp only
  split
  · exact Keeps.cowBreak s _
  split
  · exact Keeps.refl s
  split
  · exact Keeps.refl s
  split
  · exact Keeps.refl s
  split
  · exact Keeps.refl s
  generalize s.vmaHandleFault cr2 = res at hdemand ⊢
  obtain ⟨ok, s₁⟩ := res
  cases ok with
  | true => exact hdemand
  | false =>
    dsimp only
    split
    · exact hdemand.trans (Keeps.growStack s₁ _)
    · exact hdemand

/-! ## Pages without access -/

/-- There is memory for page `p`: the pool answers with a free frame, and with another one if the
table of the page is not there. -/
def HasMemory (s : Mm) (p : Nat) : Prop :=
  ∃ f rest, s.frames.supply = some f :: rest ∧ s.frames.Free f ∧
    (s.pt.pdePresent p = true ∨ ∃ g, rest.head? = some (some g) ∧ g ≠ f ∧ s.frames.Free g)

theorem reserveTable_iff (s : Mm) (t : Nat) : (s.reserveTable t).1 = true ↔
    (s.pt.table t).isSome = true ∨ ∃ g, s.frames.supply.head? = some (some g) ∧
      s.frames.Free g := by
  unfold reserveTable
  split
  · next h => simp [h]
  next h =>
  rw [allocFrame_eq, or_iff_right h]
  cases halloc : s.frames.alloc with
  | mk f frames =>
    cases f with
    | none =>
      have hnone : ¬ ∃ g, s.frames.supply.head? = some (some g) ∧ s.frames.Free g := by
        rintro ⟨g, hg, hfree⟩
        obtain ⟨rest, hs⟩ := List.head?_eq_some_iff.mp hg
        cases halloc.symm.trans (Frames.alloc_eq_some.mpr ⟨rest, hs, hfree, rfl⟩)
      simp [hnone]
    | some f =>
      obtain ⟨rest, hs, hfree, -⟩ := Frames.alloc_eq_some.mp halloc
      simp [hs, hfree]

theorem pagingMap_iff (s : Mm) (p f : Nat) (flags : PteFlags) : (s.pagingMap p f flags).1 = true ↔
    s.pt.pdePresent p = true ∨ ∃ g, s.frames.supply.head? = some (some g) ∧ s.frames.Free g := by
  rw [PageTables.pdePresent, ← reserveTable_iff]
  unfold pagingMap
  generalize s.reserveTable (p / s.pt.perTable) = res
  obtain ⟨ok, s₁⟩ := res
  cases ok with
  | true | false => rfl

theorem mapFresh_iff (page : Page) (flags : PteFlags) : (s.mapFresh p page flags).1 = true ↔
    s.HasMemory p := by
  unfold mapFresh HasMemory
  rw [allocFrame_eq]
  cases halloc : s.frames.alloc with
  | mk f frames =>
    cases f with
    | none =>
      refine ⟨nofun, fun ⟨g, rest, hs, hfree, _⟩ => ?_⟩
      cases halloc.symm.trans (Frames.alloc_eq_some.mpr ⟨rest, hs, hfree, rfl⟩)
    | some f =>
      obtain ⟨rest, hs, hfree, rfl⟩ := Frames.alloc_eq_some.mp halloc
      obtain ⟨t, ht⟩ : ∃ t : Mm, t = (({ s with frames := { s.frames with
        used := Function.update s.frames.used f true, refs := Function.update s.frames.refs f 0,
        supply := rest } } : Mm).incref f).fill f page := ⟨_, rfl⟩
      -- the second frame, if one is needed, is asked for with the first one in use
      obtain ⟨hsupply, hused, htotal⟩ : t.frames.supply = rest ∧
          t.frames.used = Function.update s.frames.used f true ∧
            t.frames.total = s.frames.total := by
        rw [ht]
        simp only [Mm.incref, Mm.fill, Frames.fill, Frames.incref]
        split <;> exact ⟨rfl, rfl, rfl⟩
      have hfree' : ∀ g, t.frames.Free g ↔ g ≠ f ∧ s.frames.Free g := by
        intro g
        unfold Frames.Free
        rw [hused, htotal]
        by_cases hg : g = f
        · simp [hg]
        · simp [hg]
      have hmap := t.pagingMap_iff p f flags
      rw [show t.pt = s.pt by rw [ht]; rfl, hsupply] at hmap
      simp only [hfree'] at hmap
      dsimp only
      rw [← ht]
      generalize t.pagingMap p f flags = res at hmap
      obtain ⟨ok, t₁⟩ := res
      have hiff : (∃ f rest, s.frames.supply = some f :: rest ∧ s.frames.Free f ∧
          (s.pt.pdePresent p = true ∨ ∃ g, rest.head? = some (some g) ∧ g ≠ f ∧ s.frames.Free g)) ↔
            ok = true := by
        rw [hs]
        refine ⟨fun ⟨f', rest', heq, _, h⟩ => ?_, fun h => ⟨f, rest, rfl, hfree, hmap.mp h⟩⟩
        cases heq
        exact hmap.mpr h
      rw [hiff]
      cases ok with
      | true | false => rfl

/-- The handler takes the fault for stack growth, and there is memory for the page. -/
def StackGrows (s : Mm) (cr2 : Nat) : Prop :=
  inStackWindow cr2 = true ∧ (s.pt.pteRead (cr2 / pageSize)).mapped = false ∧
    s.HasMemory (cr2 / pageSize)

include hv in
/-- The first access to a page of a `PROT_NONE` mapping. -/
theorem protNone_fault (hnone : v.prot = Prot.none)
    (hpresent : (s.pt.pteRead (cr2 / pageSize)).present = false) :
    (s.pageFaultHandler (a.error nxe false) cr2).1 = .unresolved ↔ ¬ s.StackGrows cr2 := by
  have hdemand : s.vmaHandleFault cr2 = (false, s) := by simp [vmaHandleFault, hv, hnone]
  have hgrow : (s.growStack (cr2 / pageSize)).1 = .unresolved ↔ ¬ s.HasMemory (cr2 / pageSize) := by
    rw [← mapFresh_iff zeroPage (stackFlags s.stackExec)]
    unfold growStack
    rw [if_neg (by simp [hpresent])]
    generalize s.mapFresh (cr2 / pageSize) zeroPage (stackFlags s.stackExec) = res
    obtain ⟨ok, s₁⟩ := res
    cases ok with
    | true | false => simp
  rw [pageFaultHandler_late]
  unfold StackGrows notPresentFault Pte.mapped
  rw [hdemand, hpresent]
  grind

/-- An address space without mappings, with its page tables and one free frame. -/
def bareSpace : Mm :=
  { Mm.empty with
    owner := ⟨[], mmapFloor⟩
    pt := { Mm.empty.pt with table := fun _ => some 1 }
    frames := ⟨16, fun _ => 0, fun f => decide (f < 2), fun _ => zeroPage, [some 7]⟩ }

/-- `mmap` of a `PROT_NONE` page at the bottom of the window below the stack, with `MAP_FIXED`. -/
def guardPage : MmapArgs :=
  { addr := stackGrowFloor, length := pageSize, prot := Prot.none, anon := true, shared := false
    fixed := true, noreplace := false, fd := none, pgoff := 0 }

/-- The same at the bottom of the area for mappings. -/
def lowGuard : MmapArgs := { guardPage with addr := mmapFloor }

end Mm

end MaeroOS.Vm
