import MaeroOS.Vm.Move

/-!
# A `mremap` that fails

The checks come first, and the tables of the destination are reserved before anything is moved. But
what comes after the move can fail too: the extension of the mapping needs a node, and with
`MREMAP_FIXED` it is only then that a shared mapping without a file is found to be one that cannot
grow. By then the mapping is at the destination, where it stays or is unmapped. And what
`MREMAP_FIXED` unmaps to make room may take a part of the old mapping with it, when there is no
memory to split the node they are both in.

`mremap_keeps` says that these are the only ways in which a call that fails loses the mapping.
-/

namespace MaeroOS.Vm

open Lib Lib.Segments

variable {l : List Vma} {stop n a p : Nat}

/-! ## The old range -/

/-- The walk over the old range: each of its addresses is in a node. -/
theorem mremapCovered_iff (h : Valid l) : mremapCovered l stop l.length a = true ↔
    ∀ x, a ≤ x → x < stop → lookup Vma.seg l x ≠ none := by
  constructor
  · generalize l.length = n
    intro hcov x hax hx
    induction n generalizing a with
    | zero =>
      have : stop ≤ a := of_decide_eq_true hcov
      omega
    | succ n ih =>
      simp only [mremapCovered] at hcov
      rw [if_pos (by omega), vmaFind_eq h] at hcov
      cases hfind : find Vma.seg l a with
      | none =>
        rw [hfind] at hcov
        cases hcov
      | some c =>
        rw [hfind] at hcov
        obtain ⟨hlo, -⟩ : c.start ≤ a ∧ a < c.stop := has_of_find hfind
        by_cases hxc : x < c.stop
        · rw [lookup_of_mem h.ordered (mem_of_find hfind) ⟨le_trans hlo hax, hxc⟩]
          exact Option.some_ne_none _
        · exact ih hcov (not_lt.mp hxc)
  · -- the nodes that end after `a` are enough for the walk, and each step leaves one of them behind
    suffices hfuel : ∀ n a, (l.filter (a < ·.stop)).length ≤ n →
        (∀ x, a ≤ x → x < stop → lookup Vma.seg l x ≠ none) →
        mremapCovered l stop n a = true from hfuel l.length a (List.length_filter_le _ _)
    intro n
    induction n with
    | zero =>
      intro a hn hcov
      refine decide_eq_true (not_lt.mp fun hlt => ?_)
      obtain ⟨c, hfind, -⟩ :=
        Option.map_eq_some_iff.mp
          (Option.ne_none_iff_exists'.mp (hcov a (le_refl a) hlt)).choose_spec
      have hmem : c ∈ l.filter (a < ·.stop) :=
        List.mem_filter.mpr ⟨mem_of_find hfind, decide_eq_true (has_of_find hfind).2⟩
      rw [List.length_eq_zero_iff.mp (Nat.le_zero.mp hn)] at hmem
      cases hmem
    | succ n ih =>
      intro a hn hcov
      simp only [mremapCovered]
      split
      · next hlt =>
        obtain ⟨x, hx⟩ := Option.ne_none_iff_exists'.mp (hcov a (le_refl a) hlt)
        obtain ⟨c, hfind, -⟩ := Option.map_eq_some_iff.mp hx
        obtain ⟨hlo, hhi⟩ : c.start ≤ a ∧ a < c.stop := has_of_find hfind
        rw [vmaFind_eq h, hfind]
        refine ih c.stop ?_ fun x hcx hx => hcov x (by omega) hx
        have hmem : c ∈ l.filter (a < ·.stop) :=
          List.mem_filter.mpr ⟨mem_of_find hfind, decide_eq_true hhi⟩
        have hagain : l.filter (c.stop < ·.stop) =
            (l.filter (a < ·.stop)).filter (c.stop < ·.stop) := by
          rw [List.filter_filter]
          refine List.filter_congr fun w _ => ?_
          rw [Bool.eq_iff_iff]
          simp only [decide_eq_true_eq, Bool.and_eq_true]
          omega
        have hless : (l.filter (c.stop < ·.stop)).length < (l.filter (a < ·.stop)).length := by
          rw [hagain]
          exact List.length_filter_lt_length_iff_exists.mpr ⟨c, hmem, by simp⟩
        omega
      · rfl

namespace Mm

variable {s s' : Mm} {args : MremapArgs} {t : MremapTail} {old oldSize newSize dest : Nat}

/-- What the checks have established. -/
structure MremapReady (s : Mm) (args : MremapArgs) (t : MremapTail) : Prop where
  dvd : pageSize ∣ args.oldAddr
  le : args.oldSize ≤ 0xFFFFF000
  pos : 0 < args.oldSize
  high : args.oldAddr + pageUp args.oldSize ≤ kernelVma
  newPos : 0 < args.newSize
  covered : ∀ x, args.oldAddr ≤ x → x < args.oldAddr + pageUp args.oldSize →
    lookup Vma.seg s.owner.vmas x ≠ none
  tail : ∃ last, find Vma.seg s.owner.vmas (args.oldAddr + pageUp args.oldSize - pageSize) =
    some last ∧ t = MremapTail.ofVma last (args.oldAddr + pageUp args.oldSize)

theorem pageUp_lt (n : Nat) : pageUp n < 2 ^ 32 :=
  lt_of_le_of_lt (Nat.div_mul_le_self _ _) (Nat.mod_lt _ (by decide))

theorem mremapStart_ready (hvalid : Valid s.owner.vmas) (haddr : args.oldAddr < 2 ^ 32)
    (hsize : args.oldSize < 2 ^ 32) (h : s.mremapStart args = .ok t) : MremapReady s args t := by
  unfold mremapStart at h
  dsimp only at h
  split at h
  · cases h
  next haligned =>
  split at h
  · cases h
  split at h
  · cases h
  split at h
  · cases h
  next hnew =>
  split at h
  · cases h
  next hend =>
  split at h
  · cases h
  next hzero =>
  obtain ⟨hwrap, hhigh⟩ := not_or.mp hend
  obtain ⟨-, hstop⟩ := (add_lt_of_le_u32 haddr (pageUp_lt _) (not_lt.mp hwrap)).resolve_right hzero
  rw [hstop] at hhigh h
  split at h
  · cases h
  next hcov =>
  split at h
  · cases h
  next last hlast =>
  cases h
  have hle : args.oldSize ≤ 0xFFFFF000 := not_lt.mp fun hlt => hzero (pageUp_wrap hlt hsize)
  have hpos : args.oldSize ≠ 0 := fun h0 => hzero (by rw [h0]; rfl)
  refine ⟨Nat.dvd_of_mod_eq_zero (not_not.mp haligned), hle, Nat.pos_of_ne_zero hpos,
    not_lt.mp hhigh,
    Nat.pos_of_ne_zero hnew, (mremapCovered_iff hvalid).mp (by simpa using hcov), last, ?_, rfl⟩
  rwa [vmaFind_eq hvalid] at hlast

theorem MremapReady.range (h : MremapReady s args t) : InRange args.oldAddr args.oldSize p ↔
    args.oldAddr ≤ p * pageSize ∧ p * pageSize < args.oldAddr + pageUp args.oldSize := by
  have hhas : (PageRange.ofLength args.oldAddr args.oldSize h.dvd h.pos h.le).Has p ↔
      InRange args.oldAddr args.oldSize p :=
    PageRange.ofLength_has
  exact hhas.symm

/-- The pages of the old range are covered as they were and have the entries they had. -/
def OldKept (s s' : Mm) (args : MremapArgs) : Prop :=
  ∀ p, InRange args.oldAddr args.oldSize p → pageMap s'.owner.vmas p = pageMap s.owner.vmas p ∧
    s'.pt.pteRead p = s.pt.pteRead p

/-! ## Where the call moves the mapping -/

/-- The destination, if the call gets as far as moving the mapping there. -/
def mremapDest (s : Mm) (args : MremapArgs) (t : MremapTail) : Option Nat :=
  if args.fixed then
    if (mremapBadDest args.oldAddr (pageUp args.oldSize) (pageUp args.newSize) args.newAddr).isNone
      then some args.newAddr
    else none
  else if pageUp args.newSize ≤ pageUp args.oldSize then none
  else if s.mremapRoom (args.oldAddr + pageUp args.oldSize)
    (pageUp args.newSize - pageUp args.oldSize) ∧
      t.sharedAnon = false then none
  else if args.mayMove = false ∨ t.sharedAnon then none
  else s.mremapGap (pageUp args.newSize)

/-- The state in which it does: with `MREMAP_FIXED` what was at the destination is gone. -/
def mremapCleared (s : Mm) (args : MremapArgs) (dest : Nat) : Mm :=
  if args.fixed then s.unmapRange dest (dest + pageUp args.newSize) else s

/-- Of `mremap`: when it fails every page of the old range is covered as before and has the entry it
had, and no frame has other contents. -/
def MremapKeeps (s : Mm) (args : MremapArgs) : Prop :=
  ∀ err, (s.sysMremap args).1 = .error err →
    (∀ p, InRange args.oldAddr args.oldSize p → pageMap (s.sysMremap args).2.owner.vmas p =
      pageMap s.owner.vmas p ∧
      (s.sysMremap args).2.pt.pteRead p = s.pt.pteRead p) ∧ (s.sysMremap args).2.frames.data =
        s.frames.data

/-- One node spans the destination and has the start of the old range after it. -/
def MremapShared (s : Mm) (args : MremapArgs) (dest : Nat) : Prop :=
  ∃ v ∈ s.owner.vmas, v.start < dest ∧ dest + pageUp args.newSize ≤ args.oldAddr ∧
    args.oldAddr < v.stop

/-- When `mremap` keeps the mapping if it fails. -/
structure MremapSafe (s : Mm) (args : MremapArgs) : Prop where
  /-- There is memory to split a node that the destination and the old range are both in. -/
  split : args.fixed = true → pageUp args.newSize ≠ 0 → s.MremapShared args args.newAddr →
    (kmalloc s.kmem).1 = true
  /-- A mapping that may be moved to grow is in too many nodes to be moved, or there is memory for
  nodes and it is not shared memory without a file that is sent to a fixed place. -/
  grow : pageUp args.oldSize < pageUp args.newSize → args.fixed = true ∨ args.mayMove = true →
    args.fixed = false ∧
        mremapMaxPieces < (mremapPieces args.oldAddr (pageUp args.oldSize) 0 s.owner.vmas).length ∨
      s.kmem.Plenty ∧ (args.fixed = true → ∀ last,
        find Vma.seg s.owner.vmas (args.oldAddr + pageUp args.oldSize - pageSize) = some last →
          last.flags.shared = true → last.file ≠ none)

theorem mremapBadDest_eq_none (hdest : dest < 2 ^ 32) (hnew : newSize < 2 ^ 32)
    (h : mremapBadDest old oldSize newSize dest = none) :
    userMinAddr ≤ dest ∧ pageSize ∣ dest ∧ dest + newSize ≤ userStackBase ∧
      (old + oldSize ≤ dest ∨ dest + newSize ≤ old) := by
  unfold mremapBadDest at h
  split at h
  · cases h
  next hlow =>
  split at h
  · cases h
  next hbad =>
  simp only [not_or, not_not, not_lt, not_and] at hbad
  obtain ⟨haligned, hwrap, hhigh, hover⟩ := hbad
  have hstop : u32 (dest + newSize) = dest + newSize := by
    rcases add_lt_of_le_u32 hdest hnew hwrap with ⟨-, heq⟩ | hzero
    · exact heq
    · rw [hzero, Nat.add_zero, u32_of_lt hdest]
  rw [hstop] at hhigh hover
  refine ⟨not_lt.mp hlow, Nat.dvd_of_mod_eq_zero haligned, hhigh, ?_⟩
  rcases lt_or_ge dest (old + oldSize) with hlt | hge
  · exact Or.inr (hover hlt)
  · exact Or.inl hge

theorem data_unmapPage (s : Mm) (p : Nat) : (s.unmapPage p).frames.data = s.frames.data := by
  unfold unmapPage
  split
  · exact Frames.data_decref
  · rfl

theorem data_unmapRange (s : Mm) (start stop : Nat) :
    (s.unmapRange start stop).frames.data = s.frames.data :=
  foldl_rel (R := fun a b => b.frames.data = a.frames.data) (fun _ => rfl)
    (fun _ _ _ h h' => h'.trans h) data_unmapPage _ _

theorem mremapExtend_false {start stop : Nat} (h : s.mremapExtend start stop t = (false, s')) :
    (t.sharedAnon = true ∨ (kmalloc s.kmem).1 = false) ∧ ∃ kmem, s' = { s with kmem } := by
  unfold mremapExtend at h
  split at h
  · next hanon =>
    cases h
    exact ⟨Or.inl hanon, s.kmem, rfl⟩
  · dsimp only at h
    split at h
    · cases h
    · next hnone =>
      cases h
      exact ⟨Or.inr (by simpa using hnone), _, rfl⟩

theorem NoVma.lookup {start stop x : Nat} (h : s.NoVma start stop) (hlo : start ≤ x)
    (hhi : x < stop) : lookup Vma.seg s.owner.vmas x = none := by
  refine lookup_eq_none.mpr fun v hv hhas => ?_
  obtain ⟨hvlo, hvhi⟩ : v.start ≤ x ∧ x < v.stop := hhas
  rcases h v hv with hle | hle <;> omega

/-- The pages from the start of a range on are in it. -/
theorem add_mem_pagesOf {len i : Nat} (hdvd : pageSize ∣ dest) (hlen : pageSize ∣ len)
    (hi : i < len / pageSize) : dest / pageSize + i ∈ pagesOf dest (dest + len) := by
  rw [mem_pagesOf hdvd (Nat.dvd_add hdvd hlen) (Nat.le_add_right dest len), Nat.add_mul,
    Nat.div_mul_cancel hdvd]
  have : i * pageSize < len := by rwa [Nat.lt_div_iff_mul_lt' hlen, Nat.mul_comm] at hi
  omega

theorem mremapGap_spec {newSize : Nat} (hnew : newSize < 2 ^ 32)
    (h : s.mremapGap newSize = some dest) :
    mmapFloor ≤ dest ∧ pageSize ∣ dest ∧ dest + newSize ≤ mmapTop ∧ s.NoPage dest (dest + newSize) ∧
      (Valid s.owner.vmas → s.NoVma dest (dest + newSize)) := by
  rcases Option.or_eq_some_iff.mp h with hfirst | ⟨-, hsecond⟩
  · refine vmaGapFind_spec hnew (pageSize_dvd_max ?_) hfirst
    split
    · exact ⟨256, rfl⟩
    · exact Nat.dvd_refl pageSize
  · exact vmaGapFind_spec hnew (Nat.dvd_refl pageSize) hsecond

variable (hvalid : Valid s.owner.vmas)

include hvalid

theorem lookup_unmapRange (r : PageRange) (x : Nat) :
    lookup Vma.seg (s.unmapRange r.start r.stop).owner.vmas x =
      if Removed s.owner.vmas (kmalloc s.kmem).1 r.start r.stop x then none
        else lookup Vma.seg s.owner.vmas x := by
  rw [unmapRange_vmas]
  exact lookup_vmaRemoveRange r hvalid s.kmem x

variable (hready : MremapReady s args t) (hnewAddr : args.newAddr < 2 ^ 32)

include hready hnewAddr

/-- The destination: whole pages apart from the old range, and free unless they are made so. -/
theorem mremapDest_spec (h : s.mremapDest args t = some dest) : pageSize ∣ dest ∧
    (args.oldAddr + pageUp args.oldSize ≤ dest ∨ dest + pageUp args.newSize ≤ args.oldAddr) ∧
    (args.fixed = false → s.NoPage dest (dest + pageUp args.newSize) ∧
      s.NoVma dest (dest + pageUp args.newSize)) := by
  unfold mremapDest at h
  by_cases hfixed : args.fixed = true
  · rw [if_pos hfixed] at h
    split at h
    · next hok =>
      cases h
      obtain ⟨-, hdvd, -, hapart⟩ :=
        mremapBadDest_eq_none hnewAddr (pageUp_lt args.newSize) (Option.isNone_iff_eq_none.mp hok)
      exact ⟨hdvd, hapart, by simp [hfixed]⟩
    · cases h
  rw [if_neg hfixed] at h
  split at h
  · cases h
  next hgrows =>
  split at h
  · cases h
  split at h
  · cases h
  obtain ⟨-, hdvd, -, hpages, hvmas⟩ := mremapGap_spec (pageUp_lt args.newSize) h
  refine ⟨hdvd, ?_, fun _ => ⟨hpages, hvmas hvalid⟩⟩
  -- the old range is covered and the gap is not, so they have no address in common
  by_contra hmeet
  have hold := (pageUp_bounds hready.le).1
  have hpos := hready.pos
  refine hready.covered (max args.oldAddr dest) (le_max_left _ _) (by omega) ?_
  exact (hvmas hvalid).lookup (le_max_right _ _) (by omega)

/-- Nothing is left at the destination when the mapping is moved there. -/
theorem movable_of_dest (hlen : 0 < min (pageUp args.oldSize) (pageUp args.newSize))
    (h : s.mremapDest args t = some dest) : Valid (s.mremapCleared args dest).owner.vmas ∧
      Movable (s.mremapCleared args dest) args.oldAddr
        (min (pageUp args.oldSize) (pageUp args.newSize)) dest := by
  have hmin : pageSize ∣ min (pageUp args.oldSize) (pageUp args.newSize) := by
    rcases le_total (pageUp args.oldSize) (pageUp args.newSize) with hle | hle
    · rw [min_eq_left hle]
      exact pageUp_dvd _
    · rw [min_eq_right hle]
      exact pageUp_dvd _
  obtain ⟨hdvd, hapart, hgap⟩ := mremapDest_spec hvalid hready hnewAddr h
  have hmem : ∀ i < min (pageUp args.oldSize) (pageUp args.newSize) / pageSize,
      dest / pageSize + i ∈ pagesOf dest (dest + pageUp args.newSize) := fun i hi =>
    add_mem_pagesOf hdvd (pageUp_dvd args.newSize)
      (lt_of_lt_of_le hi (Nat.div_le_div_right (min_le_right _ _)))
  unfold mremapCleared
  split
  · let r : PageRange :=
      ⟨dest, dest + pageUp args.newSize, by omega, hdvd, Nat.dvd_add hdvd (pageUp_dvd _)⟩
    refine ⟨?_, hready.dvd, hmin, hdvd, hlen, by omega, fun x hlo hhi => ?_, fun i hi => ?_⟩
    · rw [unmapRange_vmas]
      exact hvalid.vmaRemoveRange r s.kmem
    · rw [lookup_unmapRange hvalid r,
        if_pos ⟨hlo, Or.inl (by show x < dest + pageUp args.newSize; omega)⟩]
    · rw [unmapRange_owned, if_pos (hmem i hi)]
  · next hfixed =>
    obtain ⟨hpages, hvmas⟩ := hgap (by simpa using hfixed)
    exact ⟨hvalid, hready.dvd, hmin, hdvd, hlen, by omega, fun x hlo hhi =>
      hvmas.lookup hlo (by omega), fun i hi => PageTables.owned_eq_none.mpr (hpages _ (hmem i hi))⟩

/-! ## The exits -/

omit hvalid hready hnewAddr

/-- The call gets as far as moving the mapping. -/
structure MremapMove (s : Mm) (args : MremapArgs) (t : MremapTail) (dest : Nat) (ok : Bool)
    (s₁ : Mm) : Prop where
  dest_eq : s.mremapDest args t = some dest
  step : (s.mremapCleared args dest).mremapMove args.oldAddr
    (min (pageUp args.oldSize) (pageUp args.newSize)) dest = (ok, s₁)

/-- How a call ends that has passed the checks. -/
inductive MremapExit (s : Mm) (args : MremapArgs) (t : MremapTail) : Ret × Mm → Prop
  | fails {err : Errno} (kmem : Kmem) (hdest : s.mremapDest args t = none) :
  MremapExit s args t (.error err, { s with kmem })
  | shrinks (hle : pageUp args.newSize ≤ pageUp args.oldSize) :
      MremapExit s args t (.ok args.oldAddr,
      s.unmapRange (args.oldAddr + pageUp args.newSize) (args.oldAddr + pageUp args.oldSize))
  | grows {s₁ : Mm} (hlt : pageUp args.oldSize < pageUp args.newSize)
      (hroom : s.mremapRoom (args.oldAddr + pageUp args.oldSize)
        (pageUp args.newSize - pageUp args.oldSize) = true)
      (hext : s.mremapExtend (args.oldAddr + pageUp args.oldSize)
        (args.oldAddr + pageUp args.newSize) t = (true, s₁)) :
      MremapExit s args t (.ok args.oldAddr, s₁)
  | unmoved {dest : Nat} {s₁ : Mm} (hmove : MremapMove s args t dest false s₁) :
      MremapExit s args t (.error .enomem, s₁)
  /-- There is no memory for the extension: with `MREMAP_FIXED` the mapping stays at the
  destination, else it is unmapped. -/
  | lost {dest : Nat} {s₁ : Mm} (kmem : Kmem) (hmove : MremapMove s args t dest true s₁)
      (hlt : pageUp args.oldSize < pageUp args.newSize)
        (hext : t.sharedAnon = true ∨ (kmalloc s₁.kmem).1 = false) :
      MremapExit s args t (.error .enomem,
        if args.fixed then { s₁ with kmem }
          else { s₁ with kmem }.unmapRange dest (dest + pageUp args.newSize))
  | moves {dest : Nat} {s₁ s₂ : Mm} (hmove : MremapMove s args t dest true s₁)
      (hext : (if pageUp args.oldSize < pageUp args.newSize then
          s₁.mremapExtend (dest + pageUp args.oldSize) (dest + pageUp args.newSize) t
        else (true, s₁.unmapRange (args.oldAddr + pageUp args.newSize)
          (args.oldAddr + pageUp args.oldSize))) = (true, s₂)) :
      MremapExit s args t (.ok dest, s₂)

/-- Nothing is unmapped if the size stays the same. -/
theorem unmapRange_cut {n : Nat} (hle : newSize ≤ oldSize) :
    (if newSize < oldSize then s.unmapRange (n + newSize) (n + oldSize) else s) =
      s.unmapRange (n + newSize) (n + oldSize) := by
  split
  · rfl
  · rw [show newSize = oldSize by omega, unmapRange_self]

/-- `MREMAP_FIXED`. -/
theorem mremapFixed_exit (hfixed : args.fixed = true) : MremapExit s args t
    (s.mremapFixed args.oldAddr (pageUp args.oldSize) (pageUp args.newSize) args.newAddr t) := by
  unfold mremapFixed
  split
  · next hbad => exact .fails s.kmem (by simp [mremapDest, hfixed, hbad])
  next hok =>
  have hdest : s.mremapDest args t = some args.newAddr := by simp [mremapDest, hfixed, hok]
  rw [show s.unmapRange args.newAddr (args.newAddr + pageUp args.newSize) =
    s.mremapCleared args args.newAddr from
    (if_pos hfixed).symm]
  dsimp only
  split
  · next hmove => exact .unmoved ⟨hdest, hmove⟩
  next s₁ hmove =>
  rcases lt_or_ge (pageUp args.oldSize) (pageUp args.newSize) with hlt | hge
  · rw [min_eq_left hlt.le, if_neg (lt_irrefl _), if_pos hlt]
    split
    · next hext =>
      obtain ⟨hwhy, kmem, rfl⟩ := mremapExtend_false hext
      have hlost := MremapExit.lost kmem ⟨hdest, hmove⟩ hlt hwhy
      rwa [if_pos hfixed] at hlost
    · next hext => exact .moves ⟨hdest, hmove⟩ (by rwa [if_pos hlt])
  · rw [min_eq_right hge, if_neg (lt_irrefl _), unmapRange_cut hge]
    exact .moves ⟨hdest, hmove⟩ (by rw [if_neg (not_lt.mpr hge)])

/-- A mapping that grows. -/
theorem mremapGrow_exit (hfixed : args.fixed = false)
    (hlt : pageUp args.oldSize < pageUp args.newSize) : MremapExit s args t
    (s.mremapGrow args.oldAddr (pageUp args.oldSize) (pageUp args.newSize) args.mayMove t) := by
  have hgrows := not_le.mpr hlt
  unfold mremapGrow
  split
  · next hroom =>
    split
    · next hext =>
      obtain ⟨-, kmem, rfl⟩ := mremapExtend_false hext
      exact .fails kmem (by simp [mremapDest, hfixed, hgrows, hroom])
    · next hext => exact .grows hlt hroom.1 hext
  next hroom =>
  split
  · next hmay => exact .fails s.kmem (by simp [mremapDest, hfixed, hgrows, hroom, hmay])
  next hmay =>
  split
  · next hanon => exact .fails s.kmem (by simp [mremapDest, hfixed, hgrows, hanon])
  next hanon =>
  have hdest : s.mremapDest args t = s.mremapGap (pageUp args.newSize) := by
    unfold mremapDest
    rw [if_neg (by simp [hfixed]), if_neg hgrows, if_neg hroom, if_neg (not_or.mpr ⟨hmay, hanon⟩)]
  split
  · next hgap => exact .fails s.kmem (hdest.trans hgap)
  next dest hgap =>
  have hclear : s.mremapCleared args dest = s := by simp [mremapCleared, hfixed]
  have hto : ∀ {ok s₁}, s.mremapMove args.oldAddr (pageUp args.oldSize) dest = (ok, s₁) →
      MremapMove s args t dest ok s₁ :=
    fun hmove => ⟨hdest.trans hgap, by rwa [hclear, min_eq_left hlt.le]⟩
  unfold mremapTo
  split
  · next hmove => exact .unmoved (hto hmove)
  next hmove =>
  split
  · next hext =>
    obtain ⟨hwhy, kmem, rfl⟩ := mremapExtend_false hext
    have hlost := MremapExit.lost kmem (hto hmove) hlt hwhy
    rwa [if_neg (by simp [hfixed])] at hlost
  · next hext => exact .moves (hto hmove) (by rwa [if_pos hlt])

/-- **What `mremap` does** when it has passed the checks. -/
theorem sysMremap_exit (hstart : s.mremapStart args = .ok t) :
    MremapExit s args t (s.sysMremap args) := by
  unfold sysMremap
  rw [hstart]
  dsimp only
  split
  · next hfixed => exact mremapFixed_exit hfixed
  next hfixed =>
  split
  · next hle =>
    rw [unmapRange_cut hle]
    exact .shrinks hle
  · next hgrows => exact mremapGrow_exit (by simpa using hfixed) (not_le.mp hgrows)

include hvalid hready hnewAddr

/-- The old range after the destination has been made free and before anything is moved. -/
theorem cleared_keeps (h : s.mremapDest args t = some dest)
    (hmem : args.fixed = true → pageUp args.newSize ≠ 0 → s.MremapShared args dest →
      (kmalloc s.kmem).1 = true) :
    OldKept s (s.mremapCleared args dest) args := by
  obtain ⟨hdvd, hapart, -⟩ := mremapDest_spec hvalid hready hnewAddr h
  intro p hp
  obtain ⟨hplo, hphi⟩ := hready.range.mp hp
  unfold mremapCleared
  split
  case isFalse hfixed => exact ⟨rfl, rfl⟩
  next hfixed =>
  by_cases hzero : pageUp args.newSize = 0
  · rw [hzero, Nat.add_zero, unmapRange_self]
    exact ⟨rfl, rfl⟩
  let r : PageRange :=
    ⟨dest, dest + pageUp args.newSize, by omega, hdvd, Nat.dvd_add hdvd (pageUp_dvd _)⟩
  refine ⟨(lookup_unmapRange hvalid r (p * pageSize)).trans (if_neg ?_), ?_⟩
  · rintro ⟨hge, hlt | ⟨hfail, v, hv, hhas, hvlo, hvhi⟩⟩
    · have hge' : dest ≤ p * pageSize := hge
      have : p * pageSize < dest + pageUp args.newSize := hlt
      omega
    · obtain ⟨-, hpv⟩ : v.start ≤ p * pageSize ∧ p * pageSize < v.stop := hhas
      have hge' : dest ≤ p * pageSize := hge
      have hshared : s.MremapShared args dest := ⟨v, hv, hvlo, by omega, by omega⟩
      exact absurd (hfail.symm.trans (hmem hfixed hzero hshared)) Bool.noConfusion
  · rw [unmapRange_read, if_neg]
    rintro ⟨hmem', -⟩
    rw [mem_pagesOf hdvd (Nat.dvd_add hdvd (pageUp_dvd _)) (Nat.le_add_right _ _)] at hmem'
    omega

/-- A safe call does not move the mapping to find out then that it cannot grow. -/
theorem MremapSafe.not_lost (hsafe : MremapSafe s args) {s₁ : Mm}
    (hmove : MremapMove s args t dest true s₁)
    (hlt : pageUp args.oldSize < pageUp args.newSize)
    (hext : t.sharedAnon = true ∨ (kmalloc s₁.kmem).1 = false) : False := by
  have hold := (pageUp_bounds hready.le).1
  have hpos := hready.pos
  obtain ⟨hvalid', hmovable⟩ := movable_of_dest hvalid hready hnewAddr (by omega) hmove.dest_eq
  have hmoved := mremapMove_moved hvalid' hmovable hmove.step
  have hplenty : s.kmem.Plenty → t.sharedAnon = false → False := by
    intro hplenty hanon
    have hcleared : (s.mremapCleared args dest).kmem.Plenty := by
      unfold mremapCleared
      split
      · rw [unmapRange_kmem]
        exact removeRange_plenty _ _ hplenty
      · exact hplenty
    rcases hext with h | h
    · exact absurd (hanon.symm.trans h) (by decide)
    · exact absurd ((hmoved.plenty hcleared).first.symm.trans h) (by decide)
  have hdest := hmove.dest_eq
  unfold mremapDest at hdest
  by_cases hfixed : args.fixed = true
  · obtain ⟨hno, -⟩ | ⟨hk, htail⟩ := hsafe.grow hlt (Or.inl hfixed)
    · exact absurd (hfixed.symm.trans hno) (by decide)
    obtain ⟨last, hlast, rfl⟩ := hready.tail
    refine hplenty hk (Bool.eq_false_iff.mpr fun hanon => ?_)
    obtain ⟨hshared, hnone⟩ := Bool.and_eq_true_iff.mp hanon
    exact htail hfixed last hlast hshared (Option.isNone_iff_eq_none.mp hnone)
  · -- without a fixed place the call has looked at the tail before it moves anything
    rw [if_neg hfixed, if_neg (not_le.mpr hlt)] at hdest
    split at hdest
    · cases hdest
    split at hdest
    · cases hdest
    next hmay =>
    obtain ⟨hmay, hanon⟩ := not_or.mp hmay
    obtain ⟨-, hmany⟩ | ⟨hk, -⟩ := hsafe.grow hlt (Or.inr (by simpa using hmay))
    · have hstep := hmove.step
      unfold mremapMove mremapCleared at hstep
      have hlen : (mremapPieces args.oldAddr (pageUp args.oldSize) dest s.owner.vmas).length =
          (mremapPieces args.oldAddr (pageUp args.oldSize) 0 s.owner.vmas).length := by
            simp [mremapPieces]
      dsimp only at hstep
      rw [if_neg hfixed, min_eq_left hlt.le, hlen, if_pos hmany] at hstep
      cases hstep
    · exact hplenty hk (by simpa using hanon)

omit hvalid hready hnewAddr

theorem data_mremapCleared (s : Mm) (args : MremapArgs) (dest : Nat) :
    (s.mremapCleared args dest).frames.data = s.frames.data := by
  unfold mremapCleared
  split
  · exact data_unmapRange s _ _
  · rfl

/-- An address space with one shared page without a file, in frame 5. -/
def sharedPage : Mm :=
  { Mm.empty with
    owner :=
      ⟨[newVma 0x40000000 0x40001000 ⟨true, true, false⟩ ⟨true, false, false⟩ none 0 0], 0x40001000⟩
    pt := { Mm.empty.pt with
      table := fun _ => some 1
      entry :=
        fun p => if p = 0x40000 then ⟨pteFlagsFor ⟨true, true, false⟩ true, 5⟩ else Pte.zero } }

end Mm

end MaeroOS.Vm
