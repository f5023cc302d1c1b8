import MaeroOS.Vm.Place

/-!
# What a call does to the mappings next to its range

A node that spans the range of `munmap`, `mprotect` or `mmap` has to be split, which takes a new
node. When there is no memory for it the functions go on without: `vma_remove_range` loses the part
after the range, `vma_protect_range` changes the protection of a part outside. And a length in the
last page of the address space is rounded up to nothing, so that `munmap` and `mprotect` succeed
without doing anything.

`neighbours_kept_iff` says exactly when none of this happens.
-/

namespace MaeroOS.Vm

open Lib Lib.Segments

variable {l : List Vma} {p addr len va : Nat} {r : PageRange} {ok : Bool} {m : Kmem}
  {length stop : Nat}

/-! ## Pages and ranges -/

/-- The page is one of `[addr, addr + len)`. -/
def InRange (addr len p : Nat) : Prop := addr ≤ p * pageSize ∧ p * pageSize < addr + len

instance : Decidable (InRange addr len p) := inferInstanceAs (Decidable (_ ∧ _))

/-- The whole pages of a range that does not wrap. -/
def PageRange.ofLength (addr len : Nat) (hdvd : pageSize ∣ addr) (hpos : 0 < len)
    (hlen : len ≤ 0xFFFFF000) : PageRange where
  start := addr
  stop := addr + pageUp len
  lt := Nat.lt_add_of_pos_right (Nat.lt_of_lt_of_le hpos (pageUp_bounds hlen).1)
  start_dvd := hdvd
  stop_dvd := Nat.dvd_add hdvd (pageUp_dvd len)

/-- A page is in the rounded range if it is in the range. -/
theorem PageRange.ofLength_has {hdvd : pageSize ∣ addr} {hpos : 0 < len} {hlen : len ≤ 0xFFFFF000} :
    (PageRange.ofLength addr len hdvd hpos hlen).Has p ↔ InRange addr len p := by
  obtain ⟨hle, hlt⟩ := pageUp_bounds hlen
  obtain ⟨n, hn⟩ := pageUp_dvd len
  obtain ⟨k, rfl⟩ := hdvd
  show _ * k ≤ p * pageSize ∧ p * pageSize < _ * k + pageUp len ↔
    _ * k ≤ p * pageSize ∧ p * pageSize < _ * k + len
  unfold pageSize at *
  omega

/-- The first page after a range. -/
theorem PageRange.stop_page (r : PageRange) : r.stop / pageSize * pageSize = r.stop :=
  Nat.div_mul_cancel r.stop_dvd

theorem PageRange.stop_not_has (r : PageRange) : ¬ r.Has (r.stop / pageSize) := by
  intro h
  have := h.2
  rw [r.stop_page] at this
  exact lt_irrefl _ this

/-- A node that spans the range has the page after it. -/
theorem pageMap_of_spans (h : Spans l r.start r.stop) : pageMap l (r.stop / pageSize) ≠ none := by
  obtain ⟨v, hv, hlo, hhi⟩ := h
  have hlt := r.lt
  unfold pageMap
  rw [r.stop_page]
  intro hnone
  exact lookup_eq_none.mp hnone v hv ⟨by show v.start ≤ r.stop; omega, hhi⟩

/-! ## Removing a range -/

theorem removed_iff (h : Spans l r.start r.stop → ok = true) :
    Removed l ok r.start r.stop (p * pageSize) ↔ r.Has p := by
  constructor
  · rintro ⟨hlo, hhi | ⟨hfail, v, hv, -, hspan⟩⟩
    · exact ⟨hlo, hhi⟩
    · exact absurd (hfail.symm.trans (h ⟨v, hv, hspan⟩)) Bool.noConfusion
  · exact fun hp => ⟨hp.1, Or.inl hp.2⟩

theorem removed_stop (h : Spans l r.start r.stop) : Removed l false r.start r.stop
    (r.stop / pageSize * pageSize) := by
  obtain ⟨v, hv, hlo, hhi⟩ := h
  have hlt := r.lt
  rw [r.stop_page]
  exact ⟨le_of_lt hlt, Or.inr ⟨rfl, v, hv, ⟨by show v.start ≤ r.stop; omega, hhi⟩, hlo, hhi⟩⟩

namespace Mm

variable {s s' : Mm}

variable (hvalid : Valid s.owner.vmas)

include hvalid

theorem pageMap_unmapRange (r : PageRange) (p : Nat) :
    pageMap (s.unmapRange r.start r.stop).owner.vmas p =
      if Removed s.owner.vmas (kmalloc s.kmem).1 r.start r.stop (p * pageSize) then none
        else pageMap s.owner.vmas p := by
  rw [unmapRange_vmas]
  exact lookup_vmaRemoveRange r hvalid s.kmem (p * pageSize)

theorem pageMap_unmapRange_has (h : r.Has p) :
    pageMap (s.unmapRange r.start r.stop).owner.vmas p = none := by
  rw [pageMap_unmapRange hvalid, if_pos ⟨h.1, Or.inl h.2⟩]

/-- Unmapping adds nothing to the map. -/
theorem pageMap_unmapRange_of_ne (h : pageMap (s.unmapRange r.start r.stop).owner.vmas p ≠ none) :
    pageMap (s.unmapRange r.start r.stop).owner.vmas p = pageMap s.owner.vmas p := by
  rw [pageMap_unmapRange hvalid] at h ⊢
  split
  · next hrem => exact absurd (if_pos hrem) h
  · rfl

/-- A split that fails takes the page after the range away. -/
theorem pageMap_unmapRange_stop (hspans : Spans s.owner.vmas r.start r.stop)
    (hfail : (kmalloc s.kmem).1 = false) :
    pageMap (s.unmapRange r.start r.stop).owner.vmas (r.stop / pageSize) = none := by
  rw [pageMap_unmapRange hvalid, hfail, if_pos (removed_stop hspans)]

/-- Unmapping a range keeps the other pages exactly if it can do the split it needs. -/
theorem unmapRange_kept_iff (r : PageRange) :
    (∀ p, ¬ r.Has p → pageMap (s.unmapRange r.start r.stop).owner.vmas p = pageMap s.owner.vmas p) ↔
      (Spans s.owner.vmas r.start r.stop → (kmalloc s.kmem).1 = true) := by
  constructor
  · intro hkept hspans
    by_contra hfail
    have hstop := hkept (r.stop / pageSize) r.stop_not_has
    rw [pageMap_unmapRange_stop hvalid hspans (by simpa using hfail)] at hstop
    exact pageMap_of_spans hspans hstop.symm
  · intro hok p hp
    rw [pageMap_unmapRange hvalid, if_neg fun hrem => hp ((removed_iff hok).mp hrem)]

omit hvalid

/-- The pages outside `[addr, addr + len)` are covered as before. -/
def SameOutside (s s' : Mm) (addr len : Nat) : Prop :=
  ∀ p, ¬ InRange addr len p → pageMap s'.owner.vmas p = pageMap s.owner.vmas p

theorem SameOutside.refl (s : Mm) (addr len : Nat) : SameOutside s s addr len := fun _ _ => rfl

/-! ## `munmap` -/

/-- Of `munmap`: it does not touch what is outside the range, and when it succeeds nothing is left
in it. -/
def MunmapKeeps (s : Mm) (addr len : Nat) : Prop :=
  SameOutside s (s.sysMunmap addr len).2 addr len ∧
    ((s.sysMunmap addr len).1 = .ok 0 → ∀ p, InRange addr len p →
      pageMap (s.sysMunmap addr len).2.owner.vmas p = none)

/-- When `munmap` does as it should, if it accepts its arguments: there is memory for a split that
is needed, or the length is rounded up to nothing and there is nothing to unmap. -/
def MunmapFits (s : Mm) (addr len : Nat) : Prop :=
  (s.sysMunmap addr len).1 = .ok 0 →
    (len ≤ 0xFFFFF000 → Spans s.owner.vmas addr (addr + pageUp len) → (kmalloc s.kmem).1 = true) ∧
      (0xFFFFF000 < len → ∀ p, InRange addr len p → pageMap s.owner.vmas p = none)

theorem sysMunmap_cases (s : Mm) (addr len : Nat) :
    (∃ err, s.sysMunmap addr len = (.error err, s)) ∨
      pageSize ∣ addr ∧ 0 < len ∧
        s.sysMunmap addr len = (.ok 0, s.unmapRange addr (addr + pageUp len)) := by
  unfold sysMunmap
  split
  · exact Or.inl ⟨_, rfl⟩
  next haligned =>
  split
  · exact Or.inl ⟨_, rfl⟩
  next hlen =>
  split
  · exact Or.inl ⟨_, rfl⟩
  · exact Or.inr ⟨Nat.dvd_of_mod_eq_zero (not_not.mp haligned), Nat.pos_of_ne_zero hlen, rfl⟩

/-- A range that is empty after rounding. -/
theorem unmapRange_self (s : Mm) (addr : Nat) : s.unmapRange addr addr = s := by
  unfold unmapRange unmapPages removeRange vmaRemoveRange pagesOf
  simp [pageSize, setVmas]

theorem munmap_keeps_iff (hvalid : Valid s.owner.vmas) (hlen : len < 2 ^ 32) :
    MunmapKeeps s addr len ↔ MunmapFits s addr len := by
  unfold MunmapKeeps MunmapFits
  obtain ⟨err, h⟩ | ⟨hdvd, hpos, h⟩ := s.sysMunmap_cases addr len
  · rw [h]
    exact ⟨fun _ hok => absurd hok nofun, fun _ => ⟨SameOutside.refl s addr len, nofun⟩⟩
  rw [h]
  by_cases hwrap : 0xFFFFF000 < len
  · rw [pageUp_wrap hwrap hlen, Nat.add_zero, unmapRange_self]
    constructor
    · exact fun hkeeps _ => ⟨fun hle => absurd hwrap (not_lt.mpr hle), fun _ => hkeeps.2 rfl⟩
    · exact fun hfits => ⟨SameOutside.refl s addr len, fun _ => (hfits rfl).2 hwrap⟩
  · have hle := not_lt.mp hwrap
    have hhas : ∀ {p}, (PageRange.ofLength addr len hdvd hpos hle).Has p ↔ InRange addr len p :=
      PageRange.ofLength_has
    have hkept := unmapRange_kept_iff hvalid (PageRange.ofLength addr len hdvd hpos hle)
    constructor
    · rintro ⟨houtside, -⟩ -
      exact ⟨fun _ => hkept.mp fun p hp => houtside p fun hin => hp (hhas.mpr hin), fun hlt =>
        absurd hlt hwrap⟩
    · intro hfits
      refine ⟨fun p hp => hkept.mpr ((hfits rfl).1 hle) p fun hin => hp (hhas.mp hin),
        fun _ p hp => ?_⟩
      exact pageMap_unmapRange_has (r := PageRange.ofLength addr len hdvd hpos hle) hvalid
        (hhas.mpr hp)

end Mm

/-! ## `mprotect` -/

section Protect

variable {prot : Prot} {x : PageAttr}

/-- What a node says of the protection of its addresses. -/
theorem prot_of_lookup {a : Nat} (h : lookup Vma.seg l a = some x) :
    ∃ v ∈ l, v.seg.Has a ∧ x.prot = v.prot := by
  obtain ⟨v, hfind, rfl⟩ := Option.map_eq_some_iff.mp h
  exact ⟨v, mem_of_find hfind, has_of_find hfind, rfl⟩

variable (hvalid : Valid l)

include hvalid

theorem pageMap_protect (r : PageRange) (m : Kmem) (prot : Prot) (p : Nat) :
    pageMap (vmaProtectRange l m r.start r.stop prot).1 p =
      (pageMap l p).map fun x =>
        if Repainted l (kmalloc m).1 (rightOk l m r.start prot) r.start r.stop (p * pageSize)
          then { x with prot } else x :=
  lookup_vmaProtectRange r hvalid m prot (p * pageSize)

/-- A page of the range gets the protection. -/
theorem pageMap_protect_has (h : r.Has p) (hx : pageMap l p = some x) :
    pageMap (vmaProtectRange l m r.start r.stop prot).1 p = some { x with prot } := by
  obtain ⟨v, hv, hhas, -⟩ := prot_of_lookup hx
  rw [pageMap_protect hvalid, hx, Option.map_some, if_pos]
  exact ⟨v, hv, hhas, lt_of_le_of_lt h.1 hhas.2, lt_of_le_of_lt hhas.1 h.2,
    Or.inr ⟨h.1, Or.inl h.2⟩⟩

/-- A page outside the range that is repainted is in a node that could not be split at an edge of
the range. -/
theorem straddles_of_repainted {okL okR : Bool} (hp : ¬ r.Has p) (hx : pageMap l p = some x)
    (hne : x.prot ≠ prot) (h : Repainted l okL okR r.start r.stop (p * pageSize)) :
    Straddles l r.start prot ∧ okL = false ∨ Straddles l r.stop prot ∧ okR = false := by
  obtain ⟨v, hv, hhas, hmeets, hbefore, hedge⟩ := h
  obtain ⟨w, hw, hwhas, hprot⟩ := prot_of_lookup hx
  obtain rfl : v = w := hvalid.ordered.unique hv hw hhas hwhas
  have hdiffers : v.prot ≠ prot := fun heq => hne (hprot.trans heq)
  rcases hedge with ⟨hleft, hfail⟩ | ⟨hge, hlt | ⟨hright, hfail⟩⟩
  · exact Or.inl ⟨⟨v, hv, hleft, hmeets, hdiffers⟩, hfail⟩
  · exact absurd ⟨hge, hlt⟩ hp
  · exact Or.inr ⟨⟨v, hv, hbefore, hright, hdiffers⟩, hfail⟩

/-- If a page is repainted though it must not be, its protection was the new one. -/
theorem prot_eq_of_kept {okL okR : Bool} {v : Vma} {a : Nat} (hv : v ∈ l) (hhas : v.seg.Has a)
    (hpaint : v.Repainted okL okR r.start r.stop a)
    (hkept : ((lookup Vma.seg l a).map fun x =>
      if Repainted l okL okR r.start r.stop a then { x with prot } else x) =
      lookup Vma.seg l a) : v.prot = prot := by
  rw [lookup_of_mem hvalid.ordered hv hhas, Option.map_some, if_pos ⟨v, hv, hhas, hpaint⟩] at hkept
  exact congrArg PageAttr.prot (Option.some.inj hkept).symm

theorem protect_kept_iff (r : PageRange) (m : Kmem) (prot : Prot) :
    (∀ p, ¬ r.Has p → pageMap (vmaProtectRange l m r.start r.stop prot).1 p = pageMap l p) ↔
      (Straddles l r.start prot → (kmalloc m).1 = true) ∧
        (Straddles l r.stop prot → rightOk l m r.start prot = true) := by
  have hlt := r.lt
  constructor
  · intro hkept
    constructor
    · rintro ⟨v, hv, hlo, hhi, hne⟩
      by_contra hfail
      -- the page before the range
      obtain ⟨k, hk⟩ := r.start_dvd
      obtain ⟨i, hi⟩ := (hvalid.ok v hv).start_dvd
      have hpage : (k - 1) * pageSize = r.start - pageSize := by
        rw [hk, Nat.sub_mul, Nat.mul_comm, Nat.one_mul]
      have hhas : v.seg.Has ((k - 1) * pageSize) := by
        rw [hpage, Vma.has_iff]
        unfold pageSize at *
        omega
      have hout : ¬ r.Has (k - 1) := by
        intro hin
        have := hin.1
        unfold pageSize at *
        omega
      have hsame := hkept (k - 1) hout
      rw [pageMap_protect hvalid] at hsame
      exact hne (prot_eq_of_kept hvalid hv hhas
        ⟨hhi, by omega, Or.inl ⟨hlo, by simpa using hfail⟩⟩ hsame)
    · rintro ⟨v, hv, hlo, hhi, hne⟩
      by_contra hfail
      have hsame := hkept (r.stop / pageSize) r.stop_not_has
      rw [pageMap_protect hvalid] at hsame
      have hhas : v.seg.Has (r.stop / pageSize * pageSize) := by
        rw [r.stop_page]
        exact ⟨le_of_lt hlo, hhi⟩
      refine hne (prot_eq_of_kept hvalid hv hhas
        ⟨by omega, hlo, Or.inr ⟨?_, Or.inr ⟨hhi, by simpa using hfail⟩⟩⟩ hsame)
      rw [r.stop_page]
      exact le_of_lt hlt
  · rintro ⟨hleft, hright⟩ p hp
    rw [pageMap_protect hvalid]
    cases hx : pageMap l p with
    | none => rfl
    | some x =>
      rw [Option.map_some]
      split
      · next hpaint =>
        by_cases hne : x.prot = prot
        · rw [← hne]
        rcases straddles_of_repainted hvalid hp hx hne hpaint with ⟨hs, hf⟩ | ⟨hs, hf⟩
        · exact absurd (hf.symm.trans (hleft hs)) Bool.noConfusion
        · exact absurd (hf.symm.trans (hright hs)) Bool.noConfusion
      · rfl

end Protect

namespace Mm

variable {s s' : Mm} {prot : Prot} {badProt : Bool}

/-- Of `mprotect`: it does not touch what is outside the range, and when it succeeds what is mapped
in it has the new protection. -/
def MprotectKeeps (s : Mm) (addr len : Nat) (prot : Prot) (badProt : Bool) : Prop :=
  SameOutside s (s.sysMprotect addr len prot badProt).2 addr len ∧
    ((s.sysMprotect addr len prot badProt).1 = .ok 0 → ∀ p x, InRange addr len p →
      pageMap s.owner.vmas p = some x →
      pageMap (s.sysMprotect addr len prot badProt).2.owner.vmas p =
        some { x with prot := protAdjust s.rie prot })

/-- When `mprotect` does as it should, if it accepts its arguments: there is memory for the splits
at both edges that are needed, or the length is rounded up to nothing and there is nothing to
change. -/
def MprotectFits (s : Mm) (addr len : Nat) (prot : Prot) (badProt : Bool) : Prop :=
  (s.sysMprotect addr len prot badProt).1 = .ok 0 →
    (0 < len → len ≤ 0xFFFFF000 →
      (Straddles s.owner.vmas addr (protAdjust s.rie prot) → (kmalloc s.kmem).1 = true) ∧
        (Straddles s.owner.vmas (addr + pageUp len) (protAdjust s.rie prot) →
          rightOk s.owner.vmas s.kmem addr (protAdjust s.rie prot) = true)) ∧
      (0xFFFFF000 < len → ∀ p x, InRange addr len p → pageMap s.owner.vmas p = some x →
        x.prot = protAdjust s.rie prot)

theorem sysMprotect_cases (s : Mm) (len : Nat) (prot : Prot) (badProt : Bool)
    (haddr : addr < 2 ^ 32) :
    (∃ ret, s.sysMprotect addr len prot badProt = (ret, s) ∧ (ret = .ok 0 → len = 0)) ∨
      pageSize ∣ addr ∧ 0 < len ∧ ∃ s',
        s.sysMprotect addr len prot badProt = (.ok 0, s') ∧ s'.owner.vmas =
          (vmaProtectRange s.owner.vmas s.kmem addr (addr + pageUp len)
            (protAdjust s.rie prot)).1 := by
  unfold sysMprotect
  dsimp only
  split
  · exact Or.inl ⟨_, rfl, nofun⟩
  next haligned =>
  split
  · next hzero => exact Or.inl ⟨_, rfl, fun _ => hzero⟩
  next hne =>
  split
  · exact Or.inl ⟨_, rfl, nofun⟩
  split
  · exact Or.inl ⟨_, rfl, nofun⟩
  next hend =>
  have hup : pageUp len < 2 ^ 32 :=
    lt_of_le_of_lt (Nat.div_mul_le_self _ _) (Nat.mod_lt _ (by decide))
  have hstop : u32 (addr + pageUp len) = addr + pageUp len := by
    rcases add_lt_of_le_u32 haddr hup (not_lt.mp (not_or.mp hend).1) with ⟨-, heq⟩ | hzero
    · exact heq
    · rw [hzero, Nat.add_zero, u32_of_lt haddr]
  split
  · exact Or.inl ⟨_, rfl, nofun⟩
  refine Or.inr ⟨Nat.dvd_of_mod_eq_zero (not_not.mp haligned), Nat.pos_of_ne_zero hne, _, rfl, ?_⟩
  rw [hstop, (foldl_rel Keeps.refl (fun _ _ _ => Keeps.trans) (Keeps.pteApplyProt _) _ _).owner]
  rfl

theorem mprotect_keeps_iff (hvalid : Valid s.owner.vmas) (haddr : addr < 2 ^ 32)
    (hlen : len < 2 ^ 32) :
    MprotectKeeps s addr len prot badProt ↔ MprotectFits s addr len prot badProt := by
  unfold MprotectKeeps MprotectFits
  obtain ⟨ret, h, hzero⟩ | ⟨hdvd, hpos, s', h, hvmas⟩ := s.sysMprotect_cases len prot badProt haddr
  · rw [h]
    constructor
    · intro _ hok
      have := hzero hok
      exact ⟨fun hpos => absurd hpos (by omega), fun hlt => absurd hlt (by omega)⟩
    · intro _
      refine ⟨SameOutside.refl s addr len, fun hok p x hp => ?_⟩
      have := hp.1
      have := hp.2
      have := hzero hok
      omega
  rw [h]
  unfold SameOutside
  rw [hvmas]
  by_cases hwrap : 0xFFFFF000 < len
  · have hsame : (vmaProtectRange s.owner.vmas s.kmem addr (addr + pageUp len)
        (protAdjust s.rie prot)).1 = s.owner.vmas := by
      rw [pageUp_wrap hwrap hlen]
      simp [vmaProtectRange]
    rw [hsame]
    constructor
    · rintro ⟨-, hprot⟩ -
      refine ⟨fun _ hle => absurd hwrap (not_lt.mpr hle), fun _ p x hp hx => ?_⟩
      have heq := (hprot rfl p x hp hx).symm.trans hx
      exact (congrArg PageAttr.prot (Option.some.inj heq)).symm
    · intro hfits
      refine ⟨fun _ _ => rfl, fun _ p x hp hx => ?_⟩
      rw [hx, ← (hfits rfl).2 hwrap p x hp hx]
  · have hle := not_lt.mp hwrap
    have hhas : ∀ {p}, (PageRange.ofLength addr len hdvd hpos hle).Has p ↔ InRange addr len p :=
      PageRange.ofLength_has
    have hkept :=
      protect_kept_iff hvalid (PageRange.ofLength addr len hdvd hpos hle) s.kmem
        (protAdjust s.rie prot)
    constructor
    · rintro ⟨houtside, -⟩ -
      exact ⟨fun _ _ => hkept.mp fun p hp => houtside p fun hin => hp (hhas.mpr hin), fun hlt =>
        absurd hlt hwrap⟩
    · intro hfits
      refine ⟨fun p hp => hkept.mpr ((hfits rfl).1 hpos hle) p fun hin => hp (hhas.mp hin),
        fun _ p x hp hx => ?_⟩
      exact pageMap_protect_has (r := PageRange.ofLength addr len hdvd hpos hle) hvalid
        (hhas.mpr hp) hx

/-! ## `mmap` -/

end Mm

/-- What the second half of `mmap` has done to the list: with an error nothing, and before it is
undone it has added a shared mapping of the range that is to be unmapped, which is not longer than
the one it was given. -/
def MmapEnd.From (s : Mm) (va length : Nat) (prot : Prot) : MmapEnd → Prop
  | .done (.ok _) _ => True
  | .done (.error _) s' => s'.owner = s.owner
  | .undo va' stop s' => va' = va ∧ va < stop ∧ stop ≤ va + length ∧ pageSize ∣ stop ∧
      (∃ v : Vma, v.start = va ∧ v.stop = stop ∧ v.prot = prot ∧ v.flags.shared = true ∧
        s'.owner = vmaInsert s.owner v) ∧
      (s.kmem.Plenty → s'.kmem.Plenty)

namespace Mm

variable {s s' s₁ : Mm} {a : MmapArgs} {fd : Option FdInfo} {prot : Prot} {badProt : Bool}

/-- A shared mapping has been recorded. -/
structure Recorded (s s' : Mm) (va stop : Nat) (prot : Prot) (v : Vma) : Prop where
  lt : va < stop
  start : v.start = va
  stop : v.stop = stop
  prot : v.prot = prot
  owner : s'.owner = vmaInsert s.owner v
  plenty : s.kmem.Plenty → s'.kmem.Plenty

theorem Recorded.mapOrUndo_from {v : Vma} {one : Nat → Mm → Bool × Mm}
    (hone : ∀ i s, Keeps s (one i s).2)
    (h : Recorded s s₁ va stop prot v) (hshared : v.flags.shared = true) (hle : stop ≤ va + length)
    (hdvd : pageSize ∣ stop) : (s₁.mapOrUndo va stop one).From s va length prot := by
  unfold mapOrUndo
  have hloop := Keeps.mapLoop hone (List.range ((stop - va) / pageSize)) s₁
  generalize mapLoop one (List.range ((stop - va) / pageSize)) s₁ = res at hloop
  obtain ⟨ok, s₂⟩ := res
  cases ok with
  | true => exact trivial
  | false =>
    exact ⟨rfl, h.lt, hle, hdvd, ⟨v, h.start, h.stop, h.prot, hshared, hloop.owner.trans h.owner⟩,
      hloop.plenty ∘ h.plenty⟩

/-- A mapping that is recorded and then populated. -/
theorem addVma_from {flags : VmaFlags} {file : Option Nat} {off : BitVec 64} {k : Mm → MmapEnd}
    (howner : s₁.owner = s.owner) (hplenty : s.kmem.Plenty → s₁.kmem.Plenty)
    (hnext : ∀ v s₂, Recorded s s₂ va stop prot v → v.flags = flags →
      (k s₂).From s va length prot) :
    (match s₁.addVma va stop prot flags file off with
      | (false, s) => MmapEnd.done (.error .enomem) s
      | (true, s) => k s).From s va length prot := by
  unfold addVma vmaAdd
  split_ifs with hempty
  · exact howner
  unfold vmaAlloc
  rcases hmem : kmalloc s₁.kmem with ⟨ok, kmem⟩
  cases ok with
  | false => exact howner
  | true =>
    refine hnext _ _ ⟨not_le.mp hempty, rfl, rfl, rfl, congrArg (vmaInsert · _) howner,
      fun h => ?_⟩ rfl
    have := (hplenty h).rest
    rwa [hmem] at this

theorem mmapAt_from (s : Mm) (a : MmapArgs) (fd : Option FdInfo) (hva : pageSize ∣ va) :
    (s.mmapAt a fd va).From s va (pageUp a.length) (protAdjust s.rie a.prot) := by
  have hend : pageSize ∣ va + pageUp a.length := Nat.dvd_add hva (pageUp_dvd a.length)
  have hprivate : ∀ prot file pgoff,
      (s.mmapPrivate va (pageUp a.length) prot file pgoff).From s va (pageUp a.length) prot := by
    intro prot file pgoff
    exact addVma_from (k := fun s => .done (.ok va) s) rfl id fun _ _ _ _ => trivial
  unfold mmapAt
  cases fd with
  | none =>
    dsimp only
    split
    · refine addVma_from rfl id fun v s₂ hrec hflags => ?_
      exact hrec.mapOrUndo_from (fun i s => Keeps.mapFresh s _ _ _) (by rw [hflags]) le_rfl hend
    · exact hprivate _ _ _
  | some fd =>
    dsimp only
    split
    · -- the framebuffer may be shorter than what was asked for
      unfold mmapFb0
      split
      · rfl
      refine addVma_from rfl id fun v s₂ hrec hflags => ?_
      have hmin : pageSize ∣ min (pageUp a.length) (pageUp s.fb.size) := by
        rcases le_total (pageUp a.length) (pageUp s.fb.size) with hle | hle
        · rw [min_eq_left hle]
          exact pageUp_dvd a.length
        · rw [min_eq_right hle]
          exact pageUp_dvd s.fb.size
      exact hrec.mapOrUndo_from (fun i s => Keeps.mapFb0Page s _ _ _ i) (by rw [hflags])
        (Nat.add_le_add_left (min_le_left _ _) va) (Nat.dvd_add hva hmin)
    · split
      · unfold mmapShared
        have hget := Keeps.shmapGet s fd.node
        generalize s.shmapGet fd.node = found at hget
        obtain ⟨slot, s₁⟩ := found
        cases slot with
        | none => exact hget.owner
        | some slot =>
          refine addVma_from ?_ ?_ fun v s₂ hrec hflags => ?_
          · split
            · exact hget.owner
            · exact hget.owner
          · split
            · exact hget.plenty
            · exact hget.plenty
          · exact hrec.mapOrUndo_from (fun i s => Keeps.mapSharedPage s _ _ _ _ _ i)
              (by rw [hflags]) le_rfl hend
      · exact hprivate _ _ _

theorem mmapPlace_error {err : Errno} (h : s.mmapPlace a length = (.error err, s₁)) : s₁ = s := by
  unfold mmapPlace at h
  dsimp only at h
  split at h
  · split_ifs at h <;> first | (cases h; rfl) | cases h
  split at h
  · cases h
  split at h
  · cases h
  · cases h
    rfl

theorem mmapStart_cases (s : Mm) (a : MmapArgs) : (∃ err, s.mmapStart a = (.error err, s)) ∨
      ∃ fd va s₁, 0 < a.length ∧ a.length ≤ kernelVma ∧ s.mmapPlace a (pageUp a.length) =
        (.ok va, s₁) ∧ s.mmapStart a = (.ok (fd, va), s₁) := by
  unfold mmapStart
  split
  · exact Or.inl ⟨_, rfl⟩
  next hzero =>
  split
  · exact Or.inl ⟨_, rfl⟩
  next hlong =>
  split
  · exact Or.inl ⟨_, rfl⟩
  next fd _ =>
  rcases hplace : s.mmapPlace a (pageUp a.length) with ⟨ret, s₁⟩
  cases ret with
  | error err =>
    rw [mmapPlace_error hplace]
    exact Or.inl ⟨err, rfl⟩
  | ok va => exact Or.inr ⟨fd, va, s₁, Nat.pos_of_ne_zero hzero, not_lt.mp hlong, rfl, rfl⟩

/-- The list after the choice of the address: nothing is left in the range, nothing is new, and what
is outside is kept if the split that `MAP_FIXED` may need can be done. -/
theorem pageMap_place {r : PageRange} (hvalid : Valid s.owner.vmas)
    (hfree : mmapReplaces a = false → s₁.NoVma r.start r.stop)
    (h : s₁ = if mmapReplaces a then s.unmapRange r.start r.stop else s) :
    Valid s₁.owner.vmas ∧ (∀ p, r.Has p → pageMap s₁.owner.vmas p = none) ∧
      (∀ p, pageMap s₁.owner.vmas p ≠ none → pageMap s₁.owner.vmas p = pageMap s.owner.vmas p) ∧
      ((∀ p, ¬ r.Has p → pageMap s₁.owner.vmas p = pageMap s.owner.vmas p) ↔
        (mmapReplaces a = true → Spans s.owner.vmas r.start r.stop →
          (kmalloc s.kmem).1 = true)) := by
  by_cases hreplaces : mmapReplaces a = true
  · rw [if_pos hreplaces] at h
    subst h
    refine ⟨?_, fun p hp => pageMap_unmapRange_has hvalid hp, fun p hne =>
      pageMap_unmapRange_of_ne hvalid hne, ?_⟩
    · rw [unmapRange_vmas]
      exact hvalid.vmaRemoveRange r s.kmem
    · simpa [hreplaces] using unmapRange_kept_iff hvalid r
  · rw [if_neg hreplaces] at h
    subst h
    refine ⟨hvalid, fun p hp => ?_, fun _ _ => rfl, fun _ hrep => absurd hrep hreplaces,
      fun _ _ _ => rfl⟩
    refine lookup_eq_none.mpr fun v hv hhas => ?_
    obtain ⟨hlo, hhi⟩ : v.start ≤ p * pageSize ∧ p * pageSize < v.stop := hhas
    obtain ⟨hplo, hphi⟩ := hp
    rcases hfree (by simpa using hreplaces) v hv with hle | hle <;> omega

/-- The list with the new range in it. -/
theorem pageMap_insert {v : Vma} {o : Owner} (hvalid : Valid o.vmas) (hstart : v.start = r.start)
    (hstop : v.stop = r.stop) (hfree : ∀ p, r.Has p → pageMap o.vmas p = none) :
    Valid (vmaInsert o v).vmas ∧ ∀ p, ¬ r.Has p →
      pageMap (vmaInsert o v).vmas p = pageMap o.vmas p := by
  obtain ⟨hvalid', hlookup⟩ := vmaInsert_of_free hvalid hstart hstop hfree
  refine ⟨hvalid', fun p hp => (hlookup (p * pageSize)).trans (if_neg fun hhas => hp ?_)⟩
  rwa [Vma.has_iff, hstart, hstop] at hhas

/-- Of `mmap`: when it fails the pages outside the range it chose, and all pages if it did not come
to that, are covered as before. -/
def MmapKeeps (s : Mm) (a : MmapArgs) : Prop :=
  ∀ err, (s.sysMmap2 a).1 = .error err → ∀ p,
    (∀ fd va, (s.mmapStart a).1 = .ok (fd, va) → ¬ InRange va a.length p) →
      pageMap (s.sysMmap2 a).2.owner.vmas p = pageMap s.owner.vmas p

/-- The pages before and after the range are shared and have the protection that is asked for. -/
def Joins (s : Mm) (a : MmapArgs) (va : Nat) : Prop :=
  ∃ x y, pageMap s.owner.vmas (va / pageSize - 1) = some x ∧
    pageMap s.owner.vmas ((va + pageUp a.length) / pageSize) = some y ∧
    ∀ z ∈ [x, y], z.prot = protAdjust s.rie a.prot ∧ z.flags.shared = true

/-- When `mmap` keeps its neighbours if it fails. -/
structure MmapFits (s : Mm) (a : MmapArgs) : Prop where
  /-- There is memory for the split of what it replaces. -/
  replace : mmapReplaces a = true → Spans s.owner.vmas a.addr (a.addr + pageUp a.length) →
      (kmalloc s.kmem).1 = true
  /-- There is memory for nodes, or the new range is not merged with its neighbours on both
  sides. -/
  undo : s.kmem.Plenty ∨ ∀ fd va, (s.mmapStart a).1 = .ok (fd, va) → ¬ s.Joins a va

theorem mmapPlace_replaces (hrep : mmapReplaces a = true)
    (h : s.mmapPlace a length = (.ok va, s₁)) : va = a.addr := by
  obtain ⟨hfixed, -⟩ : a.fixed = true ∧ a.noreplace = false := by simpa [mmapReplaces] using hrep
  unfold mmapPlace at h
  rw [if_pos (Or.inl hfixed)] at h
  split_ifs at h <;> cases h <;> rfl

/-- The node that spans a range that has been inserted is that of the pages before and after it. -/
theorem joins_of_spans {v : Vma} {o : Owner} (hvalid : Valid o.vmas) (hstart : v.start = r.start)
    (hstop : v.stop = r.stop)
    (hfree : ∀ p, r.Has p → pageMap o.vmas p = none)
    (hspans : Spans (vmaInsert o v).vmas r.start r.stop) :
    ∃ x y, pageMap o.vmas (r.start / pageSize - 1) = some x ∧
      pageMap o.vmas (r.stop / pageSize) = some y ∧
      ∀ z ∈ [x, y], z.prot = v.prot ∧ z.flags = v.flags := by
  obtain ⟨hvalid', hlookup⟩ := vmaInsert_of_free hvalid hstart hstop hfree
  obtain ⟨w, hw, hlo, hhi⟩ := hspans
  have hwok := hvalid'.ok w hw
  have hlt := r.lt
  have hin : ∀ a, w.start ≤ a → a < w.stop →
      lookup Vma.seg (vmaInsert o v).vmas a = some (w.attrAt a) := fun a hlo hhi =>
    lookup_of_mem hvalid'.ordered hw ⟨hlo, hhi⟩
  -- at the start of the range the node has the attributes of `v`
  have hsame : w.attrAt r.start = v.attrAt r.start := by
    have := hin r.start hlo.le (hlt.trans hhi)
    rw [hlookup, if_pos ⟨hstart.le, hlt.trans_eq hstop.symm⟩] at this
    exact (Option.some.inj this).symm
  have hprot : w.prot = v.prot := congrArg PageAttr.prot hsame
  have hflags : w.flags = v.flags := congrArg PageAttr.flags hsame
  have hout : ∀ a, w.start ≤ a → a < w.stop → ¬ (r.start ≤ a ∧ a < r.stop) →
      lookup Vma.seg o.vmas a = some (w.attrAt a) := by
    intro a hlo hhi hnot
    have := hin a hlo hhi
    rwa [hlookup, if_neg] at this
    rintro ⟨h₁, h₂⟩
    exact hnot ⟨hstart ▸ h₁, hstop ▸ h₂⟩
  obtain ⟨i, hi⟩ := hwok.start_dvd
  obtain ⟨j, hj⟩ := r.start_dvd
  obtain ⟨k, hk⟩ := r.stop_dvd
  refine ⟨_, _, hout ((r.start / pageSize - 1) * pageSize) ?_ ?_ ?_,
    hout (r.stop / pageSize * pageSize) ?_ ?_ ?_, ?_⟩
  all_goals unfold pageSize at *
  · omega
  · omega
  · omega
  · omega
  · omega
  · omega
  · simp [Vma.attrAt, hprot, hflags]

/-- **A failing `mmap` keeps its neighbours.** -/
theorem mmap_keeps (hvalid : Valid s.owner.vmas) (haddr : a.addr < 2 ^ 32) (hfits : MmapFits s a) :
    MmapKeeps s a := by
  unfold MmapKeeps sysMmap2 mmapRun
  obtain ⟨err, h⟩ | ⟨fd, va, s₁, hpos, hlong, hplace, h⟩ := s.mmapStart_cases a
  · rw [h]
    exact fun _ _ _ _ => rfl
  have hundo : s.kmem.Plenty ∨ ¬ s.Joins a va :=
    hfits.undo.imp_right fun hno => hno fd va (congrArg Prod.fst h)
  rw [h]
  intro err herr p hp
  replace hp := hp fd va rfl
  have hle : a.length ≤ 0xFFFFF000 := le_trans hlong (by decide)
  have hup := pageUp_bounds hle
  have hplaced :=
    mmapPlace_spec haddr (lt_of_lt_of_le hpos hup.1)
      (by unfold kernelVma pageSize at *; omega) hplace
  obtain ⟨⟨hdvd, -, -, -⟩, hfree, hs₁⟩ := hplaced
  let r := PageRange.ofLength va a.length hdvd hpos hle
  rw [← (PageRange.ofLength_has : r.Has p ↔ InRange va a.length p)] at hp
  obtain ⟨hvalid₁, hin, hsub, hkept⟩ := pageMap_place (r := r) hvalid (hfree hvalid) hs₁
  have hplaceOk := hkept.mpr fun hrep hspans => by
    refine hfits.replace hrep ?_
    rw [← mmapPlace_replaces hrep hplace]
    exact hspans
  have hrie : s₁.rie = s.rie := by
    rw [hs₁]
    split
    · exact (Keeps.unmapPages _ _ _).rie
    · rfl
  have hplenty : s.kmem.Plenty → s₁.kmem.Plenty := by
    intro h
    rw [hs₁]
    split
    · rw [unmapRange_kmem]
      exact removeRange_plenty _ _ h
    · exact h
  have hfrom := mmapAt_from s₁ a fd hdvd
  change (s₁.mmapAt a fd va).finish.1 = _ at herr
  show pageMap (s₁.mmapAt a fd va).finish.2.owner.vmas p = _
  generalize s₁.mmapAt a fd va = res at hfrom herr
  cases res with
  | done ret s₂ =>
    cases ret with
    | ok va => cases herr
    | error err =>
      have howner : s₂.owner = s₁.owner := hfrom
      show pageMap s₂.owner.vmas p = _
      rw [howner]
      exact hplaceOk p hp
  | undo va' stop s₂ =>
    obtain ⟨rfl, hlt, hstop, hstopDvd, ⟨v, hv, hv', hprot, hshared, howner⟩, hplenty'⟩ := hfrom
    let r' : PageRange := ⟨va', stop, hlt, hdvd, hstopDvd⟩
    have hsubset : ∀ {p}, r'.Has p → r.Has p := fun hp => ⟨hp.1, lt_of_lt_of_le hp.2 hstop⟩
    have hfree' : ∀ p, r'.Has p → pageMap s₁.owner.vmas p = none := fun p hp => hin p (hsubset hp)
    obtain ⟨hvalid₂, hsame⟩ := pageMap_insert (r := r') hvalid₁ hv hv' hfree'
    have hp' : ¬ r'.Has p := fun hin' => hp (hsubset hin')
    rw [← howner] at hvalid₂ hsame
    refine ((unmapRange_kept_iff hvalid₂ r').mpr (fun hspans => ?_) p hp').trans
      ((hsame p hp').trans (hplaceOk p hp))
    refine (hplenty' (hplenty (hundo.resolve_right (not_not.mpr ?_)))).first
    -- what is merged on both sides was there before the call
    rw [howner] at hspans
    obtain ⟨x, y, hx, hy, hboth⟩ := joins_of_spans (r := r') hvalid₁ hv hv' hfree' hspans
    have hend : stop = va' + pageUp a.length := by
      by_contra hne
      have hcut : r.Has (stop / pageSize) := by
        rw [PageRange.Has, Nat.div_mul_cancel hstopDvd]
        exact ⟨hlt.le, lt_of_le_of_ne hstop hne⟩
      rw [hin _ hcut] at hy
      cases hy
    rw [hsub _ (by rw [hx]; exact Option.some_ne_none x)] at hx
    rw [hsub _ (by rw [hy]; exact Option.some_ne_none y)] at hy
    refine ⟨x, y, hx, hend ▸ hy, fun z hz => ?_⟩
    obtain ⟨hzprot, hzflags⟩ := hboth z hz
    rw [hzprot, hzflags, hprot, hrie]
    exact ⟨rfl, hshared⟩

/-- An address space with one private mapping of three pages, and no other memory. -/
def threePages (kmem : Kmem) : Mm :=
  { Mm.empty with
    owner := ⟨[newVma 0x40000000 0x40003000 ⟨true, true, false⟩ .none none 0 0], 0x40003000⟩
    kmem }

theorem threePages_valid (kmem : Kmem) : Valid (threePages kmem).owner.vmas :=
  Valid.single ⟨by decide, by decide, by decide⟩

end Mm

end MaeroOS.Vm
