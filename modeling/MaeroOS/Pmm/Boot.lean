import MaeroOS.Pmm.Frames

/-!
# What is free after boot

`pmm_init` frees the available regions of the memory map, rounding them inwards, and then marks the
first MiB, the kernel, the bitmap, the multiboot information and the memory map as used again,
rounding outwards. So only RAM is free as long as no sum or frame number wraps (`ram_only_iff`): the
frames of a region from 16 TiB on are taken modulo 2^32, and a region to be marked that reaches up
to the last page below 4 GiB ends near frame 0.
-/

namespace MaeroOS.Pmm

namespace BootInfo

/-- The regions that `pmm_init` frees: with a memory map, its available entries. -/
def available (mb : BootInfo) : List (Nat × Nat) :=
  match mb.mmap, mb.mem with
  | some es, _ => (es.filter MmapEntry.available).map fun e => (e.addr, e.len)
  | none, some (lower, upper) =>
      [(0x1000, u64 (lower * 1024 + (2 ^ 64 - 0x1000))), (0x100000, upper * 1024)]
  | none, none => []

/-- The regions that it marks as used again. -/
def reserved (mb : BootInfo) : List (Nat × Nat) :=
  [(0, 0x100000), (mb.kernelStart, mb.kernelEnd - mb.kernelStart), (mb.bitmapPhys, mb.bitmapSize),
    (mb.mbiPhys, mbiSize)] ++ if mb.mmap.isSome then [(mb.mmapAddr, mb.mmapLength)] else []

end BootInfo

/-- The byte `x` is in the region. -/
def Within (r : Nat × Nat) (x : Nat) : Prop := r.1 ≤ x ∧ x < r.1 + r.2

/-- `pmm_free_region` frees frame `i`. -/
def Freed (r : Nat × Nat) (i : Nat) : Prop :=
  u32 (u64 (r.1 + pageSize - 1) / pageSize) ≤ i ∧ i < u32 (u64 (r.1 + r.2) / pageSize)

/-- `pmm_used_region` marks frame `i`. -/
def Marked (r : Nat × Nat) (i : Nat) : Prop :=
  r.1 / pageSize ≤ i ∧ i < u32 (r.1 + r.2 + pageSize - 1) / pageSize

instance (r : Nat × Nat) (x : Nat) : Decidable (Within r x) := inferInstanceAs (Decidable (_ ∧ _))

instance (r : Nat × Nat) (i : Nat) : Decidable (Freed r i) := inferInstanceAs (Decidable (_ ∧ _))

instance (r : Nat × Nat) (i : Nat) : Decidable (Marked r i) := inferInstanceAs (Decidable (_ ∧ _))

/-- The byte is in the region, and beyond the end that 32 bits leave of it. -/
def Missed (r : Nat × Nat) (x : Nat) : Prop :=
  Within r x ∧ 2 ^ 32 ≤ r.1 + r.2 + pageSize - 1 ∧ u32 (r.1 + r.2 + pageSize - 1) / pageSize ≤
    x / pageSize

/-! ## Rounding -/

variable {r : Nat × Nat} {i x : Nat}

/-- What is not marked of a region was missed. -/
theorem Within.missed_iff (h : Within r x) : Missed r x ↔ ¬ Marked r (x / pageSize) := by
  unfold Missed Marked u32 pageSize
  unfold Within at h ⊢
  omega

/-! ## The bits -/

namespace PmmState

variable {s : PmmState}

theorem usedRegion_clear : (s.usedRegion r.1 r.2).bitmap.test i = false ↔
    s.bitmap.test i = false ∧ ¬ (Marked r i ∧ i < s.total) := by
  rw [usedRegion, foldl_test fun _ _ _ => markUsed_test]
  simp only [mem_frames, Marked]
  grind

theorem used_clear (rs : List (Nat × Nat)) : ∀ {s : PmmState}, i < s.total →
    ((rs.foldl (fun s r => s.usedRegion r.1 r.2) s).bitmap.test i = false ↔
      s.bitmap.test i = false ∧ ∀ r ∈ rs, ¬ Marked r i) := by
  induction rs with
  | nil => simp
  | cons r rs ih =>
    intro s hi
    rw [List.foldl_cons, ih (by rwa [Kept.usedRegion.total]), usedRegion_clear,
      List.forall_mem_cons, and_assoc]
    simp only [hi, and_true]

theorem freed_clear (rs : List (Nat × Nat)) : ∀ {s : PmmState}, i < s.total →
    ((rs.foldl (fun s r => s.freeRegion r.1 r.2) s).bitmap.test i = false ↔
      s.bitmap.test i = false ∨ ∃ r ∈ rs, Freed r i) := by
  induction rs with
  | nil => simp
  | cons r rs ih =>
    intro s hi
    rw [List.foldl_cons, ih (by rwa [Kept.freeRegion.total]), freeRegion, foldl_test fun _ _ _ =>
      freeRam_test, List.exists_mem_cons_iff]
    simp only [mem_frames, Freed]
    grind

end PmmState

open PmmState

/-- Booting frees the one list of regions and marks the other. -/
theorem pmmInit_eq (mb : BootInfo) : pmmInit mb = mb.reserved.foldl
    (fun s r => s.usedRegion r.1 r.2)
    (mb.available.foldl (fun s r => s.freeRegion r.1 r.2) (full mb.total)) := by
  have hfree : ∀ s : PmmState,
      s.freeAvailable mb = mb.available.foldl (fun s r => s.freeRegion r.1 r.2) s := by
    intro s
    unfold freeAvailable BootInfo.available
    cases mb.mmap with
    | some es => rw [List.foldl_map, List.foldl_filter]
    | none =>
      cases mb.mem with
      | some mem => simp only [List.foldl_cons, List.foldl_nil]
      | none => rfl
  rw [← hfree]
  unfold pmmInit BootInfo.reserved
  split <;> rfl

theorem pmmInit_kept (mb : BootInfo) : Kept (full mb.total) (pmmInit mb) := by
  rw [pmmInit_eq]
  exact (Kept.foldl (fun _ _ => .freeRegion) _).trans (Kept.foldl (fun _ _ => .usedRegion) _)

/-- A frame is free after boot if it was freed and not marked again. -/
theorem pmmInit_clear (mb : BootInfo) (hi : i < mb.total) : (pmmInit mb).bitmap.test i = false ↔
    (∃ r ∈ mb.available, Freed r i) ∧ ∀ r ∈ mb.reserved, ¬ Marked r i := by
  have htotal := (Kept.foldl (fun _ _ => .freeRegion) mb.available : Kept (full mb.total)
    (mb.available.foldl (fun s r => s.freeRegion r.1 r.2) (full mb.total))).total
  rw [pmmInit_eq, used_clear _ (by rwa [htotal]), freed_clear _ hi, full_test hi]
  simp

/-- Every frame that is free after boot is RAM and none of the regions in use. -/
def BootExact (mb : BootInfo) : Prop :=
  ∀ x, x / pageSize < mb.total → (pmmInit mb).bitmap.test (x / pageSize) = false →
    (∃ r ∈ mb.available, Within r x) ∧ ∀ r ∈ mb.reserved, ¬ Within r x

/-- `pmm_reserve_region` leaves no frame of the region free. -/
def ReserveExact (s : PmmState) (phys size : Nat) : Prop :=
  ∀ x, Within (phys, size) x → x / pageSize < s.total →
    (s.pmmReserveRegion phys size).bitmap.test (x / pageSize) = true

/-- Booting is exact if what wraps does no harm. -/
theorem bootExact_iff (mb : BootInfo) : BootExact mb ↔
    (∀ f ∈ mb.available, 2 ^ 44 ≤ f.1 + pageSize - 1 → ∀ x, x / pageSize < mb.total →
      Freed f (x / pageSize) →
        (∃ r ∈ mb.available, Within r x) ∨ ∃ r ∈ mb.reserved, Marked r (x / pageSize)) ∧
    ∀ r ∈ mb.reserved, ∀ x, x / pageSize < mb.total → Missed r x →
      (∃ f ∈ mb.available, Freed f (x / pageSize)) → ∃ r ∈ mb.reserved,
        Marked r (x / pageSize) := by
  refine ⟨fun h => ⟨fun f hf _ x hx hfreed => ?_, fun r hr x hx hmiss hfreed => ?_⟩, ?_⟩
  · by_contra hno
    push Not at hno
    exact absurd (h x hx ((pmmInit_clear mb hx).mpr ⟨⟨f, hf, hfreed⟩, hno.2⟩)).1
      (by simpa using hno.1)
  · by_contra hno
    push Not at hno
    exact (h x hx ((pmmInit_clear mb hx).mpr ⟨hfreed, hno⟩)).2 r hr hmiss.1
  · rintro ⟨hfar, hmiss⟩ x hx hclear
    obtain ⟨⟨f, hf, hfreed⟩, hmarked⟩ := (pmmInit_clear mb hx).mp hclear
    refine ⟨?_, fun r hr hin => ?_⟩
    · by_cases hlow : f.1 + pageSize - 1 < 2 ^ 44
      · -- only frames that lie in the region as a whole are freed
        refine ⟨f, hf, ?_⟩
        unfold Freed u32 u64 pageSize at hfreed
        unfold pageSize at hlow
        unfold Within
        omega
      · refine (hfar f hf (by omega) x hx hfreed).resolve_right ?_
        rintro ⟨r, hr, hm⟩
        exact hmarked r hr hm
    · obtain ⟨r', hr', hm⟩ :=
        hmiss r hr x hx (hin.missed_iff.mpr (hmarked r hr)) ⟨f, hf, hfreed⟩
      exact hmarked r' hr' hm

theorem reserveExact_iff (s : PmmState) (phys size : Nat) : ReserveExact s phys size ↔
    ∀ x, Missed (phys, size) x → x / pageSize < s.total → s.bitmap.test (x / pageSize) = true := by
  refine forall_congr' fun x => ?_
  have hclear := usedRegion_clear (s := s) (r := (phys, size)) (i := x / pageSize)
  rw [← Bool.not_eq_false, pmmReserveRegion, hclear, ← Bool.not_eq_false]
  by_cases hin : Within (phys, size) x
  · rw [hin.missed_iff]
    tauto
  · exact ⟨fun _ hm => absurd hm.1 hin, fun _ h => absurd h hin⟩

/-- **Only RAM is free after boot, and a reserved region is not free**, exactly if what wraps does
no harm: the frames that a region from 16 TiB on is taken for are RAM or marked, and what is missed
of a region to be marked was not freed or is marked with another. -/
theorem ram_only_iff (mb : BootInfo) (s : PmmState) (phys size : Nat) :
    (BootExact mb ↔
      (∀ f ∈ mb.available, 2 ^ 44 ≤ f.1 + pageSize - 1 → ∀ x, x / pageSize < mb.total →
        Freed f (x / pageSize) →
        (∃ r ∈ mb.available, Within r x) ∨ ∃ r ∈ mb.reserved, Marked r (x / pageSize)) ∧
      ∀ r ∈ mb.reserved, ∀ x, x / pageSize < mb.total → Missed r x →
        (∃ f ∈ mb.available, Freed f (x / pageSize)) → ∃ r ∈ mb.reserved, Marked r (x / pageSize)) ∧
    (ReserveExact s phys size ↔
      ∀ x, Missed (phys, size) x → x / pageSize < s.total → s.bitmap.test (x / pageSize) = true) :=
  ⟨bootExact_iff mb, reserveExact_iff s phys size⟩

/-- Nothing wraps when no available region starts near or beyond 16 TiB and no region to be marked
reaches the last page below 4 GiB. -/
theorem ram_only_of_low {mb : BootInfo} {s : PmmState} {phys size : Nat}
    (hfree : ∀ f ∈ mb.available, f.1 + pageSize - 1 < 2 ^ 44)
    (hmark : ∀ r ∈ mb.reserved, r.1 + r.2 + pageSize - 1 < 2 ^ 32)
    (hreserve : phys + size + pageSize - 1 < 2 ^ 32) : BootExact mb ∧ ReserveExact s phys size := by
  refine ⟨(bootExact_iff mb).mpr ⟨fun f hf hfar => ?_, fun r hr x _ hmiss => ?_⟩, ?_⟩
  · exact absurd (hfree f hf) (by omega)
  · exact absurd (hmark r hr) (not_lt.mpr hmiss.2.1)
  · exact (reserveExact_iff s phys size).mpr fun x hmiss => absurd hreserve (not_lt.mpr hmiss.2.1)

/-- A machine with 64 KiB above the first MiB, half of it for the kernel. -/
def smallBoot : BootInfo where
  mem := none
  mmap := some [⟨0x100000, 0x10000, true⟩]
  mmapAddr := 0x9080
  mmapLength := 24
  mbiPhys := 0x9000
  kernelStart := 0x100000
  kernelEnd := 0x108000
  bitmapPhys := 0x107000
  pagingPae := false

/-- The same machine with a page of RAM two MiB above 16 TiB. -/
def farBoot : BootInfo :=
  { smallBoot with mmap := some [⟨0x100000, 0x10000, true⟩,
    ⟨2 ^ 44 + 0x200000, 0x1000, true⟩], mmapLength := 48 }

/-- It makes frame 512 free, where there is none; and the last page below 4 GiB cannot be
reserved. -/
theorem far_ram_freed : ¬ BootExact farBoot ∧
    ¬ ReserveExact ((full pmmLowFrames).markFree 0xFFFFF) 0xFFFFF000 0x1000 := by
  constructor
  · intro h
    have hclear := (pmmInit_clear farBoot (i := 0x200000 / pageSize) (by decide)).mpr (by decide)
    exact absurd (h 0x200000 (by decide) hclear).1 (by decide)
  · intro h
    have hclear : ((full pmmLowFrames).markFree 0xFFFFF).bitmap.test 0xFFFFF = false := by
      rw [markFree_test, if_pos rfl]
    have hstill :=
      (usedRegion_clear (r := (0xFFFFF000, 0x1000))).mpr ⟨hclear, fun hm => absurd hm.1 (by decide)⟩
    have hset := h 0xFFFFF000 (by decide) (by decide)
    exact Bool.false_ne_true (hstill.symm.trans hset)

end MaeroOS.Pmm
