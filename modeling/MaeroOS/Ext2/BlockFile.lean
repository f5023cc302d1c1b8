import MaeroOS.Ext2.BlockGrow

/-!
# Looking up and mapping the blocks of a file

The fifteen slots of an inode are a forest: twelve trees of level 0, and one each of level 1, 2 and
3. `ext2_file_blk` looks an index up in it (`fileBlk_eq`), whichever way it computes the entries.
`ext2_file_blk_alloc` grows one tree of it (`fileBlkAlloc_spec`).
-/

namespace MaeroOS.Ext2.BlockMap

open Lib.PtrTree

variable {geo : Geometry} {alloc : Allocator geo} {d d' : Disk} {ino ino' : Inode}
  {s off idx b e x k : Nat}

/-! ## Slots -/

/-- The level of the tree in a slot of `i_block`. -/
def slotLevel (s : Nat) : Nat := s - 11

/-- Its first file block. -/
def slotBase (geo : Geometry) (s : Nat) : Nat :=
  if s = 13 then 12 + geo.ppb else if s = 14 then 12 + geo.ppb + geo.ppb ^ 2 else s

/-- The file blocks there are. -/
def maxBlocks (geo : Geometry) : Nat := 12 + geo.ppb + geo.ppb ^ 2 + geo.ppb ^ 3

/-- All blocks of a file, data and tables. -/
def fileBlocks (geo : Geometry) (d : Disk) (ino : Inode) : List Nat :=
  forest geo.ppb (entry d) 15 slotLevel ino.slot

/-- The slot of a file block, and its index there. -/
def place (geo : Geometry) (idx : Nat) : Nat × Nat :=
  if idx < 12 then (idx, 0)
  else if idx < 12 + geo.ppb then (12, idx - 12)
  else if idx < 12 + geo.ppb + geo.ppb ^ 2 then (13, idx - (12 + geo.ppb))
  else (14, idx - (12 + geo.ppb + geo.ppb ^ 2))

/-- The pointer blocks on the way to a file block, and its own block. -/
def filePath (geo : Geometry) (d : Disk) (ino : Inode) (idx : Nat) : List Nat :=
  let (s, off) := place geo idx
  if idx < maxBlocks geo then trail geo.ppb (entry d) (slotLevel s) (ino.slot s) off else []

/-- The pointer blocks of a file. -/
def pointerBlocks (geo : Geometry) (d : Disk) (ino : Inode) : List Nat :=
  (List.range 15).flatMap fun s => tables geo.ppb (entry d) (slotLevel s) (ino.slot s)

theorem slotLevel_direct (h : s < 12) : slotLevel s = 0 := by
  unfold slotLevel
  omega

theorem slotBase_direct (h : s < 12) : slotBase geo s = s := by
  unfold slotBase
  rw [if_neg (by omega), if_neg (by omega)]

theorem slotBase_singly : slotBase geo 12 = 12 := rfl

theorem slotBase_doubly : slotBase geo 13 = 12 + geo.ppb := rfl

theorem slotBase_triply : slotBase geo 14 = 12 + geo.ppb + geo.ppb ^ 2 := rfl

/-- A slot is that of a data block or of one of the three trees. -/
theorem slot_cases (hs : s < 15) : s < 12 ∨ s = 12 ∨ s = 13 ∨ s = 14 := by omega

theorem place_eq (hs : s < 15) (hoff : off < geo.ppb ^ slotLevel s) :
    place geo (slotBase geo s + off) = (s, off) ∧ slotBase geo s + off < maxBlocks geo := by
  unfold maxBlocks place
  rcases slot_cases hs with h12 | rfl | rfl | rfl
  · rw [slotLevel_direct h12, Nat.pow_zero] at hoff
    obtain rfl : off = 0 := by omega
    rw [slotBase_direct h12, Nat.add_zero, if_pos h12]
    exact ⟨rfl, by omega⟩
  · change off < geo.ppb ^ 1 at hoff
    rw [Nat.pow_one] at hoff
    rw [slotBase_singly, if_neg (by omega), if_pos (by omega), Nat.add_sub_cancel_left]
    exact ⟨rfl, by omega⟩
  · change off < geo.ppb ^ 2 at hoff
    rw [slotBase_doubly, if_neg (by omega), if_neg (by omega), if_pos (by omega),
      Nat.add_sub_cancel_left]
    exact ⟨rfl, by omega⟩
  · change off < geo.ppb ^ 3 at hoff
    rw [slotBase_triply, if_neg (by omega), if_neg (by omega), if_neg (by omega),
      Nat.add_sub_cancel_left]
    exact ⟨rfl, by omega⟩

/-- Every file block has a place. -/
theorem exists_place (h : idx < maxBlocks geo) :
    ∃ s off, s < 15 ∧ off < geo.ppb ^ slotLevel s ∧ idx = slotBase geo s + off := by
  unfold maxBlocks at h
  by_cases h1 : idx < 12
  · refine ⟨idx, 0, by omega, ?_, ?_⟩
    · rw [slotLevel_direct h1]
      exact Nat.one_pos
    · rw [slotBase_direct h1, Nat.add_zero]
  by_cases h2 : idx < 12 + geo.ppb
  · refine ⟨12, idx - 12, by decide, ?_, ?_⟩
    · show idx - 12 < geo.ppb ^ 1
      rw [Nat.pow_one]
      omega
    · rw [slotBase_singly]
      omega
  by_cases h3 : idx < 12 + geo.ppb + geo.ppb ^ 2
  · refine ⟨13, idx - (12 + geo.ppb), by decide, ?_, ?_⟩
    · show idx - (12 + geo.ppb) < geo.ppb ^ 2
      omega
    · rw [slotBase_doubly]
      omega
  · refine ⟨14, idx - (12 + geo.ppb + geo.ppb ^ 2), by decide, ?_, ?_⟩
    · show idx - (12 + geo.ppb + geo.ppb ^ 2) < geo.ppb ^ 3
      omega
    · rw [slotBase_triply]
      omega

theorem filePath_eq (hs : s < 15) (hoff : off < geo.ppb ^ slotLevel s) :
    filePath geo d ino (slotBase geo s + off) = trail geo.ppb (entry d) (slotLevel s) (ino.slot s)
      off := by
  obtain ⟨hplace, hlt⟩ := place_eq hs hoff
  unfold filePath
  rw [hplace]
  exact if_pos hlt

/-! ## Looking up -/

theorem indWord_eq (hk : k < geo.ppb) : indWord geo d b k = lookup geo.ppb (entry d) 1 b k := by
  unfold indWord lookup
  rw [if_neg (not_le.mpr hk), Nat.pow_zero, Nat.div_one]
  rfl

theorem indWord_indWord (hk : k < geo.ppb ^ 2) :
    indWord geo d (indWord geo d b (k / geo.ppb)) (k % geo.ppb) =
      lookup geo.ppb (entry d) 2 b k := by
  have hdiv : k / geo.ppb < geo.ppb := by
    have := div_lt hk
    rwa [Nat.pow_one] at this
  rw [indWord_eq (Nat.mod_lt _ ppb_pos), indWord_eq hdiv]
  by_cases hb : b = 0
  · simp [hb]
  · rw [lookup_succ hb, lookup_succ hb, Nat.pow_one, Nat.pow_zero, Nat.div_one]
    rfl

/-- **`ext2_file_blk` finds a block in the tree of its slot**, with the index that it has there. -/
theorem fileBlk_eq (hs : s < 15) (hoff : off < geo.ppb ^ slotLevel s) :
    fileBlk geo d ino (slotBase geo s + off) = lookup geo.ppb (entry d) (slotLevel s) (ino.slot s)
      off := by
  have hsq : geo.ppb * geo.ppb = geo.ppb ^ 2 := (Nat.pow_two _).symm
  have hcube : geo.ppb ^ 2 * geo.ppb = geo.ppb ^ 3 := rfl
  unfold fileBlk
  rw [hsq, hcube]
  rcases slot_cases hs with h12 | rfl | rfl | rfl
  · rw [slotLevel_direct h12, Nat.pow_zero] at hoff
    obtain rfl : off = 0 := by omega
    rw [slotBase_direct h12, slotLevel_direct h12, Nat.add_zero, if_pos h12]
    rfl
  · change off < geo.ppb ^ 1 at hoff
    rw [Nat.pow_one] at hoff
    rw [slotBase_singly, if_neg (by omega), Nat.add_sub_cancel_left, if_pos hoff, indWord_eq hoff]
    rfl
  · change off < geo.ppb ^ 2 at hoff
    rw [slotBase_doubly, if_neg (by omega), if_neg (by omega),
      show 12 + geo.ppb + off - 12 - geo.ppb = off by omega, if_pos hoff, indWord_indWord hoff]
    rfl
  · change off < geo.ppb ^ 3 at hoff
    rw [slotBase_triply, if_neg (by omega), if_neg (by omega), if_neg (by omega),
      show 12 + geo.ppb + geo.ppb ^ 2 + off - 12 - geo.ppb - geo.ppb ^ 2 = off by
        omega, if_pos hoff,
      ← Nat.mod_mod_of_dvd off ⟨geo.ppb, hsq.symm⟩, indWord_indWord (mod_lt hoff),
        indWord_eq (div_lt hoff)]
    show _ = lookup geo.ppb (entry d) 3 (ino.slot 14) off
    by_cases hb : ino.slot 14 = 0
    · simp [hb]
    · rw [lookup_succ hb, lookup_succ hb, Nat.pow_zero, Nat.div_one]
      rfl

theorem fileBlk_beyond (h : maxBlocks geo ≤ idx) : fileBlk geo d ino idx = 0 := by
  have hsq : geo.ppb * geo.ppb = geo.ppb ^ 2 := (Nat.pow_two _).symm
  have hcube : geo.ppb ^ 2 * geo.ppb = geo.ppb ^ 3 := rfl
  unfold maxBlocks at h
  unfold fileBlk
  rw [hsq, hcube, if_neg (by omega), if_neg (by omega), if_neg (by omega), if_neg (by omega)]

theorem exists_place_of_ne (h : fileBlk geo d ino idx ≠ 0) :
    ∃ s off, s < 15 ∧ off < geo.ppb ^ slotLevel s ∧ idx = slotBase geo s + off :=
  exists_place (Nat.lt_of_not_le fun hge => h (fileBlk_beyond hge))

/-! ## Files -/

/-- A block map in order: its blocks are different blocks of the volume and in use, none of its
tables is empty, and `i_blocks` counts them all. -/
structure FileOk (geo : Geometry) (d : Disk) (ino : Inode) : Prop where
  nodup : (fileBlocks geo d ino).Nodup
  used : ∀ x ∈ fileBlocks geo d ino, d.used x = true
  lt : ∀ x ∈ fileBlocks geo d ino, x < geo.blocksCount
  full : ∀ s < 15, Full geo.ppb (entry d) (slotLevel s) (ino.slot s)
  count : ino.blocks.toNat = (fileBlocks geo d ino).length * geo.sectorsPerBlock

theorem fileBlocks_pos (hx : x ∈ fileBlocks geo d ino) : 0 < x := by
  obtain ⟨s, -, hx⟩ := mem_forest.mp hx
  exact Nat.pos_of_ne_zero (ne_zero_of_mem_blocks hx)

/-! ## Mapping a block -/

/-- The tree in slot `s` grew, and nothing else of the inode. -/
structure SlotGrown (geo : Geometry) (s off e : Nat) (d d' : Disk) (ino ino' : Inode)
    (new : List Nat) : Prop where
  tree : TreeGrown geo (slotLevel s) (ino.slot s) (ino'.slot s) off e d d' new
  slots : ∀ t, t ≠ s → ino'.slot t = ino.slot t
  blocks : ino'.blocks = ino.blocks + BitVec.ofNat 32 (new.length * geo.sectorsPerBlock)

namespace SlotGrown

variable {new : List Nat}

variable (h : SlotGrown geo s off e d d' ino ino' new)

include h

variable (hok : FileOk geo d ino) (hs : s < 15)

include hok hs

theorem agree :
    ∀ t < 15, t ≠ s → Agree geo.ppb (entry d) (entry d')
      (tables geo.ppb (entry d) (slotLevel t) (ino.slot t)) :=
  agree_of_grown hok.nodup hok.used hs h.tree.disk fun _ hx => .inl (mem_blocks_of_mem_tables hx)

theorem perm : (fileBlocks geo d' ino').Perm (new ++ fileBlocks geo d ino) :=
  @forest_update _ _ _ _ _ _ _ _ [] new hs (h.agree hok hs) (fun t _ hne => h.slots t hne)
    h.tree.perm

/-- **A file stays in order when a tree of it grows.** -/
theorem fileOk : FileOk geo d' ino' := by
  have hperm := h.perm hok hs
  have hdisk := h.tree.disk
  have hnodup : (fileBlocks geo d' ino').Nodup := by
    rw [hperm.nodup_iff, List.nodup_append']
    exact ⟨hdisk.nodup, hok.nodup, fun x hx hx' => hdisk.not_mem (hok.used x hx') hx⟩
  have hlt : ∀ x ∈ fileBlocks geo d' ino', x < geo.blocksCount := by
    intro x hx
    rcases List.mem_append.mp (hperm.mem_iff.mp hx) with hx | hx
    · exact (hdisk.fresh x hx).2.1
    · exact hok.lt x hx
  refine ⟨hnodup, fun x hx => ?_, hlt, fun t ht => ?_, ?_⟩
  · apply hdisk.used_of
    rcases List.mem_append.mp (hperm.mem_iff.mp hx) with hx | hx
    · exact .inr hx
    · exact .inl (hok.used x hx)
  · by_cases hts : t = s
    · rw [hts]
      exact h.tree.map.full
    · rw [h.slots t hts]
      exact full_congr (h.agree hok hs t ht hts) (hok.full t ht)
  · have hfits := sectors_lt hnodup (fun x hx => fileBlocks_pos hx) hlt
    have hlen := hperm.length_eq
    rw [List.length_append] at hlen
    rw [hlen, Nat.add_mul] at hfits ⊢
    rw [h.blocks, BitVec.toNat_add, BitVec.toNat_ofNat, hok.count, Nat.mod_eq_of_lt (by omega),
      Nat.mod_eq_of_lt (by omega), Nat.add_comm]

/-- The new map. -/
theorem fileBlk (hoff : off < geo.ppb ^ slotLevel s) (j : Nat) :
    fileBlk geo d' ino' j = if j = slotBase geo s + off then e else fileBlk geo d ino j := by
  by_cases hj : j < maxBlocks geo
  · obtain ⟨t, o, ht, ho, rfl⟩ := exists_place hj
    rw [fileBlk_eq ht ho, fileBlk_eq ht ho]
    by_cases hts : t = s
    · subst hts
      by_cases hoo : o = off
      · rw [hoo, if_pos rfl, h.tree.map.here]
      · rw [if_neg (by omega), h.tree.map.there o ho hoo]
    · have hne : slotBase geo t + o ≠ slotBase geo s + off := by
        intro heq
        have hplace := (place_eq ht ho).1
        rw [heq, (place_eq hs hoff).1, Prod.mk.injEq] at hplace
        exact hts hplace.1.symm
      rw [if_neg hne, h.slots t hts, lookup_congr (h.agree hok hs t ht hts) ho]
  · have hne : j ≠ slotBase geo s + off := fun heq => hj (heq ▸ (place_eq hs hoff).2)
    rw [if_neg hne, fileBlk_beyond (Nat.le_of_not_lt hj), fileBlk_beyond (Nat.le_of_not_lt hj)]

end SlotGrown

/-- What `ext2_tbl_root` finds or makes. -/
theorem tblRoot_cases {r : Nat} (h : tblRoot alloc d ino s = (r, d', ino')) (hr : r ≠ 0) :
    ino.slot s = r ∧ d' = d ∧ ino' = ino ∨
      ino.slot s = 0 ∧ Grown geo [] d d' [r] ∧ (d'.block r = fun _ => 0) ∧
        ino' = addBlocks geo (setSlot ino s r) 1 := by
  unfold tblRoot at h
  by_cases hslot : ino.slot s = 0
  · rw [if_neg (not_not_intro hslot)] at h
    rcases halloc : allocBlock alloc d with ⟨nb, d₁⟩
    rw [halloc] at h
    obtain ⟨hnb, h⟩ := of_alloc_ne_zero h hr
    cases h
    obtain ⟨hgrown, -⟩ := allocBlock_spec halloc hnb
    refine .inr ⟨hslot, ⟨hgrown.fresh, hgrown.nodup, hgrown.used, fun x hx hx' => ?_, hgrown.freed⟩,
      Function.update_self _ _ _, countBlock_eq⟩
    rw [block_writeBlock_of_ne fun h => hx' (List.mem_singleton.mpr h)]
    exact hgrown.frame x hx hx'
  · rw [if_pos hslot] at h
    cases h
    exact .inl ⟨rfl, rfl, rfl⟩

/-- The three indirect ranges in one: from the table in slot `11 + level` down to the data block. -/
def allocTree (alloc : Allocator geo) (d : Disk) (ino : Inode) (l off : Nat) : Nat × Disk × Inode :=
  let (blk, d, ino) := tblRoot alloc d ino (12 + l)
  if blk = 0 then (0, d, ino) else descend alloc l d ino blk off

theorem allocTree_spec {l : Nat} (hl : l < 3) (hok : FileOk geo d ino)
    (hoff : off < geo.ppb ^ (l + 1)) (he : e ≠ 0)
    (h : allocTree alloc d ino l off = (e, d', ino')) :
    ∃ new, SlotGrown geo (12 + l) off e d d' ino ino' new := by
  have hlevel : slotLevel (12 + l) = l + 1 := by
    unfold slotLevel
    omega
  have hs : 12 + l < 15 := by omega
  have hnodup : (blocks geo.ppb (entry d) (l + 1) (ino.slot (12 + l))).Nodup := by
    have hthis := nodup_of_forest hok.nodup hs
    rwa [hlevel] at hthis
  have hused : ∀ x ∈ blocks geo.ppb (entry d) (l + 1) (ino.slot (12 + l)), d.used x = true := by
    intro x hx
    rw [← hlevel] at hx
    exact hok.used x (mem_forest.mpr ⟨_, hs, hx⟩)
  have hfull := hok.full _ hs
  rw [hlevel] at hfull
  unfold allocTree at h
  rcases hroot : tblRoot alloc d ino (12 + l) with ⟨r, d₁, ino₁⟩
  rw [hroot] at h
  obtain ⟨hr, h⟩ := of_alloc_ne_zero h he
  have hatt : ∃ new, Attached geo l (ino.slot (12 + l)) r d d₁ new ∧ Grown geo [] d d₁ new ∧
      ino₁ = addBlocks geo (setSlot ino (12 + l) r) new.length ∧
      (ino.slot (12 + l) ≠ 0 → d₁ = d ∧ new = [] ∧ r = ino.slot (12 + l)) := by
    rcases tblRoot_cases hroot hr with ⟨hslot, rfl, rfl⟩ | ⟨hslot, hgrown, hz, rfl⟩
    · refine ⟨[], ?_, .refl, ?_, fun _ => ⟨rfl, rfl, hslot.symm⟩⟩
      · rw [hslot] at hfull ⊢
        exact .found hr hfull
      · rw [List.length_nil, addBlocks_zero, setSlot, ← hslot, Function.update_eq_self]
    · refine ⟨[r], ?_, hgrown, rfl, fun hne => absurd hslot hne⟩
      rw [hslot]
      exact .zero hr hz
  obtain ⟨new, hatt, hgrown, rfl, hold⟩ := hatt
  obtain ⟨new', htree, rfl⟩ := descend_spec l h he hr hoff (hatt.nodup hgrown hused hnodup)
    (hatt.used hgrown hused) hatt.full
  obtain ⟨hmap, hperm, hdisk, hzero, hsame⟩ := TreeGrown.attach hatt hgrown htree hoff
  refine ⟨new ++ new', ?_, fun t ht => setSlot_slot_of_ne ht, ?_⟩
  · rw [hlevel, addBlocks_slot, addBlocks_slot, setSlot_slot_self]
    refine ⟨hmap, hperm, hdisk, hzero, fun hne => ?_⟩
    obtain ⟨rfl, rfl⟩ := hsame hne
    have hne : ino.slot (12 + l) ≠ 0 := by
      intro hslot
      rw [hslot, lookup_zero] at hne
      exact hne rfl
    obtain ⟨rfl, rfl, hr⟩ := hold hne
    exact ⟨rfl, rfl, hr⟩
  · rw [addBlocks_addBlocks, List.length_append, addBlocks_blocks, setSlot_blocks]

/-! ### The ranges -/

theorem allocTriply_eq (h : off < geo.ppb ^ 3) :
    allocTriply alloc d ino off = allocTree alloc d ino 2 off := by
  have hsq : geo.ppb * geo.ppb = geo.ppb ^ 2 := (Nat.pow_two _).symm
  have hdiv : off / geo.ppb ^ 2 < geo.ppb := div_lt h
  unfold allocTriply allocTree
  simp only [descend, hsq, Nat.zero_add, Nat.pow_one, Nat.reduceAdd,
    Nat.mod_mod_of_dvd off ⟨geo.ppb, hsq.symm⟩]
  rw [if_neg (not_le.mpr hdiv)]

/-- The levels of the doubly indirect range are those of the general one. -/
theorem doublyRoot_eq : doublyRoot alloc d ino =
    (decide ((tblRoot alloc d ino 13).1 ≠ 0), (tblRoot alloc d ino 13).2) := by
  unfold doublyRoot tblRoot
  by_cases hslot : ino.slot 13 = 0
  · rw [if_pos hslot, if_neg (not_not_intro hslot)]
    dsimp only
    split_ifs with hnb
    · rfl
    · rw [decide_eq_true hnb]
  · rw [if_neg hslot, if_pos hslot, decide_eq_true hslot]

theorem tblRoot_slot (h : (tblRoot alloc d ino s).1 ≠ 0) :
    (tblRoot alloc d ino s).2.2.slot s = (tblRoot alloc d ino s).1 := by
  rcases hroot : tblRoot alloc d ino s with ⟨r, d', ino'⟩
  rw [hroot] at h
  obtain ⟨hslot, -, rfl⟩ | ⟨-, -, -, rfl⟩ := tblRoot_cases hroot h
  · exact hslot
  · rw [addBlocks_slot, setSlot_slot_self]

theorem doublyBlk_eq {indBlk : Nat} :
    doublyBlk alloc d ino indBlk k = tblEntry alloc d ino indBlk k false := by
  unfold doublyBlk tblEntry
  by_cases hword : word (d.block indBlk) k = 0
  · rw [if_pos hword, if_neg (not_not_intro hword)]
    rfl
  · rw [if_neg hword, if_pos hword]

theorem doublyInd_eq : doublyInd alloc d ino k = tblEntry alloc d ino (ino.slot 13) k true := by
  unfold doublyInd tblEntry
  by_cases hword : word (d.block (ino.slot 13)) k = 0
  · rw [if_pos hword, if_neg (not_not_intro hword)]
    rfl
  · rw [if_neg hword, if_pos hword]

theorem allocDoubly_eq (h : off < geo.ppb ^ 2) :
    allocDoubly alloc d ino off = allocTree alloc d ino 1 off := by
  have hsq : geo.ppb * geo.ppb = geo.ppb ^ 2 := (Nat.pow_two _).symm
  unfold allocDoubly allocTree
  rw [hsq, if_neg (not_le.mpr h), doublyRoot_eq]
  have hslot := @tblRoot_slot geo alloc d ino 13
  generalize tblRoot alloc d ino 13 = root at hslot
  obtain ⟨r, d₁, ino₁⟩ := root
  dsimp only at hslot ⊢
  by_cases hr : r = 0
  · simp [hr]
  · rw [if_neg (by simp [hr]), if_neg hr, doublyInd_eq, hslot hr]
    simp only [descend, doublyBlk_eq, Nat.zero_add, Nat.pow_one]

theorem allocSingly_eq (h : allocSingly alloc d ino off = (e, d', ino')) (he : e ≠ 0) :
    allocTree alloc d ino 0 off = (e, d', ino') := by
  have hslot := @tblRoot_slot geo alloc d ino 12
  -- the table in the slot is the buffer the code goes on with
  have hroot : (singlyRoot alloc d ino).ok = decide ((tblRoot alloc d ino 12).1 ≠ 0) ∧
      (singlyRoot alloc d ino).disk = (tblRoot alloc d ino 12).2.1 ∧
      (singlyRoot alloc d ino).ino = (tblRoot alloc d ino 12).2.2 ∧
      ((tblRoot alloc d ino 12).1 ≠ 0 →
        (singlyRoot alloc d ino).ind =
          (tblRoot alloc d ino 12).2.1.block (tblRoot alloc d ino 12).1) := by
    unfold singlyRoot tblRoot
    by_cases hslot : ino.slot 12 = 0
    · rw [if_pos hslot, if_neg (not_not_intro hslot)]
      dsimp only
      split_ifs with hnb
      · exact ⟨rfl, rfl, rfl, fun h => absurd rfl h⟩
      · refine ⟨(decide_eq_true hnb).symm, rfl, rfl, fun _ => ?_⟩
        exact (Function.update_self (allocBlock alloc d).1 _ (allocBlock alloc d).2.block).symm
    · rw [if_neg hslot, if_pos hslot]
      exact ⟨(decide_eq_true hslot).symm, rfl, rfl, fun _ => rfl⟩
  unfold allocSingly at h
  unfold allocTree
  generalize tblRoot alloc d ino 12 = root at hslot hroot
  generalize singlyRoot alloc d ino = sr at hroot h
  obtain ⟨r, d₁, ino₁⟩ := root
  obtain ⟨ok, created, ind, d₂, ino₂⟩ := sr
  dsimp only at hslot hroot h ⊢
  obtain ⟨rfl, rfl, rfl, hind⟩ := hroot
  by_cases hr : r = 0
  · simp [hr] at h
    exact absurd h.1.symm he
  rw [if_neg (by simp [hr]), hind hr, hslot hr] at h
  rw [if_neg hr, descend, ← doublyBlk_eq, doublyBlk]
  by_cases hword : word (d₂.block r) off = 0
  · rw [if_pos hword] at h ⊢
    by_cases hblk : (allocBlock alloc d₂).1 = 0
    · rw [if_pos hblk] at h
      split at h <;> cases h <;> exact absurd rfl he
    · rw [if_neg hblk] at h
      dsimp only
      rw [if_neg hblk]
      exact h
  · rw [if_neg hword] at h ⊢
    exact h

theorem allocDirect_spec (hs : s < 12) (he : e ≠ 0)
    (h : allocDirect alloc d ino s = (e, d', ino')) :
    ∃ new, SlotGrown geo s 0 e d d' ino ino' new := by
  unfold allocDirect at h
  by_cases hslot : ino.slot s = 0
  · rw [if_pos hslot] at h
    rcases halloc : allocBlock alloc d with ⟨nb, d₁⟩
    rw [halloc] at h
    obtain ⟨-, h⟩ := of_alloc_ne_zero h he
    cases h
    obtain ⟨hgrown, hzero⟩ := allocBlock_spec halloc he
    refine ⟨[e], ?_, fun t ht => setSlot_slot_of_ne ht, ?_⟩
    · rw [slotLevel_direct hs, countBlock_slot, setSlot_slot_self, hslot]
      refine ⟨⟨rfl, fun j hj hne => ?_, trivial⟩, ?_, hgrown, fun _ => ⟨List.mem_cons_self, hzero⟩,
        fun h => absurd rfl h⟩
      · rw [Nat.pow_zero] at hj
        omega
      · simp [blocks, he]
    · rw [countBlock_eq, addBlocks_blocks, setSlot_blocks, List.length_singleton]
  · rw [if_neg hslot] at h
    cases h
    refine ⟨[], ?_, fun _ _ => rfl, ?_⟩
    · rw [slotLevel_direct hs]
      exact ⟨⟨rfl, fun _ _ _ => rfl, trivial⟩, .refl _, .refl, fun h => absurd h hslot, fun _ =>
        ⟨rfl, rfl, rfl⟩⟩
    · rw [List.length_nil, Nat.zero_mul, BitVec.add_zero]

/-- **What `ext2_file_blk_alloc` does**: a block that it returns is in the tree of the slot of its
index, and nothing else of the map has changed. -/
theorem fileBlkAlloc_spec (hok : FileOk geo d ino) (he : e ≠ 0)
    (h : fileBlkAlloc alloc d ino idx = (e, d', ino')) :
    ∃ s off new, s < 15 ∧ off < geo.ppb ^ slotLevel s ∧ idx = slotBase geo s + off ∧
      SlotGrown geo s off e d d' ino ino' new := by
  have hsq : geo.ppb * geo.ppb = geo.ppb ^ 2 := (Nat.pow_two _).symm
  unfold fileBlkAlloc at h
  rw [hsq] at h
  by_cases h3 : idx ≥ 12 + geo.ppb + geo.ppb ^ 2
  · rw [if_pos h3] at h
    have hoff : idx - 12 - geo.ppb - geo.ppb ^ 2 < geo.ppb ^ 3 := by
      by_contra hge
      have hpos : 0 < geo.ppb ^ 2 := Nat.pow_pos ppb_pos
      have hdiv : geo.ppb ≤ (idx - 12 - geo.ppb - geo.ppb ^ 2) / geo.ppb ^ 2 := by
        rw [Nat.le_div_iff_mul_le hpos, Nat.mul_comm]
        exact Nat.le_of_not_lt hge
      unfold allocTriply at h
      rw [hsq, if_pos hdiv] at h
      cases h
      exact he rfl
    rw [allocTriply_eq hoff] at h
    obtain ⟨new, hgrown⟩ := allocTree_spec (by decide) hok hoff he h
    refine ⟨14, _, new, by decide, hoff, ?_, hgrown⟩
    rw [slotBase_triply]
    omega
  rw [if_neg h3] at h
  by_cases h1 : idx < 12
  · rw [if_pos h1] at h
    obtain ⟨new, hgrown⟩ := allocDirect_spec h1 he h
    refine ⟨idx, 0, new, by omega, ?_, ?_, hgrown⟩
    · rw [slotLevel_direct h1]
      exact Nat.one_pos
    · rw [slotBase_direct h1, Nat.add_zero]
  rw [if_neg h1] at h
  by_cases h2 : idx - 12 ≥ geo.ppb
  · rw [if_pos h2] at h
    have hoff : idx - 12 - geo.ppb < geo.ppb ^ 2 := by omega
    rw [allocDoubly_eq hoff] at h
    obtain ⟨new, hgrown⟩ := allocTree_spec (by decide) hok hoff he h
    refine ⟨13, _, new, by decide, hoff, ?_, hgrown⟩
    rw [slotBase_doubly]
    omega
  · rw [if_neg h2] at h
    have hoff : idx - 12 < geo.ppb ^ 1 := by
      rw [Nat.pow_one]
      omega
    obtain ⟨new, hgrown⟩ := allocTree_spec (by decide) hok hoff he (allocSingly_eq h he)
    refine ⟨12, _, new, by decide, hoff, ?_, hgrown⟩
    rw [slotBase_singly]
    omega

/-- Beyond the last tree there is nothing to map. -/
theorem fileBlkAlloc_beyond (h : maxBlocks geo ≤ idx) :
    fileBlkAlloc alloc d ino idx = (0, d, ino) := by
  have hsq : geo.ppb * geo.ppb = geo.ppb ^ 2 := (Nat.pow_two _).symm
  have hpos : 0 < geo.ppb ^ 2 := Nat.pow_pos ppb_pos
  unfold maxBlocks at h
  have hdiv : geo.ppb ≤ (idx - 12 - geo.ppb - geo.ppb ^ 2) / geo.ppb ^ 2 := by
    rw [Nat.le_div_iff_mul_le hpos, Nat.mul_comm]
    show geo.ppb ^ 3 ≤ _
    omega
  unfold fileBlkAlloc
  rw [hsq, if_pos (by omega)]
  unfold allocTriply
  rw [hsq, if_pos hdiv]

end MaeroOS.Ext2.BlockMap
