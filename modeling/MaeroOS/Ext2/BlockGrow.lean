import MaeroOS.Ext2.BlockCut

/-!
# Growing a block map

The three indirect ranges of `ext2_file_blk_alloc` all descend from a table to an entry, which is
allocated when it is missing, until the entry is the data block. `descend` is that walk for a tree
of any level, and `descend_spec` what it does when it finds the space.
-/

namespace MaeroOS.Ext2.BlockMap

open Function List
open Lib.PtrTree

variable {geo : Geometry} {alloc : Allocator geo} {d d' d'' : Disk} {ino ino' : Inode}
  {l b r e i k old x : Nat}

/-! ## Allocating -/

/-- The free blocks `new` are taken, and no other block than these and those of `own` is written. -/
structure Grown (geo : Geometry) (own : List Nat) (d d' : Disk) (new : List Nat) : Prop where
  fresh : ∀ x ∈ new, 0 < x ∧ x < geo.blocksCount ∧ d.used x = false
  nodup : new.Nodup
  used : ∀ x, d'.used x = if x ∈ new then true else d.used x
  frame : ∀ x, x ∉ own → x ∉ new → d'.block x = d.block x
  freed : d'.freed = d.freed

namespace Grown

variable {own own' new new' : List Nat}

theorem refl : Grown geo own d d [] :=
  ⟨nofun, .nil, fun _ => (if_neg not_mem_nil).symm, fun _ _ _ => rfl, rfl⟩

variable (h : Grown geo own d d' new)

include h

theorem trans (h' : Grown geo own' d' d'' new') (hsub : ∀ x ∈ own', x ∈ own ∨ x ∈ new) :
    Grown geo own d d'' (new ++ new') := by
  have hapart : ∀ x ∈ new', x ∉ new ∧ d.used x = false := by
    intro x hx
    have hfree := (h'.fresh x hx).2.2
    rw [h.used] at hfree
    by_cases hmem : x ∈ new
    · rw [if_pos hmem] at hfree
      cases hfree
    · rw [if_neg hmem] at hfree
      exact ⟨hmem, hfree⟩
  refine ⟨fun x hx => ?_, ?_, fun x => ?_, fun x hx hnew => ?_, h'.freed.trans h.freed⟩
  · rcases mem_append.mp hx with hx | hx
    · exact h.fresh x hx
    · exact ⟨(h'.fresh x hx).1, (h'.fresh x hx).2.1, (hapart x hx).2⟩
  · exact nodup_append'.mpr ⟨h.nodup, h'.nodup, fun x hx hx' => (hapart x hx').1 hx⟩
  · rw [h'.used, h.used]
    split_ifs <;> simp_all
  · rw [mem_append, not_or] at hnew
    rw [h'.frame x (fun hmem => (hsub x hmem).elim hx hnew.1) hnew.2, h.frame x hx hnew.1]

theorem mono (hsub : ∀ x ∈ own, x ∈ own') : Grown geo own' d d' new :=
  { h with frame := fun x hx => h.frame x fun hmem => hx (hsub x hmem) }

/-- A block that was in use is not one of the new ones. -/
theorem not_mem (hx : d.used x = true) : x ∉ new := fun hmem => by
  rw [(h.fresh x hmem).2.2] at hx
  cases hx

theorem used_of (hx : d.used x = true ∨ x ∈ new) : d'.used x = true := by
  rw [h.used]
  rcases hx with hx | hx
  · rw [hx, ite_self]
  · rw [if_pos hx]

end Grown

/-- Block 0 says that an allocation has failed. -/
theorem of_alloc_ne_zero {α : Type} {a s : α} {y : Nat × α}
    (h : (if b = 0 then (0, a) else y) = (e, s)) (he : e ≠ 0) : b ≠ 0 ∧ y = (e, s) := by
  split at h
  · cases h
    exact absurd rfl he
  · next hb => exact ⟨hb, h⟩

/-- **What `ext2_alloc_block_goal` does** when there is space. -/
theorem allocBlockGoal_spec {goal : Nat} {zero : Bool}
    (h : allocBlockGoal alloc goal zero d = (b, d')) (hb : b ≠ 0) :
    Grown geo [] d d' [b] ∧ (zero = true → d'.block b = fun _ => 0) := by
  unfold allocBlockGoal at h
  split at h
  · cases h
    exact absurd rfl hb
  next hpick =>
    cases h
    refine ⟨⟨fun x hx => ?_, nodup_singleton _, fun x => ?_, fun x _ hx => ?_, ?_⟩, fun hzero => ?_⟩
    · rw [mem_singleton.mp hx]
      exact ⟨alloc.pos hpick, alloc.lt hpick, alloc.free hpick⟩
    · have hused : ∀ d : Disk, (if zero = true then writeBlock d b fun _ => 0 else d).used =
          d.used := fun d => by
        split <;> rfl
      rw [hused]
      show update d.used _ true x = _
      simp only [update_apply, mem_singleton]
    · split
      · exact update_of_ne (fun h => hx (mem_singleton.mpr h)) _ _
      · rfl
    · split <;> rfl
    · rw [if_pos hzero]
      exact update_self _ _ _

theorem allocBlock_spec {nb : Nat} (h : allocBlock alloc d = (nb, d')) (hnb : nb ≠ 0) :
    Grown geo [] d d' [nb] ∧ d'.block nb = fun _ => 0 :=
  (allocBlockGoal_spec h hnb).imp_right fun hzero => hzero rfl

theorem blocksCount_lt : geo.blocksCount ≤ 2 ^ 32 := by
  have hle := geo.sectors_le
  have hpos : 1 ≤ geo.ppb / 128 := by
    rcases geo.ppb_eq with h | h | h <;> rw [h] <;> decide
  exact (Nat.le_mul_of_pos_right _ hpos).trans hle

theorem Grown.lt {own new : List Nat} (h : Grown geo own d d' new) (hx : x ∈ new) : x < 2 ^ 32 :=
  lt_of_lt_of_le (h.fresh x hx).2.1 blocksCount_lt

/-! ## Counting -/

theorem sectorsPerBlock_pos : 0 < geo.sectorsPerBlock := by
  unfold Geometry.sectorsPerBlock
  rcases geo.ppb_eq with h | h | h <;> rw [h] <;> decide

/-- The sectors of different blocks of a volume fit into `i_blocks`: there is no block 0. -/
theorem sectors_lt {xs : List Nat} (hnodup : xs.Nodup) (hpos : ∀ x ∈ xs, 0 < x)
    (hlt : ∀ x ∈ xs, x < geo.blocksCount) : xs.length * geo.sectorsPerBlock < 2 ^ 32 := by
  have hle : geo.blocksCount * geo.sectorsPerBlock ≤ 2 ^ 32 := geo.sectors_le
  rcases hxs : xs with _ | ⟨y, ys⟩
  · simp
  rw [← hxs]
  have hzero : (0 :: xs).Nodup := nodup_cons.mpr ⟨fun hmem => lt_irrefl 0 (hpos 0 hmem), hnodup⟩
  have hsub : (0 :: xs) ⊆ range geo.blocksCount := by
    intro x hx
    rw [mem_range]
    rcases mem_cons.mp hx with rfl | hx
    · exact lt_of_le_of_lt (Nat.zero_le y) (hlt y (hxs ▸ mem_cons_self))
    · exact hlt x hx
  have hlen := (subperm_of_subset hzero hsub).length_le
  rw [length_cons, length_range] at hlen
  have hmul := Nat.mul_le_mul_right geo.sectorsPerBlock hlen
  have hspb := @sectorsPerBlock_pos geo
  rw [Nat.succ_mul] at hmul
  omega

/-- `i_blocks` with `k` more blocks in it. -/
def addBlocks (geo : Geometry) (ino : Inode) (k : Nat) : Inode :=
  { ino with blocks := ino.blocks + BitVec.ofNat 32 (k * geo.sectorsPerBlock) }

@[simp] theorem addBlocks_slot : (addBlocks geo ino k).slot = ino.slot := rfl

@[simp] theorem countBlock_slot : (countBlock geo ino).slot = ino.slot := rfl

@[simp] theorem setSlot_slot_self {s : Nat} : (setSlot ino s b).slot s = b := by
  simp [setSlot]

theorem setSlot_slot_of_ne {s t : Nat} (h : t ≠ s) : (setSlot ino s b).slot t = ino.slot t := by
  simp [setSlot, update_of_ne h]

@[simp] theorem setSlot_blocks {s : Nat} : (setSlot ino s b).blocks = ino.blocks := rfl

@[simp] theorem addBlocks_blocks :
    (addBlocks geo ino k).blocks = ino.blocks + BitVec.ofNat 32 (k * geo.sectorsPerBlock) := rfl

theorem addBlocks_zero : addBlocks geo ino 0 = ino := by
  rw [addBlocks, Nat.zero_mul, BitVec.add_zero]

theorem countBlock_eq : countBlock geo ino = addBlocks geo ino 1 := by
  rw [addBlocks, Nat.one_mul, countBlock]

theorem addBlocks_addBlocks {j : Nat} : addBlocks geo (addBlocks geo ino j) k = addBlocks geo ino
    (j + k) := by
  unfold addBlocks
  rw [BitVec.add_assoc, ← BitVec.ofNat_add, Nat.add_mul]

/-! ## One entry -/

/-- What `ext2_tbl_entry` finds or makes. -/
theorem tblEntry_cases {table : Bool} (h : tblEntry alloc d ino b i table = (e, d', ino'))
    (he : e ≠ 0) (hb : d.used b = true) :
    entry d b i = e ∧ d' = d ∧ ino' = ino ∨
      entry d b i = 0 ∧ Grown geo [b] d d' [e] ∧ entry d' b = update (entry d b) i e ∧
        (d'.block e = fun _ => 0) ∧ ino' = addBlocks geo ino 1 := by
  unfold tblEntry at h
  dsimp only at h
  by_cases hword : word (d.block b) i = 0
  · rw [if_neg (not_not_intro hword)] at h
    rcases halloc : allocBlock alloc d with ⟨nb, d₁⟩
    rw [halloc] at h
    obtain ⟨hnb, h⟩ := of_alloc_ne_zero h he
    cases h
    obtain ⟨hgrown, hzero⟩ := allocBlock_spec halloc hnb
    have hne : nb ≠ b := fun h => hgrown.not_mem hb (mem_singleton.mpr h.symm)
    -- writing the zeros a second time changes nothing
    have hd₁ : ∀ x, (if table = true then writeBlock d₁ nb fun _ => 0 else d₁).block x =
        d₁.block x := by
      intro x
      split
      · by_cases hx : x = nb
        · rw [hx, hzero]
          exact update_self _ _ _
        · exact block_writeBlock_of_ne hx
      · rfl
    refine .inr ⟨hword, ⟨hgrown.fresh, hgrown.nodup, fun x => ?_, fun x hx hx' => ?_, ?_⟩, ?_, ?_,
      countBlock_eq⟩
    · rw [← hgrown.used]
      cases table <;> rfl
    · rw [block_writeBlock_of_ne fun h => hx (mem_singleton.mpr h), hd₁]
      exact hgrown.frame x not_mem_nil hx'
    · rw [← hgrown.freed]
      cases table <;> rfl
    · rw [entry_writeBlock_self, word_setWord (hgrown.lt mem_cons_self)]
      rfl
    · rw [block_writeBlock_of_ne hne, hd₁, hzero]
  · rw [if_pos hword] at h
    cases h
    exact .inl ⟨rfl, rfl, rfl⟩

/-- An old table, or a new one without entries: a tree of level `l + 1` to go on with. -/
structure Attached (geo : Geometry) (l old e : Nat) (d d' : Disk) (new : List Nat) : Prop where
  perm : (blocks geo.ppb (entry d') (l + 1) e).Perm (new ++ blocks geo.ppb (entry d) (l + 1) old)
  lookup : ∀ i < geo.ppb ^ (l + 1), lookup geo.ppb (entry d') (l + 1) e i =
    lookup geo.ppb (entry d) (l + 1) old i
  full : ∀ k < geo.ppb, Full geo.ppb (entry d') l (entry d' e k)
  own : ∀ x ∈ tables geo.ppb (entry d') (l + 1) e,
    x ∈ tables geo.ppb (entry d) (l + 1) old ∨ x ∈ new

theorem Attached.found (he : e ≠ 0) (hfull : Full geo.ppb (entry d) (l + 1) e) :
    Attached geo l e e d d [] :=
  ⟨.refl _, fun _ _ => rfl, (hfull.resolve_left he).2, fun _ hx => .inl hx⟩

theorem Attached.zero (he : e ≠ 0) (hzero : d'.block e = fun _ => 0) :
    Attached geo l 0 e d d' [e] := by
  have hnone : ∀ k < geo.ppb, entry d' e k = 0 := by
    intro k _
    rw [entry, hzero, word_zero]
  refine ⟨?_, fun i hi => ?_, fun k hk => ?_, fun x hx => ?_⟩
  · rw [blocks_empty he hnone, blocks_zero]
    exact .refl _
  · rw [lookup_empty hnone hi, lookup_zero]
  · rw [hnone k hk]
    exact full_zero
  · have hmem := mem_blocks_of_mem_tables hx
    rw [blocks_empty he hnone] at hmem
    exact .inr hmem

/-! ## One tree -/

/-- The tree `old` of `d` became `r`, which maps `i` to `e`. A block that `i` had before is kept,
with the whole disk as it was; else `e` is a new block of zeros. -/
structure TreeGrown (geo : Geometry) (l old r i e : Nat) (d d' : Disk) (new : List Nat) : Prop where
  map : GrowMap geo.ppb l old r i e (entry d) (entry d')
  perm : (blocks geo.ppb (entry d') l r).Perm (new ++ blocks geo.ppb (entry d) l old)
  disk : Grown geo (tables geo.ppb (entry d) l old) d d' new
  zero : lookup geo.ppb (entry d) l old i = 0 → e ∈ new ∧ d'.block e = fun _ => 0
  same : lookup geo.ppb (entry d) l old i ≠ 0 → d' = d ∧ new = [] ∧ r = old

variable {new : List Nat}

/-- The trees of a table other than the one that grew. -/
theorem agree_of_grown {m : Nat} {level root : Nat → Nat} {own : List Nat}
    (hnodup : (forest geo.ppb (entry d) m level root).Nodup)
    (hused : ∀ x ∈ forest geo.ppb (entry d) m level root, d.used x = true) (hk : k < m)
    (hgrown : Grown geo own d d' new)
    (hown : ∀ x ∈ own, x ∈ blocks geo.ppb (entry d) (level k) (root k) ∨
      x ∉ forest geo.ppb (entry d) m level root) :
    ∀ j < m, j ≠ k → Agree geo.ppb (entry d) (entry d')
      (tables geo.ppb (entry d) (level j) (root j)) := by
  intro j hj hne
  refine agree_other hnodup hj hk hne fun x hx hmem i _ => ?_
  refine congrFun (entry_eq_of_block
    (hgrown.frame x (fun hxown => ?_) (hgrown.not_mem (hused x hmem)))) i
  exact (hown x hxown).elim hx fun h => h hmem

/-- **A table one of whose trees grew.** -/
theorem TreeGrown.table (hb : b ≠ 0) (hi : i < geo.ppb ^ (l + 1)) (he : e ≠ 0)
    (hnodup : (blocks geo.ppb (entry d) (l + 1) b).Nodup)
    (hused : ∀ x ∈ blocks geo.ppb (entry d) (l + 1) b, d.used x = true)
    (hfull : ∀ k < geo.ppb, Full geo.ppb (entry d) l (entry d b k))
    (hmap : GrowMap geo.ppb l (entry d b (i / geo.ppb ^ l)) r (i % geo.ppb ^ l) e (entry d)
      (entry d'))
    (hperm : (blocks geo.ppb (entry d') l r).Perm
      (new ++ blocks geo.ppb (entry d) l (entry d b (i / geo.ppb ^ l))))
    (hdisk : Grown geo (b :: tables geo.ppb (entry d) l (entry d b (i / geo.ppb ^ l))) d d' new)
    (hentry : entry d' b = update (entry d b) (i / geo.ppb ^ l) r)
    (hzero : lookup geo.ppb (entry d) (l + 1) b i = 0 → e ∈ new ∧ d'.block e = fun _ => 0)
    (hsame : lookup geo.ppb (entry d) (l + 1) b i ≠ 0 → d' = d ∧ new = []) :
    TreeGrown geo (l + 1) b b i e d d' new := by
  have hk : i / geo.ppb ^ l < geo.ppb := div_lt hi
  rw [blocks_eq_forest hb] at hnodup hused
  obtain ⟨hmem, hforest⟩ := nodup_cons.mp hnodup
  have hagree := agree_of_grown hforest (fun x hx => hused x (mem_cons_of_mem _ hx)) hk hdisk (by
    intro x hx
    rcases mem_cons.mp hx with rfl | hx
    · exact .inr hmem
    · exact .inl (mem_blocks_of_mem_tables hx))
  have hroot : ∀ j, j ≠ i / geo.ppb ^ l → entry d' b j = entry d b j := by
    intro j hne
    rw [hentry, update_of_ne hne]
  have hself : entry d' b (i / geo.ppb ^ l) = r := by
    rw [hentry, update_self]
  refine ⟨?_, ?_, ?_, hzero, fun hne => ⟨(hsame hne).1, (hsame hne).2, rfl⟩⟩
  · rw [← hself] at hmap
    exact hmap.table hb hi he (fun k hk hne => ⟨hroot k hne, hagree k hk hne⟩) fun k hk _ =>
      hfull k hk
  · rw [blocks_eq_forest hb, blocks_eq_forest hb]
    rw [← hself] at hperm
    have hgrow := @forest_update _ _ _ _ _ _ _ _ [] _ hk hagree (fun j _ hne => hroot j hne) hperm
    exact (hgrow.cons b).trans perm_middle.symm
  · refine hdisk.mono fun x hx => ?_
    rw [tables_succ hb]
    rcases mem_cons.mp hx with rfl | hx
    · exact mem_cons_self
    · exact mem_cons_of_mem _ (mem_flatMap.mpr ⟨_, mem_range.mpr hk, hx⟩)

/-- The way from a table to the data block of an index. -/
def descend (alloc : Allocator geo) : Nat → Disk → Inode → Nat → Nat → Nat × Disk × Inode
  | 0, d, ino, tblk, i => tblEntry alloc d ino tblk i false
  | l + 1, d, ino, tblk, i =>
    let (e, d, ino) := tblEntry alloc d ino tblk (i / geo.ppb ^ (l + 1)) true
    if e = 0 then (0, d, ino) else descend alloc l d ino e (i % geo.ppb ^ (l + 1))

/-- The first table of a descent is attached, and the descent grew its tree. -/
theorem TreeGrown.attach {new' : List Nat} {own : List Nat} (hatt : Attached geo l old r d d' new)
    (hgrown : Grown geo own d d' new) (hmap : TreeGrown geo (l + 1) r r i e d' d'' new')
    (hi : i < geo.ppb ^ (l + 1)) :
    GrowMap geo.ppb (l + 1) old r i e (entry d) (entry d'') ∧
      (blocks geo.ppb (entry d'') (l + 1) r).Perm
        (new ++ new' ++ blocks geo.ppb (entry d) (l + 1) old) ∧
      Grown geo (own ++ tables geo.ppb (entry d) (l + 1) old) d d'' (new ++ new') ∧
      (lookup geo.ppb (entry d) (l + 1) old i = 0 → e ∈ new ++ new' ∧ d''.block e = fun _ => 0) ∧
      (lookup geo.ppb (entry d) (l + 1) old i ≠ 0 → d'' = d' ∧ new' = []) := by
  refine ⟨⟨hmap.map.here, fun j hj hne => ?_, hmap.map.full⟩, ?_, ?_, fun hzero => ?_,
    fun hne => ?_⟩
  · rw [hmap.map.there j hj hne, hatt.lookup j hj]
  · refine hmap.perm.trans ((hatt.perm.append_left new').trans ?_)
    rw [← append_assoc]
    exact perm_append_comm.append_right _
  · refine (hgrown.mono fun x hx => mem_append_left _ hx).trans hmap.disk fun x hx => ?_
    exact (hatt.own x hx).imp_left fun h => mem_append_right _ h
  · rw [← hatt.lookup i hi] at hzero
    exact ⟨mem_append_right _ (hmap.zero hzero).1, (hmap.zero hzero).2⟩
  · rw [← hatt.lookup i hi] at hne
    obtain ⟨hdisk, hnew, -⟩ := hmap.same hne
    exact ⟨hdisk, hnew⟩

variable {own : List Nat} (hatt : Attached geo l old e d d' new) (hgrown : Grown geo own d d' new)
  (hused : ∀ x ∈ blocks geo.ppb (entry d) (l + 1) old, d.used x = true)

include hatt hgrown hused

/-- The blocks of an attached table are in use. -/
theorem Attached.used :
    ∀ x ∈ blocks geo.ppb (entry d') (l + 1) e, d'.used x = true := by
  intro x hx
  apply hgrown.used_of
  rcases mem_append.mp (hatt.perm.mem_iff.mp hx) with hx | hx
  · exact .inr hx
  · exact .inl (hused x hx)

theorem Attached.nodup
    (hnodup : (blocks geo.ppb (entry d) (l + 1) old).Nodup) :
    (blocks geo.ppb (entry d') (l + 1) e).Nodup := by
  rw [hatt.perm.nodup_iff, nodup_append']
  exact ⟨hgrown.nodup, hnodup, fun x hx hx' => hgrown.not_mem (hused x hx') hx⟩

omit hatt hgrown hused

/-- **What a descent does** when it finds the space. -/
theorem descend_spec : ∀ (l : Nat) {d d' : Disk} {ino ino' : Inode} {b i e : Nat},
    descend alloc l d ino b i = (e, d', ino') → e ≠ 0 → b ≠ 0 → i < geo.ppb ^ (l + 1) →
    (blocks geo.ppb (entry d) (l + 1) b).Nodup →
      (∀ x ∈ blocks geo.ppb (entry d) (l + 1) b, d.used x = true) →
    (∀ k < geo.ppb, Full geo.ppb (entry d) l (entry d b k)) →
      ∃ new, TreeGrown geo (l + 1) b b i e d d' new ∧ ino' = addBlocks geo ino new.length := by
  intro l
  induction l with
  | zero =>
    intro d d' ino ino' b i e h he hb hi hnodup hused hfull
    have hk : i / geo.ppb ^ 0 = i := by rw [Nat.pow_zero, Nat.div_one]
    have hlook : lookup geo.ppb (entry d) 1 b i = entry d b i := by
      rw [lookup_succ hb, hk]
      rfl
    rcases tblEntry_cases h he (hused b (mem_blocks_self hb)) with ⟨hentry, rfl, rfl⟩
      | ⟨hentry, hgrown, hset, hz, rfl⟩
    · refine ⟨[], .table hb hi he hnodup hused hfull (r := e) ?_ ?_ .refl ?_ ?_ fun _ => ⟨rfl, rfl⟩,
        addBlocks_zero.symm⟩
      · rw [hk, hentry]
        exact ⟨rfl, fun _ _ _ => rfl, trivial⟩
      · rw [hk, hentry]
        exact .refl _
      · rw [hk, ← hentry, update_eq_self]
      · rw [hlook, hentry]
        exact fun h => absurd h he
    · refine ⟨[e], .table hb hi he hnodup hused hfull (r := e) ?_ ?_ ?_ ?_ ?_ ?_, rfl⟩
      · rw [hk, hentry]
        refine ⟨rfl, fun j hj hne => ?_, trivial⟩
        rw [Nat.pow_zero] at hj hne
        omega
      · rw [hk, hentry, blocks_zero]
        simp [blocks, he]
      · exact hgrown.mono fun x hx => mem_cons.mpr (.inl (mem_singleton.mp hx))
      · rw [hk]
        exact hset
      · exact fun _ => ⟨mem_cons_self, hz⟩
      · rw [hlook, hentry]
        exact fun h => absurd rfl h
  | succ l ih =>
    intro d d' ino ino' b i e h he hb hi hnodup hused hfull
    set k := i / geo.ppb ^ (l + 1)
    have hk : k < geo.ppb := div_lt hi
    have hlook : lookup geo.ppb (entry d) (l + 2) b i =
        lookup geo.ppb (entry d) (l + 1) (entry d b k) (i % geo.ppb ^ (l + 1)) := lookup_succ hb
    have hforest := hnodup
    rw [blocks_eq_forest hb] at hforest
    obtain ⟨hmem, hforest⟩ := nodup_cons.mp hforest
    have hchild := nodup_of_forest hforest hk
    have hchildUsed : ∀ x ∈ blocks geo.ppb (entry d) (l + 1) (entry d b k), d.used x = true :=
      fun x hx => hused x (mem_blocks_child hb hk hx)
    rw [descend] at h
    rcases hstep : tblEntry alloc d ino b k true with ⟨c, d₁, ino₁⟩
    rw [hstep] at h
    obtain ⟨hc, h⟩ := of_alloc_ne_zero h he
    -- an old table, or a new one: either way the descent goes on below it
    have hatt : ∃ new, Attached geo l (entry d b k) c d d₁ new ∧ Grown geo [b] d d₁ new ∧
        entry d₁ b = update (entry d b) k c ∧ ino₁ = addBlocks geo ino new.length ∧
        (entry d b k ≠ 0 → d₁ = d ∧ new = []) := by
      rcases tblEntry_cases hstep hc (hused b (mem_blocks_self hb)) with
        ⟨hentry, rfl, rfl⟩ | ⟨hentry, hgrown, hset, hz, rfl⟩
      · refine ⟨[], ?_, .refl, ?_, addBlocks_zero.symm, fun _ => ⟨rfl, rfl⟩⟩
        · have hthis := hfull _ hk
          rw [hentry] at hthis ⊢
          exact .found hc hthis
        · rw [← hentry, update_eq_self]
      · refine ⟨[c], ?_, hgrown, hset, rfl, fun hne => absurd hentry hne⟩
        rw [hentry]
        exact .zero hc hz
    obtain ⟨new, hatt, hgrown, hset, rfl, hold⟩ := hatt
    obtain ⟨new', htree, rfl⟩ := ih h he hc (mod_lt hi) (hatt.nodup hgrown hchildUsed hchild)
      (hatt.used hgrown hchildUsed) hatt.full
    obtain ⟨hmap, hperm, hdisk, hzero, hsame⟩ := TreeGrown.attach hatt hgrown htree (mod_lt hi)
    have hbused : d₁.used b = true := hgrown.used_of (.inl (hused b (mem_blocks_self hb)))
    have hkeep : d'.block b = d₁.block b := by
      apply htree.disk.frame b _ (htree.disk.not_mem hbused)
      intro hmem'
      rcases hatt.own b hmem' with hmem' | hmem'
      · exact hmem (mem_forest.mpr ⟨_, hk, mem_blocks_of_mem_tables hmem'⟩)
      · exact hgrown.not_mem (hused b (mem_blocks_self hb)) hmem'
    refine ⟨new ++ new', .table hb hi he hnodup hused hfull hmap hperm hdisk ?_ ?_ ?_, ?_⟩
    · rw [entry_eq_of_block hkeep, hset]
    · rw [hlook]
      exact hzero
    · rw [hlook]
      intro hne
      obtain ⟨rfl, rfl⟩ := hsame hne
      have hroot : entry d b k ≠ 0 := by
        intro hroot
        rw [hroot, lookup_zero] at hne
        exact hne rfl
      obtain ⟨rfl, rfl⟩ := hold hroot
      exact ⟨rfl, rfl⟩
    · rw [addBlocks_addBlocks, length_append]

end MaeroOS.Ext2.BlockMap
