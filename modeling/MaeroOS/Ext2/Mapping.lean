import MaeroOS.Ext2.ExtentFree
import MaeroOS.Lib.Bytes

/-!
# The blocks of a file, however they are mapped

`ext2_file_blk`, `ext2_file_blk_alloc` and `ext2_free_blocks_from` go by the extent tree of an inode
that has one, and by its block map else. What the data path needs of them is the same for both:
which block has the contents of a file block (`dataBlk`), and what is in it (`contents`). A file
block without one reads as zeros, and so does an unwritten one.
-/

namespace MaeroOS.Ext2.File

open Lib (Buf)
open Lib.RunMap
open Lib.PtrTree (Agree mem_forest forest_disjoint nodup_of_forest lookup_not_mem_tables
  lookup_mem_trail
  mem_blocks_of_mem_trail mem_blocks_of_mem_tables eq_of_mem_trail blocks_congr full_congr
    lookup_congr)
export Ext2.BlockMap (Geometry Disk Allocator writeBlock)
open Ext2.BlockMap (block_writeBlock_of_ne block_writeBlock_self)
open Ext2.Extents (Fs Csum Later Changed seen)

variable {geo : Geometry} {alloc : Allocator geo} {csum : Csum} {nozero : Bool} {fs fs' : Fs}
  {d d' : Disk} {idx fromIdx j r b : Nat} {buf : Buf}

/-- The part of an inode that says where its blocks are. -/
inductive Mapping where
  | blocks (ino : BlockMap.Inode)
  | extents (ino : Extents.Inode)

variable {m m' : Mapping}

/-- `ext2_file_blk`. -/
def fileBlk (geo : Geometry) (fs : Fs) (m : Mapping) (idx : Nat) : Nat × Fs :=
  match m with
  | .extents ino =>
    let (p, _, fs) := Extents.extMap geo fs ino idx
    (p, fs)
  | .blocks ino => (BlockMap.fileBlk geo fs.disk ino idx, fs)

/-- `ext2_file_blk_alloc`. Only an extent tree leaves a new block as it is when `nozero` is set. -/
def fileBlkAlloc (alloc : Allocator geo) (csum : Csum) (nozero : Bool) (fs : Fs) (m : Mapping)
    (idx : Nat) : Nat × Fs × Mapping :=
  match m with
  | .extents ino =>
    let (b, fs, ino) := Extents.extAlloc alloc csum nozero fs ino idx
    (b, fs, .extents ino)
  | .blocks ino =>
    let (b, d, ino) := BlockMap.fileBlkAlloc alloc fs.disk ino idx
    (b, { fs with disk := d }, .blocks ino)

/-- `ext2_free_blocks_from`. -/
def freeBlocksFrom (alloc : Allocator geo) (csum : Csum) (due : Nat → Nat → Bool) (fs : Fs)
    (m : Mapping) (fromIdx : Nat) : Fs × Mapping :=
  match m with
  | .extents ino =>
    let (fs, ino) := Extents.extFreeFrom alloc csum due fs ino fromIdx
    (fs, .extents (if fromIdx = 0 then { ino with blocks := 0 } else ino))
  | .blocks ino =>
    let (d, ino) := BlockMap.freeBlocksFrom geo fs.disk ino fromIdx
    ({ fs with disk := d }, .blocks ino)

/-! ## What a file has -/

/-- The block with the contents of a file block, or 0. -/
def dataBlk (geo : Geometry) (d : Disk) (m : Mapping) (idx : Nat) : Nat :=
  match m with
  | .extents ino => (seen (Extents.fileMap geo d ino idx)).1
  | .blocks ino => BlockMap.fileBlk geo d ino idx

/-- The contents of a file block. -/
def contents (geo : Geometry) (d : Disk) (m : Mapping) (idx : Nat) : Buf :=
  if dataBlk geo d m idx = 0 then fun _ => 0 else d.block (dataBlk geo d m idx)

/-- The mapping is in order, and what `x4_ext_map` remembers of it right. -/
def MapOk (geo : Geometry) (fs : Fs) : Mapping → Prop
  | .extents ino => Extents.FileOk geo fs.disk ino ∧ Extents.CacheOk geo fs ino
  | .blocks ino => BlockMap.FileOk geo fs.disk ino

/-- File blocks that the mapping can have. -/
def Mappable (geo : Geometry) (idx : Nat) : Mapping → Prop
  | .extents _ => idx < 2 ^ 32 - 1
  | .blocks _ => idx < BlockMap.maxBlocks geo

theorem contents_of_zero (h : dataBlk geo d m idx = 0) : contents geo d m idx = fun _ => 0 :=
  if_pos h

theorem contents_of_ne (h : dataBlk geo d m idx ≠ 0) : contents geo d m idx = d.block
    (dataBlk geo d m idx) := if_neg h

@[simp] theorem dataBlk_blocks {ino : BlockMap.Inode} :
    dataBlk geo d (.blocks ino) idx = BlockMap.fileBlk geo d ino idx := rfl

@[simp] theorem dataBlk_extents {ino : Extents.Inode} :
    dataBlk geo d (.extents ino) idx = (seen (Extents.fileMap geo d ino idx)).1 := rfl

/-- A file block with the same block, which has not changed. -/
theorem contents_congr (hdata : dataBlk geo d' m' j = dataBlk geo d m j)
    (hblock : dataBlk geo d m j ≠ 0 → d'.block (dataBlk geo d m j) = d.block (dataBlk geo d m j)) :
    contents geo d' m' j = contents geo d m j := by
  by_cases hzero : dataBlk geo d m j = 0
  · rw [contents_of_zero hzero, contents_of_zero (hdata.trans hzero)]
  · rw [contents_of_ne hzero, contents_of_ne (by rwa [hdata]), hdata]
    exact hblock hzero

/-! ### Block maps -/

section Blocks

variable {ino : BlockMap.Inode}

open BlockMap in
/-- A mapped index has a place, and its block is none of the tables. -/
theorem fileBlk_place (hok : FileOk geo d ino) (hne : BlockMap.fileBlk geo d ino j ≠ 0) :
    ∃ s off, s < 15 ∧ off < geo.ppb ^ slotLevel s ∧ j = slotBase geo s + off ∧
      BlockMap.fileBlk geo d ino j ∈ Lib.PtrTree.trail geo.ppb (entry d) (slotLevel s)
        (ino.slot s) off ∧
      BlockMap.fileBlk geo d ino j ∈ Lib.PtrTree.blocks geo.ppb (entry d) (slotLevel s)
        (ino.slot s) ∧
      BlockMap.fileBlk geo d ino j ∉ pointerBlocks geo d ino := by
  obtain ⟨s, off, hs, hoff, rfl⟩ := exists_place_of_ne hne
  rw [fileBlk_eq hs hoff] at hne ⊢
  have htrail := lookup_mem_trail hne
  have hmem := mem_blocks_of_mem_trail hoff htrail
  refine ⟨s, off, hs, hoff, rfl, htrail, hmem, fun hptr => ?_⟩
  obtain ⟨t, ht, htable⟩ := List.mem_flatMap.mp hptr
  by_cases hts : t = s
  · rw [hts] at htable
    exact lookup_not_mem_tables (nodup_of_forest hok.nodup hs) hoff hne htable
  · exact forest_disjoint hok.nodup (List.mem_range.mp ht) hs hts
      (mem_blocks_of_mem_tables htable) hmem

open BlockMap in
theorem fileBlk_inj (hok : FileOk geo d ino) (hne : BlockMap.fileBlk geo d ino idx ≠ 0)
    (heq : BlockMap.fileBlk geo d ino j = BlockMap.fileBlk geo d ino idx) : j = idx := by
  obtain ⟨s, off, hs, hoff, rfl, -, hmem, -⟩ := fileBlk_place hok hne
  obtain ⟨t, o, ht, ho, rfl, htrail, hmem', -⟩ := fileBlk_place hok (heq ▸ hne)
  rw [heq] at htrail hmem'
  have hts : t = s := by
    by_contra hts
    exact forest_disjoint hok.nodup ht hs hts hmem' hmem
  subst hts
  rw [fileBlk_eq hs hoff] at hne htrail
  rw [eq_of_mem_trail (nodup_of_forest hok.nodup hs) hoff ho hne htrail]

open BlockMap in
/-- A block that is no table may change. -/
theorem FileOk.of_tables (hok : FileOk geo d ino) (hused : d'.used = d.used)
    (hsame : ∀ x ∈ pointerBlocks geo d ino, d'.block x = d.block x) :
    FileOk geo d' ino ∧ ∀ j, BlockMap.fileBlk geo d' ino j = BlockMap.fileBlk geo d ino j := by
  have hagree : ∀ s < 15, Agree geo.ppb (entry d) (entry d')
      (Lib.PtrTree.tables geo.ppb (entry d) (slotLevel s) (ino.slot s)) :=
    fun s hs x hx k _ =>
      congrFun (entry_eq_of_block (hsame x (List.mem_flatMap.mpr ⟨s, List.mem_range.mpr hs, hx⟩))) k
  have hblocks : fileBlocks geo d' ino = fileBlocks geo d ino := by
    unfold fileBlocks Lib.PtrTree.forest
    apply List.flatMap_congr
    intro s hs
    exact blocks_congr (hagree s (List.mem_range.mp hs))
  refine ⟨⟨?_, ?_, ?_, fun s hs => full_congr (hagree s hs) (hok.full s hs), ?_⟩, fun j => ?_⟩
  · rw [hblocks]
    exact hok.nodup
  · rw [hblocks, hused]
    exact hok.used
  · rw [hblocks]
    exact hok.lt
  · rw [hblocks]
    exact hok.count
  · by_cases hj : j < maxBlocks geo
    · obtain ⟨s, off, hs, hoff, rfl⟩ := exists_place hj
      rw [fileBlk_eq hs hoff, fileBlk_eq hs hoff, lookup_congr (hagree s hs) hoff]
    · rw [fileBlk_beyond (Nat.le_of_not_lt hj), fileBlk_beyond (Nat.le_of_not_lt hj)]

end Blocks

/-! ### Extents -/

section Extents

variable {ino : Extents.Inode} {v : List Extents.Ext} {tb : List Nat}

open Extents

/-- A file block with contents is one of a written extent. -/
theorem seen_ne_zero {e : Option (Nat × Bool)} (h : (seen e).1 ≠ 0) :
    e = some ((seen e).1, false) := by
  match e, h with
  | some (p, false), _ => rfl
  | some (_, true), h => exact absurd rfl h
  | none, h => exact absurd rfl h

/-- A block that is none of the tree may change. -/
theorem Holds.of_tree (h : Holds geo fs.disk ino v tb) (hc : CacheOk geo fs ino)
    (hused : d'.used = fs.disk.used) (hsame : ∀ x ∈ tb, d'.block x = fs.disk.block x) :
    Holds geo d' ino v tb ∧ CacheOk geo { fs with disk := d' } ino := by
  have hnow : Holds geo d' ino v tb := h.congr hsame fun x hx => by
    rw [hused]
    exact h.used x hx
  refine ⟨hnow, hc.gen, fun hgen hroot j hle hlt => ?_⟩
  have hit := hc.hit hgen hroot j hle hlt
  rw [h.mapNode] at hit
  rw [hnow.mapNode]
  exact hit

end Extents

/-! ## The laws -/

/-- The file has an extent tree. -/
def Mapping.isExt : Mapping → Bool
  | .extents _ => true
  | .blocks _ => false

/-- The block of a file block with contents, in the list of extents. -/
theorem lookup_of_dataBlk {ino : Extents.Inode} {v : List Extents.Ext} {tb : List Nat}
    (hok : Extents.Holds geo d ino v tb)
    (hne : dataBlk geo d (.extents ino) j ≠ 0) :
    lookup v j = some (dataBlk geo d (.extents ino) j, false) :=
  hok.fileMap.symm.trans (seen_ne_zero hne)

variable (h : MapOk geo fs m) (hne : dataBlk geo fs.disk m idx ≠ 0)

include h hne

/-- Two file blocks have different blocks. -/
theorem dataBlk_inj (heq : dataBlk geo fs.disk m j = dataBlk geo fs.disk m idx) : j = idx := by
  cases m with
  | blocks ino => exact fileBlk_inj h hne heq
  | extents ino =>
    obtain ⟨⟨v, tb, hok⟩, -⟩ := h
    have hidx := lookup_of_dataBlk hok hne
    have hj := lookup_of_dataBlk hok (show dataBlk geo fs.disk (.extents ino) j ≠ 0 by rwa [heq])
    rw [heq] at hj
    exact lookup_inj hok.nodup.of_append_right hj hidx

theorem dataBlk_lt : dataBlk geo fs.disk m idx < geo.blocksCount := by
  cases m with
  | blocks ino =>
    obtain ⟨s, off, hs, -, -, -, hmem, -⟩ := fileBlk_place h hne
    exact h.lt _ (mem_forest.mpr ⟨s, hs, hmem⟩)
  | extents ino =>
    obtain ⟨⟨v, tb, hok⟩, -⟩ := h
    have hdata := mem_targets_of_lookup (lookup_of_dataBlk hok hne)
    exact hok.lt _ (List.mem_append_right _ hdata)

omit hne in
/-- `ext2_file_blk` gives the block of a file block, and changes nothing but what it remembers. -/
theorem fileBlk_spec :
    ∃ fs', fileBlk geo fs m idx = (dataBlk geo fs.disk m idx, fs') ∧ fs'.disk = fs.disk ∧
      MapOk geo fs' m ∧ Later fs fs' := by
  cases m with
  | blocks ino => exact ⟨fs, rfl, rfl, h, .refl⟩
  | extents ino =>
    obtain ⟨⟨v, tb, hok⟩, hcache⟩ := h
    obtain ⟨cache, hext, hcache', hgen⟩ := Extents.extMap_spec hok hcache
    refine ⟨{ fs with cache := cache }, ?_, rfl, ⟨⟨v, tb, hok⟩, hcache'⟩, le_rfl, hgen⟩
    unfold fileBlk
    dsimp only
    rw [hext, dataBlk_extents, hok.fileMap]

/-- The mapping does not read its data blocks. -/
theorem MapOk.writeBlock (hb : dataBlk geo fs.disk m idx = b) :
    MapOk geo { fs with disk := writeBlock fs.disk b buf } m ∧
      ∀ j, dataBlk geo (BlockMap.writeBlock fs.disk b buf) m j = dataBlk geo fs.disk m j := by
  cases m with
  | blocks ino =>
    obtain ⟨-, -, -, -, -, -, -, hptr⟩ := fileBlk_place h hne
    rw [dataBlk_blocks] at hb
    rw [hb] at hptr
    exact @FileOk.of_tables geo fs.disk (BlockMap.writeBlock fs.disk b buf) ino h rfl fun x hx =>
      block_writeBlock_of_ne fun (heq : x = b) => hptr (heq ▸ hx)
  | extents ino =>
    obtain ⟨⟨v, tb, hok⟩, hcache⟩ := h
    have hdata := mem_targets_of_lookup (lookup_of_dataBlk hok hne)
    rw [hb] at hdata
    obtain ⟨hok', hcache'⟩ :=
      @Holds.of_tree geo fs (BlockMap.writeBlock fs.disk b buf) ino v tb hok hcache rfl fun x hx =>
        block_writeBlock_of_ne fun (heq : x = b) =>
          List.disjoint_of_nodup_append hok.nodup hx (heq ▸ hdata)
    refine ⟨⟨⟨v, tb, hok'⟩, hcache'⟩, fun j => ?_⟩
    rw [dataBlk_extents, dataBlk_extents, hok.fileMap, hok'.fileMap]

/-- **Writing a data block** writes that file block. -/
theorem writeData_spec (hb : dataBlk geo fs.disk m idx = b) :
    MapOk geo { fs with disk := writeBlock fs.disk b buf } m ∧
      ∀ j, contents geo (writeBlock fs.disk b buf) m j = if j = idx then buf
        else contents geo fs.disk m j := by
  obtain ⟨hok, hdata⟩ := MapOk.writeBlock h hne hb
  refine ⟨hok, fun j => ?_⟩
  by_cases hj : j = idx
  · rw [if_pos hj, hj, contents_of_ne (by rwa [hdata]), hdata, hb]
    exact block_writeBlock_self
  · rw [if_neg hj]
    refine contents_congr (hdata j) fun _ => block_writeBlock_of_ne fun heq =>
      hj (dataBlk_inj h hne ?_)
    rw [heq, hb]

/-! ### Mapping a file block -/

omit h hne

/-- A file block was mapped: the others have the blocks they had, with what was in them, and so has
this one if it had one. Else its block is cleared, if it is to be. -/
structure Alloc (geo : Geometry) (nozero : Bool) (idx r : Nat) (fs fs' : Fs) (m m' : Mapping) :
    Prop where
  ok : MapOk geo fs' m'
  blk : dataBlk geo fs'.disk m' idx = r
  others : ∀ j, j ≠ idx → dataBlk geo fs'.disk m' j = dataBlk geo fs.disk m j
  old : dataBlk geo fs.disk m idx ≠ 0 → dataBlk geo fs.disk m idx = r
  frame : ∀ j, dataBlk geo fs.disk m j ≠ 0 →
    fs'.disk.block (dataBlk geo fs.disk m j) = fs.disk.block (dataBlk geo fs.disk m j)
  zero : dataBlk geo fs.disk m idx = 0 → nozero = false → fs'.disk.block r = fun _ => 0

theorem Alloc.contents_others (h : Alloc geo nozero idx r fs fs' m m') (hj : j ≠ idx) :
    contents geo fs'.disk m' j = contents geo fs.disk m j :=
  contents_congr (h.others j hj) (h.frame j)

theorem Alloc.contents_same (h : Alloc geo nozero idx r fs fs' m m') (hr : r ≠ 0)
    (hz : nozero = false) : contents geo fs'.disk m' idx = contents geo fs.disk m idx := by
  by_cases hzero : dataBlk geo fs.disk m idx = 0
  · rw [contents_of_zero hzero, contents_of_ne (by rwa [h.blk]), h.blk]
    exact h.zero hzero hz
  · exact contents_congr (h.blk.trans (h.old hzero).symm) (h.frame idx)

theorem Alloc.blocks {ino ino' : BlockMap.Inode} (h : BlockMap.FileOk geo fs.disk ino) (hr : r ≠ 0)
    (halloc : BlockMap.fileBlkAlloc alloc fs.disk ino idx = (r, d', ino')) :
    Alloc geo nozero idx r fs { fs with disk := d' } (.blocks ino) (.blocks ino') := by
  obtain ⟨s, off, new, hs, hoff, rfl, hgrown⟩ := BlockMap.fileBlkAlloc_spec h hr halloc
  have hmap := hgrown.fileBlk h hs hoff
  have hdisk := hgrown.tree.disk
  have hold := @BlockMap.fileBlk_eq geo fs.disk ino s off hs hoff
  have hhere := (hmap _).trans (if_pos rfl)
  refine ⟨hgrown.fileOk h hs, hhere, fun j hj => (hmap j).trans (if_neg hj), fun hne => ?_,
    fun j hne => ?_, fun hzero _ => ?_⟩
  · rw [dataBlk_blocks] at hne ⊢
    obtain ⟨rfl, -, hroot⟩ := hgrown.tree.same (hold ▸ hne)
    rw [hold, ← hroot, ← BlockMap.fileBlk_eq hs hoff]
    exact hhere
  · -- a data block of before is no table, and not new
    obtain ⟨t, o, ht, -, -, -, hmem, hptr⟩ := fileBlk_place h hne
    refine hdisk.frame _ (fun htable => hptr ?_)
      (hdisk.not_mem (h.used _ (mem_forest.mpr ⟨t, ht, hmem⟩)))
    exact List.mem_flatMap.mpr ⟨s, List.mem_range.mpr hs, htable⟩
  · rw [dataBlk_blocks] at hzero
    exact (hgrown.tree.zero (hold ▸ hzero)).2

theorem Alloc.extents {ino ino' : Extents.Inode} (hok : Extents.FileOk geo fs.disk ino)
    (hcache : Extents.CacheOk geo fs ino)
    (hidx : idx < 2 ^ 32 - 1) (hr : r ≠ 0)
    (halloc : Extents.extAlloc alloc csum nozero fs ino idx = (r, fs', ino')) :
    Later fs fs' ∧ (fs'.xgen < fs.cache.gen + 2 ^ 32 →
      Alloc geo nozero idx r fs fs' (.extents ino) (.extents ino')) := by
  obtain ⟨v, tb, h⟩ := hok
  obtain ⟨⟨v', tb', hmapped⟩, hcache', hlater, hreturned⟩ :=
    Extents.extAlloc_spec h hcache (by omega) hr halloc
  refine ⟨hlater, fun hage => ?_⟩
  have hok' : MapOk geo fs' (.extents ino') := ⟨⟨v', tb', hmapped.holds⟩, hcache' hage⟩
  have hmap : ∀ j, Extents.fileMap geo fs'.disk ino' j = if j = idx then some (r, false)
      else lookup v j := fun j =>
    hmapped.holds.fileMap.trans (hmapped.map j)
  have hhere : dataBlk geo fs'.disk (.extents ino') idx = r := by
    rw [dataBlk_extents, hmap, if_pos rfl]
    rfl
  have hothers : ∀ j, j ≠ idx →
      dataBlk geo fs'.disk (.extents ino') j = dataBlk geo fs.disk (.extents ino) j := by
    intro j hj
    rw [dataBlk_extents, dataBlk_extents, hmap, if_neg hj, h.fileMap]
  -- what the file block had, by what the allocation returned
  have hold : dataBlk geo fs.disk (.extents ino) idx ≠ 0 →
      dataBlk geo fs.disk (.extents ino) idx = r ∧ fs'.disk.block r = fs.disk.block r := by
    intro hne
    rw [lookup_of_dataBlk h hne] at hreturned
    obtain ⟨rfl, hdisk⟩ := hreturned
    exact ⟨rfl, by rw [hdisk]⟩
  refine ⟨hok', hhere, hothers, fun hne => (hold hne).1, fun j hne => ?_, fun hzero hz => ?_⟩
  · by_cases hj : j = idx
    · rw [hj] at hne ⊢
      obtain ⟨hr', hblock⟩ := hold hne
      rw [hr', hblock]
    · have hdata := mem_targets_of_lookup (lookup_of_dataBlk h hne)
      refine hmapped.data _ hdata fun heq => hj (dataBlk_inj hok' (by rwa [hhere]) ?_)
      rw [hothers j hj, heq, hhere]
  · rw [dataBlk_extents, h.fileMap] at hzero
    match hlook : lookup v idx with
    | none =>
      rw [hlook] at hreturned
      exact hreturned.2.2.2 hz
    | some (p, true) =>
      rw [hlook] at hreturned
      obtain ⟨rfl, hcleared⟩ := hreturned
      exact hcleared
    | some (p, false) =>
      rw [hlook] at hreturned hzero
      exact absurd (hreturned.1.trans hzero) hr

/-- **Mapping a file block** leaves the others as they were, and this one too if a new block is to
be cleared. -/
theorem fileBlkAlloc_spec (h : MapOk geo fs m) (hidx : Mappable geo idx m) (hr : r ≠ 0)
    (hres : fileBlkAlloc alloc csum nozero fs m idx = (r, fs', m')) :
    Later fs fs' ∧ m'.isExt = m.isExt ∧
      (fs'.xgen < fs.cache.gen + 2 ^ 32 → Alloc geo nozero idx r fs fs' m m') := by
  cases m with
  | blocks ino =>
    unfold fileBlkAlloc at hres
    dsimp only at hres
    rcases halloc : BlockMap.fileBlkAlloc alloc fs.disk ino idx with ⟨e, d₁, ino₁⟩
    rw [halloc] at hres
    cases hres
    exact ⟨⟨le_rfl, le_rfl⟩, rfl, fun _ => .blocks h hr halloc⟩
  | extents ino =>
    unfold fileBlkAlloc at hres
    dsimp only at hres
    rcases halloc : Extents.extAlloc alloc csum nozero fs ino idx with ⟨e, fs₁, ino₁⟩
    rw [halloc] at hres
    cases hres
    obtain ⟨hlater, hspec⟩ := Alloc.extents h.1 h.2 hidx hr halloc
    exact ⟨hlater, rfl, hspec⟩

/-- Mapping a file block changes the tree once at most, whether it succeeds or not. -/
theorem fileBlkAlloc_changed : Changed 1 fs (fileBlkAlloc alloc csum nozero fs m idx).2.1 := by
  cases m with
  | blocks ino => exact .refl
  | extents ino => exact Extents.extAlloc_changed

/-! ### Cutting -/

/-- How often a cut can change the tree: with every extent, and once more. -/
def cutChanges (geo : Geometry) (d : Disk) : Mapping → Nat
  | .blocks _ => 0
  | .extents ino => Extents.extCount geo d ino + 1

theorem freeBlocksFrom_changed {due : Nat → Nat → Bool} :
    Changed (cutChanges geo fs.disk m) fs (freeBlocksFrom alloc csum due fs m fromIdx).1 := by
  cases m with
  | blocks ino => exact .refl
  | extents ino => exact Extents.extFreeFrom_changed

/-- A file without extents has no tree blocks after a cut. -/
theorem Cut.blocks_zero {ino' : Extents.Inode} {v v' : List Extents.Ext} {tb tb' gone : List Nat}
    (h : Extents.Cut geo fromIdx fs fs' ino' v v' tb tb' gone) (hnone : ∀ j, lookup v' j = none) :
    { ino' with blocks := 0 } = ino' := by
  have hv : v' = [] := by
    rw [List.eq_nil_iff_forall_not_mem]
    intro x hx
    have hpos := (h.holds.ok x hx).pos
    exact lookup_eq_none.mp (hnone x.start) x hx ⟨le_rfl, by omega⟩
  have htb : tb'.length = 0 := h.size (0, 0, 0) (by rw [hv]; rfl)
  have hcount := h.holds.count
  rw [List.length_append, htb, hv] at hcount
  have hzero : ino'.blocks = 0 := BitVec.eq_of_toNat_eq (hcount.trans (Nat.zero_mul _))
  rw [← hzero]

/-- **Cutting a file** leaves it the blocks before `fromIdx`, with what was in them. -/
theorem freeBlocksFrom_spec {due : Nat → Nat → Bool} (h : MapOk geo fs m)
    (hres : freeBlocksFrom alloc csum due fs m fromIdx = (fs', m')) :
    Later fs fs' ∧ m'.isExt = m.isExt ∧ (fs'.xgen < fs.cache.gen + 2 ^ 32 → MapOk geo fs' m' ∧
      (∀ j, dataBlk geo fs'.disk m' j = if j < fromIdx then dataBlk geo fs.disk m j else 0) ∧
      ∀ j, j < fromIdx → dataBlk geo fs.disk m j ≠ 0 →
        fs'.disk.block (dataBlk geo fs.disk m j) = fs.disk.block (dataBlk geo fs.disk m j)) := by
  cases m with
  | blocks ino =>
    unfold freeBlocksFrom at hres
    dsimp only at hres
    rcases hfree : BlockMap.freeBlocksFrom geo fs.disk ino fromIdx with ⟨d₁, ino₁⟩
    rw [hfree] at hres
    cases hres
    obtain ⟨gone, hcut⟩ := BlockMap.freeBlocksFrom_spec h hfree
    refine ⟨⟨le_rfl, le_rfl⟩, rfl, fun _ =>
      ⟨hcut.ok, BlockMap.fileBlk_cut hcut.cut, fun j _ hne => ?_⟩⟩
    obtain ⟨-, -, -, -, -, -, -, hptr⟩ := fileBlk_place h hne
    exact hcut.freed.frame _ hptr
  | extents ino =>
    obtain ⟨⟨v, tb, hok⟩, hcache⟩ := h
    unfold freeBlocksFrom at hres
    dsimp only at hres
    rcases hfree : Extents.extFreeFrom alloc csum due fs ino fromIdx with ⟨fs₁, ino₁⟩
    rw [hfree] at hres
    obtain ⟨v', tb', gone, hcut, habove⟩ := Extents.extFreeFrom_spec hok hfree
    have hsame : (if fromIdx = 0 then { ino₁ with blocks := 0 } else ino₁) = ino₁ := by
      split
      next hzero => exact Cut.blocks_zero hcut fun j => habove j (by omega)
      · rfl
    rw [hsame] at hres
    cases hres
    have hdata : ∀ j, dataBlk geo fs₁.disk (.extents ino₁) j =
        if j < fromIdx then dataBlk geo fs.disk (.extents ino) j else 0 := by
      intro j
      rw [dataBlk_extents, dataBlk_extents, hcut.holds.fileMap, hok.fileMap]
      split
      next hj => rw [hcut.below j hj]
      next hj =>
        rw [habove j (Nat.le_of_not_lt hj)]
        rfl
    refine ⟨⟨le_of_lt hcut.xgen, ?_⟩, rfl, fun hage =>
      ⟨⟨⟨v', tb', hcut.holds⟩, hcache.changed hcut.cache hcut.xgen hage⟩, hdata,
        fun j hj hne => ?_⟩⟩
    · rw [hcut.cache]
    · have hnow := (hdata j).trans (if_pos hj)
      have hlook :=
        lookup_of_dataBlk hcut.holds (show dataBlk geo fs₁.disk (.extents ino₁) j ≠ 0 by rwa [hnow])
      rw [hnow] at hlook
      have hmem := mem_targets_of_lookup hlook
      exact (hcut.data _ hmem).2

end MaeroOS.Ext2.File
