import MaeroOS.Ext2.ExtentRebuild

/-!
# Mapping a block of an extent-mapped file

A file in order (`Holds`) has a sorted list of extents in a tree, in blocks of its own. `x4_ext_map`
sees the map that the list stands for, through its cache or not (`extMap_spec`). `x4_ext_alloc`
changes the map at one file block, whether it lengthens the last extent (`append_spec`) or edits the
list (`insertNew_spec`, `convert_spec`).
-/

namespace MaeroOS.Ext2.Extents

open List (append_assoc mem_append mem_append_left mem_append_right nodup_append')
open Lib.RunMap
export Lib.RunMap (Apart)
open Ext2.BlockMap (sectors_lt)

variable {geo : Geometry} {alloc : Allocator geo} {d d' : Disk} {csum : Csum} {ino ino' : Inode}
  {fs fs' : Fs} {lblk goal : Nat} {v w : List Ext} {tb : List Nat}

/-! ## Files -/

/-- The file has the extents `v` in a tree with the blocks `tb`. -/
structure Holds (geo : Geometry) (d : Disk) (ino : Inode) (v : List Ext) (tb : List Nat) :
    Prop where
  tree : ∃ k ≤ 2, ∃ t : Tree k, Reads geo d k t ino.root 60 ∧ Keys k t ∧ exts k t = v ∧
    treeBlocks k t = tb
  sorted : Sorted v
  ok : ∀ x ∈ v, ExtOk x
  nodup : (tb ++ targets v).Nodup
  used : ∀ x ∈ tb ++ targets v, d.used x = true
  lt : ∀ x ∈ tb ++ targets v, x < geo.blocksCount
  pos : ∀ x ∈ tb, 0 < x
  count : ino.blocks.toNat = (tb ++ targets v).length * geo.sectorsPerBlock

/-- What of this is about its blocks: they are different blocks in use, and counted. -/
structure Owned (geo : Geometry) (d : Disk) (ino : Inode) (v : List Ext) (tb : List Nat) :
    Prop where
  nodup : (tb ++ targets v).Nodup
  used : ∀ x ∈ tb ++ targets v, d.used x = true
  lt : ∀ x ∈ tb ++ targets v, x < geo.blocksCount
  pos : ∀ x ∈ tb, 0 < x
  count : ino.blocks.toNat = (tb ++ targets v).length * geo.sectorsPerBlock

/-- A file in order. -/
def FileOk (geo : Geometry) (d : Disk) (ino : Inode) : Prop := ∃ v tb, Holds geo d ino v tb

/-- The map of a file: the disk block of a file block, and whether it is unwritten. -/
def fileMap (geo : Geometry) (d : Disk) (ino : Inode) (lblk : Nat) : Option (Nat × Bool) :=
  match collect geo d 6 ino.root 60 with
  | none => none
  | some (v, _) => lookup v lblk

/-- Its tree blocks. -/
def fileTree (geo : Geometry) (d : Disk) (ino : Inode) : List Nat :=
  match collect geo d 6 ino.root 60 with
  | none => []
  | some (_, tb) => tb

/-- What `x4_ext_map` tells of an entry of the map. -/
def seen : Option (Nat × Bool) → Nat × Bool
  | none => (0, false)
  | some (_, true) => (0, true)
  | some (p, false) => (p, false)

variable (h : Holds geo d ino v tb)

include h

theorem Holds.collect : collect geo d 6 ino.root 60 = some (v, tb) := by
  obtain ⟨k, hk, t, hreads, -, rfl, rfl⟩ := h.tree
  refine collect_eq hreads (by omega) fun x hx => ?_
  have hok := h.ok x hx
  exact ⟨ne_of_gt hok.pos, ne_of_gt hok.target⟩

theorem Holds.fileMap : fileMap geo d ino lblk = lookup v lblk := by
  rw [Extents.fileMap, h.collect]

theorem Holds.fileTree : fileTree geo d ino = tb := by
  rw [Extents.fileTree, h.collect]

theorem Holds.mapNode : mapNode geo d lblk 6 ino.root 60 = mapList v lblk := by
  obtain ⟨k, hk, t, hreads, hkeys, rfl, -⟩ := h.tree
  exact mapNode_eq hreads hkeys (by omega)

omit h in
theorem targets_pos (hok : ∀ x ∈ v, ExtOk x) {x : Nat} (hx : x ∈ targets v) : 0 < x := by
  obtain ⟨r, hr, hle, -⟩ := mem_targets.mp hx
  exact lt_of_lt_of_le (hok r hr).target hle

/-- A block that is not one of the tree may change. -/
theorem Holds.congr (hblock : ∀ x ∈ tb, d'.block x = d.block x)
    (hused : ∀ x ∈ tb ++ targets v, d'.used x = true) : Holds geo d' ino v tb := by
  obtain ⟨k, hk, t, hreads, hkeys, hv, htb⟩ := h.tree
  refine ⟨⟨k, hk, t, hreads.congr_disk ?_, hkeys, hv, htb⟩, h.sorted, h.ok, h.nodup, hused, h.lt,
    h.pos, h.count⟩
  rw [htb]
  exact hblock

/-! ## Looking up -/

omit h

theorem mapList_spec (hok : ∀ x ∈ v, ExtOk x) :
    ((mapList v lblk).blk, (mapList v lblk).unwritten) = seen (lookup v lblk) ∧
      ∀ x, (mapList v lblk).fill = some x → x ∈ v ∧ x.tag = false := by
  unfold mapList lookup
  cases hfind : v.find? (fun x => decide (x.Has lblk)) with
  | none => exact ⟨rfl, nofun⟩
  | some y =>
    have hy := List.mem_of_find?_eq_some hfind
    have htarget := (hok y hy).target
    dsimp only [Option.map_some]
    unfold Run.value
    cases htag : y.tag with
    | true => exact ⟨rfl, nofun⟩
    | false =>
      rw [if_neg (by decide), if_neg (ne_of_gt htarget)]
      refine ⟨rfl, fun x h => ?_⟩
      cases h
      exact ⟨hy, htag⟩

/-- What the cache says of the file is so. -/
structure CacheOk (geo : Geometry) (fs : Fs) (ino : Inode) : Prop where
  gen : fs.cache.gen ≤ fs.xgen
  hit : fs.cache.gen % 2 ^ 32 = fs.xgen % 2 ^ 32 → sameRoot fs.cache.root ino.root = true →
    ∀ j, fs.cache.lblk ≤ j → j < fs.cache.lblk + fs.cache.len →
      fs.cache.pblk + (j - fs.cache.lblk) = (mapNode geo fs.disk j 6 ino.root 60).blk ∧
        (mapNode geo fs.disk j 6 ino.root 60).unwritten = false

/-- The counter and the cache of an instance only go on. -/
structure Later (fs fs' : Fs) : Prop where
  xgen : fs.xgen ≤ fs'.xgen
  cache : fs.cache.gen ≤ fs'.cache.gen

theorem Later.refl : Later fs fs := ⟨le_rfl, le_rfl⟩

/-- After a change of the tree the cache is from before, as the counter tells until it comes
round. -/
theorem CacheOk.changed (h : CacheOk geo fs ino) (hcache : fs'.cache = fs.cache)
    (hgen : fs.xgen < fs'.xgen)
    (hage : fs'.xgen < fs.cache.gen + 2 ^ 32) : CacheOk geo fs' ino' := by
  have hle := h.gen
  refine ⟨by rw [hcache]; omega, fun heq => ?_⟩
  rw [hcache] at heq
  omega

/-- **`x4_ext_map` sees the map of the file**, with its cache or without. -/
theorem extMap_spec (h : Holds geo fs.disk ino v tb) (hc : CacheOk geo fs ino) :
    ∃ cache, extMap geo fs ino lblk =
      ((seen (lookup v lblk)).1, (seen (lookup v lblk)).2, { fs with cache := cache }) ∧
      CacheOk geo { fs with cache := cache } ino ∧ fs.cache.gen ≤ cache.gen := by
  obtain ⟨hseen, hfill⟩ := mapList_spec h.ok
  have hnode := fun j => @Holds.mapNode geo fs.disk ino j v tb h
  unfold extMap
  by_cases hhit : Cache.hit fs ino lblk = true
  · rw [if_pos hhit]
    unfold Cache.hit at hhit
    simp only [Bool.and_eq_true, beq_iff_eq, decide_eq_true_iff, bne_iff_ne] at hhit
    obtain ⟨⟨⟨⟨hgen, -⟩, hle⟩, hlt⟩, hroot⟩ := hhit
    obtain ⟨hblk, hunw⟩ := hc.hit hgen hroot lblk hle (by omega)
    rw [hnode] at hblk hunw
    refine ⟨fs.cache, ?_, hc, le_rfl⟩
    rw [← hseen, hblk, hunw]
  · rw [if_neg hhit]
    dsimp only
    rw [hnode, ← hseen]
    cases hx : (mapList v lblk).fill with
    | none => exact ⟨fs.cache, rfl, hc, le_rfl⟩
    | some x =>
      obtain ⟨hmem, htag⟩ := hfill x hx
      refine ⟨_, rfl, ⟨le_rfl, fun _ _ j hle hlt => ?_⟩, hc.gen⟩
      -- every block of the extent is found where the cache says
      rw [hnode]
      obtain ⟨hseen', -⟩ := mapList_spec h.ok
      rw [lookup_of_mem h.sorted.apart hmem ⟨hle, hlt⟩] at hseen'
      unfold Run.value at hseen'
      rw [htag] at hseen'
      exact ⟨(congrArg Prod.fst hseen').symm, congrArg Prod.snd hseen'⟩

/-! ## After a rebuild -/

theorem ExtOk.join {p c : Ext} (hp : ExtOk p) (hc : ExtOk c) (hcont : Continues p c)
    (hlen : p.len + c.len ≤ extLimit c.tag) : ExtOk (join p c) := by
  have hstart := hcont.start
  have hstop := hc.stop
  refine ⟨Nat.add_pos_left hp.pos _, ?_, ?_, hp.target, hp.target_lt⟩
  · show p.len + c.len ≤ extLimit p.tag
    rw [hcont.tag]
    exact hlen
  · show p.start + (p.len + c.len) < 2 ^ 32
    omega

/-- What `x4_normalise` makes of a list of extents that are apart. -/
theorem normaliseExts_spec (hapart : Apart w) (hok : ∀ x ∈ w, ExtOk x) :
    Sorted (normaliseExts w) ∧ (∀ x ∈ normaliseExts w, ExtOk x) ∧
      (∀ j, lookup (normaliseExts w) j = lookup w j) ∧
      (targets (normaliseExts w)).Perm (targets w) :=
  ⟨normalise_sorted hapart fun x hx => (hok x hx).pos,
    normalise_forall (fun _ _ hp hc hcont hlen => hp.join hc hcont hlen) hok, fun _ =>
      normalise_lookup hapart,
    normalise_targets⟩

/-- **A rebuilt file is in order**, if it owned the blocks of its extents and the old tree blocks,
and its data is as it was. -/
theorem Holds.rebuild (hsorted : Sorted v) (hok : ∀ x ∈ v, ExtOk x)
    (howned : Owned geo fs.disk ino v tb)
    (h : rebuild alloc csum fs ino v tb goal = (true, fs', ino')) :
    ∃ kept taken gone tb', Rebuilt geo fs fs' ino ino' v tb kept taken gone ∧
      tb'.Perm (kept ++ taken) ∧
      Holds geo fs'.disk ino' v tb' ∧ ∀ x ∈ targets v, fs'.disk.block x = fs.disk.block x := by
  obtain ⟨hnodup, hused, hlt, hpos, hcount⟩ := howned
  obtain ⟨htb, -, hapart⟩ := nodup_append'.mp hnodup
  obtain ⟨kept, taken, gone, hre⟩ :=
    rebuild_spec hsorted hok htb (fun x hx => hused x (mem_append_left _ hx))
      (fun x hx => hlt x (mem_append_left _ hx)) h
  obtain ⟨k, hk, t, hreads, hkeys, hexts, hperm⟩ := hre.tree
  have hold := hre.old
  have hkept : ∀ x ∈ kept, x ∈ tb := fun x hx => by rw [hold]; exact mem_append_left _ hx
  have hgone : ∀ x ∈ gone, x ∈ tb := fun x hx => by rw [hold]; exact mem_append_right _ hx
  have hstays : ∀ x ∈ kept ++ targets v, x ∈ tb ++ targets v := fun x hx => by
    rcases mem_append.mp hx with hx | hx
    · exact mem_append_left _ (hkept x hx)
    · exact mem_append_right _ hx
  have htaken : ∀ x ∈ taken, x ∉ tb ++ targets v := fun x hx hmem => by
    have hfree := (hre.grown x hx).2.2
    rw [hused x hmem] at hfree
    cases hfree
  have hapart' : ∀ x ∈ kept, x ∉ gone := fun x hx hx' =>
    List.disjoint_of_nodup_append (hold ▸ htb) hx hx'
  -- the blocks of the file now
  have hall : (treeBlocks k t ++ targets v).Perm (taken ++ (kept ++ targets v)) := by
    refine (hperm.append_right _).trans ?_
    rw [append_assoc, ← append_assoc, ← append_assoc]
    exact List.perm_append_comm.append_right _
  have hnodup' : (treeBlocks k t ++ targets v).Nodup := by
    rw [hall.nodup_iff, nodup_append', nodup_append']
    refine ⟨hre.nodup, ⟨?_, hnodup.of_append_right, fun x hx hx' => hapart (hkept x hx) hx'⟩,
      fun x hx hx' => ?_⟩
    · rw [hold] at htb
      exact htb.of_append_left
    · exact htaken x hx (hstays x hx')
  have hlt' : ∀ x ∈ treeBlocks k t ++ targets v, x < geo.blocksCount := by
    intro x hx
    rcases mem_append.mp (hall.mem_iff.mp hx) with hx | hx
    · exact (hre.grown x hx).2.1
    · exact hlt x (hstays x hx)
  have hpos' : ∀ x ∈ treeBlocks k t, 0 < x := by
    intro x hx
    rcases mem_append.mp (hperm.mem_iff.mp hx) with hx | hx
    · exact hpos x (hkept x hx)
    · exact (hre.grown x hx).1
  refine ⟨kept, taken, gone, treeBlocks k t, hre, hperm,
    ⟨⟨k, hk, t, hreads, hkeys, hexts, rfl⟩, hsorted, hok, hnodup',
    fun x hx => ?_, hlt', hpos', ?_⟩, fun x hx => hre.frame x fun hmem =>
      List.disjoint_of_nodup_append hnodup' (hperm.mem_iff.mpr hmem) hx⟩
  · rw [hre.used]
    rcases mem_append.mp (hall.mem_iff.mp hx) with hx | hx
    · rw [if_neg fun hg => htaken x hx (mem_append_left _ (hgone x hg)), if_pos hx]
    have hmem := hstays x hx
    have hng : x ∉ gone := fun hg => by
      rcases mem_append.mp hx with hx | hx
      · exact hapart' x hx hg
      · exact hapart (hgone x hg) hx
    rw [if_neg hng, if_neg fun ht => htaken x ht hmem]
    exact hused x hmem
  · -- `i_blocks` follows
    have hfits :=
      sectors_lt hnodup' (fun x hx => (mem_append.mp hx).elim (hpos' x) (targets_pos hok)) hlt'
    have hlen := hall.length_eq
    have holdlen := congrArg List.length hold
    simp only [List.length_append] at hlen holdlen hfits hcount ⊢
    have hblocks := hre.blocks _ hcount (by omega)
    rcases hre.one with hnone | hnone
    · rw [hnone, List.length_nil] at hlen hblocks
      rw [add_zero] at hblocks
      rw [hblocks ?_, show (treeBlocks k t).length + (targets v).length =
        tb.length + (targets v).length - gone.length by omega]
      rw [← hcount]
      exact ino.blocks.isLt
    · rw [hnone, List.length_nil] at hblocks holdlen
      rw [Nat.sub_zero] at hblocks
      rw [hblocks ?_, show (treeBlocks k t).length + (targets v).length =
        tb.length + (targets v).length + taken.length by omega]
      rw [show tb.length + (targets v).length + taken.length =
        (treeBlocks k t).length + (targets v).length by omega]
      exact hfits

end MaeroOS.Ext2.Extents
