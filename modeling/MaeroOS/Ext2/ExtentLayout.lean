import MaeroOS.Ext2.ExtentTree
import MaeroOS.Ext2.BlockGrow

/-!
# Laying an extent tree out

`x4_rebuild` cuts the list of extents into leaves and, with many of them, the leaves into index
blocks. What it writes reads back as a tree of just these extents (`layOut_spec`), whatever blocks
it is given.
-/

namespace MaeroOS.Ext2.Extents

open List
open Lib (Buf)
open Lib.RunMap
open Ext2.BlockMap (block_writeBlock_of_ne)

variable {geo : Geometry} {d : Disk} {csum : Csum} {k room i j m per : Nat} {b : Buf} {v : List Ext}
  {blks : List Nat} {n nidx nleaf : Nat} {l : List Nat} {α : Type}

/-! ## Parts of a list -/

theorem flatMap_chunk (l : List α) (m : Nat) : (range m).flatMap (chunk per l) = l.take
    (m * per) := by
  induction m with
  | zero => simp
  | succ m ih =>
    rw [range_succ, flatMap_append, ih, Nat.succ_mul, take_add]
    simp [chunk]

theorem mem_chunk {l : List α} {a : α} (h : a ∈ chunk per l j) :
    ∃ i, ∃ hi : i < l.length, j * per ≤ i ∧ i < (j + 1) * per ∧ l[i] = a := by
  unfold chunk at h
  obtain ⟨i, hi, rfl⟩ := mem_iff_getElem.mp h
  rw [length_take, length_drop] at hi
  refine ⟨j * per + i, by omega, by omega, ?_, ?_⟩
  · rw [Nat.succ_mul]
    omega
  · rw [getElem_take, getElem_drop]

theorem chunk_sublist {l : List α} : (chunk per l j).Sublist l :=
  (take_sublist _ _).trans (drop_sublist _ _)

theorem length_chunk_le {l : List α} : (chunk per l j).length ≤ per := by
  unfold chunk
  rw [length_take]
  exact min_le_left _ _

/-! ## Nodes -/

theorem perBlock_bounds : 12 + 12 * perBlock geo ≤ geo.blockSize ∧ 4 < perBlock geo ∧
    perBlock geo < 2 ^ 16 := by
  unfold perBlock BlockMap.Geometry.blockSize
  rcases geo.ppb_eq with h | h | h <;> rw [h] <;> decide

/-- A buffer with extents in it is a leaf. -/
theorem leaf_reads (max : Nat) (hlen : v.length ≤ max) (hmax : max < 2 ^ 16)
    (hroom : 12 + 12 * max ≤ room) (hok : ∀ x ∈ v, ExtOk x)
    (hb : ∀ q < 12 + 12 * max, b q = putExts 0 v (hdrPut (fun _ => 0) v.length max 0) q) :
    Reads geo d 0 v b room := by
  obtain ⟨hhdr, hentries, -, hdepth⟩ :=
    @hdrPut_spec (fun _ => 0) b v.length max 0 room hlen hmax hroom (by decide)
      fun q hq => by rw [hb q (by omega), putsExts.of_lt v (by omega)]
  refine ⟨hhdr, hdepth, ?_⟩
  rw [hentries]
  exact putsExts.map_get extAt_congr (fun x hx _ _ => extGet_extPut (hok x hx)) hlen hb

/-- A buffer with index entries in it is the index node of what they name. -/
theorem index_reads (max : Nat) {cs : Tree (k + 1)} {es : List (Nat × Nat)}
    (hes : es = (children cs).map fun c => (c.1, c.2.1)) (hlen : es.length ≤ max)
    (hmax : max < 2 ^ 16)
    (hroom : 12 + 12 * max ≤ room) (hk : k < 5) (hlt : ∀ e ∈ es, e.1 < 2 ^ 32 ∧ e.2 < 2 ^ 32)
    (hchild : ∀ c ∈ children cs, Reads geo d k c.2.2 (d.block c.2.1) geo.blockSize)
    (hb : ∀ q < 12 + 12 * max, b q = putIdxs 0 es (hdrPut (fun _ => 0) es.length max (k + 1)) q) :
    Reads geo d (k + 1) cs b room := by
  obtain ⟨hhdr, hentries, -, hdepth⟩ :=
    @hdrPut_spec (fun _ => 0) b es.length max (k + 1) room hlen hmax hroom hk
      fun q hq => by rw [hb q (by omega), putsIdxs.of_lt es (by omega)]
  refine ⟨hhdr, hdepth, ?_, fun i hi => ?_, hchild⟩
  · rw [hentries, ← hes]
    refine putsIdxs.map_get (g := fun b i => (idxKey b i, idxBlk b i)) (fun h => ?_)
      (fun e he => idxEntry_idxPut (hlt e he)) hlen hb
    obtain ⟨hkey, hblk, -⟩ := idx_congr h
    rw [hkey, hblk]
  · rw [hentries] at hi
    rw [(idx_congr fun q _ hq => hb q (by omega)).2.2, idxHi_putIdxs]
    unfold idxHi
    rw [Buf.le16_congr fun q _ _ => hdrPut_of_le (by omega)]
    show 0#8 ++ 0#8 = 0#16
    decide

theorem extTail_put {n max depth : Nat} (hn : n ≤ max) (hmax : max < 2 ^ 16) (hdepth : depth ≤ 5)
    (h : ∀ q < 12, b q = hdrPut (fun _ => 0) n max depth q) (hq : q < 12 + 12 * max) :
    extTail geo csum b q = b q := by
  refine extTail_of_lt ?_
  rwa [(hdrPut_spec hn hmax (le_refl (12 + 12 * max)) hdepth h).2.2.1]

theorem leafBuf_reads (hlen : v.length ≤ perBlock geo) (hok : ∀ x ∈ v, ExtOk x) :
    Reads geo d 0 v (leafBuf geo csum v) geo.blockSize := by
  obtain ⟨hroom, -, hper⟩ := perBlock_bounds
  exact leaf_reads _ hlen hper hroom hok fun q => extTail_put hlen hper (by decide) fun q hq =>
    putsExts.of_lt v (by omega)

theorem indexBuf_reads {cs : Tree 1} {es : List (Nat × Nat)}
    (hes : es = (children cs).map fun c => (c.1, c.2.1))
    (hlen : es.length ≤ perBlock geo) (hlt : ∀ e ∈ es, e.1 < 2 ^ 32 ∧ e.2 < 2 ^ 32)
    (hchild : ∀ c ∈ children cs, Reads geo d 0 c.2.2 (d.block c.2.1) geo.blockSize) :
    Reads geo d 1 cs (indexBuf geo csum es) geo.blockSize := by
  obtain ⟨hroom, -, hper⟩ := perBlock_bounds
  exact index_reads _ hes hlen hper hroom (by decide) hlt hchild fun q =>
    extTail_put hlen hper (by decide) fun q hq => putsIdxs.of_lt es (by omega)

/-! ## Blocks written one after another -/

theorem foldl_writeBlock (f : Nat → Nat) (g : Nat → Buf) (d : Disk) : ∀ m,
    (∀ i < m, ∀ j < m, f i = f j → i = j) →
      let d' := (range m).foldl (fun d j => writeBlock d (f j) (g j)) d
      (∀ j < m, d'.block (f j) = g j) ∧ (∀ x, (∀ j < m, f j ≠ x) → d'.block x = d.block x) ∧
        d'.used = d.used ∧ d'.freed = d.freed := by
  intro m
  induction m with
  | zero => exact fun _ => ⟨fun j hj => absurd hj (Nat.not_lt_zero j), fun _ _ => rfl, rfl, rfl⟩
  | succ m ih =>
    intro hinj
    obtain ⟨hself, hother, hused, hfreed⟩ := ih fun i hi j hj => hinj i (by omega) j (by omega)
    rw [range_succ, foldl_append, foldl_cons, foldl_nil]
    refine ⟨fun j hj => ?_, fun x hx => ?_, hused, hfreed⟩
    · rcases Nat.lt_succ_iff_lt_or_eq.mp hj with hlt | rfl
      · rw [block_writeBlock_of_ne, hself j hlt]
        intro heq
        have := hinj j hj m (Nat.lt_succ_self m) heq
        omega
      · exact Function.update_self _ _ _
    · rw [block_writeBlock_of_ne fun heq => hx m (Nat.lt_succ_self m) heq.symm]
      exact hother x fun j hj => hx j (by omega)

theorem getD_getElem? (hi : i < l.length) : (l[i]?).getD 0 = l[i] := by
  rw [getElem?_eq_getElem hi]
  rfl

/-- Different entries of a list without repetition. -/
theorem getD_inj (hnodup : l.Nodup) (hi : i < l.length) (hj : j < l.length)
    (h : (l[i]?).getD 0 = (l[j]?).getD 0) : i = j := by
  rw [getD_getElem? hi, getD_getElem? hj] at h
  exact (hnodup.getElem_inj_iff).mp h

/-! ## The tree -/

/-- The leaves, with their first file blocks. -/
def leafTree (geo : Geometry) (v : List Ext) (blks : List Nat) (nleaf : Nat) : Tree 1 :=
  (List.range nleaf).map fun j =>
    (lblkAt v (j * perBlock geo), (blks[j]?).getD 0, chunk (perBlock geo) v j)

/-- The index blocks above them. -/
def indexTree (geo : Geometry) (v : List Ext) (blks : List Nat) (nleaf nidx : Nat) : Tree 2 :=
  (List.range nidx).map fun u =>
    (lblkAt v (u * perBlock geo * perBlock geo), (blks[nleaf + u]?).getD 0,
    chunk (perBlock geo) (children (leafTree geo v blks nleaf)) u)

theorem length_leafTree : (children (leafTree geo v blks nleaf)).length = nleaf := by
  show (map _ _).length = _
  rw [length_map, length_range]

theorem lblkAt_eq (hi : i < v.length) : lblkAt v i = v[i].start := by
  unfold lblkAt
  rw [getElem?_eq_getElem hi]
  rfl

/-- Subtrees that have `width` extents each, one part of the list after the other. -/
theorem level_keys {width : Nat} {blk : Nat → Nat} {sub : Nat → Tree k} (h : Sorted v)
    (hfits : ∀ u < n, u * width < v.length)
    (hkeys : ∀ u < n, Keys k (sub u)) (hexts : ∀ u < n, ∀ x ∈ exts k (sub u),
      ∃ i, ∃ hi : i < v.length, u * width ≤ i ∧ i < (u + 1) * width ∧ v[i] = x) :
    Keys (k + 1) ((range n).map fun u => (lblkAt v (u * width), blk u, sub u)) := by
  refine ⟨?_, fun c hc => ?_⟩
  · show List.Pairwise _ (map _ _)
    rw [pairwise_map]
    refine pairwise_lt_range.imp_of_mem fun {u u'} hu hu' hlt => ?_
    have hu := mem_range.mp hu
    have hu' := hfits u' (mem_range.mp hu')
    rw [lblkAt_eq (hfits u hu), lblkAt_eq hu']
    refine ⟨h.start_le (Nat.mul_le_mul_right _ (le_of_lt hlt)) hu', fun x hx => ?_⟩
    obtain ⟨i, hi, -, hilt, rfl⟩ := hexts u hu x hx
    exact h.getElem_le (lt_of_lt_of_le hilt (Nat.mul_le_mul_right _ hlt)) hu'
  · obtain ⟨u, hu, rfl⟩ := mem_map.mp hc
    have hu := mem_range.mp hu
    refine ⟨fun x hx => ?_, hkeys u hu⟩
    obtain ⟨i, hi, hle, -, rfl⟩ := hexts u hu x hx
    rw [lblkAt_eq (hfits u hu)]
    exact h.start_le hle hi

theorem leafTree_keys (h : Sorted v) (hfits : ∀ j < nleaf, j * perBlock geo < v.length) :
    Keys 1 (leafTree geo v blks nleaf) :=
  level_keys h hfits (fun _ _ => trivial) fun _ _ _ => mem_chunk

theorem indexTree_keys (h : Sorted v) (hfits : ∀ j < nleaf, j * perBlock geo < v.length)
    (hfits' : ∀ u < nidx, u * perBlock geo < nleaf) : Keys 2 (indexTree geo v blks nleaf nidx) := by
  simp only [indexTree, Nat.mul_assoc]
  refine level_keys h (fun u hu => ?_) (fun u _ => (leafTree_keys h hfits).sublist chunk_sublist)
    fun u hu x hx => ?_
  · rw [← Nat.mul_assoc]
    exact hfits _ (hfits' u hu)
  -- an extent below index block `u` is in one of its leaves
  obtain ⟨c, hc, hx⟩ := mem_flatMap.mp hx
  obtain ⟨j, hj, hle, hlt, rfl⟩ := mem_chunk hc
  have hget : (children (leafTree geo v blks nleaf))[j].2.2 = chunk (perBlock geo) v j := by
    have hj' : j < nleaf := by rwa [length_leafTree] at hj
    have hentry := getElem_map (i := j) (l := range nleaf) (h := by simpa using hj')
      (fun j => ((lblkAt v (j * perBlock geo), (blks[j]?).getD 0, chunk (perBlock geo) v j) :
        Nat × Nat × Tree 0))
    rw [getElem_range] at hentry
    exact congrArg (fun c : Nat × Nat × Tree 0 => c.2.2) hentry
  rw [hget] at hx
  obtain ⟨i, hi, hle', hlt', rfl⟩ := mem_chunk hx
  rw [← Nat.mul_assoc, ← Nat.mul_assoc]
  exact ⟨i, hi, (Nat.mul_le_mul_right _ hle).trans hle',
    lt_of_lt_of_le hlt' (Nat.mul_le_mul_right _ hlt), rfl⟩

/-- The leaves have all extents. -/
theorem exts_leafTree (h : v.length ≤ nleaf * perBlock geo) :
    exts 1 (leafTree geo v blks nleaf) = v := by
  show flatMap _ (map _ _) = v
  rw [flatMap_map]
  exact (flatMap_chunk v nleaf).trans (take_of_length_le h)

/-- So have the index blocks. -/
theorem exts_indexTree (h : v.length ≤ nleaf * perBlock geo) (h' : nleaf ≤ nidx * perBlock geo) :
    exts 2 (indexTree geo v blks nleaf nidx) = v := by
  have hleaves : (range nidx).flatMap
      (chunk (perBlock geo) (children (leafTree geo v blks nleaf))) =
      children (leafTree geo v blks nleaf) := by
    rw [flatMap_chunk, take_of_length_le]
    rw [length_leafTree]
    exact h'
  calc exts 2 (indexTree geo v blks nleaf nidx)
      = (range nidx).flatMap (fun u =>
          (chunk (perBlock geo) (children (leafTree geo v blks nleaf)) u).flatMap fun c =>
            exts 0 c.2.2) := by
        show flatMap _ (map _ _) = _
        rw [flatMap_map]
        rfl
    _ = exts 1 (leafTree geo v blks nleaf) := by
        rw [← flatMap_assoc, hleaves]
        rfl
    _ = v := exts_leafTree h

/-! ## Its blocks -/

/-- The first entries of a list, one by one. -/
theorem map_getD_range (h : n ≤ l.length) : (range n).map (fun j => (l[j]?).getD 0) = l.take n := by
  apply ext_getElem
  · rw [length_map, length_range, length_take]
    omega
  · intro i h1 h2
    rw [length_map, length_range] at h1
    rw [getElem_map, getElem_range, getElem_take, getD_getElem? (by omega)]

theorem map_getD_range_add (h : n + m = l.length) :
    (range m).map (fun u => (l[n + u]?).getD 0) = l.drop n := by
  have hlen : (l.drop n).length = m := by
    rw [length_drop]
    omega
  have hmap := map_getD_range (le_of_eq hlen.symm)
  rw [← hlen, take_length] at hmap
  simpa only [getElem?_drop, hlen] using hmap

theorem treeBlocks_one (cs : Tree 1) : treeBlocks 1 cs = (children cs).map fun c => c.2.1 := by
  show (children cs).flatMap (fun c => [c.2.1]) = _
  rw [map_eq_flatMap]

theorem treeBlocks_leafTree (h : blks.length = nleaf) :
    treeBlocks 1 (leafTree geo v blks nleaf) = blks := by
  rw [treeBlocks_one]
  show map _ (map _ _) = _
  rw [map_map]
  exact (map_getD_range (le_of_eq h.symm)).trans (by rw [← h, take_length])

theorem treeBlocks_indexTree (h : blks.length = nleaf + nidx) (h' : nleaf ≤ nidx * perBlock geo) :
    (treeBlocks 2 (indexTree geo v blks nleaf nidx)).Perm blks := by
  have hblocks : treeBlocks 2 (indexTree geo v blks nleaf nidx) = (range nidx).flatMap fun u =>
      (blks[nleaf + u]?).getD 0 ::
        (chunk (perBlock geo) (children (leafTree geo v blks nleaf)) u).map fun c => c.2.1 := by
    show flatMap _ (map _ _) = _
    rw [flatMap_map]
    apply flatMap_congr
    intro u _
    exact congrArg _ (treeBlocks_one _)
  have hleaves : ((range nidx).flatMap fun u =>
      (chunk (perBlock geo) (children (leafTree geo v blks nleaf)) u).map fun c => c.2.1) =
        blks.take nleaf := by
    rw [← map_flatMap, flatMap_chunk, take_of_length_le (by rw [length_leafTree]; exact h')]
    show map _ (map _ _) = _
    rw [map_map]
    exact map_getD_range (by omega)
  rw [hblocks]
  refine (map_append_flatMap_perm _ _ _).symm.trans ?_
  rw [hleaves, map_getD_range_add h.symm]
  exact perm_append_comm.trans (by rw [take_append_drop])

end MaeroOS.Ext2.Extents
