import MaeroOS.Ext2.ExtentNode
import Mathlib.Data.List.TakeWhile

/-!
# Extent trees

A tree of depth `k` as a value (`Tree k`), and what it means that a node on the disk reads as one
(`Reads`). A walk from the root then finds what the list of all extents has (`mapNode_eq`), and
collecting gives that list and the tree blocks (`collect_eq`).
-/

namespace MaeroOS.Ext2.Extents

open List
open Lib (Buf)
open Lib.RunMap

variable {geo : Geometry} {d d' : Disk} {k room lblk : Nat} {b b' : Buf}

/-- A leaf has extents, an index node first file blocks, block numbers and what is there. -/
def Tree : Nat → Type
  | 0 => List Ext
  | k + 1 => List (Nat × Nat × Tree k)

/-- The entries of an index node. -/
abbrev children (cs : Tree (k + 1)) : List (Nat × Nat × Tree k) := cs

/-- All extents of a tree. -/
def exts : (k : Nat) → Tree k → List Ext
  | 0, xs => xs
  | k + 1, cs => (children cs).flatMap fun c => exts k c.2.2

/-- Its tree blocks, in the order `x4_collect` comes upon them. -/
def treeBlocks : (k : Nat) → Tree k → List Nat
  | 0, _ => []
  | k + 1, cs => (children cs).flatMap fun c => c.2.1 :: treeBlocks k c.2.2

/-- The node `b` is that of the tree. -/
def Reads (geo : Geometry) (d : Disk) : (k : Nat) → Tree k → Buf → Nat → Prop
  | 0, xs, b, room => hdrOk b room = true ∧ hdrDepth b = 0 ∧
    (List.range (hdrEntries b)).map (extAt b) = xs
  | k + 1, cs, b, room => hdrOk b room = true ∧ hdrDepth b = k + 1 ∧
      (List.range (hdrEntries b)).map (fun i => (idxKey b i, idxBlk b i)) =
        (children cs).map (fun c => (c.1, c.2.1)) ∧
      (∀ i < hdrEntries b, idxHi b i = 0) ∧
      ∀ c ∈ children cs, Reads geo d k c.2.2 (d.block c.2.1) geo.blockSize

/-- The first file blocks of index entries keep their extents apart. -/
def Keys : (k : Nat) → Tree k → Prop
  | 0, _ => True
  | k + 1, cs =>
      (children cs).Pairwise (fun c c' => c.1 ≤ c'.1 ∧ ∀ x ∈ exts k c.2.2, x.start + x.len ≤ c'.1) ∧
      ∀ c ∈ children cs, (∀ x ∈ exts k c.2.2, c.1 ≤ x.start) ∧ Keys k c.2.2

variable {t : Tree k}

theorem Reads.hdrOk (h : Reads geo d k t b room) : hdrOk b room = true := by
  cases k <;> exact h.1

theorem Reads.hdrDepth (h : Reads geo d k t b room) : hdrDepth b = k := by
  cases k <;> exact h.2.1

/-! ## What a tree depends on -/

/-- A tree reads the same when its tree blocks do. -/
theorem Reads.congr_disk : ∀ {k : Nat} {t : Tree k} {b : Buf} {room : Nat}, Reads geo d k t b room →
    (∀ x ∈ treeBlocks k t, d'.block x = d.block x) → Reads geo d' k t b room := by
  intro k
  induction k with
  | zero => exact fun h _ => h
  | succ k ih =>
    intro cs b room h hsame
    obtain ⟨hok, hdepth, hentries, hhi, hchild⟩ := h
    refine ⟨hok, hdepth, hentries, hhi, fun c hc => ?_⟩
    have hblocks : ∀ x ∈ c.2.1 :: treeBlocks k c.2.2, d'.block x = d.block x := fun x hx =>
      hsame x (mem_flatMap.mpr ⟨c, hc, hx⟩)
    rw [hblocks c.2.1 mem_cons_self]
    exact ih (hchild c hc) fun x hx => hblocks x (mem_cons_of_mem _ hx)

theorem extAt_congr {i : Nat} (h : ∀ q, 12 + 12 * i ≤ q → q < 12 + 12 * i + 12 → b' q = b q) :
    extAt b' i = extAt b i :=
  extGet_congr h

theorem idx_congr {i : Nat} (h : ∀ q, 12 + 12 * i ≤ q → q < 12 + 12 * i + 12 → b' q = b q) :
    idxKey b' i = idxKey b i ∧ idxBlk b' i = idxBlk b i ∧ idxHi b' i = idxHi b i := by
  unfold idxKey idxBlk idxHi
  rw [Buf.le32_congr fun q hq hq' => h q (by omega) (by omega), Buf.le32_congr fun q hq hq' =>
    h q (by omega) (by omega), Buf.le16_congr fun q hq hq' => h q (by omega) (by omega)]
  exact ⟨rfl, rfl, rfl⟩

/-- A node reads the same when the bytes up to its last entry do. -/
theorem Reads.congr_node (h : Reads geo d k t b room)
    (hsame : ∀ q < 12 + 12 * hdrMax b, b' q = b q) : Reads geo d k t b' room := by
  obtain ⟨hn, hm, hd, -⟩ := hdr_congr fun q hq => hsame q (by omega)
  have hok : Extents.hdrOk b' room = true := by
    rw [hdrOk_congr fun q hq => hsame q (by omega)]
    exact h.hdrOk
  have hsame' : ∀ i < hdrEntries b, ∀ q, 12 + 12 * i ≤ q → q < 12 + 12 * i + 12 → b' q = b q := by
    intro i hi q _ hq
    obtain ⟨-, hle, -, -⟩ := hdrOk_iff.mp h.hdrOk
    exact hsame q (by omega)
  cases k with
  | zero =>
    refine ⟨hok, hd.trans h.2.1, ?_⟩
    rw [hn, ← h.2.2]
    apply map_congr_left
    intro i hi
    exact extAt_congr (hsame' i (mem_range.mp hi))
  | succ k =>
    obtain ⟨-, hdepth, hentries, hhi, hchild⟩ := h
    refine ⟨hok, hd.trans hdepth, ?_, fun i hi => ?_, hchild⟩
    · rw [hn, ← hentries]
      apply map_congr_left
      intro i hi
      obtain ⟨hkey, hblk, -⟩ := idx_congr (hsame' i (mem_range.mp hi))
      rw [hkey, hblk]
    · rw [hn] at hi
      rw [(idx_congr (hsame' i hi)).2.2]
      exact hhi i hi

/-! ## Looking up -/

/-- What a list of extents has for a file block. -/
def mapList (xs : List Ext) (lblk : Nat) : Found :=
  match xs.find? (·.Has lblk) with
  | none => .hole
  | some x =>
    if x.tag then ⟨0, true, none⟩
    else if x.target = 0 then .hole
    else ⟨x.target + (lblk - x.start), false, some x⟩

theorem mapList_hole {xs : List Ext} (h : ∀ x ∈ xs, ¬ x.Has lblk) : mapList xs lblk = .hole := by
  unfold mapList
  rw [find?_eq_none.mpr fun x hx => by simpa using h x hx]

/-- Extents on either side that do not have the file block do not matter. -/
theorem mapList_middle {pre xs post : List Ext} (hpre : ∀ x ∈ pre, ¬ x.Has lblk)
    (hpost : ∀ x ∈ post, ¬ x.Has lblk) : mapList (pre ++ (xs ++ post)) lblk = mapList xs lblk := by
  have hleft : pre.find? (·.Has lblk) = none :=
    find?_eq_none.mpr fun x hx => by simpa using hpre x hx
  have hright : post.find? (·.Has lblk) = none :=
    find?_eq_none.mpr fun x hx => by simpa using hpost x hx
  unfold mapList
  rw [find?_append, find?_append, hleft, hright, Option.none_or, Option.or_none]

variable {cs post pre : List (Nat × Nat × Tree k)}

variable (h : (List.range (hdrEntries b)).map (fun i => (idxKey b i, idxBlk b i)) = cs.map fun c =>
  (c.1, c.2.1))

include h

/-- `idxFind` counts the first entries that start at or before the file block. -/
theorem idxFind_eq : idxFind b lblk = (cs.takeWhile fun c => c.1 ≤ lblk).length := by
  have hkeys : (range (hdrEntries b)).map (idxKey b) = cs.map Prod.fst := by
    have := congrArg (map Prod.fst) h
    rwa [map_map, map_map] at this
  have hfound := congrArg (fun l => (l.takeWhile fun n => n ≤ lblk).length) hkeys
  rwa [takeWhile_map, length_map, takeWhile_map, length_map] at hfound

variable {c : Nat × Nat × Tree k}

/-- The block number of an entry. -/
theorem idxBlk_eq (hcs : cs = pre ++ c :: post) :
    pre.length < hdrEntries b ∧ idxBlk b pre.length = c.2.1 := by
  have hlen : hdrEntries b = cs.length := by
    have := congrArg length h
    rwa [length_map, length_map, length_range] at this
  have hlt : pre.length < hdrEntries b := by
    rw [hlen, hcs, length_append, length_cons]
    omega
  refine ⟨hlt, ?_⟩
  have hget := congrArg (fun l => l[pre.length]?) h
  rw [getElem?_map, getElem?_range hlt, getElem?_map, hcs,
    getElem?_append_right le_rfl, Nat.sub_self] at hget
  exact congrArg Prod.snd (Option.some.inj hget)

omit h

theorem Keys.sublist {cs cs' : List (Nat × Nat × Tree k)} (h : Keys (k + 1) cs)
    (hsub : cs'.Sublist cs) :
    Keys (k + 1) cs' := ⟨h.1.sublist hsub, fun c hc => h.2 c (hsub.subset hc)⟩

/-- Children that all start after the file block do not have it. -/
theorem Keys.not_has (h : Keys (k + 1) cs) (hhead : ∀ c' ∈ cs.head?, ¬ c'.1 ≤ lblk) :
    ∀ x ∈ cs.flatMap fun c => exts k c.2.2, ¬ x.Has lblk := by
  intro x hx hhas
  obtain ⟨c', hc', hx⟩ := mem_flatMap.mp hx
  have hstart := (h.2 c' hc').1 x hx
  have hgt : ¬ c'.1 ≤ lblk := by
    cases cs with
    | nil => cases hc'
    | cons q qs =>
      have hq := hhead q rfl
      rcases mem_cons.mp hc' with rfl | hc'
      · exact hq
      · have := ((pairwise_cons.mp h.1).1 c' hc').1
        omega
  have := hhas.1
  omega

/-- The children that start at or before the file block, without the last of them, do not have it,
nor do those that start after it. -/
theorem keys_outside (h : Keys (k + 1) cs)
    (hcs : cs = pre ++ c :: post) (hc : c.1 ≤ lblk) (hpost : ∀ c' ∈ post.head?, ¬ c'.1 ≤ lblk) :
    (∀ x ∈ pre.flatMap fun c => exts k c.2.2, ¬ x.Has lblk) ∧
      ∀ x ∈ post.flatMap fun c => exts k c.2.2, ¬ x.Has lblk := by
  subst hcs
  refine ⟨fun x hx hhas => ?_,
    (h.sublist ((sublist_cons_self c post).trans (sublist_append_right _ _))).not_has hpost⟩
  obtain ⟨c', hc', hx⟩ := mem_flatMap.mp hx
  have hend := ((pairwise_append.mp h.1).2.2 c' hc' c mem_cons_self).2 x hx
  have := hhas.2
  omega

/-- **A walk from a node finds what the extents below it have.** -/
theorem mapNode_eq : ∀ {k : Nat} {t : Tree k} {b : Buf} {room fuel : Nat}, Reads geo d k t b room →
    Keys k t → k < fuel → mapNode geo d lblk fuel b room = mapList (exts k t) lblk := by
  intro k
  induction k with
  | zero =>
    intro xs b room fuel h _ hfuel
    obtain ⟨fuel, rfl⟩ := Nat.exists_eq_add_one.mpr hfuel
    obtain ⟨hok, hdepth, hxs⟩ := h
    rw [mapNode, hok, if_neg (by decide), if_pos hdepth, mapLeaf, hxs]
    rfl
  | succ k ih =>
    intro cs b room fuel h hkeys hfuel
    obtain ⟨fuel, rfl⟩ := Nat.exists_eq_add_one.mpr (Nat.zero_lt_of_lt hfuel)
    obtain ⟨hok, hdepth, hentries, hhi, hchild⟩ := h
    rw [mapNode, hok, if_neg (by decide), if_neg (by omega)]
    rw [idxFind_eq hentries]
    -- the entries up to the one the walk takes, and those after it
    have hsplit : cs = (cs.takeWhile fun c => c.1 ≤ lblk) ++ cs.dropWhile fun c => c.1 ≤ lblk :=
      takeWhile_append_dropWhile.symm
    have hhead : ∀ c' ∈ (cs.dropWhile fun c => decide (c.1 ≤ lblk)).head?, ¬ c'.1 ≤ lblk := by
      intro c' hc'
      have := head?_dropWhile_not (fun c : Nat × Nat × Tree k => decide (c.1 ≤ lblk)) cs
      rw [Option.mem_def.mp hc'] at this
      simpa using this
    have htake : ∀ c' ∈ cs.takeWhile fun c => c.1 ≤ lblk, c'.1 ≤ lblk := fun c' hc' => by
      simpa using mem_takeWhile_imp hc'
    generalize hA : (cs.takeWhile fun c => decide (c.1 ≤ lblk)) = A at hsplit htake
    generalize (cs.dropWhile fun c => decide (c.1 ≤ lblk)) = B at hsplit hhead
    rcases eq_nil_or_concat A with rfl | ⟨pre, c, rfl⟩
    · rw [nil_append] at hsplit
      subst hsplit
      rw [length_nil, if_pos rfl]
      exact (mapList_hole (hkeys.not_has hhead)).symm
    · rw [concat_eq_append] at hsplit htake ⊢
      have hcs : cs = pre ++ c :: B := by
        rw [hsplit, append_assoc, singleton_append]
      have hmem : c ∈ children cs := by
        rw [hcs]
        exact mem_append_right _ mem_cons_self
      obtain ⟨hlt, hblk⟩ := idxBlk_eq hentries hcs
      rw [length_append, length_singleton, if_neg (by omega), Nat.add_sub_cancel, hhi _ hlt,
        if_neg (by simp), hblk, ih (hchild c hmem) (hkeys.2 c hmem).2 (by omega)]
      obtain ⟨hpre, hpost⟩ :=
        keys_outside hkeys hcs (htake c (mem_append_right _ mem_cons_self)) hhead
      have hexts : exts (k + 1) cs = (pre.flatMap fun c => exts k c.2.2) ++
          (exts k c.2.2 ++ B.flatMap fun c => exts k c.2.2) := by
        show (children cs).flatMap _ = _
        rw [hcs, flatMap_append, flatMap_cons]
      rw [hexts, mapList_middle hpre hpost]

/-! ## Collecting -/

theorem collect_children {fuel : Nat}
    (hchild : ∀ c ∈ cs, collect geo d fuel (d.block c.2.1) geo.blockSize =
      some (exts k c.2.2, treeBlocks k c.2.2)) :
    ∀ (is : List Nat) (acc : List Ext × List Nat), is.map (idxBlk b) = cs.map (fun c => c.2.1) →
    (∀ i ∈ is, idxHi b i = 0) →
      is.foldlM (fun (acc : List Ext × List Nat) i => do
        if idxHi b i ≠ 0 then none
        else
          let child := idxBlk b i
          let (xs, tb) ← collect geo d fuel (d.block child) geo.blockSize
          return (acc.1 ++ xs, acc.2 ++ child :: tb)) acc =
        some (acc.1 ++ exts (k + 1) cs, acc.2 ++ treeBlocks (k + 1) cs) := by
  induction cs with
  | nil =>
    intro is acc his _
    obtain rfl : is = [] := map_eq_nil_iff.mp his
    simp [exts, treeBlocks]
  | cons c cs ih =>
    intro is acc his hhi
    cases is with
    | nil => cases his
    | cons i is =>
      rw [map_cons, map_cons, cons.injEq] at his
      have hrest := ih (fun c hc => hchild c (mem_cons_of_mem _ hc)) is
        (acc.1 ++ exts k c.2.2, acc.2 ++ c.2.1 :: treeBlocks k c.2.2) his.2 fun i hi =>
          hhi i (mem_cons_of_mem _ hi)
      rw [foldlM_cons, hhi i mem_cons_self, his.1]
      simp only [hchild c mem_cons_self, ne_eq, not_true_eq_false, if_false]
      refine hrest.trans ?_
      simp [exts, treeBlocks]

/-- **Collecting gives the extents and the tree blocks.** -/
theorem collect_eq : ∀ {k : Nat} {t : Tree k} {b : Buf} {room fuel : Nat}, Reads geo d k t b room →
    k < fuel →
    (∀ x ∈ exts k t, x.len ≠ 0 ∧ x.target ≠ 0) →
      collect geo d fuel b room = some (exts k t, treeBlocks k t) := by
  intro k
  induction k with
  | zero =>
    intro xs b room fuel h hfuel hok
    obtain ⟨fuel, rfl⟩ := Nat.exists_eq_add_one.mpr hfuel
    obtain ⟨hhdr, hdepth, hxs⟩ := h
    have hfilter : xs.filter (fun x => decide (x.len ≠ 0)) = xs :=
      filter_eq_self.mpr fun x hx => decide_eq_true (hok x hx).1
    have hall : xs.all (fun x => decide (x.target ≠ 0)) = true :=
      all_eq_true.mpr fun x hx => decide_eq_true (hok x hx).2
    rw [collect, hhdr, if_neg (by decide), if_pos hdepth, hxs]
    dsimp only
    rw [hfilter, hall]
    rfl
  | succ k ih =>
    intro cs b room fuel h hfuel hok
    obtain ⟨fuel, rfl⟩ := Nat.exists_eq_add_one.mpr (Nat.zero_lt_of_lt hfuel)
    obtain ⟨hhdr, hdepth, hentries, hhi, hchild⟩ := h
    rw [collect, hhdr, if_neg (by decide), if_neg (by omega)]
    have hblks : (range (hdrEntries b)).map (idxBlk b) = (children cs).map (fun c => c.2.1) := by
      have := congrArg (map Prod.snd) hentries
      rwa [map_map, map_map] at this
    have hcollect : ∀ c ∈ children cs,
        collect geo d fuel (d.block c.2.1) geo.blockSize =
          some (exts k c.2.2, treeBlocks k c.2.2) := by
      intro c hc
      exact ih (hchild c hc) (by omega) fun x hx => hok x (mem_flatMap.mpr ⟨c, hc, hx⟩)
    have hall :=
      collect_children hcollect (range (hdrEntries b)) ([], []) hblks fun i hi =>
        hhi i (mem_range.mp hi)
    exact hall

end MaeroOS.Ext2.Extents
