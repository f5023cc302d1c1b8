import MaeroOS.Ext2.ExtentFile

/-!
# `x4_ext_alloc`

The three ways in which `x4_ext_alloc` maps a file block: a new extent in the list
(`insertNew_spec`), an unwritten extent split around the block (`convert_spec`), or the last extent
of the tree lengthened in place (`append_spec`). All of them change the map of the file in the one
place.
-/

namespace MaeroOS.Ext2.Extents

open List (append_assoc flatMap_append flatMap_singleton length_cons map_append mem_append
  mem_append_left mem_append_right mem_cons mem_cons_of_mem mem_cons_self mem_singleton nodup_cons
  not_mem_nil pairwise_append pairwise_singleton)
open Lib (Buf)
open Lib.RunMap
open Ext2.BlockMap (sectors_lt block_writeBlock_of_ne block_writeBlock_self blocksCount_lt)

variable {geo : Geometry} {alloc : Allocator geo} {d d' : Disk} {csum : Csum} {ino ino' : Inode}
  {fs fs' : Fs} {lblk nb : Nat} {v w : List Ext} {tb : List Nat}

/-- A file with the extents `v` on the disk `d` maps one block more: what the disk has then. -/
structure Mapped (geo : Geometry) (d : Disk) (v : List Ext) (lblk nb : Nat) (fs' : Fs)
    (ino' : Inode) (v' : List Ext) (tb' : List Nat) : Prop where
  holds : Holds geo fs'.disk ino' v' tb'
  map : ∀ j, lookup v' j = if j = lblk then some (nb, false) else lookup v j
  data : ∀ x ∈ targets v, x ≠ nb → fs'.disk.block x = d.block x

/-! ## A new extent -/

/-- One more extent, of a file block that the list does not have. -/
theorem add_extent (hapart : Apart v) (hlook : lookup v lblk = none) :
    Apart (v ++ [⟨lblk, 1, nb, false⟩]) ∧
      (∀ j, lookup (v ++ [⟨lblk, 1, nb, false⟩]) j = if j = lblk then some (nb, false)
        else lookup v j) ∧
      targets (v ++ [⟨lblk, 1, nb, false⟩]) = targets v ++ [nb] := by
  have hhas : ∀ j, (⟨lblk, 1, nb, false⟩ : Ext).Has j ↔ j = lblk := by
    intro j
    unfold Run.Has
    dsimp only
    omega
  rw [lookup_eq_none] at hlook
  refine ⟨?_, fun j => ?_, ?_⟩
  · refine pairwise_append.mpr ⟨hapart, pairwise_singleton _ _, fun x hx y hy i hi hi' => ?_⟩
    rw [mem_singleton.mp hy, hhas] at hi'
    exact hlook x hx (hi' ▸ hi)
  · rw [lookup_append]
    by_cases hj : j = lblk
    · rw [if_pos hj, lookup_eq_none.mpr fun x hx => hj ▸ hlook x hx, Option.none_or,
        lookup_cons_of_has ((hhas j).mpr hj)]
      unfold Run.value
      rw [hj, Nat.sub_self, Nat.add_zero]
    · rw [if_neg hj, lookup_cons_of_not_has fun h => hj ((hhas j).mp h), lookup_nil, Option.or_none]
  · rw [targets_append]
    rfl

/-- The blocks of a file, and one that it just got. -/
theorem Holds.with_block (h : Holds geo d ino v tb) (hgrown : Grown geo [] d fs.disk [nb]) :
    Holds geo fs.disk ino v tb ∧ nb ∉ tb ++ targets v ∧ 0 < nb ∧ nb < geo.blocksCount ∧
      fs.disk.used nb = true := by
  obtain ⟨hpos, hlt, hfree⟩ := hgrown.fresh nb mem_cons_self
  have hnew : nb ∉ tb ++ targets v := fun hmem => by
    rw [h.used nb hmem] at hfree
    cases hfree
  refine ⟨h.congr (fun x hx => ?_) fun x hx => hgrown.used_of (.inl (h.used x hx)), hnew, hpos, hlt,
    hgrown.used_of (.inr mem_cons_self)⟩
  refine hgrown.frame x not_mem_nil fun hx' => hnew ?_
  rw [← mem_singleton.mp hx']
  exact mem_append_left _ hx

/-- The blocks of the file with that one. -/
theorem Holds.one_more {v' : List Ext} (h : Holds geo d ino v tb)
    (hgrown : Grown geo [] d fs.disk [nb])
    (hall : (tb ++ targets v').Perm (nb :: (tb ++ targets v))) :
    Owned geo fs.disk (countBlock geo ino) v' tb := by
  obtain ⟨hnow, hnew, hpos, hlt, hused⟩ := h.with_block hgrown
  have hmem : ∀ x ∈ tb ++ targets v', x = nb ∨ x ∈ tb ++ targets v :=
    fun x hx => mem_cons.mp (hall.mem_iff.mp hx)
  have hnodup := hall.nodup_iff.mpr (nodup_cons.mpr ⟨hnew, h.nodup⟩)
  have hlt' : ∀ x ∈ tb ++ targets v', x < geo.blocksCount :=
    fun x hx => (hmem x hx).elim (fun h => h ▸ hlt) (h.lt x)
  have hfits := sectors_lt hnodup (fun x hx => (hmem x hx).elim (fun h => h ▸ hpos) fun hx =>
    (mem_append.mp hx).elim (h.pos x) (targets_pos h.ok)) hlt'
  refine ⟨hnodup, fun x hx => (hmem x hx).elim (fun h => h ▸ hused) (hnow.used x), hlt', h.pos, ?_⟩
  rw [hall.length_eq, length_cons, Nat.succ_mul] at hfits ⊢
  unfold countBlock
  rw [BitVec.toNat_add, BitVec.toNat_ofNat, h.count,
    Nat.mod_eq_of_lt (a := geo.sectorsPerBlock) (by omega), Nat.mod_eq_of_lt hfits]

theorem insertNew_spec (h : Holds geo d ino v tb) (hgrown : Grown geo [] d fs.disk [nb])
    (hlook : lookup v lblk = none) (hlblk : lblk + 1 < 2 ^ 32) {r : Nat} (hr : r ≠ 0)
    (hres : insertNew alloc csum fs (countBlock geo ino) lblk nb = (r, fs', ino')) :
    r = nb ∧ fs'.xgen = fs.xgen + 1 ∧ fs'.cache = fs.cache ∧ fs'.disk.block nb = fs.disk.block nb ∧
      ∃ v' tb', Mapped geo d v lblk nb fs' ino' v' tb' := by
  obtain ⟨hnow, -, hpos, hlt, -⟩ := h.with_block hgrown
  have hcollect : collect geo fs.disk 6 (countBlock geo ino).root 60 = some (v, tb) := hnow.collect
  unfold insertNew at hres
  rw [hcollect] at hres
  dsimp only at hres
  obtain ⟨hapart, hmap, htargets⟩ := add_extent h.sorted.apart hlook
  have hok : ∀ x ∈ v ++ [⟨lblk, 1, nb, false⟩], ExtOk x := by
    intro x hx
    rcases mem_append.mp hx with hx | hx
    · exact h.ok x hx
    · rw [mem_singleton.mp hx]
      exact ⟨Nat.one_pos, show 1 ≤ extLimit false by decide, hlblk, hpos,
        lt_of_lt_of_le hlt blocksCount_lt⟩
  obtain ⟨hsorted, hok', hmap', hperm⟩ := normaliseExts_spec hapart hok
  rw [htargets] at hperm
  generalize normaliseExts (v ++ [⟨lblk, 1, nb, false⟩]) = v' at hres hsorted hok' hmap' hperm
  rcases hre : rebuild alloc csum fs (countBlock geo ino) v' tb (nb + 1) with ⟨ok, fs₁, ino₁⟩
  rw [hre] at hres
  cases ok with
  | false =>
    dsimp only at hres
    unfold allocFail at hres
    split at hres <;> cases hres <;> exact absurd rfl hr
  | true =>
    cases hres
    have hall : (tb ++ targets v').Perm (nb :: (tb ++ targets v)) := by
      refine (hperm.append_left tb).trans ?_
      rw [← append_assoc]
      exact List.perm_append_singleton nb _
    obtain ⟨kept, taken, gone, tb', hrebuilt, -, hholds, hdata⟩ :=
      Holds.rebuild hsorted hok' (h.one_more hgrown hall) hre
    refine ⟨rfl, hrebuilt.xgen, hrebuilt.cache, hdata _ ?_, v', tb', hholds,
      fun j => (hmap' j).trans (hmap j), fun x hx hne => ?_⟩
    · rw [hperm.mem_iff]
      exact mem_append_right _ mem_cons_self
    · rw [hdata x (hperm.mem_iff.mpr (mem_append_left _ hx))]
      exact hgrown.frame x not_mem_nil fun hmem => hne (mem_singleton.mp hmem)

/-! ## An unwritten extent -/

/-- What is left of an extent before a file block, the block itself, and what is left after it. -/
def pieces (x : Ext) (lblk : Nat) : List Ext :=
  (if lblk - x.start ≠ 0 then [{ x with len := lblk - x.start }] else []) ++
    ⟨lblk, 1, x.target + (lblk - x.start), false⟩ ::
      if x.len - (lblk - x.start) - 1 ≠ 0 then
        [⟨lblk + 1, x.len - (lblk - x.start) - 1, x.target + (lblk - x.start) + 1, true⟩]
      else []

theorem mem_pieces {x y : Ext} (hy : y ∈ pieces x lblk) :
    lblk - x.start ≠ 0 ∧ y = { x with len := lblk - x.start } ∨
      y = ⟨lblk, 1, x.target + (lblk - x.start), false⟩ ∨
      x.len - (lblk - x.start) - 1 ≠ 0 ∧
        y = ⟨lblk + 1, x.len - (lblk - x.start) - 1, x.target + (lblk - x.start) + 1, true⟩ := by
  rcases mem_append.mp hy with hy | hy
  · split at hy
    next h => exact .inl ⟨h, mem_singleton.mp hy⟩
    · cases hy
  · rcases mem_cons.mp hy with hy | hy
    · exact .inr (.inl hy)
    split at hy
    next h => exact .inr (.inr ⟨h, mem_singleton.mp hy⟩)
    · cases hy

theorem pieces_targets {x : Ext} (h : x.Has lblk) : targets (pieces x lblk) = x.targets := by
  have hle := h.1
  have hlt := h.2
  have hbefore : targets (if lblk - x.start ≠ 0 then [{ x with len := lblk - x.start }] else []) =
      List.range' x.target (lblk - x.start) := by
    split
    · simp [targets, Run.targets]
    next hz => rw [not_not.mp hz]; rfl
  have hafter : targets (if x.len - (lblk - x.start) - 1 ≠ 0 then
      [(⟨lblk + 1, x.len - (lblk - x.start) - 1, x.target + (lblk - x.start) + 1, true⟩ : Ext)]
        else []) =
      List.range' (x.target + (lblk - x.start) + 1) (x.len - (lblk - x.start) - 1) := by
    split
    · simp [targets, Run.targets]
    next hz => rw [not_not.mp hz]; rfl
  have hmid : ∀ rest : List Ext, targets (⟨lblk, 1, x.target + (lblk - x.start), false⟩ :: rest) =
      List.range' (x.target + (lblk - x.start)) 1 ++ targets rest := fun rest => by
    simp [targets, Run.targets]
  unfold pieces
  rw [targets_append, hbefore, hmid, hafter, List.range'_append_1, List.range'_append_1]
  congr 1
  omega

theorem pieces_apart (x : Ext) (lblk : Nat) : Apart (pieces x lblk) := by
  refine pairwise_append.mpr ⟨?_, List.pairwise_cons.mpr ⟨fun y hy i hi hi' => ?_, ?_⟩,
    fun y hy z hz i hi hi' => ?_⟩
  · split
    · exact pairwise_singleton _ _
    · exact .nil
  · split at hy
    · rw [mem_singleton.mp hy] at hi'
      have := hi.2
      have := hi'.1
      dsimp only at *
      omega
    · cases hy
  · split
    · exact pairwise_singleton _ _
    · exact .nil
  · split at hy
    · rw [mem_singleton.mp hy] at hi
      have hlt := hi.2
      rcases mem_cons.mp hz with rfl | hz
      · have := hi'.1
        dsimp only at *
        omega
      · split at hz
        · rw [mem_singleton.mp hz] at hi'
          have := hi'.1
          dsimp only at *
          omega
        · cases hz
    · cases hy

/-- The pieces have what the extent has. -/
theorem pieces_has {x y : Ext} (h : x.Has lblk) (hy : y ∈ pieces x lblk) {j : Nat} (hj : y.Has j) :
    x.Has j := by
  have hle := h.1
  have hlt := h.2
  have h1 := hj.1
  have h2 := hj.2
  rcases mem_pieces hy with ⟨-, rfl⟩ | rfl | ⟨-, rfl⟩ <;> dsimp only at h1 h2 <;>
    exact ⟨by omega, by omega⟩

theorem pieces_lookup {x : Ext} (h : x.Has lblk) (htag : x.tag = true) {j : Nat} (hj : x.Has j) :
    lookup (pieces x lblk) j =
      some (x.target + (j - x.start), if j = lblk then false else true) := by
  have hle := h.1
  have hle' := hj.1
  have hlt' := hj.2
  have hmid : (⟨lblk, 1, x.target + (lblk - x.start), false⟩ : Ext) ∈ pieces x lblk :=
    mem_append_right _ mem_cons_self
  rcases Nat.lt_trichotomy j lblk with hcmp | rfl | hcmp
  · have hmem : { x with len := lblk - x.start } ∈ pieces x lblk := by
      unfold pieces
      rw [if_pos (show lblk - x.start ≠ 0 by omega)]
      exact mem_append_left _ mem_cons_self
    rw [lookup_of_mem (pieces_apart x lblk) hmem ⟨hle', by dsimp only; omega⟩, if_neg (by omega)]
    unfold Run.value
    rw [htag]
  · rw [lookup_of_mem (pieces_apart x j) hmid ⟨le_rfl, by dsimp only; omega⟩, if_pos rfl]
    unfold Run.value
    rw [Nat.sub_self, Nat.add_zero]
  · have hmem : (⟨lblk + 1, x.len - (lblk - x.start) - 1, x.target + (lblk - x.start) + 1, true⟩ :
        Ext) ∈ pieces x lblk := by
      unfold pieces
      rw [if_pos (show x.len - (lblk - x.start) - 1 ≠ 0 by omega)]
      exact mem_append_right _ (mem_cons_of_mem _ mem_cons_self)
    rw [lookup_of_mem (pieces_apart x lblk) hmem ⟨by dsimp only; omega, by dsimp only; omega⟩,
      if_neg (by omega)]
    unfold Run.value
    rw [show x.target + (lblk - x.start) + 1 + (j - (lblk + 1)) = x.target + (j - x.start) by omega]

theorem pieces_ok {x y : Ext} (h : x.Has lblk) (htag : x.tag = true) (hx : ExtOk x)
    (hend : x.target + x.len ≤ 2 ^ 32) (hy : y ∈ pieces x lblk) : ExtOk y := by
  obtain ⟨hpos, hlen, hstop, htarget, -⟩ := hx
  have hlt := h.2
  rw [htag] at hlen
  have hlen : x.len ≤ 32767 := hlen
  rcases mem_pieces hy with ⟨hne, rfl⟩ | rfl | ⟨hne, rfl⟩
  · refine ⟨by dsimp only; omega, ?_, by dsimp only; omega, htarget, by dsimp only; omega⟩
    rw [htag]
    show lblk - x.start ≤ 32767
    omega
  · exact ⟨Nat.one_pos, show 1 ≤
      extLimit false by decide, by dsimp only; omega, by dsimp only; omega, by dsimp only; omega⟩
  · refine ⟨by dsimp only; omega,
      ?_, by dsimp only; omega, by dsimp only; omega, by dsimp only; omega⟩
    show x.len - (lblk - x.start) - 1 ≤ 32767
    omega

/-- The list that `splitUnwritten` makes: one extent has become its pieces. -/
theorem splitUnwritten_eq {p : Nat} (hapart : Apart v) (hok : ∀ x ∈ v, ExtOk x)
    (hlook : lookup v lblk = some (p, true)) :
    ∃ w x rest, splitUnwritten v lblk = some (p, w) ∧ x.Has lblk ∧ x.tag = true ∧
      x.target + (lblk - x.start) = p ∧ v.Perm (x :: rest) ∧ w.Perm (pieces x lblk ++ rest) := by
  obtain ⟨y, hy, hyhas, hyval⟩ := exists_of_lookup hlook
  have hytag : y.tag = true := congrArg Prod.snd hyval
  obtain ⟨i, hi⟩ : ∃ i, v.findIdx? (fun x => x.tag && decide (x.Has lblk)) = some i := by
    cases hfind : v.findIdx? (fun x => x.tag && decide (x.Has lblk)) with
    | none =>
      rw [List.findIdx?_eq_none_iff] at hfind
      have := hfind y hy
      simp [hytag, hyhas] at this
    | some i => exact ⟨i, rfl⟩
  obtain ⟨hlt, hcond, -⟩ := List.findIdx?_eq_some_iff_getElem.mp hi
  rw [Bool.and_eq_true, decide_eq_true_iff] at hcond
  obtain ⟨htag, hhas⟩ := hcond
  have hget : v[i]? = some v[i] := List.getElem?_eq_getElem hlt
  have hsplit : v = v.take i ++ v[i] :: v.drop (i + 1) := by
    rw [List.getElem_cons_drop, List.take_append_drop]
  have hxmem : v[i] ∈ v := List.getElem_mem hlt
  have hset : ∀ y, (v.set i y).Perm (y :: (v.take i ++ v.drop (i + 1))) := by
    intro y
    rw [List.set_eq_take_append_cons_drop, if_pos hlt]
    exact List.perm_middle
  generalize v[i] = x at htag hhas hget hsplit hxmem
  have hp : x.target + (lblk - x.start) = p := by
    have := lookup_of_mem hapart hxmem hhas
    rw [hlook] at this
    exact (congrArg Prod.fst (Option.some.inj this)).symm
  have htarget : 0 < x.target := (hok x hxmem).target
  refine ⟨(if x.len - (lblk - x.start) - 1 ≠ 0 then
      (if lblk - x.start ≠ 0 then v.set i { x with len := lblk - x.start } ++ [⟨lblk, 1, p, false⟩]
        else v.set i ⟨lblk, 1, p, false⟩) ++ [⟨lblk + 1, x.len - (lblk - x.start) - 1, p + 1, true⟩]
      else if lblk - x.start ≠ 0 then
        v.set i { x with len := lblk - x.start } ++ [⟨lblk, 1, p, false⟩]
        else v.set i ⟨lblk, 1, p, false⟩), x, v.take i ++ v.drop (i + 1), ?_, hhas, htag, hp,
      (List.Perm.of_eq hsplit).trans List.perm_middle, ?_⟩
  · unfold splitUnwritten
    rw [hi]
    dsimp only
    rw [hget]
    dsimp only
    rw [hp, if_neg (show ¬ p = 0 by omega)]
  · generalize v.take i ++ v.drop (i + 1) = rest at hset
    have hadd : ∀ y more, (v.set i y ++ more).Perm (y :: more ++ rest) := fun y more =>
      ((hset y).append_right more).trans (List.Perm.cons y List.perm_append_comm)
    unfold pieces
    rw [hp]
    -- with a piece before and after the block, or without
    split
    · split
      · rw [append_assoc]
        exact hadd _ _
      · exact hadd _ _
    · split
      · exact hadd _ _
      · exact hset _

/-- **The list with an unwritten extent split** around a file block of it. -/
theorem splitUnwritten_spec {p : Nat} (hapart : Apart v) (hok : ∀ x ∈ v, ExtOk x)
    (hend : ∀ x ∈ targets v, x < 2 ^ 32) (hlook : lookup v lblk = some (p, true)) :
    ∃ w, splitUnwritten v lblk = some (p, w) ∧ Apart w ∧ (∀ x ∈ w, ExtOk x) ∧
      (∀ j, lookup w j = if j = lblk then some (p, false) else lookup v j) ∧
        (targets w).Perm (targets v) := by
  obtain ⟨w, x, rest, hsplit, hhas, htag, hp, hv, hw⟩ := splitUnwritten_eq hapart hok hlook
  have hxmem : x ∈ v := hv.mem_iff.mpr mem_cons_self
  obtain ⟨hxrest, hrest⟩ := List.pairwise_cons.mp (hapart.perm hv)
  have hend' : x.target + x.len ≤ 2 ^ 32 := by
    have hpos := (hok x hxmem).pos
    have := hend (x.target + x.len - 1) (mem_targets.mpr ⟨x, hxmem, by omega, by omega⟩)
    omega
  have hapart' : Apart (pieces x lblk ++ rest) := pairwise_append.mpr
    ⟨pieces_apart x lblk, hrest, fun y hy z hz j hj hj' =>
      hxrest z hz j (pieces_has hhas hy hj) hj'⟩
  refine ⟨w, hsplit, hapart'.perm hw.symm, fun y hy => ?_, fun j => ?_, ?_⟩
  · rcases mem_append.mp (hw.mem_iff.mp hy) with hy | hy
    · exact pieces_ok hhas htag (hok x hxmem) hend' hy
    · exact hok y (hv.mem_iff.mpr (mem_cons_of_mem _ hy))
  · rw [lookup_perm hapart' hw.symm, lookup_perm (hapart.perm hv) hv.symm, lookup_append]
    by_cases hj : x.Has j
    · rw [pieces_lookup hhas htag hj, lookup_cons_of_has hj, Option.some_or]
      unfold Run.value
      by_cases hjl : j = lblk
      · rw [if_pos hjl, if_pos hjl, hjl, hp]
      · rw [if_neg hjl, if_neg hjl, htag]
    · have hnone : lookup (pieces x lblk) j = none :=
        lookup_eq_none.mpr fun y hy hyj => hj (pieces_has hhas hy hyj)
      rw [hnone, Option.none_or, lookup_cons_of_not_has hj, if_neg fun (heq : j = lblk) =>
        hj (heq ▸ hhas)]
  · refine (targets_perm hw).trans ?_
    rw [targets_append, pieces_targets hhas]
    exact (targets_perm hv).symm

theorem convert_spec {p r : Nat} (h : Holds geo fs.disk ino v tb)
    (hlook : lookup v lblk = some (p, true)) (hr : r ≠ 0)
    (hres : convert alloc csum fs ino lblk = (r, fs', ino')) :
    r = p ∧ fs'.xgen = fs.xgen + 1 ∧ fs'.cache = fs.cache ∧ (fs'.disk.block p = fun _ => 0) ∧
      ∃ v' tb', Mapped geo fs.disk v lblk p fs' ino' v' tb' := by
  have hpin : p ∈ targets v := mem_targets_of_lookup hlook
  obtain ⟨w, hsplit, hapart, hok, hmap, hperm⟩ := splitUnwritten_spec h.sorted.apart h.ok
    (fun x hx => lt_of_lt_of_le (h.lt x (mem_append_right _ hx)) blocksCount_lt) hlook
  unfold convert at hres
  rw [h.collect] at hres
  dsimp only at hres
  rw [hsplit] at hres
  dsimp only at hres
  obtain ⟨hsorted, hok', hmap', hperm'⟩ := normaliseExts_spec hapart hok
  have hperm'' := hperm'.trans hperm
  generalize normaliseExts w = v' at hres hsorted hok' hmap' hperm''
  generalize hfs₀ : ({ fs with disk := writeBlock fs.disk p fun _ => 0 } : Fs) = fs₀ at hres
  have hused₀ : fs₀.disk.used = fs.disk.used := by rw [← hfs₀]; rfl
  rcases hre : rebuild alloc csum fs₀ ino v' tb (p + 1) with ⟨ok, fs₁, ino₁⟩
  rw [hre] at hres
  cases ok with
  | false =>
    cases hres
    exact absurd rfl hr
  | true =>
    cases hres
    have hall : (tb ++ targets v').Perm (tb ++ targets v) := hperm''.append_left tb
    obtain ⟨kept, taken, gone, tb', hrebuilt, -, hholds, hdata⟩ := Holds.rebuild hsorted hok'
      ⟨hall.nodup_iff.mpr h.nodup, fun x hx => by rw [hused₀]; exact h.used x (hall.mem_iff.mp hx),
        fun x hx => h.lt x (hall.mem_iff.mp hx), h.pos, by rw [hall.length_eq]; exact h.count⟩ hre
    have hxgen := hrebuilt.xgen
    have hcache := hrebuilt.cache
    rw [← hfs₀] at hxgen hcache hdata
    refine ⟨rfl, hxgen, hcache, ?_, v', tb', hholds, fun j => (hmap' j).trans (hmap j),
      fun x hx hne => ?_⟩
    · rw [hdata _ (hperm''.mem_iff.mpr hpin)]
      exact block_writeBlock_self
    · rw [hdata x (hperm''.mem_iff.mpr hx)]
      exact block_writeBlock_of_ne hne

/-! ## The last extent in place -/

/-- The tree with another last extent: `t'` is `t` with `x` for `y`, in the same blocks. -/
structure LastSet (k : Nat) (t t' : Tree k) (y x : Ext) : Prop where
  list : ∃ pre, exts k t = pre ++ [y] ∧ exts k t' = pre ++ [x]
  blocks : treeBlocks k t' = treeBlocks k t
  keys : Keys k t → Keys k t'

/-- The last entry of a leaf, overwritten. -/
theorem leaf_lastSet {xs : Tree 0} {b : Buf} {room : Nat} {x y : Ext} (h : Reads geo d 0 xs b room)
    (hlast : lastExt b = some y) (hx : y ∈ exts 0 xs → ExtOk x) :
    ∃ xs' : Tree 0, LastSet 0 xs xs' y x ∧
      ∀ d', Reads geo d' 0 xs' (extPut b (12 + 12 * (hdrEntries b - 1)) x) room := by
  obtain ⟨hok, hdepth, hxs⟩ := h
  unfold lastExt at hlast
  split at hlast
  next hcond =>
    obtain ⟨-, hpos, -⟩ := hcond
    cases hlast
    obtain ⟨n, hn⟩ := Nat.exists_eq_add_one.mpr hpos
    rw [hn, Nat.add_sub_cancel]
    have hhdr : ∀ q < 12, extPut b (12 + 12 * n) x q = b q :=
      fun q hq => extPut_of_disjoint (.inl (by omega))
    obtain ⟨hn', -, hd', -⟩ := hdr_congr hhdr
    have hexts : exts 0 xs = (List.range n).map (extAt b) ++ [extAt b n] := by
      show xs = _
      rw [← hxs, hn, List.range_succ, map_append]
      rfl
    refine ⟨(List.range n).map (extAt b) ++ [x], ⟨⟨(List.range n).map (extAt b), ?_, rfl⟩, rfl, id⟩,
      fun d' =>
      ⟨(hdrOk_congr hhdr).trans hok, hd'.trans hdepth, ?_⟩⟩
    · exact hexts
    · have hput : extAt (extPut b (12 + 12 * n) x) n = x := extGet_extPut (hx (by
        rw [hexts, hn, Nat.add_sub_cancel]
        exact mem_append_right _ mem_cons_self))
      have hothers : (List.range n).map (extAt (extPut b (12 + 12 * n) x)) =
          (List.range n).map (extAt b) := by
        apply List.map_congr_left
        intro i hi
        have := List.mem_range.mp hi
        exact extAt_congr fun q _ hq => extPut_of_disjoint (.inl (by omega))
      rw [hn', hn, List.range_succ, map_append, hothers, List.map_singleton, hput]
  · cases hlast

/-- Another last child makes another last extent. -/
theorem LastSet.child {k : Nat} {pre : List (Nat × Nat × Tree k)} {c : Nat × Nat × Tree k}
    {t' : Tree k} {x y : Ext} (h : LastSet k c.2.2 t' y x) (hstart : x.start = y.start) :
    LastSet (k + 1) (pre ++ [c] : List (Nat × Nat × Tree k))
      (pre ++ [(c.1, c.2.1, t')] : List (Nat × Nat × Tree k)) y x := by
  obtain ⟨⟨xs, hexts, hexts'⟩, hblocks, hkeys⟩ := h
  have hflat : ∀ c' : Nat × Nat × Tree k, exts (k + 1) (pre ++ [c'] : List (Nat × Nat × Tree k)) =
      (pre.flatMap fun c => exts k c.2.2) ++ exts k c'.2.2 := by
    intro c'
    show (pre ++ [c']).flatMap _ = _
    rw [flatMap_append, flatMap_singleton]
  refine ⟨⟨(pre.flatMap fun c => exts k c.2.2) ++ xs, ?_, ?_⟩, ?_, fun ⟨hpair, hchild⟩ => ?_⟩
  · rw [hflat, hexts, append_assoc]
  · rw [hflat]
    show _ ++ exts k t' = _
    rw [hexts', append_assoc]
  · show (pre ++ [(c.1, c.2.1, t')]).flatMap _ = (pre ++ [c]).flatMap _
    rw [flatMap_append, flatMap_append, flatMap_singleton, flatMap_singleton]
    show _ ++ (c.2.1 :: treeBlocks k t') = _
    rw [hblocks]
  · obtain ⟨hpre, -, hcross⟩ := pairwise_append.mp hpair
    obtain ⟨hlow, hkeys₀⟩ := hchild c (mem_append_right _ mem_cons_self)
    refine ⟨pairwise_append.mpr ⟨hpre, pairwise_singleton _ _, fun c₁ h₁ c₂ h₂ => ?_⟩,
      fun c' hc' => ?_⟩
    · -- the order of children looks at the first file block of the later one
      rw [mem_singleton.mp h₂]
      exact hcross c₁ h₁ c mem_cons_self
    · rcases mem_append.mp hc' with hc' | hc'
      · exact hchild c' (mem_append_left _ hc')
      rw [mem_singleton.mp hc']
      refine ⟨fun z hz => ?_, hkeys hkeys₀⟩
      rw [hexts'] at hz
      rcases mem_append.mp hz with hz | hz
      · exact hlow z (hexts ▸ mem_append_left _ hz)
      · rw [mem_singleton.mp hz, hstart]
        exact hlow y (hexts ▸ mem_append_right _ mem_cons_self)

/-- **The rightmost leaf with its last extent overwritten** makes a tree with another last extent:
the leaf is the node the walk began at, or a tree block, and no other block changes. -/
theorem rightmost_lastSet {node : Buf} {leaf : Nat} {x y : Ext} (hlast : lastExt node = some y)
    (hstart : x.start = y.start) :
    ∀ {k : Nat} {t : Tree k} {b : Buf} {room top fuel : Nat}, Reads geo d k t b room →
      (treeBlocks k t).Nodup → k < fuel →
      (y ∈ exts k t → ExtOk x) → rightmost geo d fuel b top = some (node, leaf) →
        ∃ t', LastSet k t t' y x ∧
        (leaf = top ∧ node = b ∧
          (∀ d', Reads geo d' k t' (extPut node (12 + 12 * (hdrEntries node - 1)) x) room) ∨
          leaf ∈ treeBlocks k t ∧ Reads geo
            (writeBlock d leaf (extTail geo csum (extPut node (12 + 12 * (hdrEntries node - 1)) x)))
              k t' b room) := by
  intro k
  induction k with
  | zero =>
    intro t b room top fuel h _ hfuel hx hright
    obtain ⟨fuel, rfl⟩ := Nat.exists_eq_add_one.mpr hfuel
    rw [rightmost, if_pos h.hdrDepth] at hright
    cases hright
    obtain ⟨t', hset, hreads⟩ := leaf_lastSet h hlast hx
    exact ⟨t', hset, .inl ⟨rfl, rfl, hreads⟩⟩
  | succ k ih =>
    intro t b room top fuel h hnodup hfuel hx hright
    obtain ⟨fuel, rfl⟩ := Nat.exists_eq_add_one.mpr (Nat.zero_lt_of_lt hfuel)
    obtain ⟨hok, hdepth, hentries, hhi, hchild⟩ := h
    rw [rightmost, if_neg (by omega)] at hright
    by_cases hzero : hdrEntries b = 0
    · -- an index without entries has no last extent
      rw [if_pos hzero] at hright
      cases hright
      unfold lastExt at hlast
      rw [if_neg fun hcond => by omega] at hlast
      cases hlast
    · rw [if_neg hzero] at hright
      obtain ⟨pre, c, rfl⟩ : ∃ (pre : List (Nat × Nat × Tree k)) (c : Nat × Nat × Tree k),
          t = (pre ++ [c] : List _) := by
        rcases List.eq_nil_or_concat (children t) with hnil | ⟨pre, c, hcat⟩
        · rw [hnil] at hentries
          have := congrArg List.length hentries
          simp only [List.length_map, List.length_range, List.length_nil, List.map_nil] at this
          omega
        · exact ⟨pre, c, hcat.trans List.concat_eq_append⟩
      have hlen : hdrEntries b = pre.length + 1 := by
        have := congrArg List.length hentries
        simpa only [List.length_map, List.length_range, List.length_append,
          List.length_singleton] using this
      obtain ⟨-, hblk⟩ := idxBlk_eq hentries rfl
      have hmem : c ∈ children (k := k) (pre ++ [c] : List _) := mem_append_right _ mem_cons_self
      dsimp only at hright
      rw [hlen, Nat.add_sub_cancel, hblk, (hchild c hmem).hdrOk, if_neg (by decide)] at hright
      have hblocks : treeBlocks (k + 1) (pre ++ [c] : List (Nat × Nat × Tree k)) =
          (pre.flatMap fun c => c.2.1 :: treeBlocks k c.2.2) ++ c.2.1 :: treeBlocks k c.2.2 := by
        show (pre ++ [c]).flatMap _ = _
        rw [flatMap_append, flatMap_singleton]
      rw [hblocks] at hnodup ⊢
      obtain ⟨-, hcnodup, hapart⟩ := List.nodup_append'.mp hnodup
      obtain ⟨hcnew, hcnodup⟩ := nodup_cons.mp hcnodup
      obtain ⟨t', hset, hcase⟩ := ih (hchild c hmem) hcnodup (by omega)
        (fun hy => hx (List.mem_flatMap.mpr ⟨c, hmem, hy⟩)) hright
      generalize hnode' : extPut node (12 + 12 * (hdrEntries node - 1)) x = node' at hcase
      -- the leaf is the last child or below it
      have hleaf : leaf ∈ c.2.1 :: treeBlocks k c.2.2 := by
        rcases hcase with ⟨rfl, -, -⟩ | ⟨hmem, -⟩
        · exact mem_cons_self
        · exact mem_cons_of_mem _ hmem
      have hkeep : ∀ c' ∈ pre, ∀ z ∈ c'.2.1 :: treeBlocks k c'.2.2,
          (writeBlock d leaf (extTail geo csum node')).block z = d.block z := by
        intro c' hc' z hz
        refine block_writeBlock_of_ne ?_
        rintro rfl
        exact hapart (List.mem_flatMap.mpr ⟨c', hc', hz⟩) hleaf
      refine ⟨_, hset.child hstart,
        .inr ⟨mem_append_right _ hleaf, hok, hdepth, ?_, hhi, fun c' hc' => ?_⟩⟩
      · rw [hentries]
        show (pre ++ [c]).map _ = (pre ++ [(c.1, c.2.1, t')]).map _
        rw [map_append, map_append]
        rfl
      · rcases mem_append.mp hc' with hc' | hc'
        · rw [hkeep c' hc' c'.2.1 mem_cons_self]
          exact (hchild c' (mem_append_left _ hc')).congr_disk fun z hz =>
            hkeep c' hc' z (mem_cons_of_mem _ hz)
        · rw [mem_singleton.mp hc']
          rcases hcase with ⟨rfl, -, hreads⟩ | ⟨hbelow, hreads⟩
          · rw [block_writeBlock_self]
            exact (hreads _).congr_node fun q hq => extTail_of_lt hq
          · have hne : c.2.1 ≠ leaf := fun heq => hcnew (heq ▸ hbelow)
            rw [block_writeBlock_of_ne hne]
            exact hreads

/-- What `appends` asks for. -/
theorem appends_spec {last : Option Ext} {x : Ext} (h : appends last lblk nb = some x) :
    ∃ y, last = some y ∧ x = join y ⟨lblk, 1, nb, false⟩ ∧ Continues y ⟨lblk, 1, nb, false⟩ ∧
      y.len < extMaxLen := by
  unfold appends at h
  cases last with
  | none => cases h
  | some y =>
    dsimp only at h
    split at h
    next hcond =>
      simp only [Bool.and_eq_true, Bool.not_eq_true', beq_iff_eq, decide_eq_true_iff] at hcond
      obtain ⟨⟨⟨htag, hstart⟩, htarget⟩, hlen⟩ := hcond
      cases h
      exact ⟨y, rfl, rfl, ⟨htag, hstart.symm, htarget.symm⟩, hlen⟩
    · cases h

theorem append_spec {node : Buf} {leaf : Nat} {x : Ext} (h : Holds geo d ino v tb)
    (hgrown : Grown geo [] d fs.disk [nb])
    (hlook : lookup v lblk = none) (hlblk : lblk + 1 < 2 ^ 32)
    (hright : rightmost geo d 6 ino.root 0 = some (node, leaf))
    (happ : appends (lastExt node) lblk nb = some x)
    (hres : append geo csum fs (countBlock geo ino) node leaf x = (fs', ino')) :
    fs'.xgen = fs.xgen + 1 ∧ fs'.cache = fs.cache ∧ fs'.disk.block nb = fs.disk.block nb ∧
      ∃ v' tb', Mapped geo d v lblk nb fs' ino' v' tb' := by
  obtain ⟨-, hnew, hpos, hlt, -⟩ := h.with_block hgrown
  obtain ⟨y, hlast, rfl, hcont, hlen⟩ := appends_spec happ
  obtain ⟨k, hk, t, hreads, hkeys, hv, htb⟩ := h.tree
  set new : Ext := ⟨lblk, 1, nb, false⟩
  have hnewOk : ExtOk new :=
    ⟨Nat.one_pos, show 1 ≤ extLimit false by decide, hlblk, hpos, lt_of_lt_of_le hlt blocksCount_lt⟩
  have hx : y ∈ v → ExtOk (join y new) := fun hy =>
    (h.ok y hy).join hnewOk hcont (show y.len + 1 ≤ 32768 from hlen)
  obtain ⟨t', ⟨⟨pre, hexts, hexts'⟩, hblocks, hkeys'⟩, hcase⟩ :=
    @rightmost_lastSet geo d csum node leaf _ y hlast
      (show (join y new).start = y.start from rfl) k t ino.root 60 0 6 hreads
      (htb ▸ h.nodup.of_append_left) (by omega) (hv ▸ hx) hright
  generalize hnode' : extPut node (12 + 12 * (hdrEntries node - 1)) (join y new) = node' at hcase
  rw [hv] at hexts
  rw [htb] at hblocks hcase
  obtain ⟨hapart, hmap, htargets⟩ := add_extent h.sorted.apart hlook
  have hlist : v ++ [new] = pre ++ [y, new] := by
    rw [hexts, append_assoc]
    rfl
  -- the list with the last extent lengthened stands for the list with one extent more
  have hmap' : ∀ j, lookup (exts k t') j = if j = lblk then some (nb, false) else lookup v j := by
    intro j
    rw [← hmap j, hlist, hexts', lookup_append, lookup_append, lookup_join hcont]
  have htargets' : targets (exts k t') = targets v ++ [nb] := by
    rw [← htargets, hlist, hexts', targets_append, targets_append]
    show _ ++ ((join y _).targets ++ []) = _ ++ (y.targets ++ (_ ++ []))
    rw [targets_join hcont, List.append_nil, List.append_nil]
  have hall : (tb ++ targets (exts k t')).Perm (nb :: (tb ++ targets v)) := by
    rw [htargets', ← append_assoc]
    exact List.perm_append_singleton nb _
  have hsorted : Sorted (exts k t') := by
    have hsorted := h.sorted
    rw [hexts, Sorted, pairwise_append] at hsorted
    rw [hexts', Sorted, pairwise_append]
    refine ⟨hsorted.1, pairwise_singleton _ _, fun z hz x' hx' => ?_⟩
    rw [mem_singleton.mp hx']
    exact hsorted.2.2 z hz y mem_cons_self
  have hok : ∀ z ∈ exts k t', ExtOk z := by
    intro z hz
    rw [hexts'] at hz
    rcases mem_append.mp hz with hz | hz
    · exact h.ok z (hexts ▸ mem_append_left _ hz)
    · rw [mem_singleton.mp hz]
      exact hx (hexts ▸ mem_append_right _ mem_cons_self)
  -- what is left are the tree and the blocks that are used
  suffices hdisk : fs'.xgen = fs.xgen + 1 ∧ fs'.cache = fs.cache ∧
      ino'.blocks = (countBlock geo ino).blocks ∧
      fs'.disk.used = fs.disk.used ∧ (∀ z, z ∉ tb → fs'.disk.block z = fs.disk.block z) ∧
        Reads geo fs'.disk k t' ino'.root 60 by
    obtain ⟨hxgen, hcache, hcount', hused', hframe, hreads'⟩ := hdisk
    obtain ⟨hnodup, hused, hlt, hpos, hcount⟩ := h.one_more hgrown hall
    rw [← hused'] at hused
    rw [← hcount'] at hcount
    refine ⟨hxgen, hcache, hframe nb fun hmem => hnew (mem_append_left _ hmem), exts k t', tb,
      ⟨⟨k, hk, t', hreads', hkeys' hkeys, rfl, hblocks⟩, hsorted, hok, hnodup, hused, hlt, hpos,
        hcount⟩, hmap', fun z hz hne => ?_⟩
    · rw [hframe z fun hmem => List.disjoint_of_nodup_append h.nodup hmem hz]
      exact hgrown.frame z not_mem_nil fun hmem => hne (mem_singleton.mp hmem)
  unfold append at hres
  rw [hnode'] at hres
  rcases hcase with ⟨rfl, -, hreads'⟩ | ⟨hleaf, hreads'⟩
  · rw [if_pos rfl] at hres
    cases hres
    exact ⟨rfl, rfl, rfl, rfl, fun _ _ => rfl, hreads' _⟩
  · rw [if_neg (ne_of_gt (h.pos leaf hleaf))] at hres
    cases hres
    refine ⟨rfl, rfl, rfl, rfl, fun z hz => ?_, ?_⟩
    · exact block_writeBlock_of_ne fun heq => hz (heq ▸ hleaf)
    · refine hreads'.congr_disk fun z hz => ?_
      rw [hblocks] at hz
      by_cases heq : z = leaf
      · rw [heq, block_writeBlock_self, block_writeBlock_self]
      rw [block_writeBlock_of_ne heq, block_writeBlock_of_ne heq]
      exact hgrown.frame z not_mem_nil fun hmem =>
        hnew (mem_append_left _ (mem_singleton.mp hmem ▸ hz))

/-! ## The call -/

/-- The file block had a block before, or it got one: which block the call returns, and what is in
it. -/
def Returned (nozero : Bool) (d d' : Disk) (r : Nat) : Option (Nat × Bool) → Prop
  | some (p, false) => r = p ∧ d' = d
  | some (p, true) => r = p ∧ d'.block p = fun _ => 0
  | none => 0 < r ∧ d.used r = false ∧ d'.used r = true ∧ (nozero = false → d'.block r = fun _ => 0)

/-- **`x4_ext_alloc` maps the file block it is asked for**, and the cache stays right while the
counter has not come round since it was filled. -/
theorem extAlloc_spec {r : Nat} {nozero : Bool} (h : Holds geo fs.disk ino v tb)
    (hc : CacheOk geo fs ino)
    (hlblk : lblk + 1 < 2 ^ 32) (hr : r ≠ 0)
    (hres : extAlloc alloc csum nozero fs ino lblk = (r, fs', ino')) :
    (∃ v' tb', Mapped geo fs.disk v lblk r fs' ino' v' tb') ∧
      (fs'.xgen < fs.cache.gen + 2 ^ 32 → CacheOk geo fs' ino') ∧ Later fs fs' ∧
      Returned nozero fs.disk fs'.disk r (lookup v lblk) := by
  obtain ⟨cache, hmap, hc', hgen⟩ := extMap_spec h hc
  unfold extAlloc at hres
  rw [hmap] at hres
  dsimp only at hres
  -- all that follows a change of the tree
  have hchanged : fs'.xgen = fs.xgen + 1 → fs'.cache = cache →
      (fs'.xgen < fs.cache.gen + 2 ^ 32 → CacheOk geo fs' ino') ∧ Later fs fs' := by
    intro hxgen hcache
    refine ⟨fun hage => hc'.changed hcache ?_ ?_, ?_, ?_⟩
    · rw [hxgen]
      exact Nat.lt_succ_self _
    · dsimp only
      omega
    · omega
    · rw [hcache]
      exact hgen
  cases hlook : lookup v lblk with
  | some pu =>
    obtain ⟨p, unwritten⟩ := pu
    have hp : 0 < p := targets_pos h.ok (mem_targets_of_lookup hlook)
    rw [hlook] at hres
    cases unwritten with
    | false =>
      rw [if_pos (show (seen (some (p, false))).1 ≠ 0 from ne_of_gt hp)] at hres
      cases hres
      refine ⟨⟨v, tb, h, fun j => ?_, fun _ _ _ => rfl⟩, fun _ => hc', ⟨le_rfl, hgen⟩, rfl, rfl⟩
      split
      next heq => rw [heq, hlook]; rfl
      · rfl
    | true =>
      rw [if_neg (show ¬ (seen (some (p, true))).1 ≠ 0 from fun h => h rfl)] at hres
      split at hres
      · cases hres
        exact absurd rfl hr
      split at hres
      · cases hres
        exact absurd rfl hr
      rw [if_pos (show (seen (some (p, true))).2 = true from rfl)] at hres
      obtain ⟨rfl, hxgen, hcache, hzero, hmapped⟩ :=
        @convert_spec geo alloc csum ino ino' { fs with cache := cache } fs'
          lblk v tb p r h hlook hr hres
      obtain ⟨hcacheOk, hlater⟩ := hchanged hxgen hcache
      exact ⟨hmapped, hcacheOk, hlater, rfl, hzero⟩
  | none =>
    rw [hlook, if_neg (show ¬ (seen none).1 ≠ 0 from fun h => h rfl)] at hres
    split at hres
    · cases hres
      exact absurd rfl hr
    split at hres
    · cases hres
      exact absurd rfl hr
    next node leaf hright =>
      rw [if_neg (show ¬ (seen none).2 = true from Bool.false_ne_true)] at hres
      rcases halloc : allocBlockGoal alloc (allocGoal (lastExt node) lblk) (!nozero)
        fs.disk with ⟨nb, d₁⟩
      rw [halloc] at hres
      split at hres
      · cases hres
        exact absurd rfl hr
      next hnb =>
        obtain ⟨hgrown, hzero⟩ := allocBlockGoal_spec halloc hnb
        obtain ⟨hpos, -, hfree⟩ := hgrown.fresh nb mem_cons_self
        suffices hboth : r = nb ∧ fs'.xgen = fs.xgen + 1 ∧ fs'.cache = cache ∧
            fs'.disk.block nb = d₁.block nb ∧ ∃ v' tb',
              Mapped geo fs.disk v lblk nb fs' ino' v' tb' by
          obtain ⟨rfl, hxgen, hcache, hblock, v', tb', hmapped⟩ := hboth
          obtain ⟨hcacheOk, hlater⟩ := hchanged hxgen hcache
          refine ⟨⟨v', tb', hmapped⟩, hcacheOk, hlater, hpos, hfree, ?_, fun hnz => ?_⟩
          · have hthere : lookup v' lblk = some (r, false) := (hmapped.map lblk).trans (if_pos rfl)
            exact hmapped.holds.used r (mem_append_right _ (mem_targets_of_lookup hthere))
          · rw [hblock]
            exact hzero (by rw [hnz]; rfl)
        split at hres
        next x happ =>
          cases hres
          exact ⟨rfl, append_spec h hgrown hlook
            hlblk hright happ rfl⟩
        next =>
          exact @insertNew_spec geo alloc fs.disk csum ino ino' ⟨d₁, fs.xgen, cache⟩ fs' lblk nb v
            tb h hgrown hlook hlblk r hr hres

end MaeroOS.Ext2.Extents
