import MaeroOS.Ext2.BlockMap
import MaeroOS.Lib.PtrTreeEdit

/-!
# Cutting a block map

What `ext2_free_subtree` does to one tree (`freeSubtree_spec`), by induction on its level: the loop
over the entries of a table cuts one tree after another, and the table goes when nothing is left in
it.
-/

namespace MaeroOS.Ext2.BlockMap

open Function List
open Lib (Buf)
open Lib.PtrTree

variable {geo : Geometry} {d d' d'' : Disk} {l b base fromIdx i j x : Nat}

/-! ## Words and blocks -/

theorem word_setWord {tbl : Buf} {v : Nat} (hv : v < 2 ^ 32) :
    word (setWord tbl i v) = update (word tbl) i v := by
  funext j
  unfold word setWord
  by_cases hj : j = i
  · rw [hj, update_self, Buf.le32_wle32, BitVec.toNat_ofNat, Nat.mod_eq_of_lt hv]
  · rw [update_of_ne hj, Buf.le32_wle32_of_disjoint (by omega)]

theorem word_zero : word (fun _ => 0) i = 0 := by
  show (0#8 ++ 0#8 ++ 0#8 ++ 0#8).toNat = 0
  decide

theorem block_writeBlock_self {buf : Buf} : (writeBlock d b buf).block b = buf := update_self _ _ _

theorem entry_writeBlock_self {buf : Buf} : entry (writeBlock d b buf) b = word buf := by
  funext i
  rw [entry, block_writeBlock_self]

theorem block_writeBlock_of_ne {buf : Buf} (h : x ≠ b) : (writeBlock d b buf).block x = d.block x :=
  update_of_ne h _ _

theorem entry_eq_of_block (h : d'.block x = d.block x) : entry d' x = entry d x := by
  funext i
  rw [entry, entry, h]

theorem ppb_pos : 0 < geo.ppb := by
  rcases geo.ppb_eq with h | h | h <;> omega

/-! ## Freeing -/

/-- The blocks `gone` are freed, one after another, and no block but those of `own` is written. -/
structure Freed (own : List Nat) (d d' : Disk) (gone : List Nat) : Prop where
  freed : d'.freed = d.freed ++ gone
  used : ∀ x, d'.used x = if x ∈ gone then false else d.used x
  frame : ∀ x, x ∉ own → d'.block x = d.block x

namespace Freed

variable {own own' gone gone' : List Nat}

theorem refl : Freed own d d [] :=
  ⟨(append_nil _).symm, fun _ => (if_neg not_mem_nil).symm, fun _ _ => rfl⟩

theorem trans (h : Freed own d d' gone) (h' : Freed own d' d'' gone') :
    Freed own d d'' (gone ++ gone') := by
  refine ⟨?_, fun x => ?_, fun x hx => (h'.frame x hx).trans (h.frame x hx)⟩
  · rw [h'.freed, h.freed, append_assoc]
  · rw [h'.used, h.used]
    split_ifs <;> simp_all

theorem mono (h : Freed own d d' gone) (hsub : ∀ x ∈ own, x ∈ own') : Freed own' d d' gone :=
  ⟨h.freed, h.used, fun x hx => h.frame x fun hmem => hx (hsub x hmem)⟩

theorem freeBlock : Freed own d (freeBlock d b) [b] := by
  refine ⟨rfl, fun x => ?_, fun _ _ => rfl⟩
  show update d.used b false x = _
  simp only [update_apply, mem_singleton]

end Freed

/-! ## One entry -/

/-- The tree `b` of `d` is cut to `b'`, 0 if nothing is left, and the blocks that went are freed. -/
structure Cut (geo : Geometry) (fromIdx l base b b' : Nat) (d d' : Disk) (gone : List Nat) :
    Prop where
  map : CutMap geo.ppb fromIdx l base b b' (entry d) (entry d')
  perm : (gone ++ blocks geo.ppb (entry d') l b').Perm (blocks geo.ppb (entry d) l b)
  freed : Freed (tables geo.ppb (entry d) l b) d d' gone

/-- The loop of `ext2_free_subtree` before entry `k`. -/
structure Loop (geo : Geometry) (fromIdx l base b : Nat) (d : Disk) (start : Nat) (w : Walk)
    (gone : List Nat) (k : Nat) : Prop where
  cut : ForestCut geo.ppb fromIdx geo.ppb (fun _ => l) (fun j => base + j * geo.ppb ^ l) (entry d b)
    (word w.tbl) (entry d) (entry w.disk) gone k
  freed : Freed ((List.range geo.ppb).flatMap fun j => tables geo.ppb (entry d) l (entry d b j)) d
    w.disk gone
  any : w.any = true ↔ ∃ j < k, word w.tbl j ≠ 0
  clean : w.dirty = false → w.tbl = d.block b
  count : w.freed = start + gone.length

/-- What the recursion owes for a tree that is not wholly kept. -/
def Frees (geo : Geometry) (fromIdx l : Nat) : Prop := ∀ b base d freed, b ≠ 0 →
  (blocks geo.ppb (entry d) l b).Nodup → Full geo.ppb (entry d) l b → fromIdx < base + geo.ppb ^ l →
    ∃ b' d' gone, freeSubtree geo fromIdx l b base d freed =
      (decide (b' = 0), d', freed + gone.length) ∧
      (b' = b ∨ b' = 0) ∧ Cut geo fromIdx l base b b' d d' gone

variable {start k : Nat} {w : Walk} {gone : List Nat}

variable (hnodup : (forest geo.ppb (entry d) geo.ppb (fun _ => l) (entry d b)).Nodup)

include hnodup

/-- The walk found entry `k` in the state that the invariant describes, and leaves tree `r` in its
place. -/
theorem Loop.step (h : Loop geo fromIdx l base b d start w gone k)
    (hk : k < geo.ppb) {r : Nat}
    {more : List Nat} {w' : Walk}
    (hcut : Cut geo fromIdx l (base + k * geo.ppb ^ l) (word w.tbl k) r w.disk w'.disk more)
    (htbl : word w'.tbl = update (word w.tbl) k r) (hany : w'.any = (w.any || decide (r ≠ 0)))
    (hclean : w'.dirty = false → w'.tbl = w.tbl ∧ w.dirty = false)
    (hcount : w'.freed = w.freed + more.length) :
    Loop geo fromIdx l base b d start w' (gone ++ more) (k + 1) := by
  have htables := h.cut.next_tables hk
  refine ⟨?_, ?_, ?_, fun hd => ?_, ?_⟩
  · rw [htbl]
    refine h.cut.step hnodup hk hcut.map hcut.perm fun x hx _ i hi => ?_
    exact congrFun (entry_eq_of_block (hcut.freed.frame x fun hmem =>
      hx (mem_blocks_of_mem_tables hmem))) i
  · refine h.freed.trans (hcut.freed.mono fun x hx => ?_)
    rw [htables] at hx
    exact mem_flatMap.mpr ⟨k, mem_range.mpr hk, hx⟩
  · rw [hany, Bool.or_eq_true, h.any, decide_eq_true_iff, htbl]
    constructor
    · rintro (⟨j, hj, hne⟩ | hr)
      · exact ⟨j, by omega, by rwa [update_of_ne (by omega)]⟩
      · exact ⟨k, by omega, by rwa [update_self]⟩
    · rintro ⟨j, hj, hne⟩
      by_cases hjk : j = k
      · rw [hjk, update_self] at hne
        exact .inr hne
      · rw [update_of_ne hjk] at hne
        exact .inl ⟨j, by omega, hne⟩
  · obtain ⟨htbl', hdirty⟩ := hclean hd
    rw [htbl', h.clean hdirty]
  · rw [hcount, h.count, length_append, add_assoc]

variable (hsub : Frees geo fromIdx l)
  (hfull : ∀ j < geo.ppb, Full geo.ppb (entry d) l (entry d b j))

include hsub hfull

theorem freeEntry_loop (h : Loop geo fromIdx l base b d start w gone k) (hk : k < geo.ppb) :
    ∃ gone, Loop geo fromIdx l base b d start
      (freeEntry base (geo.ppb ^ l) fromIdx (freeSubtree geo fromIdx l) w k) gone (k + 1) := by
  obtain ⟨hroot, hagree⟩ := h.cut.todo k hk (le_refl k)
  have hfull' : Full geo.ppb (entry w.disk) l (word w.tbl k) := by
    rw [hroot]
    exact full_congr hagree (hfull k hk)
  have hnodup' : (blocks geo.ppb (entry w.disk) l (word w.tbl k)).Nodup := by
    have hblocks := h.cut.next_blocks hk
    rw [hblocks]
    exact nodup_of_forest hnodup hk
  have hself : update (word w.tbl) k (word w.tbl k) = word w.tbl := update_eq_self k _
  unfold freeEntry
  dsimp only
  by_cases he : word w.tbl k = 0
  · rw [if_pos he]
    have hcut : Cut geo fromIdx l (base + k * geo.ppb ^ l) (word w.tbl k) (word w.tbl k) w.disk
        w.disk [] := by
      refine ⟨?_, .refl _, .refl⟩
      rw [he]
      exact .none
    exact ⟨_, h.step hnodup hk hcut hself.symm (by simp [he]) (fun hd => ⟨rfl, hd⟩) rfl⟩
  rw [if_neg he]
  by_cases hbelow : base + k * geo.ppb ^ l + geo.ppb ^ l ≤ fromIdx
  · rw [if_pos hbelow]
    have hcut : Cut geo fromIdx l (base + k * geo.ppb ^ l) (word w.tbl k) (word w.tbl k) w.disk
        w.disk [] :=
      ⟨.below hfull' hbelow, .refl _, .refl⟩
    exact ⟨_, h.step hnodup hk hcut hself.symm (by simp [he]) (fun hd => ⟨rfl, hd⟩) rfl⟩
  · rw [if_neg hbelow]
    obtain ⟨r, d', more, heq, hr, hcut⟩ :=
      hsub _ _ w.disk w.freed he hnodup' hfull' (Nat.lt_of_not_le hbelow)
    rw [heq]
    by_cases hgone : r = 0
    · rw [decide_eq_true hgone, if_pos rfl]
      refine ⟨_, h.step hnodup hk hcut ?_ ?_ (fun hd => absurd hd (by simp)) rfl⟩
      · rw [hgone]
        exact word_setWord (by decide)
      · simp [hgone]
    · rw [decide_eq_false hgone, if_neg (by simp)]
      have hr := hr.resolve_right hgone
      refine ⟨_, h.step hnodup hk hcut ?_ ?_ (fun hd => ⟨rfl, hd⟩) rfl⟩
      · rw [hr]
        exact hself.symm
      · simp [hgone]

/-! ## One tree -/

theorem freeEntry_run (base start : Nat) : ∀ k ≤ geo.ppb, ∃ gone, Loop geo fromIdx l base b d start
    ((range k).foldl
      (freeEntry base (geo.ppb ^ l) fromIdx (freeSubtree geo fromIdx l))
        ⟨d.block b, false, false, d, start⟩) gone k := by
  intro k
  induction k with
  | zero => exact fun _ => ⟨[], .init, .refl, by simp, fun _ => rfl, rfl⟩
  | succ k ih =>
    intro hk
    obtain ⟨gone, hloop⟩ := ih (by omega)
    rw [range_succ, foldl_append]
    exact freeEntry_loop hnodup hsub hfull hloop (by omega)

omit hnodup hsub hfull

/-- A table whose entries are done, and whose buffer is written back over it. -/
theorem Loop.table (h : Loop geo fromIdx l base b d start w gone geo.ppb) (hb : b ≠ 0)
    (hnodup : (blocks geo.ppb (entry d) (l + 1) b).Nodup) (hany : w.any = true)
    (hd' : d' = w.disk ∧ w.tbl = d.block b ∨ d' = writeBlock w.disk b w.tbl) :
    Cut geo fromIdx (l + 1) base b b d d' gone := by
  rw [blocks_eq_forest hb] at hnodup
  obtain ⟨hmem, hnodup'⟩ := nodup_cons.mp hnodup
  -- the table itself is no part of the trees below it, before or after
  have hkept : b ∉ gone ++ forest geo.ppb (entry w.disk) geo.ppb (fun _ => l) (word w.tbl) :=
    fun hmem' =>
    hmem (h.cut.perm.mem_iff.mp hmem')
  have hframe : ∀ x, x ≠ b → d'.block x = w.disk.block x := by
    intro x hx
    rcases hd' with ⟨rfl, -⟩ | rfl
    · rfl
    · exact block_writeBlock_of_ne hx
  have hself : entry d' b = word w.tbl := by
    rcases hd' with ⟨rfl, htbl⟩ | rfl
    · have hsame : w.disk.block b = d.block b := by
        apply h.freed.frame
        intro hmem'
        obtain ⟨j, hj, hmem'⟩ := mem_flatMap.mp hmem'
        exact hmem (mem_forest.mpr ⟨j, mem_range.mp hj, mem_blocks_of_mem_tables hmem'⟩)
      funext i
      rw [entry, hsame, ← htbl]
    · exact entry_writeBlock_self
  have hagree : ∀ j < geo.ppb,
      Agree geo.ppb (entry w.disk) (entry d') (tables geo.ppb (entry w.disk) l (word w.tbl j)) := by
    intro j hj x hx i _
    have hx : x ≠ b := by
      rintro rfl
      exact hkept (mem_append_right _ (mem_forest.mpr ⟨j, hj, mem_blocks_of_mem_tables hx⟩))
    exact congrFun (entry_eq_of_block (hframe x hx)) i
  have hforest : forest geo.ppb (entry d') geo.ppb (fun _ => l) (entry d' b) =
      forest geo.ppb (entry w.disk) geo.ppb (fun _ => l) (word w.tbl) := by
    rw [hself]
    apply flatMap_congr
    intro j hj
    exact blocks_congr (hagree j (mem_range.mp hj))
  have hcut : ForestCut geo.ppb fromIdx geo.ppb (fun _ => l) (fun j => base + j * geo.ppb ^ l)
      (entry d b) (entry d' b) (entry d) (entry d') gone geo.ppb := by
    refine ⟨?_, fun j hj hjm => ?_, fun j hj hle => absurd hj (by omega)⟩
    · rw [hforest]
      exact h.cut.perm
    · rw [hself]
      exact (h.cut.done j hj hjm).congr_right (hagree j hj)
  obtain ⟨j, hj, hne⟩ := h.any.mp hany
  refine ⟨hcut.table hb ⟨j, hj, by rwa [hself]⟩, ?_, ?_⟩
  · rw [blocks_eq_forest hb, blocks_eq_forest hb]
    exact perm_middle.trans (hcut.perm.cons b)
  · refine ⟨?_, fun x => ?_, fun x hx => ?_⟩
    · rcases hd' with ⟨rfl, -⟩ | rfl <;> exact h.freed.freed
    · rcases hd' with ⟨rfl, -⟩ | rfl <;> exact h.freed.used x
    · rw [tables_succ hb, mem_cons, not_or] at hx
      rw [hframe x hx.1]
      exact h.freed.frame x hx.2

theorem Loop.table_gone (h : Loop geo fromIdx l base b d start w gone geo.ppb) (hb : b ≠ 0)
    (hany : w.any = false) :
    Cut geo fromIdx (l + 1) base b 0 d (freeBlock w.disk b) (gone ++ [b]) := by
  have hnone : ∀ j < geo.ppb, word w.tbl j = 0 := by
    intro j hj
    by_contra hne
    have := h.any.mpr ⟨j, hj, hne⟩
    simp [hany] at this
  have hperm := h.cut.perm
  rw [forest_none hnone, append_nil] at hperm
  refine ⟨h.cut.table_gone hb hnone, ?_, ?_⟩
  · rw [blocks_zero, append_nil, blocks_eq_forest hb]
    exact (perm_append_singleton b gone).trans (hperm.cons b)
  · refine .trans (h.freed.mono fun x hx => ?_) .freeBlock
    rw [tables_succ hb]
    exact mem_cons_of_mem _ hx

/-- **What `ext2_free_subtree` does**: the tree maps what it mapped below `from`, every block that
is no longer needed for that is freed once, and the answer says whether the whole tree went. -/
theorem freeSubtree_spec : ∀ l, Frees geo fromIdx l := by
  intro l
  induction l with
  | zero =>
    intro b base d freed hb _ _ hfrom
    have hfrom : fromIdx ≤ base := by
      rw [Nat.pow_zero] at hfrom
      omega
    refine ⟨0, freeBlock d b, [b], rfl, .inr rfl, .data hfrom, ?_, .freeBlock⟩
    simp [blocks, hb]
  | succ l ih =>
    intro b base d freed hb hnodup hfull hfrom
    obtain ⟨-, hchildren⟩ := hfull.resolve_left hb
    have hforest : (forest geo.ppb (entry d) geo.ppb (fun _ => l) (entry d b)).Nodup := by
      rw [blocks_eq_forest hb] at hnodup
      exact (nodup_cons.mp hnodup).2
    obtain ⟨gone, hloop⟩ := freeEntry_run hforest ih hchildren base freed geo.ppb le_rfl
    rw [freeSubtree]
    generalize foldl _ _ _ = w at hloop
    cases hany : w.any with
    | false =>
      refine ⟨0, _, gone ++ [b], ?_, .inr rfl, hloop.table_gone hb hany⟩
      simp [hloop.count, add_assoc]
    | true =>
      rw [if_neg (by simp)]
      by_cases hdirty : w.dirty = true
      · rw [if_pos hdirty]
        refine ⟨b, _, gone, ?_, .inl rfl, hloop.table hb hnodup hany (.inr rfl)⟩
        rw [hloop.count, decide_eq_false hb]
      · rw [if_neg hdirty]
        refine ⟨b, _, gone, ?_, .inl rfl, hloop.table hb hnodup hany (.inl ⟨rfl, hloop.clean ?_⟩)⟩
        · rw [hloop.count, decide_eq_false hb]
        · simpa using hdirty

end MaeroOS.Ext2.BlockMap
