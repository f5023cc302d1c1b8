import MaeroOS.Lib.PtrTree

/-!
# Cutting and growing trees of pointer tables

What a change of the store has to do to a tree, so that the tree loses the indices from a bound on
(`CutMap`), or maps one more index (`GrowMap`). Both are stated for one tree and for a forest, and a
table is a forest of the trees its entries name: a walk over the entries that edits one tree after
another edits the tree of the table (`ForestCut.table`, `GrowMap.table`).
-/

namespace MaeroOS.Lib.PtrTree

variable {n : Nat} {tbl tbl' tbl'' : Store} {l b b' i k m : Nat} {level base root root' : Nat → Nat}

theorem agree_refl {l : List Nat} : Agree n tbl tbl l := fun _ _ _ _ => rfl

theorem Agree.trans {l : List Nat} (h : Agree n tbl tbl' l) (h' : Agree n tbl' tbl'' l) :
    Agree n tbl tbl'' l :=
  fun b hb k hk => (h' b hb k hk).trans (h b hb k hk)

/-- The tables of the other trees of a forest keep out of one whose own tables change. -/
theorem agree_other {j : Nat} (hnodup : (forest n tbl m level root).Nodup) (hj : j < m) (hk : k < m)
    (hne : j ≠ k)
    (hframe : ∀ x, x ∉ blocks n tbl (level k) (root k) → x ∈ forest n tbl m level root →
      ∀ i < n, tbl' x i = tbl x i) :
    Agree n tbl tbl' (tables n tbl (level j) (root j)) := by
  intro x hx
  have hmem := mem_blocks_of_mem_tables hx
  exact hframe x (forest_disjoint hnodup hj hk hne hmem) (mem_forest.mpr ⟨j, hj, hmem⟩)

/-! ## Cuts -/

/-- The tree `b'` of the one store has what the tree `b` of the other maps below `bound`, where `b`
starts at `base`. -/
structure CutMap (n bound l base b b' : Nat) (tbl tbl' : Store) : Prop where
  lookup : ∀ i < n ^ l, lookup n tbl' l b' i = if base + i < bound then lookup n tbl l b i else 0
  trail : ∀ i < n ^ l, base + i < bound → PtrTree.lookup n tbl l b i ≠ 0 →
    trail n tbl' l b' i = trail n tbl l b i
  full : Full n tbl' l b'

namespace CutMap

variable {bound base : Nat}

theorem none : CutMap n bound l base 0 0 tbl tbl' :=
  ⟨fun i _ => by simp, fun i _ _ h => absurd lookup_zero h, full_zero⟩

/-- Nothing to cut. -/
theorem below (hfull : Full n tbl l b) (h : base + n ^ l ≤ bound) :
    CutMap n bound l base b b tbl tbl :=
  ⟨fun i hi => (if_pos (by omega)).symm, fun _ _ _ _ => rfl, hfull⟩

/-- A data block that goes. -/
theorem data (h : bound ≤ base) : CutMap n bound 0 base b 0 tbl tbl' := by
  refine ⟨fun i hi => ?_, fun i hi hlt => ?_, full_zero⟩
  · rw [lookup_zero, if_neg (by omega)]
  · omega

/-- The store may differ elsewhere. -/
theorem congr_right (h : CutMap n bound l base b b' tbl tbl')
    (hagree : Agree n tbl' tbl'' (tables n tbl' l b')) : CutMap n bound l base b b' tbl tbl'' :=
  ⟨fun i hi => (lookup_congr hagree hi).trans (h.lookup i hi),
    fun i hi hlt hne => (trail_congr hagree hi).trans (h.trail i hi hlt hne),
      full_congr hagree h.full⟩

theorem congr_left (h : CutMap n bound l base b b' tbl' tbl'')
    (hagree : Agree n tbl tbl' (tables n tbl l b)) : CutMap n bound l base b b' tbl tbl'' := by
  refine ⟨fun i hi => ?_, fun i hi hlt hne => ?_, h.full⟩
  · rw [h.lookup i hi, lookup_congr hagree hi]
  · rw [← lookup_congr hagree hi] at hne
    rw [h.trail i hi hlt hne, trail_congr hagree hi]

end CutMap

/-- The trees below `k` are cut, and the others as they were. -/
structure ForestCut (n bound m : Nat) (level base root root' : Nat → Nat) (tbl tbl' : Store)
    (gone : List Nat) (k : Nat) : Prop where
  perm : (gone ++ forest n tbl' m level root').Perm (forest n tbl m level root)
  done : ∀ j < k, j < m → CutMap n bound (level j) (base j) (root j) (root' j) tbl tbl'
  todo : ∀ j < m, k ≤ j → root' j = root j ∧ Agree n tbl tbl' (tables n tbl (level j) (root j))

namespace ForestCut

variable {bound : Nat} {gone : List Nat}

theorem init : ForestCut n bound m level base root root tbl tbl [] 0 :=
  ⟨.refl _, fun j hj => absurd hj (Nat.not_lt_zero j), fun _ _ _ => ⟨rfl, agree_refl⟩⟩

variable (h : ForestCut n bound m level base root root' tbl tbl' gone k)

include h

theorem nodup (hnodup : (forest n tbl m level root).Nodup) :
    (gone ++ forest n tbl' m level root').Nodup :=
  h.perm.nodup_iff.mpr hnodup

/-- The tree that comes next is still as it was. -/
theorem next_blocks (hk : k < m) : blocks n tbl' (level k) (root' k) = blocks n tbl (level k)
    (root k) := by
  obtain ⟨hroot, hagree⟩ := h.todo k hk (le_refl k)
  rw [hroot, blocks_congr hagree]

theorem next_tables (hk : k < m) : tables n tbl' (level k) (root' k) = tables n tbl (level k)
    (root k) := by
  obtain ⟨hroot, hagree⟩ := h.todo k hk (le_refl k)
  rw [hroot, tables_congr hagree]

/-- **Cutting the next tree.** -/
theorem step (hnodup : (forest n tbl m level root).Nodup) (hk : k < m) {r : Nat} {more : List Nat}
    (hcut : CutMap n bound (level k) (base k) (root' k) r tbl' tbl'')
    (hperm : (more ++ blocks n tbl'' (level k) r).Perm (blocks n tbl' (level k) (root' k)))
    (hframe : ∀ x, x ∉ blocks n tbl' (level k) (root' k) → x ∈ forest n tbl' m level root' →
      ∀ i < n, tbl'' x i = tbl' x i) :
    ForestCut n bound m level base root (Function.update root' k r) tbl tbl'' (gone ++ more)
    (k + 1) := by
  have hnodup' : (forest n tbl' m level root').Nodup := (h.nodup hnodup).of_append_right
  have hother : ∀ j < m, j ≠ k → Agree n tbl' tbl'' (tables n tbl' (level j) (root' j)) :=
    fun j hj hne =>
    agree_other hnodup' hj hk hne hframe
  have hsame : ∀ j, j ≠ k → Function.update root' k r j = root' j :=
    fun j hne => Function.update_of_ne hne _ _
  refine ⟨?_, fun j hj hjm => ?_, fun j hj hle => ?_⟩
  · have hstep : (more ++ forest n tbl'' m level (Function.update root' k r)).Perm
        ([] ++ forest n tbl' m level root') := by
      apply forest_update hk hother (fun j _ hne => hsame j hne)
      rw [Function.update_self]
      exact hperm
    rw [List.append_assoc]
    exact (hstep.append_left gone).trans h.perm
  · rcases Nat.lt_succ_iff_lt_or_eq.mp hj with hlt | rfl
    · rw [hsame j (by omega)]
      exact (h.done j hlt hjm).congr_right (hother j hjm (by omega))
    · rw [Function.update_self]
      obtain ⟨hroot, hagree⟩ := h.todo j hjm (le_refl j)
      rw [hroot] at hcut
      exact hcut.congr_left hagree
  · obtain ⟨hroot, hagree⟩ := h.todo j hj (by omega)
    have hthis := hother j hj (by omega)
    rw [hroot, tables_congr hagree] at hthis
    exact ⟨(hsame j (by omega)).trans hroot, hagree.trans hthis⟩

end ForestCut

/-- The indices of an entry of a table. -/
theorem index_eq {base : Nat} : base + i / n ^ l * n ^ l + i % n ^ l = base + i := by
  rw [add_assoc, Nat.div_add_mod']

/-- A table all of whose trees are cut, with an entry left. -/
theorem ForestCut.table {bound base : Nat} {gone : List Nat} (hb : b ≠ 0)
    (h : ForestCut n bound n (fun _ => l) (fun j => base + j * n ^ l) (tbl b) (tbl' b) tbl
      tbl' gone n)
    (hleft : ∃ k < n, tbl' b k ≠ 0) : CutMap n bound (l + 1) base b b tbl tbl' := by
  refine ⟨fun i hi => ?_, fun i hi hlt hne => ?_, .inr ⟨hleft, fun k hk => (h.done k hk hk).full⟩⟩
  · have hcut := (h.done _ (div_lt hi) (div_lt hi)).lookup _ (mod_lt hi)
    rw [index_eq] at hcut
    rw [lookup_succ hb, lookup_succ hb, hcut]
  · have hcut := (h.done _ (div_lt hi) (div_lt hi)).trail _ (mod_lt hi)
    rw [lookup_succ hb] at hne
    rw [index_eq] at hcut
    rw [trail_succ hb, trail_succ hb, hcut hlt hne]

/-- A table without an entry left. -/
theorem ForestCut.table_gone {bound base : Nat} {gone : List Nat} (hb : b ≠ 0)
    (h : ForestCut n bound n (fun _ => l) (fun j => base + j * n ^ l) (tbl b) root' tbl tbl' gone n)
    (hnone : ∀ k < n, root' k = 0) : CutMap n bound (l + 1) base b 0 tbl tbl'' := by
  -- below the bound there was nothing
  have hzero : ∀ i < n ^ (l + 1), base + i < bound → PtrTree.lookup n tbl (l + 1) b i = 0 := by
    intro i hi hlt
    have hcut := (h.done _ (div_lt hi) (div_lt hi)).lookup _ (mod_lt hi)
    rw [index_eq, hnone _ (div_lt hi), lookup_zero, if_pos hlt] at hcut
    rw [lookup_succ hb, ← hcut]
  refine ⟨fun i hi => ?_, fun i hi hlt hne => absurd (hzero i hi hlt) hne, full_zero⟩
  rw [lookup_zero]
  by_cases hlt : base + i < bound
  · rw [if_pos hlt, hzero i hi hlt]
  · rw [if_neg hlt]

/-- The blocks that go with a table without an entry left. -/
theorem forest_none (h : ∀ k < m, root k = 0) : forest n tbl m level root = [] := by
  rw [forest, List.flatMap_eq_nil_iff]
  intro k hk
  rw [h k (List.mem_range.mp hk), blocks_zero]

/-! ## Growth -/

/-- The tree `b'` maps `i` to `e`, and everything else as the tree `b`. -/
structure GrowMap (n l b b' i e : Nat) (tbl tbl' : Store) : Prop where
  here : lookup n tbl' l b' i = e
  there : ∀ j < n ^ l, j ≠ i → lookup n tbl' l b' j = lookup n tbl l b j
  full : Full n tbl' l b'

/-- **A table one of whose trees grew.** -/
theorem GrowMap.table {e : Nat} (hb : b ≠ 0) (hi : i < n ^ (l + 1)) (he : e ≠ 0)
    (h : GrowMap n l (tbl b (i / n ^ l)) (tbl' b (i / n ^ l)) (i % n ^ l) e tbl tbl')
    (hother : ∀ k < n, k ≠ i / n ^ l → tbl' b k = tbl b k ∧
      Agree n tbl tbl' (tables n tbl l (tbl b k)))
    (hfull : ∀ k < n, k ≠ i / n ^ l → Full n tbl l (tbl b k)) :
    GrowMap n (l + 1) b b i e tbl tbl' := by
  refine ⟨?_, fun j hj hne => ?_, .inr ⟨⟨i / n ^ l, div_lt hi, ?_⟩, fun k hk => ?_⟩⟩
  · rw [lookup_succ hb]
    exact h.here
  · rw [lookup_succ hb, lookup_succ hb]
    by_cases hk : j / n ^ l = i / n ^ l
    · have hmod : j % n ^ l ≠ i % n ^ l := by
        intro hmod
        apply hne
        rw [← Nat.div_add_mod j (n ^ l), ← Nat.div_add_mod i (n ^ l), hk, hmod]
      rw [hk]
      exact h.there _ (mod_lt hj) hmod
    · obtain ⟨hentry, hagree⟩ := hother _ (div_lt hj) hk
      rw [hentry, lookup_congr hagree (mod_lt hj)]
  · intro hzero
    have hhere := h.here
    rw [hzero, lookup_zero] at hhere
    exact he hhere.symm
  · by_cases hk' : k = i / n ^ l
    · rw [hk']
      exact h.full
    · obtain ⟨hentry, hagree⟩ := hother k hk hk'
      rw [hentry]
      exact full_congr hagree (hfull k hk hk')

end MaeroOS.Lib.PtrTree
