import Mathlib.Algebra.Group.Nat.Defs
import Mathlib.Data.List.Perm.Basic
import Mathlib.Data.List.Nodup
import Mathlib.Data.List.Range

/-!
# Trees of pointer tables

A table has `n` entries, each the number of another table or, at the lowest level, of a data block;
0 is no block. A tree of level `l` maps the indices below `n ^ l` to blocks, and a tree of level 0
is a data block itself. Indirect blocks of a file system and page tables are such trees. They lie in
a store that other trees share, so every fact here comes with the blocks that it depends on
(`blocks_congr` and its neighbours): whoever writes elsewhere changes nothing.
-/

namespace MaeroOS.Lib.PtrTree

open List

/-- The entries of the tables. -/
abbrev Store := Nat → Nat → Nat

variable (n : Nat) (tbl : Store) {c : Nat}

/-- The block of an index, or 0. -/
def lookup : Nat → Nat → Nat → Nat
  | 0, b, _ => b
  | l + 1, b, i => if b = 0 then 0 else lookup l (tbl b (i / n ^ l)) (i % n ^ l)

/-- The blocks on the way to an index, as far as there are any. -/
def trail : Nat → Nat → Nat → List Nat
  | 0, b, _ => if b = 0 then [] else [b]
  | l + 1, b, i => if b = 0 then [] else b :: trail l (tbl b (i / n ^ l)) (i % n ^ l)

/-- All blocks of a tree, tables and data. -/
def blocks : Nat → Nat → List Nat
  | 0, b => if b = 0 then [] else [b]
  | l + 1, b => if b = 0 then [] else b :: (List.range n).flatMap fun k => blocks l (tbl b k)

/-- Its tables. -/
def tables : Nat → Nat → List Nat
  | 0, _ => []
  | l + 1, b => if b = 0 then [] else b :: (List.range n).flatMap fun k => tables l (tbl b k)

/-- Every table of the tree has an entry. -/
def Full : Nat → Nat → Prop
  | 0, _ => True
  | l + 1, b => b = 0 ∨ ((∃ k < n, tbl b k ≠ 0) ∧ ∀ k < n, Full l (tbl b k))

variable {n : Nat} {tbl tbl' : Store} {l b i k : Nat}

/-! ## No tree -/

@[simp] theorem lookup_zero : lookup n tbl l 0 i = 0 := by
  cases l <;> simp [lookup]

@[simp] theorem blocks_zero : blocks n tbl l 0 = [] := by
  cases l <;> simp [blocks]

@[simp] theorem tables_zero : tables n tbl l 0 = [] := by
  cases l <;> simp [tables]

@[simp] theorem trail_zero : trail n tbl l 0 i = [] := by
  cases l <;> simp [trail]

theorem full_zero : Full n tbl l 0 := by
  cases l with
  | zero => trivial
  | succ l => exact .inl rfl

/-! ## One level -/

variable (hb : b ≠ 0)

include hb

theorem lookup_succ : lookup n tbl (l + 1) b i = lookup n tbl l (tbl b (i / n ^ l)) (i % n ^ l) :=
  if_neg hb

theorem trail_succ :
    trail n tbl (l + 1) b i = b :: trail n tbl l (tbl b (i / n ^ l)) (i % n ^ l) := if_neg hb

theorem blocks_succ :
    blocks n tbl (l + 1) b = b :: (range n).flatMap fun k => blocks n tbl l (tbl b k) := if_neg hb

theorem tables_succ :
    tables n tbl (l + 1) b = b :: (range n).flatMap fun k => tables n tbl l (tbl b k) := if_neg hb

theorem mem_blocks_self : b ∈ blocks n tbl l b := by
  cases l with
  | zero => simp [blocks, hb]
  | succ l => rw [blocks_succ hb]; exact mem_cons_self

theorem mem_blocks_child (hk : k < n) (hc : c ∈ blocks n tbl l (tbl b k)) :
    c ∈ blocks n tbl (l + 1) b := by
  rw [blocks_succ hb]
  exact mem_cons_of_mem _ (mem_flatMap.mpr ⟨k, mem_range.mpr hk, hc⟩)

omit hb

theorem ne_zero_of_mem_blocks (hc : c ∈ blocks n tbl l b) : c ≠ 0 := by
  fun_induction blocks n tbl l b with
  | case1 | case3 => cases hc
  | case2 b hb => exact mem_singleton.mp hc ▸ hb
  | case4 l b hb ih =>
    rcases mem_cons.mp hc with rfl | hc
    · exact hb
    · obtain ⟨k, -, hc⟩ := mem_flatMap.mp hc
      exact ih k hc

theorem mem_blocks_of_mem_tables (hc : c ∈ tables n tbl l b) : c ∈ blocks n tbl l b := by
  fun_induction tables n tbl l b with
  | case1 | case2 => cases hc
  | case3 l b hb ih =>
    rcases mem_cons.mp hc with rfl | hc
    · exact mem_blocks_self hb
    · obtain ⟨k, hk, hc⟩ := mem_flatMap.mp hc
      exact mem_blocks_child hb (mem_range.mp hk) (ih k hc)

/-- The index of a block in a table that has it. -/
theorem div_lt (hi : i < n ^ (l + 1)) : i / n ^ l < n := by
  rw [Nat.pow_succ, Nat.mul_comm] at hi
  exact Nat.div_lt_of_lt_mul (by rwa [Nat.mul_comm])

theorem mod_lt (hi : i < n ^ (l + 1)) : i % n ^ l < n ^ l := by
  apply Nat.mod_lt
  apply Nat.pos_of_ne_zero
  intro h
  rw [Nat.pow_succ, h, Nat.zero_mul] at hi
  exact Nat.not_lt_zero _ hi

/-! ## Trees of a table without entries, and with one more -/

theorem blocks_empty (hb : b ≠ 0) (h : ∀ k < n, tbl b k = 0) : blocks n tbl (l + 1) b = [b] := by
  rw [blocks_succ hb]
  congr 1
  rw [flatMap_eq_nil_iff]
  intro k hk
  rw [h k (mem_range.mp hk), blocks_zero]

theorem lookup_empty (h : ∀ k < n, tbl b k = 0) (hi : i < n ^ (l + 1)) :
    lookup n tbl (l + 1) b i = 0 := by
  by_cases hb : b = 0
  · rw [hb, lookup_zero]
  · rw [lookup_succ hb, h _ (div_lt hi), lookup_zero]

/-! ## What a tree depends on -/

/-- Two stores have the same tables in a list. -/
def Agree (n : Nat) (tbl tbl' : Store) (l : List Nat) : Prop := ∀ b ∈ l, ∀ k < n, tbl' b k = tbl b k

theorem agree_child (h : Agree n tbl tbl' (tables n tbl (l + 1) b)) (hb : b ≠ 0) (hk : k < n) :
    tbl' b k = tbl b k ∧ Agree n tbl tbl' (tables n tbl l (tbl b k)) := by
  rw [tables_succ hb] at h
  refine ⟨h b mem_cons_self k hk, fun c hc => h c ?_⟩
  exact mem_cons_of_mem _ (mem_flatMap.mpr ⟨k, mem_range.mpr hk, hc⟩)

variable (h : Agree n tbl tbl' (tables n tbl l b))

include h

theorem blocks_congr : blocks n tbl' l b = blocks n tbl l b := by
  fun_induction blocks n tbl l b with
  | case1 | case3 => exact blocks_zero
  | case2 b hb => exact if_neg hb
  | case4 l b hb ih =>
    rw [blocks_succ hb]
    congr 1
    apply flatMap_congr
    intro k hk
    obtain ⟨hentry, hchild⟩ := agree_child h hb (mem_range.mp hk)
    rw [hentry, ih k hchild]

theorem tables_congr : tables n tbl' l b = tables n tbl l b := by
  fun_induction tables n tbl l b with
  | case1 => rfl
  | case2 => exact tables_zero
  | case3 l b hb ih =>
    rw [tables_succ hb]
    congr 1
    apply flatMap_congr
    intro k hk
    obtain ⟨hentry, hchild⟩ := agree_child (tables_succ hb ▸ h) hb (mem_range.mp hk)
    rw [hentry, ih k hchild]

theorem lookup_congr (hi : i < n ^ l) : lookup n tbl' l b i = lookup n tbl l b i := by
  fun_induction lookup n tbl l b i with
  | case1 => rfl
  | case2 => exact lookup_zero
  | case3 l b i hb ih =>
    obtain ⟨hentry, hchild⟩ := agree_child h hb (div_lt hi)
    rw [lookup_succ hb, hentry, ih hchild (mod_lt hi)]

theorem trail_congr (hi : i < n ^ l) : trail n tbl' l b i = trail n tbl l b i := by
  fun_induction trail n tbl l b i with
  | case1 | case3 => exact trail_zero
  | case2 b i hb => exact if_neg hb
  | case4 l b i hb ih =>
    obtain ⟨hentry, hchild⟩ := agree_child h hb (div_lt hi)
    rw [trail_succ hb, hentry, ih hchild (mod_lt hi)]

theorem full_congr (hfull : Full n tbl l b) : Full n tbl' l b := by
  induction l generalizing b with
  | zero => trivial
  | succ l ih =>
    by_cases hb : b = 0
    · exact .inl hb
    obtain ⟨⟨k, hk, hne⟩, hchildren⟩ := hfull.resolve_left hb
    refine .inr ⟨⟨k, hk, ?_⟩, fun j hj => ?_⟩
    · rw [(agree_child h hb hk).1]
      exact hne
    · rw [(agree_child h hb hj).1]
      exact ih (agree_child h hb hj).2 (hchildren j hj)

omit h

/-! ## Several trees in one store -/

/-- The blocks of `m` trees, number `k` of level `level k` with the root `root k`. -/
def forest (n : Nat) (tbl : Store) (m : Nat) (level root : Nat → Nat) : List Nat :=
  (List.range m).flatMap fun k => blocks n tbl (level k) (root k)

variable {m : Nat} {level root root' : Nat → Nat}

theorem mem_forest : c ∈ forest n tbl m level root ↔ ∃ k < m, c ∈ blocks n tbl (level k)
    (root k) := by
  simp [forest, mem_flatMap]

theorem blocks_eq_forest (hb : b ≠ 0) :
    blocks n tbl (l + 1) b = b :: forest n tbl n (fun _ => l) (tbl b) := blocks_succ hb

theorem nodup_of_forest (h : (forest n tbl m level root).Nodup) (hk : k < m) :
    (blocks n tbl (level k) (root k)).Nodup :=
  (nodup_flatMap.mp h).1 k (mem_range.mpr hk)

/-- Different trees have no block in common. -/
theorem forest_disjoint (h : (forest n tbl m level root).Nodup) {j c : Nat} (hj : j < m)
    (hk : k < m) (hne : j ≠ k)
    (hc : c ∈ blocks n tbl (level j) (root j)) : c ∉ blocks n tbl (level k) (root k) := by
  have hpair := (nodup_flatMap.mp h).2
  have hsymm : Std.Symm (Function.onFun List.Disjoint fun k => blocks n tbl (level k) (root k)) :=
    ⟨fun _ _ h _ ha hb => h hb ha⟩
  have hdis := hpair.forall (mem_range.mpr hj) (mem_range.mpr hk) hne
  exact fun hc' => hdis hc hc'

/-- **A change to one of the trees is one of the forest.** -/
theorem forest_update {xs ys : List Nat} (hk : k < m)
    (hagree : ∀ j < m, j ≠ k → Agree n tbl tbl' (tables n tbl (level j) (root j)))
    (hroot : ∀ j < m, j ≠ k → root' j = root j)
    (hperm : (xs ++ blocks n tbl' (level k) (root' k)).Perm
      (ys ++ blocks n tbl (level k) (root k))) :
    (xs ++ forest n tbl' m level root').Perm (ys ++ forest n tbl m level root) := by
  have hsplit : ∀ tbl root, (forest n tbl m level root).Perm (blocks n tbl (level k) (root k) ++
      ((range m).erase k).flatMap fun j => blocks n tbl (level j) (root j)) := fun tbl root =>
    (perm_cons_erase (mem_range.mpr hk)).flatMap_right _
  have hrest : (((range m).erase k).flatMap fun j => blocks n tbl' (level j) (root' j)) =
      ((range m).erase k).flatMap fun j => blocks n tbl (level j) (root j) := by
    apply flatMap_congr
    intro j hj
    have hj := (nodup_range.mem_erase_iff).mp hj
    rw [hroot j (mem_range.mp hj.2) hj.1, blocks_congr (hagree j (mem_range.mp hj.2) hj.1)]
  have hleft := (hsplit tbl' root').append_left xs
  have hright := (hsplit tbl root).append_left ys
  rw [hrest, ← append_assoc] at hleft
  rw [← append_assoc] at hright
  exact hleft.trans ((hperm.append_right _).trans hright.symm)

/-! ## Trails -/

/-- The blocks on the way are blocks of the tree. -/
theorem mem_blocks_of_mem_trail (hi : i < n ^ l) (hc : c ∈ trail n tbl l b i) :
    c ∈ blocks n tbl l b := by
  fun_induction trail n tbl l b i with
  | case1 | case3 => cases hc
  | case2 b i hb => rwa [blocks, if_neg hb]
  | case4 l b i hb ih =>
    rcases mem_cons.mp hc with rfl | hc
    · exact mem_blocks_self hb
    · exact mem_blocks_child hb (div_lt hi) (ih (mod_lt hi) hc)

/-- The block of an index ends its trail. -/
theorem lookup_mem_trail (h : lookup n tbl l b i ≠ 0) : lookup n tbl l b i ∈ trail n tbl l b i := by
  fun_induction lookup n tbl l b i with
  | case1 b i =>
    rw [trail, if_neg h]
    exact mem_singleton_self b
  | case2 => exact absurd rfl h
  | case3 l b i hb ih =>
    rw [trail_succ hb]
    exact mem_cons_of_mem _ (ih h)

/-- An index below an entry, as one of the table. -/
theorem child_index (hk : k < n) (hi : i < n ^ l) :
    k * n ^ l + i < n ^ (l + 1) ∧ (k * n ^ l + i) / n ^ l = k ∧ (k * n ^ l + i) % n ^ l = i := by
  have hpos : 0 < n ^ l := lt_of_le_of_lt (Nat.zero_le i) hi
  refine ⟨?_, ?_, ?_⟩
  · have hle : (k + 1) * n ^ l ≤ n * n ^ l := Nat.mul_le_mul_right _ hk
    rw [Nat.pow_succ, Nat.mul_comm (n ^ l)]
    rw [Nat.succ_mul] at hle
    omega
  · rw [Nat.mul_comm, Nat.mul_add_div hpos, Nat.div_eq_of_lt hi, Nat.add_zero]
  · rw [Nat.mul_comm, Nat.mul_add_mod, Nat.mod_eq_of_lt hi]

/-- A block of a tree is a table or the block of an index. -/
theorem mem_blocks_cases (hc : c ∈ blocks n tbl l b) : c ∈ tables n tbl l b ∨ ∃ i < n ^ l,
    lookup n tbl l b i = c := by
  fun_induction blocks n tbl l b with
  | case1 | case3 => cases hc
  | case2 b hb => exact .inr ⟨0, by simp, (mem_singleton.mp hc).symm⟩
  | case4 l b hb ih =>
    rw [tables_succ hb]
    rcases mem_cons.mp hc with rfl | hc
    · exact .inl mem_cons_self
    obtain ⟨k, hk, hc⟩ := mem_flatMap.mp hc
    rcases ih k hc with hc | ⟨i, hi, hc⟩
    · exact .inl (mem_cons_of_mem _ (mem_flatMap.mpr ⟨k, hk, hc⟩))
    obtain ⟨hlt, hdiv, hmod⟩ := child_index (mem_range.mp hk) hi
    refine .inr ⟨_, hlt, ?_⟩
    rw [lookup_succ hb, hdiv, hmod]
    exact hc

/-- The block of an index is below one entry of the table, and is not the table. -/
theorem lookup_child (hnodup : (blocks n tbl (l + 1) b).Nodup) (hi : i < n ^ (l + 1))
    (hne : lookup n tbl (l + 1) b i ≠ 0) :
    b ≠ 0 ∧ lookup n tbl (l + 1) b i ≠ b ∧ (blocks n tbl l (tbl b (i / n ^ l))).Nodup ∧
      ∀ k < n, lookup n tbl (l + 1) b i ∈ blocks n tbl l (tbl b k) → k = i / n ^ l := by
  have hb : b ≠ 0 := by
    rintro rfl
    exact hne lookup_zero
  rw [lookup_succ hb] at hne ⊢
  have hin := mem_blocks_of_mem_trail (mod_lt hi) (lookup_mem_trail hne)
  rw [blocks_eq_forest hb] at hnodup
  obtain ⟨hroot, hnodup⟩ := nodup_cons.mp hnodup
  refine ⟨hb, fun heq => ?_, nodup_of_forest hnodup (div_lt hi), fun k hk hmem => ?_⟩
  · rw [heq] at hin
    exact hroot (mem_forest.mpr ⟨_, div_lt hi, hin⟩)
  · by_contra hdiff
    exact forest_disjoint hnodup hk (div_lt hi) hdiff hmem hin

/-- The block of an index is not a table. -/
theorem lookup_not_mem_tables (hnodup : (blocks n tbl l b).Nodup) (hi : i < n ^ l)
    (hne : lookup n tbl l b i ≠ 0) : lookup n tbl l b i ∉ tables n tbl l b := by
  induction l generalizing b i with
  | zero => exact not_mem_nil
  | succ l ih =>
    intro hmem
    obtain ⟨hb, hroot, hchild, hone⟩ := lookup_child hnodup hi hne
    rw [tables_succ hb] at hmem
    obtain ⟨k, hk, hmem⟩ := mem_flatMap.mp ((mem_cons.mp hmem).resolve_left hroot)
    rw [hone k (mem_range.mp hk) (mem_blocks_of_mem_tables hmem)] at hmem
    rw [lookup_succ hb] at hne hmem
    exact ih hchild (mod_lt hi) hne hmem

/-- The block of an index is on the way to no other index. -/
theorem eq_of_mem_trail {j : Nat} (hnodup : (blocks n tbl l b).Nodup) (hi : i < n ^ l)
    (hj : j < n ^ l)
    (hne : lookup n tbl l b i ≠ 0) (hmem : lookup n tbl l b i ∈ trail n tbl l b j) : i = j := by
  induction l generalizing b i j with
  | zero =>
    rw [Nat.pow_zero] at hi hj
    omega
  | succ l ih =>
    obtain ⟨hb, hroot, hchild, hone⟩ := lookup_child hnodup hi hne
    rw [trail_succ hb] at hmem
    have hmem := (mem_cons.mp hmem).resolve_left hroot
    have hdiv := hone _ (div_lt hj) (mem_blocks_of_mem_trail (mod_lt hj) hmem)
    rw [hdiv] at hmem
    rw [lookup_succ hb] at hne hmem
    have hmod := ih hchild (mod_lt hi) (mod_lt hj) hne hmem
    rw [← Nat.div_add_mod i (n ^ l), ← Nat.div_add_mod j (n ^ l), hdiv, hmod]

/-- **Every block of a full tree is on the way to some data block.** -/
theorem exists_trail (hfull : Full n tbl l b) (hc : c ∈ blocks n tbl l b) :
    ∃ i < n ^ l, lookup n tbl l b i ≠ 0 ∧ c ∈ trail n tbl l b i := by
  fun_induction blocks n tbl l b generalizing c with
  | case1 | case3 => cases hc
  | case2 b hb => exact ⟨0, by simp, hb, by rw [trail, if_neg hb]; exact hc⟩
  | case4 l b hb ih =>
    obtain ⟨⟨k, hk, hne⟩, hchildren⟩ := hfull.resolve_left hb
    -- an index below a child is one of the tree
    have hlift : ∀ k < n, ∀ i < n ^ l, lookup n tbl l (tbl b k) i ≠ 0 →
        k * n ^ l + i < n ^ (l + 1) ∧ lookup n tbl (l + 1) b (k * n ^ l + i) ≠ 0 ∧
          trail n tbl (l + 1) b (k * n ^ l + i) = b :: trail n tbl l (tbl b k) i := by
      intro k hk i hi hlook
      obtain ⟨hlt, hdiv, hmod⟩ := child_index hk hi
      refine ⟨hlt, ?_, ?_⟩
      · rw [lookup_succ hb, hdiv, hmod]
        exact hlook
      · rw [trail_succ hb, hdiv, hmod]
    rcases mem_cons.mp hc with rfl | hc
    · obtain ⟨i, hi, hlook, -⟩ := ih k (hchildren k hk) (mem_blocks_self hne)
      obtain ⟨hlt, hlook', htrail⟩ := hlift k hk i hi hlook
      exact ⟨_, hlt, hlook', htrail ▸ mem_cons_self⟩
    · obtain ⟨j, hj, hc⟩ := mem_flatMap.mp hc
      have hj := mem_range.mp hj
      obtain ⟨i, hi, hlook, hmem⟩ := ih j (hchildren j hj) hc
      obtain ⟨hlt, hlook', htrail⟩ := hlift j hj i hi hlook
      exact ⟨_, hlt, hlook', htrail ▸ mem_cons_of_mem _ hmem⟩

end MaeroOS.Lib.PtrTree
