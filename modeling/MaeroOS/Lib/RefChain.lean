import MaeroOS.Lib.Table

/-!
# Reference-counted chains

A heap of nodes, each with a reference count and at most one `prev`, that several outside holders
share: the shape of every "newest first, never modified" list in a kernel. Walking a chain and
dropping a reference both follow `prev` pointers, so both take fuel and both stop at a node that is
no longer allocated; `none` stands for either.

The invariant `Inv h R` is relative to `R`, the number of references held from **outside** the heap.
Dropping one reference is then the statement that an invariant with one more reference than `R`
becomes the invariant for `R` (`put_spec`), and the node it frees turns its `prev` pointer into an
outside reference that the next iteration drops: that is the whole induction.
-/

namespace MaeroOS.Lib.RefChain

open List
open Lib.Table (one one_none one_self one_ne holders holders_pos exists_of_holders_pos
  holders_update)

variable {α ν : Type} [DecidableEq α]

structure Node (α ν : Type) where
  ref : Int
  prev : Option α
  val : ν

/-- The allocated addresses, and what each holds. -/
structure Heap (α ν : Type) where
  live : Finset α
  node : α → Node α ν

namespace Heap

def setRef (h : Heap α ν) (a : α) (r : Int) : Heap α ν :=
  { h with node := Function.update h.node a { h.node a with ref := r } }

def free (h : Heap α ν) (a : α) : Heap α ν := { h with live := h.live.erase a }

def alloc (h : Heap α ν) (a : α) (nd : Node α ν) : Heap α ν :=
  { live := insert a h.live, node := Function.update h.node a nd }

/-- Take one more reference. -/
def get (h : Heap α ν) : Option α → Option (Heap α ν)
  | none => some h
  | some a => if a ∈ h.live then some (h.setRef a ((h.node a).ref + 1)) else none

/-- Drop one reference, and with the last one the node and its reference to `prev`. -/
def put : Nat → Heap α ν → Option α → Option (Heap α ν)
  | _, h, none => some h
  | 0, _, some _ => none
  | n + 1, h, some a =>
      if a ∈ h.live then
        let r := (h.node a).ref - 1
        if r ≤ 0 then put n ((h.setRef a r).free a) (h.node a).prev else some (h.setRef a r)
      else none

/-- The nodes from `head` on: where each is, and what it holds. -/
def walk (h : Heap α ν) : Nat → Option α → Option (List (α × ν))
  | _, none => some []
  | 0, some _ => none
  | n + 1, some a =>
      if a ∈ h.live then (h.walk n (h.node a).prev).map ((a, (h.node a).val) :: ·) else none

/-- The chain from `head`, with fuel for every allocated node. -/
def chain (h : Heap α ν) (head : Option α) : Option (List (α × ν)) := h.walk h.live.card head

/-- How many allocated nodes have `a` as their `prev`. -/
def kids (h : Heap α ν) (a : α) : Nat := (h.live.filter fun b => (h.node b).prev = some a).card

/-! ## The fields after an update -/

variable (h : Heap α ν) (a b : α) (r : Int) (nd : Node α ν)

@[simp] theorem setRef_live : (h.setRef a r).live = h.live := rfl

@[simp] theorem setRef_ref_self : ((h.setRef a r).node a).ref = r := by simp [setRef]

theorem setRef_node_ne (hb : b ≠ a) : (h.setRef a r).node b = h.node b := by simp [setRef, hb]

@[simp] theorem setRef_prev : ((h.setRef a r).node b).prev = (h.node b).prev := by
  by_cases hb : b = a
  · subst hb; simp [setRef]
  · rw [setRef_node_ne h a b r hb]

@[simp] theorem setRef_val : ((h.setRef a r).node b).val = (h.node b).val := by
  by_cases hb : b = a
  · subst hb; simp [setRef]
  · rw [setRef_node_ne h a b r hb]

@[simp] theorem free_live : (h.free a).live = h.live.erase a := rfl

@[simp] theorem free_node : (h.free a).node = h.node := rfl

@[simp] theorem alloc_live : (h.alloc a nd).live = insert a h.live := rfl

@[simp] theorem alloc_node_self : (h.alloc a nd).node a = nd := by simp [alloc]

theorem alloc_node_ne (hb : b ≠ a) : (h.alloc a nd).node b = h.node b := by simp [alloc, hb]

@[simp] theorem kids_setRef : (h.setRef a r).kids b = h.kids b := by simp [kids]

variable {h a b nd}

theorem kids_free (ha : a ∈ h.live) :
    h.kids b = (h.free a).kids b + if (h.node a).prev = some b then 1 else 0 := by
  unfold kids
  rw [Finset.card_filter, Finset.card_filter, ← Finset.sum_erase_add _ _ ha]
  rfl

theorem kids_alloc (ha : a ∉ h.live) : (h.alloc a nd).kids b = h.kids b + if nd.prev = some b then 1
    else 0 := by
  have hsame : ∀ c ∈ h.live, (h.alloc a nd).node c = h.node c :=
    fun c hc => alloc_node_ne h a c nd (ne_of_mem_of_not_mem hc ha)
  unfold kids
  rw [Finset.card_filter, Finset.card_filter, alloc_live, Finset.sum_insert ha, alloc_node_self,
    add_comm]
  congr 1
  exact Finset.sum_congr rfl fun c hc => by rw [hsame c hc]

theorem kids_pos : 0 < h.kids a ↔ ∃ b ∈ h.live, (h.node b).prev = some a := by
  simp [kids, Finset.card_pos, Finset.Nonempty]

end Heap

/-- Every reference is to an allocated node, every count is exact and positive, and `prev` does not
run in circles. `R` counts the references from outside. -/
structure Inv (h : Heap α ν) (R : α → Nat) : Prop where
  held : ∀ a, 0 < R a → a ∈ h.live
  closed : ∀ a ∈ h.live, ∀ b, (h.node a).prev = some b → b ∈ h.live
  acyclic : ∃ rank : α → Nat, ∀ a ∈ h.live, ∀ b, (h.node a).prev = some b → rank b < rank a
  count : ∀ a ∈ h.live, (h.node a).ref = (R a : Int) + (h.kids a : Int)
  pos : ∀ a ∈ h.live, 0 < R a + h.kids a

/-- `h'` has lost nodes, and the ones it kept are unchanged up to their counts. -/
structure Shrinks (h h' : Heap α ν) : Prop where
  live : h'.live ⊆ h.live
  prev : ∀ a ∈ h'.live, (h'.node a).prev = (h.node a).prev
  val : ∀ a ∈ h'.live, (h'.node a).val = (h.node a).val

omit [DecidableEq α] in
theorem Shrinks.refl (h : Heap α ν) : Shrinks h h :=
  ⟨fun _ ha => ha, fun _ _ => rfl, fun _ _ => rfl⟩

omit [DecidableEq α] in
theorem Shrinks.trans {h₁ h₂ h₃ : Heap α ν} (h₁₂ : Shrinks h₁ h₂) (h₂₃ : Shrinks h₂ h₃) :
    Shrinks h₁ h₃ where
  live := fun _ ha => h₁₂.live (h₂₃.live ha)
  prev := fun a ha => (h₂₃.prev a ha).trans (h₁₂.prev a (h₂₃.live ha))
  val := fun a ha => (h₂₃.val a ha).trans (h₁₂.val a (h₂₃.live ha))

theorem Shrinks.setRef (h : Heap α ν) (a : α) (r : Int) : Shrinks h (h.setRef a r) :=
  ⟨fun _ ha => ha, fun _ _ => by simp, fun _ _ => by simp⟩

theorem Shrinks.free (h : Heap α ν) (a : α) : Shrinks h (h.free a) :=
  ⟨Finset.erase_subset _ _, fun _ _ => rfl, fun _ _ => rfl⟩

variable {h h' : Heap α ν} {R : α → Nat} {a : α}

namespace Inv

/-- Changing one count, to match a changed number of outside references. -/
theorem setRef {R' : α → Nat} {r : Int} (hi : Inv h R) (ha : a ∈ h.live)
    (hr : r = (R' a : Int) + (h.kids a : Int)) (hpos : 0 < R' a + h.kids a)
    (hne : ∀ b, b ≠ a → R' b = R b) : Inv (h.setRef a r) R' where
  held := by
    intro b hb
    by_cases hba : b = a
    · exact hba ▸ ha
    · exact hi.held b (hne b hba ▸ hb)
  closed := by
    intro b hb c hc
    exact hi.closed b hb c (by simpa using hc)
  acyclic := by
    obtain ⟨rank, hrank⟩ := hi.acyclic
    exact ⟨rank, fun b hb c hc => hrank b hb c (by simpa using hc)⟩
  count := by
    intro b hb
    by_cases hba : b = a
    · subst hba
      simpa using hr
    · rw [h.setRef_node_ne a b r hba, hne b hba, Heap.kids_setRef]
      exact hi.count b hb
  pos := by
    intro b hb
    rw [Heap.kids_setRef]
    by_cases hba : b = a
    · exact hba ▸ hpos
    · exact hne b hba ▸ hi.pos b hb

/-- Taking a reference to an allocated node. -/
theorem get (hi : Inv h R) {head : Option α} (hlive : ∀ a, head = some a → a ∈ h.live) :
    ∃ h', h.get head = some h' ∧ Inv h' (fun b => R b + one head b) ∧ h'.live = h.live ∧
      Shrinks h h' := by
  cases head with
  | none => exact ⟨h, rfl, by simpa using hi, rfl, Shrinks.refl h⟩
  | some a =>
    have ha := hlive a rfl
    refine ⟨_, if_pos ha, hi.setRef ha ?_ ?_ ?_, rfl, Shrinks.setRef h a _⟩
    · rw [hi.count a ha, one_self]
      omega
    · rw [one_self]
      omega
    · intro b hb
      rw [one_ne hb, add_zero]

/-- Dropping the last reference to a node and freeing it: its `prev` becomes an outside
reference. -/
theorem free (hi : Inv h (fun b => R b + one (some a) b)) (ha : a ∈ h.live) (hR : R a = 0)
    (hk : h.kids a = 0) (r : Int) :
    Inv ((h.setRef a r).free a) (fun b => R b + one (h.node a).prev b) := by
  have hnokid : ∀ c ∈ h.live, (h.node c).prev ≠ some a := by
    intro c hc hprev
    exact absurd (Heap.kids_pos.mpr ⟨c, hc, hprev⟩) (by omega)
  have hkeep : ∀ b, b ≠ a → b ∈ h.live → b ∈ ((h.setRef a r).free a).live :=
    fun b hba hb => Finset.mem_erase.mpr ⟨hba, hb⟩
  have hkids : ∀ b, h.kids b = ((h.setRef a r).free a).kids b + one (h.node a).prev b := by
    intro b
    rw [← h.kids_setRef a b r, one, ← h.setRef_prev a a r]
    exact Heap.kids_free ha
  obtain ⟨rank, hrank⟩ := hi.acyclic
  refine ⟨?_, ?_, ⟨rank, ?_⟩, ?_, ?_⟩
  · intro b hb
    by_cases hprev : (h.node a).prev = some b
    · have hlt := hrank a ha b hprev
      exact hkeep b (fun hba => absurd (hba ▸ hlt) (by omega)) (hi.closed a ha b hprev)
    · have hRb : 0 < R b := by simpa [one, hprev] using hb
      exact hkeep b (fun hba => absurd (hba ▸ hRb) (by omega)) (hi.held b (by omega))
  · intro b hb c hc
    have hb' := Finset.mem_of_mem_erase hb
    have hc' : (h.node b).prev = some c := by simpa using hc
    exact hkeep c (fun hca => hnokid b hb' (hca ▸ hc')) (hi.closed b hb' c hc')
  · intro b hb c hc
    exact hrank b (Finset.mem_of_mem_erase hb) c (by simpa using hc)
  · intro b hb
    obtain ⟨hba, hb'⟩ := Finset.mem_erase.mp hb
    have hcount := hi.count b hb'
    rw [one_ne hba] at hcount
    have hk := hkids b
    rw [Heap.free_node, h.setRef_node_ne a b r hba]
    omega
  · intro b hb
    obtain ⟨hba, hb'⟩ := Finset.mem_erase.mp hb
    have hpos := hi.pos b hb'
    rw [one_ne hba] at hpos
    have hk := hkids b
    omega

/-- A fresh node with one outside reference takes over one such reference to its `prev`. -/
theorem alloc {nd : Node α ν} (hi : Inv h (fun b => R b + one nd.prev b)) (ha : a ∉ h.live)
    (href : nd.ref = 1) : Inv (h.alloc a nd) (fun b => R b + one (some a) b) := by
  have hold : ∀ b ∈ h.live, (h.alloc a nd).node b = h.node b :=
    fun b hb => h.alloc_node_ne a b nd (ne_of_mem_of_not_mem hb ha)
  have hprevlive : ∀ b, nd.prev = some b → b ∈ h.live :=
    fun b hb => hi.held b (by simp [one, hb])
  have hRa : R a = 0 := by
    by_contra hne
    exact ha (hi.held a (by omega))
  have hkids : ∀ b, (h.alloc a nd).kids b = h.kids b + one nd.prev b :=
    fun b => Heap.kids_alloc ha
  have hka : (h.alloc a nd).kids a = 0 := by
    by_contra hne
    obtain ⟨c, hc, hprev⟩ := Heap.kids_pos.mp (Nat.pos_of_ne_zero hne)
    rcases Finset.mem_insert.mp hc with rfl | hc
    · exact ha (hprevlive c (by simpa using hprev))
    · exact ha (hi.closed c hc a (by rw [← hold c hc]; exact hprev))
  refine ⟨?_, ?_, ?_, ?_, ?_⟩
  · intro b hb
    by_cases hba : b = a
    · exact hba ▸ Finset.mem_insert_self a h.live
    · rw [one_ne hba] at hb
      exact Finset.mem_insert_of_mem (hi.held b (by omega))
  · intro b hb c hc
    rcases Finset.mem_insert.mp hb with rfl | hb
    · exact Finset.mem_insert_of_mem (hprevlive c (by simpa using hc))
    · rw [hold b hb] at hc
      exact Finset.mem_insert_of_mem (hi.closed b hb c hc)
  · -- the fresh node ranks above every old one
    obtain ⟨rank, hrank⟩ := hi.acyclic
    refine ⟨Function.update rank a (h.live.sup rank + 1), ?_⟩
    intro b hb c hc
    have hca : c ∈ h.live := by
      rcases Finset.mem_insert.mp hb with rfl | hb
      · exact hprevlive c (by simpa using hc)
      · exact hi.closed b hb c (by rw [← hold b hb]; exact hc)
    rw [Function.update_of_ne (ne_of_mem_of_not_mem hca ha)]
    rcases Finset.mem_insert.mp hb with rfl | hb
    · rw [Function.update_self]
      exact Nat.lt_succ_of_le (Finset.le_sup hca)
    · rw [Function.update_of_ne (ne_of_mem_of_not_mem hb ha)]
      exact hrank b hb c (by rw [← hold b hb]; exact hc)
  · intro b hb
    rcases Finset.mem_insert.mp hb with rfl | hb
    · rw [Heap.alloc_node_self, href, hka, one_self, hRa]
      rfl
    · have := hi.count b hb
      rw [hold b hb, hkids b, one_ne (ne_of_mem_of_not_mem hb ha)]
      omega
  · intro b hb
    rcases Finset.mem_insert.mp hb with rfl | hb
    · rw [one_self]
      omega
    · have := hi.pos b hb
      rw [hkids b]
      omega

end Inv

/-! ## Dropping a reference -/

/-- **Dropping a reference never meets a freed node, and restores the invariant with that reference
gone.** The fuel bounds the number of nodes that can still be freed. -/
theorem put_spec : ∀ (n : Nat) (h : Heap α ν) (R : α → Nat) (head : Option α),
    h.live.card ≤ n → Inv h (fun b => R b + one head b) →
    ∃ h', Heap.put n h head = some h' ∧ Inv h' R ∧ Shrinks h h' := by
  intro n h R head hfuel hi
  fun_induction Heap.put n h head with
  | case1 n h => exact ⟨h, rfl, by simpa using hi, Shrinks.refl h⟩
  | case2 h a => exact absurd (Finset.card_pos.mpr ⟨a, hi.held a (by simp)⟩) (by omega)
  | case3 n h a ha r hlast ih =>
    -- the last reference: the node goes, and its `prev` is dropped next
    have hcount := hi.count a ha
    rw [one_self] at hcount
    have hfree := hi.free ha (by omega) (by omega) r
    have hcard : ((h.setRef a r).free a).live.card ≤ n := by
      have := Finset.card_erase_lt_of_mem ha
      show (h.live.erase a).card ≤ n
      omega
    obtain ⟨h', hput, hi', hsh⟩ := ih hcard hfree
    exact ⟨h', hput, hi', ((Shrinks.setRef h a _).trans (Shrinks.free _ a)).trans hsh⟩
  | case4 n h a ha r hlast =>
    have hcount := hi.count a ha
    rw [one_self] at hcount
    refine ⟨_, rfl, hi.setRef ha (by omega) (by omega) ?_, Shrinks.setRef h a _⟩
    intro b hb
    rw [one_ne hb, add_zero]
  | case5 n h a ha => exact absurd (hi.held a (by simp)) ha

/-! ## Chains -/

/-- `Chain h head l`: from `head`, the `prev` pointers visit the allocated nodes `l` and end. -/
inductive Chain (h : Heap α ν) : Option α → List (α × ν) → Prop
  | nil : Chain h none []
  | cons {a : α} {l : List (α × ν)} : a ∈ h.live → Chain h (h.node a).prev l →
      Chain h (some a) ((a, (h.node a).val) :: l)

namespace Chain

variable {head : Option α} {l : List (α × ν)} (hc : Chain h head l)

include hc

omit [DecidableEq α] in
theorem unique {l' : List (α × ν)} (hc' : Chain h head l') : l = l' := by
  induction hc generalizing l' with
  | nil => cases hc'; rfl
  | cons _ _ ih =>
    cases hc' with
    | cons _ hc' => rw [ih hc']

omit [DecidableEq α] in
theorem mem_live : ∀ b ∈ l.map Prod.fst, b ∈ h.live := by
  induction hc with
  | nil => intro b hb; exact absurd hb not_mem_nil
  | cons ha _ ih =>
    intro b hb
    rcases mem_cons.mp hb with rfl | hb
    · exact ha
    · exact ih b hb

omit [DecidableEq α] in
/-- The chain from a node on the chain is a suffix of it. -/
theorem suffix_of_mem {b : α} (hb : b ∈ l.map Prod.fst) :
    ∃ l', Chain h (some b) l' ∧ l' <:+ l := by
  induction hc with
  | nil => exact absurd hb not_mem_nil
  | @cons a l ha hc ih =>
    rcases mem_cons.mp hb with rfl | hb
    · exact ⟨_, .cons ha hc, suffix_refl _⟩
    · obtain ⟨l', hl', hsuf⟩ := ih hb
      exact ⟨l', hl', hsuf.trans (suffix_cons _ l)⟩

/-- Ranks fall along a chain, so it has no node twice and fits into the fuel. -/
theorem nodup (hi : Inv h R) : (l.map Prod.fst).Nodup := by
  obtain ⟨rank, hrank⟩ := hi.acyclic
  have hbelow : ∀ {head l}, Chain h head l → ∀ a, head = some a →
      ∀ b ∈ l.map Prod.fst, rank b ≤ rank a := by
    intro head l hc
    induction hc with
    | nil => intro a ha; cases ha
    | @cons a l ha hc ih =>
      rintro _ ⟨⟩ b hb
      rcases mem_cons.mp hb with rfl | hb
      · exact le_refl _
      cases hprev : (h.node a).prev with
      | none => rw [hprev] at hc; cases hc; exact absurd hb not_mem_nil
      | some c => exact le_trans (ih c hprev b hb) (le_of_lt (hrank a ha c hprev))
  induction hc with
  | nil => exact nodup_nil
  | @cons a l ha hc ih =>
    refine nodup_cons.mpr ⟨fun hmem => ?_, ih⟩
    cases hprev : (h.node a).prev with
    | none => rw [hprev] at hc; cases hc; exact absurd hmem not_mem_nil
    | some c =>
      have h₁ := hbelow hc c hprev a hmem
      have h₂ := hrank a ha c hprev
      omega

theorem length_le (hi : Inv h R) : l.length ≤ h.live.card := by
  rw [← length_map (f := Prod.fst), ← toFinset_card_of_nodup (hc.nodup hi)]
  exact Finset.card_le_card fun b hb => hc.mem_live b (mem_toFinset.mp hb)

theorem walk_eq : ∀ {n : Nat}, l.length ≤ n → h.walk n head = some l := by
  induction hc with
  | nil => intro n _; cases n <;> rfl
  | @cons a l ha _ ih =>
    intro n hn
    cases n with
    | zero => exact absurd hn (by simp)
    | succ n =>
      rw [Heap.walk, if_pos ha, ih (by simpa using hn)]
      rfl

theorem chain_eq (hi : Inv h R) : h.chain head = some l :=
  hc.walk_eq (hc.length_le hi)

/-- A chain survives the loss of other nodes. -/
theorem shrink (hi' : Inv h' R) (hsh : Shrinks h h') (hhead : ∀ a, head = some a → a ∈ h'.live) :
    Chain h' head l := by
  induction hc with
  | nil => exact .nil
  | @cons a l ha hc ih =>
    have ha' := hhead a rfl
    rw [← hsh.val a ha']
    refine .cons ha' ?_
    rw [hsh.prev a ha']
    refine ih fun b hb => hi'.closed a ha' b ?_
    rw [hsh.prev a ha']
    exact hb

/-- A chain does not see a fresh node. -/
theorem alloc {nd : Node α ν} (ha : a ∉ h.live) : Chain (h.alloc a nd) head l := by
  induction hc with
  | nil => exact .nil
  | @cons b l hb hc ih =>
    have hsame := h.alloc_node_ne a b nd (ne_of_mem_of_not_mem hb ha)
    rw [← hsame]
    refine .cons (Finset.mem_insert_of_mem hb) ?_
    rw [hsame]
    exact ih

end Chain

namespace Inv

/-- Every chain that starts at an allocated node ends. -/
theorem exists_chain (hi : Inv h R) : ∀ head : Option α, (∀ a, head = some a → a ∈ h.live) →
    ∃ l, Chain h head l := by
  obtain ⟨rank, hrank⟩ := hi.acyclic
  have hbound : ∀ n a, rank a < n → a ∈ h.live → ∃ l, Chain h (some a) l := by
    intro n
    induction n with
    | zero => intro a ha; exact absurd ha (Nat.not_lt_zero _)
    | succ n ih =>
      intro a hlt ha
      cases hprev : (h.node a).prev with
      | none => exact ⟨[(a, (h.node a).val)], .cons ha (hprev ▸ .nil)⟩
      | some b =>
        have hb := hrank a ha b hprev
        obtain ⟨l, hl⟩ := ih b (by omega) (hi.closed a ha b hprev)
        exact ⟨_, .cons ha (hprev ▸ hl)⟩
  intro head hhead
  cases head with
  | none => exact ⟨[], .nil⟩
  | some a => exact hbound (rank a + 1) a (Nat.lt_succ_self _) (hhead a rfl)

/-- **Nothing leaks**: every allocated node is on the chain of a node held from outside. -/
theorem held_of_live (hi : Inv h R) (ha : a ∈ h.live) :
    ∃ b l, 0 < R b ∧ Chain h (some b) l ∧ a ∈ l.map Prod.fst := by
  obtain ⟨rank, hrank⟩ := hi.acyclic
  -- upwards from `a`: a node nobody outside holds has a kid, which ranks higher
  have hup : ∀ n a, a ∈ h.live → h.live.sup rank < rank a + n →
      ∃ b l, 0 < R b ∧ Chain h (some b) l ∧ a ∈ l.map Prod.fst := by
    intro n
    induction n with
    | zero =>
      intro a ha hlt
      exact absurd (Finset.le_sup (f := rank) ha) (by omega)
    | succ n ih =>
      intro a ha hlt
      by_cases hR : 0 < R a
      · obtain ⟨l, hl⟩ := hi.exists_chain (some a) (by rintro _ ⟨⟩; exact ha)
        refine ⟨a, l, hR, hl, ?_⟩
        cases hl with
        | cons _ _ => exact mem_cons_self
      · have hpos := hi.pos a ha
        obtain ⟨c, hc, hprev⟩ := Heap.kids_pos.mp (show 0 < h.kids a by omega)
        have hlt' := hrank c hc a hprev
        obtain ⟨b, l, hRb, hl, hcl⟩ := ih c hc (by omega)
        obtain ⟨l', hl', hsuf⟩ := hl.suffix_of_mem hcl
        refine ⟨b, l, hRb, hl, (hsuf.map Prod.fst).subset ?_⟩
        cases hl' with
        | cons _ hl' =>
          rw [hprev] at hl'
          cases hl' with
          | cons _ _ => exact mem_cons_of_mem _ mem_cons_self
  exact hup (h.live.sup rank + 1) a ha (by omega)

end Inv

/-! ## A table of holders

The outside references are usually the entries of a table, one each. Re-pointing an entry takes the
new reference first and drops the old one last; pushing a node moves the entry's own reference into
the node.
-/

section Table

variable {ι : Type} [Fintype ι] [DecidableEq ι]

variable {t : ι → Option α}

namespace Inv

variable (hi : Inv h (holders t))

include hi

omit [DecidableEq ι] in
theorem mem_live {i : ι} : ∀ a, t i = some a → a ∈ h.live :=
  fun a ha => hi.held a (holders_pos ha)

omit [DecidableEq ι] in
/-- An allocated node is on some entry's chain. -/
theorem on_chain_of_live (ha : a ∈ h.live) : ∃ i l, Chain h (t i) l ∧ a ∈ l.map Prod.fst := by
  obtain ⟨b, l, hR, hl, hmem⟩ := hi.held_of_live ha
  obtain ⟨i, hib⟩ := exists_of_holders_pos hR
  exact ⟨i, l, hib ▸ hl, hmem⟩

/-- **Re-pointing an entry**: take a reference to the new head, then drop the old one. -/
theorem assign (i : ι) {v : Option α} (hv : ∀ a, v = some a → a ∈ h.live) :
    ∃ h₁ h', h.get v = some h₁ ∧ Heap.put h₁.live.card h₁ (t i) = some h' ∧
      Inv h' (holders (Function.update t i v)) ∧ Shrinks h h' := by
  obtain ⟨h₁, hget, hi₁, -, hsh₁⟩ := hi.get hv
  have hR : (fun b => holders t b + one v b) =
      fun b => holders (Function.update t i v) b + one (t i) b :=
    funext fun b => (holders_update v).symm
  rw [hR] at hi₁
  obtain ⟨h', hput, hi', hsh'⟩ := put_spec _ h₁ _ (t i) (le_refl _) hi₁
  exact ⟨h₁, h', hget, hput, hi', hsh₁.trans hsh'⟩

/-- **Pushing a node** on an entry's chain. -/
theorem push (i : ι) (ha : a ∉ h.live) (v : ν) :
    Inv (h.alloc a ⟨1, t i, v⟩) (holders (Function.update t i (some a))) := by
  have hsplit : ∀ u b, holders (Function.update t i u) b =
      holders (Function.update t i none) b + one u b := by
    intro u b
    have h₁ := holders_update (t := t) (i := i) (a := b) u
    have h₂ := holders_update (t := t) (i := i) (a := b) none
    rw [one_none] at h₂
    omega
  have hold : holders t = fun b => holders (Function.update t i none) b + one (t i) b := by
    funext b
    rw [← hsplit, Function.update_eq_self]
  rw [funext (hsplit (some a))]
  rw [hold] at hi
  exact hi.alloc ha rfl

end Inv

end Table

end MaeroOS.Lib.RefChain
