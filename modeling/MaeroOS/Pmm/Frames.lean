import MaeroOS.Pmm.Basic

/-!
# Marks, counters and searches

What the parts of the frame allocator do, one at a time.

* `Counted`: the two counters are the numbers of set bits. Marking a frame keeps this, and so does
  every loop that marks frames (`Counted.foldl`).
* `Kept`: the size of memory and the ring of freed frames are as they were.
* `scanFind_eq_none` and `contigLoop_spec`: a search fails exactly if there is nothing to find.
  Skipping fully used words and starting in the middle of the zone lose nothing.
-/

namespace MaeroOS.Pmm

open Lib (Bitmap)

variable {addr cursor len : Nat}

theorem u32_eq (h : n < 2 ^ 32) : u32 n = n := Nat.mod_eq_of_lt h

theorem dec32_eq (h : n < 2 ^ 32) (h0 : 0 < n) : dec32 n = n - 1 := by
  unfold dec32 u32
  omega

namespace PmmState

variable {s s' : PmmState} {i j : Nat}

/-! ## What stays -/

/-- Memory and the ring are as before. -/
structure Kept (s s' : PmmState) : Prop where
  total : s'.total = s.total
  lowTotal : s'.lowTotal = s.lowTotal
  quar : s'.quar = s.quar
  quarN : s'.quarN = s.quarN
  quarPos : s'.quarPos = s.quarPos

namespace Kept

theorem refl : Kept s s := ⟨rfl, rfl, rfl, rfl, rfl⟩

theorem trans {s'' : PmmState} (h : Kept s s') (h' : Kept s' s'') : Kept s s'' :=
  ⟨h'.total.trans h.total, h'.lowTotal.trans h.lowTotal, h'.quar.trans h.quar,
    h'.quarN.trans h.quarN, h'.quarPos.trans h.quarPos⟩

theorem markUsed : Kept s (s.markUsed i) := by
  unfold PmmState.markUsed
  split
  · exact refl
  · exact ⟨rfl, rfl, rfl, rfl, rfl⟩

theorem markFree : Kept s (s.markFree i) := by
  unfold PmmState.markFree
  split
  · exact ⟨rfl, rfl, rfl, rfl, rfl⟩
  · exact refl

theorem uafCheck : Kept s (s.uafCheck i) := by
  unfold PmmState.uafCheck
  split
  · exact ⟨rfl, rfl, rfl, rfl, rfl⟩
  · exact refl

theorem take : Kept s (s.take i) := markUsed.trans uafCheck

theorem freeRam : Kept s (s.freeRam i) := by
  unfold PmmState.freeRam
  split
  · have h := markFree (s := { s with ram := u32 (s.ram + 1)
                                      highRam :=
                                        if pmmLowFrames ≤ i then u32 (s.highRam + 1)
                                        else s.highRam })
      (i := i)
    exact { h with }
  · exact markFree

theorem foldl {α : Type} {f : PmmState → α → PmmState} (hf : ∀ s i, Kept s (f s i)) :
    ∀ (l : List α) {s : PmmState}, Kept s (l.foldl f s)
  | [], _ => refl
  | i :: l, s => (hf s i).trans (foldl hf l)

theorem usedRegion {a l : Nat} : Kept s (s.usedRegion a l) := foldl (fun _ _ => markUsed) _

theorem freeRegion : Kept s (s.freeRegion addr len) := foldl (fun _ _ => freeRam) _

end Kept

theorem mem_frames {start stop : Nat} : i ∈ s.frames start stop ↔
    start ≤ i ∧ i < stop ∧ i < s.total := by
  rw [frames, List.mem_range'_1]
  omega

/-! ## The bits -/

theorem markUsed_test : (s.markUsed i).bitmap.test j = if j = i then true else s.bitmap.test j := by
  unfold markUsed
  split
  · next hset =>
    split
    · next hj => rw [hj, hset]
    · rfl
  · exact Bitmap.test_set

theorem markFree_test : (s.markFree i).bitmap.test j = if j = i then false
    else s.bitmap.test j := by
  unfold markFree
  split
  · exact Bitmap.test_clear
  · next hclear =>
    split
    · next hj => rw [hj, Bool.eq_false_iff.mpr hclear]
    · rfl

theorem freeRam_test : (s.freeRam i).bitmap.test j = if j = i then false else s.bitmap.test j := by
  unfold freeRam
  split
  · exact markFree_test
  · exact markFree_test

theorem uafCheck_bitmap : (s.uafCheck i).bitmap = s.bitmap := by
  unfold uafCheck
  split <;> rfl

theorem take_test : (s.take i).bitmap.test j = if j = i then true else s.bitmap.test j := by
  rw [take, uafCheck_bitmap, markUsed_test]

/-- A loop that marks frames, or frees them. -/
theorem foldl_test {f : PmmState → Nat → PmmState} {v : Bool}
    (hf : ∀ s i j, (f s i).bitmap.test j = if j = i then v else s.bitmap.test j) (l : List Nat) :
    (l.foldl f s).bitmap.test j = if j ∈ l then v else s.bitmap.test j := by
  induction l generalizing s with
  | nil => rfl
  | cons i l ih =>
    rw [List.foldl_cons, ih, hf]
    grind

theorem usedRegion_test (h : s.bitmap.test j = true) :
    (s.usedRegion addr len).bitmap.test j = true := by
  rw [usedRegion, foldl_test fun _ _ _ => markUsed_test, h, ite_self]

/-- At first every bit is set. -/
theorem full_test {total : Nat} (hi : i < total) : (full total).bitmap.test i = true := by
  refine Bitmap.word_full ?_
  show (if i / 32 < (total + 31) / 32 then BitVec.allOnes 32 else 0) = _
  rw [if_pos (by omega)]

/-! ## The counters -/

/-- `pmm_used` and `pmm_high_used` are the numbers of set bits. -/
structure Counted (s : PmmState) : Prop where
  total_le : s.total ≤ pmmMaxFrames
  used : s.used = s.bitmap.weight 0 s.total
  high : s.highUsed = s.bitmap.weight pmmLowFrames s.total

theorem Counted.weight_lt (h : Counted s) (lo : Nat) : s.bitmap.weight lo s.total < 2 ^ 32 - 1 := by
  have hle : s.bitmap.weight lo s.total ≤ s.total - lo := Bitmap.weight_le
  have h := h.total_le
  unfold pmmMaxFrames at h
  omega

namespace Counted

variable (h : Counted s)

include h

theorem markUsed (hi : i < s.total) : Counted (s.markUsed i) := by
  unfold PmmState.markUsed
  split
  · exact h
  next hclear =>
  have hclear : s.bitmap.test i = false := by simpa using hclear
  have hlt := h.weight_lt 0
  have hlt' := h.weight_lt pmmLowFrames
  refine ⟨h.total_le, ?_, ?_⟩
  · show u32 (s.used + 1) = (s.bitmap.set i).weight 0 s.total
    rw [Bitmap.weight_set hclear, if_pos ⟨Nat.zero_le i, hi⟩, h.used, u32_eq (by omega)]
  · show (if pmmLowFrames ≤ i then u32 (s.highUsed + 1) else s.highUsed) =
      (s.bitmap.set i).weight pmmLowFrames s.total
    rw [Bitmap.weight_set hclear, h.high, u32_eq (by omega)]
    by_cases hhigh : pmmLowFrames ≤ i
    · rw [if_pos hhigh, if_pos ⟨hhigh, hi⟩]
    · rw [if_neg hhigh, if_neg fun hc => hhigh hc.1, Nat.add_zero]

theorem markFree (hi : i < s.total) : Counted (s.markFree i) := by
  unfold PmmState.markFree
  split
  · next hset =>
    have hlt := h.weight_lt 0
    have hlt' := h.weight_lt pmmLowFrames
    have hone := Bitmap.weight_clear hset 0 s.total
    have hhigh := Bitmap.weight_clear hset pmmLowFrames s.total
    rw [if_pos ⟨Nat.zero_le i, hi⟩] at hone
    refine ⟨h.total_le, ?_, ?_⟩
    · show dec32 s.used = (s.bitmap.clear i).weight 0 s.total
      rw [h.used, dec32_eq (by omega) (by omega)]
      omega
    · show (if pmmLowFrames ≤ i then dec32 s.highUsed else s.highUsed) =
        (s.bitmap.clear i).weight pmmLowFrames s.total
      by_cases hge : pmmLowFrames ≤ i
      · rw [if_pos ⟨hge, hi⟩] at hhigh
        rw [if_pos hge, h.high, dec32_eq (by omega) (by omega)]
        omega
      · rw [if_neg fun hc => hge hc.1] at hhigh
        rw [if_neg hge, h.high]
        omega
  · exact h

theorem uafCheck : Counted (s.uafCheck i) := by
  unfold PmmState.uafCheck
  split
  · exact { h with }
  · exact h

theorem take (hi : i < s.total) : Counted (s.take i) := (h.markUsed hi).uafCheck

theorem freeRam (hi : i < s.total) : Counted (s.freeRam i) := by
  unfold PmmState.freeRam
  split
  · exact markFree { h with } hi
  · exact h.markFree hi

omit h in
/-- A loop over frames that exist. -/
theorem foldl {f : PmmState → Nat → PmmState} (hkept : ∀ s i, Kept s (f s i))
    (hf : ∀ s i, Counted s → i < s.total → Counted (f s i)) (l : List Nat) :
    ∀ {s : PmmState}, Counted s → (∀ i ∈ l, i < s.total) → Counted (l.foldl f s) := by
  induction l with
  | nil =>
    intro s h _
    exact h
  | cons i l ih =>
    intro s h hl
    refine ih (hf s i h (hl i List.mem_cons_self)) fun k hk => ?_
    rw [(hkept s i).total]
    exact hl k (List.mem_cons_of_mem i hk)

theorem usedRegion : Counted (s.usedRegion addr len) :=
  foldl (fun _ _ => .markUsed) (fun _ _ => markUsed) _ h fun _ hi => (mem_frames.mp hi).2.2

theorem freeRegion : Counted (s.freeRegion addr len) :=
  foldl (fun _ _ => .freeRam) (fun _ _ => freeRam) _ h fun _ hi => (mem_frames.mp hi).2.2

omit h

theorem full {total : Nat} (h : total ≤ pmmMaxFrames) : Counted (full total) := by
  refine ⟨h, ?_, ?_⟩
  · show total - 0 = _
    exact (Bitmap.weight_full fun i _ hi => full_test hi).symm
  · refine Eq.trans ?_ (Bitmap.weight_full fun i _ hi => full_test hi).symm
    show total - min total pmmLowFrames = total - pmmLowFrames
    omega

end Counted

/-! ## Searches -/

section Search

variable {b : Bitmap} {lo hi n fuel idx run f : Nat}

theorem scanPass_some (h : scanPass b hi fuel idx = some f) :
    idx ≤ f ∧ f < hi ∧ b.test f = false := by
  fun_induction scanPass b hi fuel idx with
  | case1 | case5 => cases h
  | case2 fuel idx hlt hskip ih | case3 fuel idx hlt hskip hset ih =>
    obtain ⟨hge, hf⟩ := ih h
    exact ⟨by omega, hf⟩
  | case4 fuel idx hlt hskip hclear =>
    cases h
    exact ⟨le_rfl, hlt, by simpa using hclear⟩

/-- A pass over the whole range that finds nothing has seen only used frames; those of a skipped
word are all used. -/
theorem scanPass_none (h : scanPass b hi fuel idx = none) (hfuel : hi - idx ≤ fuel) :
    ∀ i, idx ≤ i → i < hi → b.test i = true := by
  intro i h1 h2
  fun_induction scanPass b hi fuel idx with
  | case1 | case5 => omega
  | case2 fuel idx hlt hskip ih =>
    rcases lt_or_ge i (idx + 32) with hin | hout
    · refine Bitmap.word_full ?_
      rw [show i / 32 = idx / 32 by omega]
      exact hskip.2.2
    · exact ih h (by omega) hout
  | case3 fuel idx hlt hskip hset ih =>
    rcases eq_or_lt_of_le h1 with rfl | hlt
    · exact hset
    · exact ih h (by omega) hlt
  | case4 => cases h

theorem scanStart_mem (h : lo < hi) (cursor : Nat) :
    lo ≤ scanStart lo hi cursor ∧ scanStart lo hi cursor < hi := by
  unfold scanStart
  split <;> omega

/-- What is found is a free frame of the zone. -/
theorem scanFind_some (hlo : lo ≤ cursor) (h : scanFind b lo hi cursor = some f)
    (hhi : cursor ≤ hi) : lo ≤ f ∧ f < hi ∧ b.test f = false := by
  rcases Option.or_eq_some_iff.mp h with h | ⟨-, h⟩
  · obtain ⟨hge, hf⟩ := scanPass_some h
    exact ⟨hlo.trans hge, hf⟩
  · obtain ⟨hge, hlt, hf⟩ := scanPass_some h
    exact ⟨hge, hlt.trans_le hhi, hf⟩

/-- The two passes together see the whole zone. -/
theorem scanFind_eq_none (hlo : lo ≤ cursor) (hhi : cursor ≤ hi) :
    scanFind b lo hi cursor = none ↔ ∀ i, lo ≤ i → i < hi → b.test i = true := by
  constructor
  · intro h i h1 h2
    obtain ⟨hfirst, hsecond⟩ := Option.or_eq_none_iff.mp h
    rcases lt_or_ge i cursor with hlt | hge
    · exact scanPass_none hsecond le_rfl i h1 hlt
    · exact scanPass_none hfirst le_rfl i hge h2
  · intro hall
    cases h : scanFind b lo hi cursor with
    | none => rfl
    | some f =>
      obtain ⟨h1, h2, hclear⟩ := scanFind_some hlo h hhi
      rw [hall f h1 h2] at hclear
      cases hclear

/-- A run of free frames: there is at least one. -/
def Run (b : Bitmap) (f n : Nat) : Prop := 0 < n ∧ ∀ i, f ≤ i → i < f + n → b.test i = false

/-- The search for a run with `run` free frames before `idx`: every run starts behind the last used
frame. -/
theorem contigLoop_spec (b : Bitmap) (hi idx run : Nat) (hn : 0 < n) (hfuel : hi - idx ≤ fuel)
    (hrun : run < n) (hidx : run < idx) (hclear : ∀ i, idx - run ≤ i → i < idx → b.test i = false)
    (hfirst : ∀ f, 0 < f → Run b f n → idx - run ≤ f) :
    (∀ f, contigLoop b n hi fuel idx run = some f → 0 < f ∧ f + n ≤ hi ∧ Run b f n) ∧
      (contigLoop b n hi fuel idx run = none → ∀ f, 0 < f → f + n ≤ hi → ¬ Run b f n) := by
  have hend : ∀ {idx run}, (∀ f, 0 < f → Run b f n → idx - run ≤ f) → run < n → hi ≤ idx →
      ∀ f, 0 < f → f + n ≤ hi → ¬ Run b f n := by
    intro idx run hfirst hrun hle f hf hfn hr
    have := hfirst f hf hr
    omega
  fun_induction contigLoop b n hi fuel idx run with
  | case1 | case5 => exact ⟨nofun, fun _ => hend hfirst hrun (by omega)⟩
  | case2 fuel idx run hlt hset ih =>
    -- a used frame: no run goes through it
    refine ih (by omega) hn (by omega) (fun i h1 h2 => by omega) fun f hf hr => ?_
    by_contra hle
    have hge := hfirst f hf hr
    rw [hr.2 idx (by omega) (by omega)] at hset
    cases hset
  | case3 fuel idx run hlt hfree hfull =>
    refine ⟨fun f hf => ?_, nofun⟩
    cases hf
    refine ⟨by omega, by omega, hn, fun i h1 h2 => ?_⟩
    rcases eq_or_lt_of_le (show i ≤ idx by omega) with rfl | hlt
    · simpa using hfree
    · exact hclear i (by omega) hlt
  | case4 fuel idx run hlt hfree hmore ih =>
    have hsub : idx + 1 - (run + 1) = idx - run := by omega
    refine ih (by omega) (by omega) (by omega) (fun i h1 h2 => ?_) (hsub ▸ hfirst)
    rcases eq_or_lt_of_le (Nat.lt_succ_iff.mp h2) with rfl | hlt
    · simpa using hfree
    · exact hclear i (by omega) hlt

end Search

end PmmState

end MaeroOS.Pmm
