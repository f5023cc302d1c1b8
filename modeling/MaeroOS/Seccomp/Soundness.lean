import MaeroOS.Lib.MustFlow
import MaeroOS.Seccomp.Basic

/-!
# A validated program is safe to run

What `seccomp_validate` promises `seccomp_run`. The argument has two halves:

* **Control**: every instruction is one the interpreter knows, every jump lands inside the program
  and after the jump, and the last instruction returns. So the program counter only grows and the
  loop ends at a `RET` (`targets_inside`, `exec_ok`).
* **Scratch memory**: the validator's second loop is a forward must-analysis
  (`knownLoop_eq_pass`), so a cell it knows at an instruction has been stored to on whatever path
  the run took there.

`seccompRun_safe` puts both together, by induction on the iterations of the loop.
-/

namespace MaeroOS.Seccomp

open List (mem_cons mem_singleton nil_append not_mem_nil)
open Lib

/-! ## Decoded instructions and the class tests on raw codes -/

theorem code_of_decode {c : UInt16} {o : Op} (h : decode c = some o) : o.code = c := by
  have := List.find?_some h
  simpa using this

def Op.isRet : Op → Bool
  | .retK | .retA => true
  | _ => false

def Op.isJmp : Op → Bool
  | .jmp _ _ => true
  | _ => false

/-- What the tests of the validator say of an encoded instruction. -/
theorem Op.code_tests (o : Op) :
    (bpfClass o.code == bpfRet) = o.isRet ∧ (o.code == bpfJmp ||| bpfJa) = (o == .ja) ∧
    isCondJump o.code = o.isJmp := by
  rcases o with _ | _ | _ | _ | _ | _ | _ | _ | _ | _ | _ | ⟨o, src⟩ | _ | _ | ⟨c, src⟩ | _ | _
  case alu => cases o <;> cases src <;> exact ⟨rfl, rfl, rfl⟩
  case jmp => cases c <;> cases src <;> exact ⟨rfl, rfl, rfl⟩
  all_goals exact ⟨rfl, rfl, rfl⟩

/-! ## Where an instruction can go on -/

/-- The instructions the one at `pc` can be followed by. -/
def targets (f : SockFilter) (pc : Nat) : List Nat :=
  if bpfClass f.code == bpfRet then []
  else if f.code == bpfJmp ||| bpfJa then [pc + 1 + f.k.toNat]
  else if isCondJump f.code then [pc + 1 + f.jt.toNat, pc + 1 + f.jf.toNat]
  else [pc + 1]

variable {f : SockFilter} {pc t : Nat}

theorem targets_gt (h : t ∈ targets f pc) : pc < t := by
  unfold targets at h
  split at h
  · cases h
  split at h
  · simp only [mem_singleton] at h; omega
  split at h
  · simp only [mem_cons, not_mem_nil, or_false] at h; omega
  · simp only [mem_singleton] at h; omega

/-! ## What the first loop of the validator checked -/

theorem checkInsns_append {p : List SockFilter} {q : List SockFilter}
    (h : checkInsns (p ++ f :: q) = true) :
    insnAllowed f = true ∧ jumpsInside f q.length = true := by
  induction p with
  | nil =>
    simp only [nil_append, checkInsns, Bool.and_eq_true] at h
    exact h.1
  | cons g p ih =>
    simp only [List.cons_append, checkInsns, Bool.and_eq_true] at h
    exact ih h.2

/-- What an accepted program looks like. -/
structure Valid (prog : List SockFilter) : Prop where
  nonempty : 0 < prog.length
  short : prog.length ≤ seccompMaxInsns
  allowed : ∀ {pc : Nat} {f}, prog[pc]? = some f → insnAllowed f = true
  inside : ∀ {pc : Nat} {f}, prog[pc]? = some f → jumpsInside f (prog.length - pc - 1) = true
  last : ∀ {pc : Nat} {f}, prog[pc]? = some f → pc + 1 = prog.length → bpfClass f.code = bpfRet
  cells : ∃ K, knownLoop prog 0 knownInit = some K

variable {prog : List SockFilter}

theorem seccompValidate_valid {alloc : Bool} (h : seccompValidate alloc prog = 0) : Valid prog := by
  unfold seccompValidate at h
  split at h
  · cases h
  next hlen =>
  split at h
  · cases h
  next hchk =>
  split at h
  · cases h
  next hlast =>
  split at h
  · cases h
  split at h
  · cases h
  next K hK =>
  have hsplit : ∀ {pc : Nat} {f}, prog[pc]? = some f →
      prog = prog.take pc ++ f :: prog.drop (pc + 1) := by
    intro pc f hf
    obtain ⟨hlt, rfl⟩ := List.getElem?_eq_some_iff.mp hf
    rw [← List.drop_eq_getElem_cons hlt, List.take_append_drop]
  have hok : ∀ {pc : Nat} {f}, prog[pc]? = some f →
      insnAllowed f = true ∧ jumpsInside f (prog.drop (pc + 1)).length = true := by
    intro pc f hf
    have hc : checkInsns prog = true := by simpa using hchk
    rw [hsplit hf] at hc
    exact checkInsns_append hc
  refine ⟨?_, ?_, ?_, ?_, ?_, K, hK⟩
  · omega
  · omega
  · intro pc f hf
    exact (hok hf).1
  · intro pc f hf
    have := (hok hf).2
    rwa [List.length_drop, Nat.sub_add_eq] at this
  · intro pc f hf hpc
    have hl : prog.getLast? = some f := by
      rw [List.getLast?_eq_getElem?, ← hpc, Nat.add_sub_cancel]
      exact hf
    simpa [hl] using hlast

/-- Control never leaves a valid program: whatever follows an instruction is after it and inside. -/
theorem targets_inside (hv : Valid prog) (hf : prog[pc]? = some f) (ht : t ∈ targets f pc) :
    t < prog.length := by
  have hlt : pc < prog.length := (List.getElem?_eq_some_iff.mp hf).1
  have hj := hv.inside hf
  unfold targets at ht
  unfold jumpsInside at hj
  split at ht
  · cases ht
  next hret =>
  have hnext : pc + 1 < prog.length := by
    rcases Nat.lt_or_ge (pc + 1) prog.length with h | h
    · exact h
    · exact absurd (hv.last hf (by omega)) (by simpa using hret)
  split at ht
  next hja =>
    rw [if_pos hja] at hj
    simp only [mem_singleton, decide_eq_true_eq] at ht hj
    omega
  next hja =>
  rw [if_neg hja] at hj
  split at ht
  next hcond =>
    rw [if_pos hcond] at hj
    simp only [mem_cons, not_mem_nil, or_false, Bool.and_eq_true,
      decide_eq_true_eq] at ht hj
    omega
  next hcond =>
    simp only [mem_singleton] at ht
    omega

/-! ## One instruction -/

/-- The ways a run is meant to end. -/
def Stop.Clean (stop : Stop) : Prop := (∃ v, stop = .ret v) ∨ stop = .divByZero

/-- The checks on the constants make the arithmetic defined; a zero `X` is the one stop left. -/
theorem AluOp.eval_clean {o : AluOp} {src : Src} {a b : UInt32} {stop : Stop}
    (hdiv : o = .div → src = .k → b ≠ 0) (hshift : o = .lsh ∨ o = .rsh → src = .k → b.toNat < 32)
    (h : o.eval src a b = .error stop) : stop.Clean := by
  cases o <;> cases src <;> simp only [AluOp.eval, reduceCtorEq] at h
  case div.k =>
    rw [if_neg (hdiv rfl rfl)] at h
    cases h
  case div.x =>
    split at h
    · cases h
      exact Or.inr rfl
    · cases h
  case lsh.k =>
    rw [if_pos (hshift (Or.inl rfl) rfl)] at h
    cases h
  case rsh.k =>
    rw [if_pos (hshift (Or.inr rfl) rfl)] at h
    cases h

/-- The constant of an allowed division or shift is a defined one. -/
theorem alu_constant {o : AluOp} (hd : decode f.code = some (.alu o .k))
    (ha : insnAllowed f = true) :
    (o = .div → f.k ≠ 0) ∧ (o = .lsh ∨ o = .rsh → f.k.toNat < 32) := by
  refine ⟨?_, ?_⟩
  · rintro rfl
    simpa [insnAllowed, hd] using ha
  · rintro (rfl | rfl)
    · simpa [insnAllowed, hd] using ha
    · simpa [insnAllowed, hd] using ha

theorem load_of_lt {w : Vector UInt32 16} {i : Nat} (h : i < 16) : load w[i]? = .ok (w[i]) := by
  rw [Vector.getElem?_eq_getElem h]
  rfl

/-- The word index of an allowed absolute load is inside `seccomp_data`. -/
theorem ldAbs_index (h : f.k.toNat < seccompDataSize) : (f.k >>> 2).toNat < 16 := by
  have h64 : f.k.toNat < 64 := h
  have : (f.k >>> 2).toNat = f.k.toNat / 4 := by
    simp [UInt32.toNat_shiftRight, Nat.shiftRight_eq_div_pow]
  omega

/-- The scratch cell of an allowed instruction exists. -/
theorem cell_lt {o : Op} (hd : decode f.code = some o)
    (ho : o ∈ [Op.ldMem, .ldxMem, .st, .stx]) (ha : insnAllowed f = true) : f.k.toNat < 16 := by
  have hk : f.k.toNat < bpfMemwords := by
    simp only [mem_cons, not_mem_nil, or_false] at ho
    rcases ho with rfl | rfl | rfl | rfl <;> simpa [insnAllowed, hd] using ha
  exact hk

/-- Without wrapping, a jump goes where it says. -/
theorem skip_pc {s : Machine} {d : Nat} (h : s.pc + 1 + d < 2 ^ 32) :
    (s.skip d).pc = s.pc + 1 + d :=
  Nat.mod_eq_of_lt h

/-- An allowed instruction either ends the run the way runs are meant to end, or goes on at one of
its `targets`. The bound keeps the 32-bit program counter from wrapping. -/
theorem exec_ok (data : Vector UInt32 16) {s : Machine}
    (ha : insnAllowed f = true) (hb : ∀ t ∈ targets f s.pc, t < 2 ^ 32) :
    (∃ stop, exec data f s = .error stop ∧ stop.Clean) ∨
      ∃ s', exec data f s = .ok s' ∧ s'.pc ∈ targets f s.pc := by
  rcases hd : decode f.code with _ | o
  · simp [insnAllowed, hd] at ha
  have hx : exec data f s = execOp data f s o := by rw [exec, hd]
  obtain ⟨hret, hja, hjmp⟩ := o.code_tests
  rw [hx]
  rw [targets, ← code_of_decode hd, hret, hja, hjmp] at hb ⊢
  cases o with
  | retK | retA => exact Or.inl ⟨_, rfl, Or.inl ⟨_, rfl⟩⟩
  | ja =>
    refine Or.inr ⟨_, rfl, ?_⟩
    rw [skip_pc (hb (s.pc + 1 + f.k.toNat) (by simp [Op.isRet]))]
    simp [Op.isRet]
  | jmp c src =>
    refine Or.inr ⟨_, rfl, ?_⟩
    have h₁ := hb (s.pc + 1 + f.jt.toNat) (by simp [Op.isRet, Op.isJmp])
    have h₂ := hb (s.pc + 1 + f.jf.toNat) (by simp [Op.isRet, Op.isJmp])
    cases hc : c.test s.A (src.value f.k s)
    · show (s.skip f.jf.toNat).pc ∈ _
      rw [skip_pc h₂]
      simp [Op.isRet, Op.isJmp]
    · show (s.skip f.jt.toNat).pc ∈ _
      rw [skip_pc h₁]
      simp [Op.isRet, Op.isJmp]
  | alu o src =>
    rw [execOp]
    cases he : o.eval src s.A (src.value f.k s) with
    | error stop =>
      refine Or.inl ⟨stop, rfl, AluOp.eval_clean ?_ ?_ he⟩
      · rintro rfl rfl
        exact (alu_constant hd ha).1 rfl
      · rintro ho rfl
        exact (alu_constant hd ha).2 ho
    | ok v => exact Or.inr ⟨_, rfl, mem_singleton.mpr rfl⟩
  | ldAbs =>
    have hk : f.k.toNat < seccompDataSize ∧ f.k &&& 3 = 0 := by
      simpa [insnAllowed, hd] using ha
    rw [execOp, load_of_lt (ldAbs_index hk.1)]
    exact Or.inr ⟨_, rfl, mem_singleton.mpr rfl⟩
  | ldMem | ldxMem =>
    rw [execOp, load_of_lt (cell_lt hd (by simp) ha)]
    exact Or.inr ⟨_, rfl, mem_singleton.mpr rfl⟩
  | st | stx =>
    rw [execOp, Machine.setM, dif_pos (cell_lt hd (by simp) ha)]
    exact Or.inr ⟨_, rfl, mem_singleton.mpr rfl⟩
  | _ => exact Or.inr ⟨_, rfl, mem_singleton.mpr rfl⟩

/-! ## The second loop of the validator is a must-analysis

The facts are scratch cells, and a set of them is the 16-bit mask the source keeps. -/

/-- Does the instruction at `pc` store to cell `c`? -/
def StoresAt (prog : List SockFilter) (pc c : Nat) : Prop :=
  ∃ f, prog[pc]? = some f ∧ writesCell f = true ∧ f.k.toNat = c

theorem getLsbD_cellBit {c : Nat} (h : (cellBit f).getLsbD c = true) : f.k.toNat = c := by
  have h' : (BitVec.twoPow 16 f.k.toNat).getLsbD c = true := h
  rw [BitVec.getLsbD_twoPow] at h'
  simp only [Bool.and_eq_true, decide_eq_true_eq] at h'
  exact h'.2

theorem and_cellBit_ne_zero {cells : BitVec 16}
    (h : (cells &&& cellBit f == 0) = false) : cells.getLsbD f.k.toNat = true := by
  have h' : cells &&& BitVec.twoPow 16 f.k.toNat ≠ 0 := by
    intro h0
    rw [show cellBit f = BitVec.twoPow 16 f.k.toNat from rfl, h0] at h
    simp at h
  rw [BitVec.and_twoPow] at h'
  by_contra hc
  rw [if_neg hc] at h'
  exact h' rfl

/-- The analysis the validator runs. -/
def cellFlow (prog : List SockFilter) : MustFlow (BitVec 16) Nat where
  holds c cells := cells.getLsbD c = true
  meet := (· &&& ·)
  holds_meet := by
    intro c a b h
    simpa [BitVec.getLsbD_and] using h
  gen := StoresAt prog
  out pc cells := match prog[pc]? with
    | some f => cellsAfter f cells
    | none => cells
  holds_out := by
    intro pc c a h
    cases hf : prog[pc]? with
    | none => simp only [hf] at h; exact Or.inl h
    | some f =>
        simp only [hf, cellsAfter] at h
        split at h
        next hw =>
          rw [BitVec.getLsbD_or, Bool.or_eq_true] at h
          exact h.imp id (fun hc => ⟨f, hf, hw, getLsbD_cellBit hc⟩)
        next => exact Or.inl h
  ok pc cells := match prog[pc]? with
    | some f => !(readsCell f && cellsAfter f cells &&& cellBit f == 0)
    | none => true
  succ pc := match prog[pc]? with
    | some f => targets f pc
    | none => []

theorem cellFlow_succ (hf : prog[pc]? = some f) : (cellFlow prog).succ pc = targets f pc := by
  simp [cellFlow, hf]

theorem cellFlow_forward (prog : List SockFilter) :
    ∀ pc, ∀ t ∈ (cellFlow prog).succ pc, pc < t := by
  intro pc t ht
  cases hf : prog[pc]? with
  | none => simp [cellFlow, hf] at ht
  | some f =>
    rw [cellFlow_succ hf] at ht
    exact targets_gt ht

theorem meetAt_eq_update (i : Nat) (cells : BitVec 16) (known : Nat → BitVec 16) :
    meetAt i cells known = Function.update known i (known i &&& cells) := by
  funext j
  by_cases hj : j = i
  · subst hj
    simp [meetAt]
  · simp [meetAt, hj]

/-- The loop of the source, on what is left of the program at `pc`, is the generic pass. -/
theorem knownLoop_eq_pass (rest : List SockFilter) (hr : prog.drop pc = rest)
    (known : Nat → BitVec 16) :
    knownLoop rest pc known = (cellFlow prog).pass rest.length pc known := by
  induction rest generalizing pc known with
  | nil => rfl
  | cons f rest ih =>
    have hf : prog[pc]? = some f := by
      rw [← List.head?_drop, hr, List.head?_cons]
    have hrest : prog.drop (pc + 1) = rest := by
      rw [← List.drop_drop, hr, List.drop_one, List.tail_cons]
    have hok : (cellFlow prog).ok pc (known pc) =
        !(readsCell f && cellsAfter f (known pc) &&& cellBit f == 0) := by
      simp [cellFlow, hf]
    have hout : (cellFlow prog).out pc (known pc) = cellsAfter f (known pc) := by
      simp [cellFlow, hf]
    rw [knownLoop, List.length_cons, MustFlow.pass, hok, hout, cellFlow_succ hf, targets]
    by_cases hbad : (readsCell f && cellsAfter f (known pc) &&& cellBit f == 0) = true
    · simp only [hbad, if_true, Bool.not_true, Bool.false_eq_true, if_false]
    simp only [hbad, Bool.not_false, if_true, Bool.false_eq_true, if_false]
    split
    · exact ih hrest _
    split
    · rw [ih hrest, meetAt_eq_update]
      rfl
    · split
      · rw [ih hrest, meetAt_eq_update, meetAt_eq_update]
        rfl
      · rw [ih hrest, meetAt_eq_update]
        rfl

/-- What is known of a valid program: a map consistent with every instruction, empty on entry. -/
theorem Valid.known (hv : Valid prog) :
    ∃ K : Nat → BitVec 16, K 0 = 0 ∧ ∀ pc < prog.length, (cellFlow prog).Consistent K pc := by
  obtain ⟨K, hK⟩ := hv.cells
  rw [knownLoop_eq_pass prog List.drop_zero] at hK
  obtain ⟨hkeep, -, hcons⟩ := (cellFlow prog).pass_spec (cellFlow_forward prog) hK
  refine ⟨K, (hkeep 0 (Nat.le_refl 0)).trans rfl, ?_⟩
  intro pc hpc
  exact hcons pc (Nat.zero_le pc) (by omega)

/-! ## Whole runs -/

/-- On the path `tr`, a scratch cell is read only after the path has stored to it. -/
def WrittenBefore (prog : List SockFilter) (tr : List Nat) : Prop :=
  ∀ pre pc post, tr = pre ++ pc :: post → ∀ f, prog[pc]? = some f → readsCell f = true →
    ∃ i ∈ pre, StoresAt prog i f.k.toNat

/-- A read the analysis let through reads a cell that is established. -/
theorem Established.read {K : Nat → BitVec 16} {done : List Nat}
    (he : (cellFlow prog).Established K done pc)
    (hc : (cellFlow prog).Consistent K pc) (hf : prog[pc]? = some f) (hr : readsCell f = true) :
    ∃ i ∈ done, StoresAt prog i f.k.toNat := by
  apply he f.k.toNat
  have hok := hc.1
  have hw : writesCell f = false := by
    unfold readsCell at hr
    unfold writesCell
    split at hr
    next h => simp [h]
    next h => simp [h]
    next => cases hr
  simp only [cellFlow, hf, hr, Bool.true_and, cellsAfter, hw, Bool.not_eq_true',
    Bool.false_eq_true, if_false] at hok
  exact and_cellBit_ne_zero hok

/-- What is read on the path `tr` after `done` has been stored to. -/
def Covered (prog : List SockFilter) (done tr : List Nat) : Prop :=
  ∀ pre pc post, tr = pre ++ pc :: post → ∀ f, prog[pc]? = some f → readsCell f = true →
    ∃ i ∈ pre.reverse ++ done, StoresAt prog i f.k.toNat

theorem Covered.cons {done tr : List Nat} (hf : prog[pc]? = some f)
    (hread : readsCell f = true → ∃ i ∈ done, StoresAt prog i f.k.toNat)
    (htail : Covered prog (pc :: done) tr) : Covered prog done (pc :: tr) := by
  intro pre pc' post htr g hg hr
  cases pre with
  | nil =>
    obtain ⟨rfl, -⟩ := List.cons.inj htr
    obtain rfl : f = g := Option.some.inj (hf.symm.trans hg)
    exact hread hr
  | cons a pre =>
    obtain ⟨rfl, hrest⟩ := List.cons.inj htr
    obtain ⟨i, hi, hs⟩ := htail pre pc' post hrest g hg hr
    exact ⟨i, by simpa using hi, hs⟩

/-- The loop of `seccomp_run` from any point of a valid program. The induction is on the iterations
left; `done` is the path so far, and there are always enough iterations left to reach the end,
because the program counter grows with each one. -/
theorem seccompLoop_safe (hv : Valid prog) {K : Nat → BitVec 16}
    (hK : ∀ pc < prog.length, (cellFlow prog).Consistent K pc) (data : Vector UInt32 16) :
    ∀ (n : Nat) (s : Machine) (done : List Nat), s.pc < prog.length → prog.length ≤ s.pc + n →
      (cellFlow prog).Established K done s.pc →
      ∃ stop tr, seccompLoop prog data n s = (some stop, tr) ∧ tr.length ≤ n ∧ stop.Clean ∧
        Covered prog done tr := by
  intro n
  induction n with
  | zero => intro s done hpc hn; omega
  | succ n ih =>
    intro s done hpc hn he
    obtain ⟨f, hf⟩ : ∃ f, prog[s.pc]? = some f := ⟨_, List.getElem?_eq_getElem hpc⟩
    have hb : ∀ t ∈ targets f s.pc, t < 2 ^ 32 := by
      intro t ht
      have h₁ := targets_inside hv hf ht
      have h₂ : prog.length ≤ 4096 := hv.short
      omega
    have hread := fun hr => Established.read he (hK s.pc hpc) hf hr
    rcases exec_ok data (hv.allowed hf) hb with ⟨stop, hx, hclean⟩ | ⟨s', hx, ht⟩
    · refine ⟨stop, [s.pc], ?_, by simp, hclean, ?_⟩
      · simp only [seccompLoop, hf, hx]
      · exact .cons hf hread fun pre pc post htr => by simp at htr
    · have hin : s'.pc < prog.length := targets_inside hv hf ht
      have hgt : s.pc < s'.pc := targets_gt ht
      have he' : (cellFlow prog).Established K (s.pc :: done) s'.pc :=
        he.step (hK s.pc hpc) (cellFlow_succ hf ▸ ht)
      obtain ⟨stop, tr, hrun, hlen, hclean, hwr⟩ := ih s' (s.pc :: done) hin (by omega) he'
      refine ⟨stop, s.pc :: tr, ?_, by simp [hlen], hclean, ?_⟩
      · simp only [seccompLoop, hf, hx, hrun]
      · exact .cons hf hread hwr

/-- **A validated program is safe.** Whatever `seccomp_data` holds, the run of an accepted program
ends within `len` iterations, at a `RET` instruction or at the documented division by zero: neither
of the two unreachable returns is reached, no index is out of range, no constant divisor is zero and
no shift is by 32 or more. And every scratch cell it reads was stored to earlier on its path. -/
theorem seccompRun_safe (alloc : Bool) (prog : List SockFilter)
    (h : seccompValidate alloc prog = 0) (data : Vector UInt32 16) :
    ∃ stop tr, seccompLoop prog data prog.length Machine.init = (some stop, tr) ∧
      tr.length ≤ prog.length ∧ ((∃ v, stop = .ret v) ∨ stop = .divByZero) ∧
      WrittenBefore prog tr := by
  have hv := seccompValidate_valid h
  obtain ⟨K, h0, hK⟩ := hv.known
  have he : (cellFlow prog).Established K [] Machine.init.pc := by
    intro c hc
    have hc' : (K 0).getLsbD c = true := hc
    rw [h0] at hc'
    simp at hc'
  obtain ⟨stop, tr, hrun, hlen, hclean, hwr⟩ :=
    seccompLoop_safe hv hK data prog.length Machine.init [] hv.nonempty (by simp [Machine.init]) he
  refine ⟨stop, tr, hrun, hlen, hclean, ?_⟩
  intro pre pc post htr f hf hr
  obtain ⟨i, hi, hs⟩ := hwr pre pc post htr f hf hr
  exact ⟨i, by simpa using hi, hs⟩

/-- Load the first argument, park it in a cell, and return it: an accepted program. -/
def parkProgram : List SockFilter :=
  [⟨Op.ldAbs.code, 0, 0, 16⟩, ⟨Op.st.code, 0, 0, 3⟩, ⟨Op.ldMem.code, 0, 0, 3⟩,
    ⟨Op.retA.code, 0, 0, 0⟩]

theorem seccompRun_safe_park :
    seccompValidate true parkProgram = 0 ∧
      ∃ stop tr, seccompLoop parkProgram (Vector.replicate 16 7) parkProgram.length Machine.init =
          (some stop, tr) ∧
        tr.length ≤ parkProgram.length ∧ ((∃ v, stop = .ret v) ∨ stop = .divByZero) ∧
        WrittenBefore parkProgram tr :=
  ⟨by decide, seccompRun_safe true parkProgram (by decide) (Vector.replicate 16 7)⟩

end MaeroOS.Seccomp
