import Mathlib.Algebra.Group.Nat.Defs
import Mathlib.Tactic.Common

/-!
# Classic BPF as `proc/seccomp.c` runs it

The instruction set, the validator `seccomp_validate` and the interpreter `seccomp_run`, as the
source has them. Three things are made explicit that C leaves implicit:

* the `switch (f->code)` of the validator and of the interpreter is a `decode` into `Op`, the
  instructions the source names, followed by a match;
* whatever would be undefined behaviour in C (an index past `data[]` or `M[]`, a division by a zero
  constant, a shift by 32 or more) is a way for the interpreter to stop, apart from the returns the
  source has;
* the loop takes a number of steps, and records the instructions it executed.

A program that is not finished after the given number of steps has no `Stop` at all, so that
"terminates within `len` steps" is something to prove and not built in.
-/

namespace MaeroOS.Seccomp

/-! ## Encoding -/

def bpfLd : UInt16 := 0x00
def bpfLdx : UInt16 := 0x01
def bpfSt : UInt16 := 0x02
def bpfStx : UInt16 := 0x03
def bpfAlu : UInt16 := 0x04
def bpfJmp : UInt16 := 0x05
def bpfRet : UInt16 := 0x06
def bpfMisc : UInt16 := 0x07
def bpfW : UInt16 := 0x00
def bpfImm : UInt16 := 0x00
def bpfAbs : UInt16 := 0x20
def bpfMem : UInt16 := 0x60
def bpfLen : UInt16 := 0x80
def bpfJa : UInt16 := 0x00
def bpfNeg : UInt16 := 0x80
def bpfA : UInt16 := 0x10
def bpfTax : UInt16 := 0x00
def bpfTxa : UInt16 := 0x80

def bpfMemwords : Nat := 16
def seccompDataSize : Nat := 64
def seccompMaxInsns : Nat := 4096

def einval : Int := 22
def enomem : Int := 12

/-- `BPF_CLASS`. -/
def bpfClass (code : UInt16) : UInt16 := code &&& 0x07

/-- The second operand: the constant `BPF_K` or the register `BPF_X`. -/
inductive Src where
  | k
  | x
  deriving DecidableEq, Repr

def Src.code : Src → UInt16
  | .k => 0x00
  | .x => 0x08

inductive AluOp where
  | add | sub | mul | div | or | and | lsh | rsh | xor
  deriving DecidableEq, Repr

def AluOp.code : AluOp → UInt16
  | .add => 0x00
  | .sub => 0x10
  | .mul => 0x20
  | .div => 0x30
  | .or  => 0x40
  | .and => 0x50
  | .lsh => 0x60
  | .rsh => 0x70
  | .xor => 0xa0

inductive JmpOp where
  | jeq | jgt | jge | jset
  deriving DecidableEq, Repr

def JmpOp.code : JmpOp → UInt16
  | .jeq  => 0x10
  | .jgt  => 0x20
  | .jge  => 0x30
  | .jset => 0x40

/-- The instructions a seccomp program may use. -/
inductive Op where
  | ldAbs | ldLen | ldxLen | ldImm | ldxImm | ldMem | ldxMem | st | stx | tax | txa
  | alu (o : AluOp) (src : Src)
  | neg
  | ja
  | jmp (c : JmpOp) (src : Src)
  | retK | retA
  deriving DecidableEq, Repr

def Op.code : Op → UInt16
  | .ldAbs     => bpfLd ||| bpfW ||| bpfAbs
  | .ldLen     => bpfLd ||| bpfW ||| bpfLen
  | .ldxLen    => bpfLdx ||| bpfW ||| bpfLen
  | .ldImm     => bpfLd ||| bpfImm
  | .ldxImm    => bpfLdx ||| bpfImm
  | .ldMem     => bpfLd ||| bpfMem
  | .ldxMem    => bpfLdx ||| bpfMem
  | .st        => bpfSt
  | .stx       => bpfStx
  | .tax       => bpfMisc ||| bpfTax
  | .txa       => bpfMisc ||| bpfTxa
  | .alu o src => bpfAlu ||| o.code ||| src.code
  | .neg       => bpfAlu ||| bpfNeg
  | .ja        => bpfJmp ||| bpfJa
  | .jmp c src => bpfJmp ||| c.code ||| src.code
  | .retK      => bpfRet ||| Src.k.code
  | .retA      => bpfRet ||| bpfA

/-- Every instruction the two `switch` statements have a case for. -/
def allOps : List Op :=
  [.ldAbs, .ldLen, .ldxLen, .ldImm, .ldxImm, .ldMem, .ldxMem, .st, .stx, .tax, .txa, .neg, .ja,
    .retK, .retA] ++
  ([AluOp.add, .sub, .mul, .div, .or, .and, .lsh, .rsh, .xor].flatMap fun o =>
    [.alu o .k, .alu o .x]) ++
  ([JmpOp.jeq, .jgt, .jge, .jset].flatMap fun c => [.jmp c .k, .jmp c .x])

/-- `switch (f->code)`: `none` is the `default:` case. -/
def decode (code : UInt16) : Option Op := allOps.find? (fun o => o.code == code)

/-- `struct sock_filter`. -/
structure SockFilter where
  code : UInt16
  jt : UInt8
  jf : UInt8
  k : UInt32
  deriving DecidableEq, Repr

/-! ## Validation -/

def insnAllowed (f : SockFilter) : Bool :=
  match decode f.code with
  | some .ldAbs => decide (f.k.toNat < seccompDataSize) && f.k &&& 3 == 0
  | some .ldMem | some .ldxMem | some .st | some .stx => decide (f.k.toNat < bpfMemwords)
  | some (.alu .div .k) => f.k != 0
  | some (.alu .lsh .k) | some (.alu .rsh .k) => decide (f.k.toNat < 32)
  | some _ => true
  | none => false

def isCondJump (code : UInt16) : Bool := bpfClass code == bpfJmp && code &&& 0xf0 != bpfJa

/-- Both targets of a jump lie among the `left` instructions after it. -/
def jumpsInside (f : SockFilter) (left : Nat) : Bool :=
  if f.code == bpfJmp ||| bpfJa then decide (f.k.toNat < left)
  else if isCondJump f.code then decide (f.jt.toNat < left) && decide (f.jf.toNat < left)
  else true

/-- The first loop of `seccomp_validate`; `len - pc - 1` is what is left of the program. -/
def checkInsns : List SockFilter → Bool
  | [] => true
  | f :: rest => insnAllowed f && jumpsInside f rest.length && checkInsns rest

/-- The scratch cell of an instruction, as a bit. -/
def cellBit (f : SockFilter) : BitVec 16 := 1#16 <<< f.k.toNat

def writesCell (f : SockFilter) : Bool :=
  match decode f.code with
  | some .st | some .stx => true
  | _ => false

def readsCell (f : SockFilter) : Bool :=
  match decode f.code with
  | some .ldMem | some .ldxMem => true
  | _ => false

/-- `have`: the cells written on every path through the instruction `f`. -/
def cellsAfter (f : SockFilter) (cells : BitVec 16) : BitVec 16 :=
  if writesCell f then cells ||| cellBit f else cells

/-- `known[i] &= cells`. -/
def meetAt (i : Nat) (cells : BitVec 16) (known : Nat → BitVec 16) : Nat → BitVec 16 :=
  fun j => if j = i then known j &&& cells else known j

/-- The second loop of `seccomp_validate`, from `pc` on; `none` is its `-EINVAL`. -/
def knownLoop : List SockFilter → Nat → (Nat → BitVec 16) → Option (Nat → BitVec 16)
  | [], _, known => some known
  | f :: rest, pc, known =>
      let cells := cellsAfter f (known pc)
      if readsCell f && cells &&& cellBit f == 0 then none
      else if bpfClass f.code == bpfRet then knownLoop rest (pc + 1) known
      else if f.code == bpfJmp ||| bpfJa then
        knownLoop rest (pc + 1) (meetAt (pc + 1 + f.k.toNat) cells known)
      else if isCondJump f.code then
        knownLoop rest (pc + 1)
          (meetAt (pc + 1 + f.jf.toNat) cells (meetAt (pc + 1 + f.jt.toNat) cells known))
      else knownLoop rest (pc + 1) (meetAt (pc + 1) cells known)

/-- `known[]` before the second loop: nothing is written on entry, everything everywhere else. -/
def knownInit (i : Nat) : BitVec 16 := if i = 0 then 0 else 0xffff

/-- `seccomp_validate(prog, len)`. `alloc` is whether `kmalloc` had memory for `known[]`. -/
def seccompValidate (alloc : Bool) (prog : List SockFilter) : Int :=
  if prog.length = 0 ∨ seccompMaxInsns < prog.length then -einval
  else if checkInsns prog = false then -einval
  else if (prog.getLast?.map fun f => bpfClass f.code) ≠ some bpfRet then -einval
  else if alloc = false then -enomem
  else
    match knownLoop prog 0 knownInit with
    | none => -einval
    | some _ => 0

/-! ## Evaluation -/

/-- The registers of a run, and the index of the next instruction. -/
structure Machine where
  A : UInt32
  X : UInt32
  M : Vector UInt32 16
  pc : Nat

def Machine.init : Machine := { A := 0, X := 0, M := Vector.replicate 16 0, pc := 0 }

/-- How a run ends. `ret` is a `RET` instruction and `divByZero` the return classic BPF documents;
`badInsn` and `pastEnd` are the two returns the source calls unreachable; the last three are
undefined behaviour in C. -/
inductive Stop where
  | ret (v : UInt32)
  | divByZero
  | badInsn
  | pastEnd
  | outOfRange
  | zeroConstant
  | wideShift
  deriving DecidableEq, Repr

def Src.value (src : Src) (k : UInt32) (s : Machine) : UInt32 :=
  match src with
  | .k => k
  | .x => s.X

/-- `A = A op b`. -/
def AluOp.eval (o : AluOp) (src : Src) (a b : UInt32) : Except Stop UInt32 :=
  match o, src with
  | .add, _ => .ok (a + b)
  | .sub, _ => .ok (a - b)
  | .mul, _ => .ok (a * b)
  | .div, .k => if b = 0 then .error .zeroConstant else .ok (a / b)
  | .div, .x => if b = 0 then .error .divByZero else .ok (a / b)
  | .and, _ => .ok (a &&& b)
  | .or, _ => .ok (a ||| b)
  | .xor, _ => .ok (a ^^^ b)
  | .lsh, .k => if b.toNat < 32 then .ok (a <<< b) else .error .wideShift
  | .lsh, .x => .ok (a <<< (b &&& 31))
  | .rsh, .k => if b.toNat < 32 then .ok (a >>> b) else .error .wideShift
  | .rsh, .x => .ok (a >>> (b &&& 31))

def JmpOp.test (c : JmpOp) (a b : UInt32) : Bool :=
  match c with
  | .jeq => a == b
  | .jgt => decide (b < a)
  | .jge => decide (b ≤ a)
  | .jset => a &&& b != 0

/-- `pc += d` on the 32-bit program counter, after the `pc++` of the fetch. -/
def Machine.skip (s : Machine) (d : Nat) : Machine := { s with pc := (s.pc + 1 + d) % 2 ^ 32 }

/-- `A = v` (`X = v`, `M[i] = v`), going on to the next instruction. -/
def Machine.setA (s : Machine) (v : UInt32) : Machine := { s with A := v, pc := s.pc + 1 }
def Machine.setX (s : Machine) (v : UInt32) : Machine := { s with X := v, pc := s.pc + 1 }

def Machine.setM (s : Machine) (i : Nat) (v : UInt32) : Except Stop Machine :=
  if h : i < 16 then .ok { s with M := s.M.set i v h, pc := s.pc + 1 } else .error .outOfRange

/-- An array read: `none` from `xs[i]?` is an index past the end. -/
def load (w : Option UInt32) : Except Stop UInt32 :=
  match w with
  | some v => .ok v
  | none => .error .outOfRange

/-- The cases of the `switch` in `seccomp_run`. -/
def execOp (data : Vector UInt32 16) (f : SockFilter) (s : Machine) : Op → Except Stop Machine
  | .ldAbs => (load data[(f.k >>> 2).toNat]?).map s.setA
  | .ldLen => .ok (s.setA seccompDataSize.toUInt32)
  | .ldxLen => .ok (s.setX seccompDataSize.toUInt32)
  | .ldImm => .ok (s.setA f.k)
  | .ldxImm => .ok (s.setX f.k)
  | .ldMem => (load s.M[f.k.toNat]?).map s.setA
  | .ldxMem => (load s.M[f.k.toNat]?).map s.setX
  | .st => s.setM f.k.toNat s.A
  | .stx => s.setM f.k.toNat s.X
  | .tax => .ok (s.setX s.A)
  | .txa => .ok (s.setA s.X)
  | .alu o src => (o.eval src s.A (src.value f.k s)).map s.setA
  | .neg => .ok (s.setA (0 - s.A))
  | .ja => .ok (s.skip f.k.toNat)
  | .jmp c src => .ok (s.skip (if c.test s.A (src.value f.k s) then f.jt else f.jf).toNat)
  | .retK => .error (.ret f.k)
  | .retA => .error (.ret s.A)

/-- One iteration of the loop of `seccomp_run`, on the instruction `f` just fetched. -/
def exec (data : Vector UInt32 16) (f : SockFilter) (s : Machine) : Except Stop Machine :=
  match decode f.code with
  | some o => execOp data f s o
  | none => .error .badInsn

/-- At most `n` iterations of `while (pc < f->len)`: how the loop ended, if it did, and the
instructions it executed, in order. -/
def seccompLoop (prog : List SockFilter) (data : Vector UInt32 16) :
    Nat → Machine → Option Stop × List Nat
  | 0, _ => (none, [])
  | n + 1, s =>
      match prog[s.pc]? with
      | none => (some .pastEnd, [])
      | some f =>
          match exec data f s with
          | .error stop => (some stop, [s.pc])
          | .ok s' =>
              let r := seccompLoop prog data n s'
              (r.1, s.pc :: r.2)

end MaeroOS.Seccomp
