import MaeroOS.Lib.System
import MaeroOS.Lib.Ring

/-!
# Pipes

A pipe is a ring of 4096 bytes with a head and a count. `pipe_read` and `pipe_write` hold the Big
Kernel Lock from one sleep to the next, so that a step of the model is a whole stretch of a call:
from its start or its wakeup to the next place where it sleeps, or to its return. There are two
kinds of such places:

* the wait for data or for room (`sleep_locked`);
* the copy from or to the caller's buffer. A page of it may have to be filled from a file first, and
  then the copy sleeps after some of its bytes and goes on later.

A call's local variables are kept in its `Call`, whose constructors are the places in the code. What
the calls have done to the pipe is written down in a log, newest entry first, that no code reads.
-/

namespace MaeroOS.Pipe

open Lib (System)

/-- `PIPE_BUF_SIZE`. -/
abbrev pipeBufSize : Nat := 4096

/-- `pipe_buf_t`. Its lock adds nothing to the Big Kernel Lock. -/
structure PipeBuf where
  data : Nat → UInt8
  head : Nat
  count : Nat
  nreaders : Int
  nwriters : Int
  fifo : Bool
  pins : Nat

/-- `pipe_alloc`. The memory of the ring is as `kmalloc` left it. -/
def pipeAlloc (data : Nat → UInt8) : PipeBuf := ⟨data, 0, 0, 1, 1, false, 0⟩

/-- `pipe_fifo_alloc`. -/
def pipeFifoAlloc (data : Nat → UInt8) : PipeBuf :=
  { pipeAlloc data with nreaders := 0, nwriters := 0, fifo := true }

/-! ## Calls -/

/-- Where a call is, with its local variables. -/
inductive Call
  /-- Not made yet. -/
  | new
  /-- At the loop of `pipe_read`. -/
  | reading (len : Nat) (nonblock : Bool)
  /-- Copying `take` bytes from cell `head` on to the user; `got` is there already. -/
  | copyOut (take head : Nat) (got : List UInt8)
  /-- At the loop of `pipe_write`, with `n` bytes written. -/
  | writing (len n : Nat) (nonblock : Bool)
  /-- Copying `put` bytes from the user to cell `tail` on; `stored` is there already. -/
  | copyIn (len n put tail : Nat) (nonblock : Bool) (stored : List UInt8)
  | readDone (ret : Int)
  | writeDone (ret : Int)

/-- The call has started and has not returned. -/
def Call.InProgress : Call → Prop
  | reading .. | copyOut .. | writing .. | copyIn .. => True
  | new | readDone _ | writeDone _ => False

instance : DecidablePred Call.InProgress := fun c => by
  cases c <;> unfold Call.InProgress <;> infer_instance

/-- What happens to the ring: bytes become readable, bytes are taken out, a FIFO is emptied. -/
inductive Entry
  | commit (c : Nat) (bytes : List UInt8)
  /-- Call `c` takes `n` bytes out, after it has given `bytes` to its user. -/
  | consume (c n : Nat) (bytes : List UInt8)
  | emptied

/-- A pipe, the calls on it, numbered in the order they start, and the log. -/
structure PipeState where
  pipe : PipeBuf
  freed : Bool
  calls : Nat → Call
  next : Nat
  log : List Entry

/-- The bytes that have become readable, since a FIFO was last emptied. -/
def sent : List Entry → List UInt8
  | [] => []
  | .commit _ bytes :: l => sent l ++ bytes
  | .consume .. :: l => sent l
  | .emptied :: _ => []

/-- The bytes that successful reads have returned, since a FIFO was last emptied. -/
def received : List Entry → List UInt8
  | [] => []
  | .commit .. :: l => received l
  | .consume _ _ bytes :: l => received l ++ bytes
  | .emptied :: _ => []

/-- How many bytes call `c` has made readable. -/
def committed (c : Nat) : List Entry → Nat
  | [] => 0
  | .commit c' bytes :: l => committed c l + if c' = c then bytes.length else 0
  | .consume .. :: l => committed c l
  | .emptied :: l => committed c l

/-- How many bytes call `c` has taken out. -/
def consumed (c : Nat) : List Entry → Nat
  | [] => 0
  | .commit .. :: l => consumed c l
  | .consume c' n _ :: l => consumed c l + if c' = c then n else 0
  | .emptied :: l => consumed c l

/-- How a copy from or to the user ends: it copies everything, or after `k` bytes it faults or
sleeps. -/
inductive UserCopy
  | done
  | fault (k : Nat)
  | sleep (k : Nat)

/-- What a stretch of a call meets: whether a signal is pending when it looks, how the copy of each
pass ends, by the bytes that were written before it, and the caller's buffer. -/
structure Env where
  sig : Bool
  copy : Nat → UserCopy
  buf : Nat → UInt8

namespace PipeState

def setPipe (s : PipeState) (p : PipeBuf) : PipeState := { s with pipe := p }

def setCall (s : PipeState) (c : Nat) (k : Call) : PipeState :=
  { s with calls := Function.update s.calls c k }

def note (s : PipeState) (e : Entry) : PipeState := { s with log := e :: s.log }

end PipeState

/-! ## The end of a call -/

/-- `pipe_try_free`. -/
def pipeTryFree (s : PipeState) : PipeState :=
  if s.pipe.nreaders ≤ 0 ∧ s.pipe.nwriters ≤ 0 then
    if 0 < s.pipe.pins then s
    else if s.pipe.fifo then
      (s.setPipe { s.pipe with head := 0, count := 0 }).note .emptied
    else { s with freed := true }
  else s

/-- `pipe_leave`: the call drops its pin and has the result `k`. -/
def pipeLeave (s : PipeState) (c : Nat) (k : Call) : PipeState :=
  if s.pipe.pins - 1 = 0 then
    pipeTryFree ((s.setPipe { s.pipe with pins := s.pipe.pins - 1 }).setCall c k)
  else (s.setPipe { s.pipe with pins := s.pipe.pins - 1 }).setCall c k

/-! ## Copies in two runs -/

/-- The length of the first run of a copy of `len` bytes at cell `p`: up to the end of the ring. -/
def firstRun (p len : Nat) : Nat := min (pipeBufSize - p) len

/-- The cell of byte `i` of the copy: the second run starts at cell 0. -/
def runCell (p len i : Nat) : Nat := if i < firstRun p len then p + i else i - firstRun p len

/-- Bytes `i` to `i + k` of a copy of `len` bytes from cell `p` on. -/
def runBytes (data : Nat → UInt8) (p len i k : Nat) : List UInt8 :=
  (List.range k).map fun j => data (runCell p len (i + j))

/-- The bytes `bs` of a copy of `len` bytes to cell `p` on, from byte `i`. -/
def runStore (data : Nat → UInt8) (p len i : Nat) : List UInt8 → Nat → UInt8
  | [] => data
  | b :: bs => runStore (Function.update data (runCell p len i) b) p len (i + 1) bs

/-! ## `pipe_read` -/

/-- `count - take` in 32 bits. -/
def sub32 (a b : Nat) : Nat := if b ≤ a then a - b else a + 2 ^ 32 - b

/-- The bytes are taken out, and the call returns. -/
def readConsume (s : PipeState) (c take : Nat) (got : List UInt8) : PipeState :=
  pipeLeave ((s.setPipe
      { s.pipe with
        head := (s.pipe.head + take) % pipeBufSize
        count := sub32 s.pipe.count take }).note (.consume c take got))
    c (.readDone take)

/-- The two `copy_to_user` of `pipe_read`, from where they are. -/
def readCopy (env : Env) (s : PipeState) (c take head : Nat) (got : List UInt8) : PipeState :=
  match env.copy 0 with
  | .done =>
      readConsume s c take
        (got ++ runBytes s.pipe.data head take got.length (take - got.length))
  | .fault _ => pipeLeave s c (.readDone (-14))
  | .sleep k =>
      s.setCall c (.copyOut take head
        (got ++ runBytes s.pipe.data head take got.length (min k (take - got.length))))

/-- `pipe_read` from its loop on, to where it sleeps or returns. -/
def readLoop (env : Env) (s : PipeState) (c len : Nat) (nonblock : Bool) : PipeState :=
  if s.pipe.count = 0 then
    if s.pipe.nwriters = 0 then pipeLeave s c (.readDone 0)
    else if nonblock then pipeLeave s c (.readDone (-11))
    else if env.sig then pipeLeave s c (.readDone (-4))
    else s
  else
    readCopy env (s.setCall c (.copyOut (min len s.pipe.count) s.pipe.head [])) c
      (min len s.pipe.count) s.pipe.head []

/-- A new call takes the next number. -/
def begin (s : PipeState) (k : Call) : PipeState :=
  { s with calls := Function.update s.calls s.next k, next := s.next + 1 }

/-- A new call that pins the pipe. -/
def pin (s : PipeState) (k : Call) : PipeState :=
  (begin s k).setPipe { s.pipe with pins := s.pipe.pins + 1 }

/-- `pipe_read`. -/
def pipeRead (env : Env) (s : PipeState) (len : Int) (nonblock : Bool) : PipeState :=
  if len ≤ 0 then begin s (.readDone 0)
  else readLoop env (pin s (.reading len.toNat nonblock)) s.next len.toNat nonblock

/-! ## `pipe_write` -/

/-- `n ? n : err`. -/
def countOr (n : Nat) (err : Int) : Int := if n ≠ 0 then n else err

/-- The ring is full: the loop inside the loop of `pipe_write`. -/
def writeFull (env : Env) (s : PipeState) (c n : Nat) (nonblock : Bool) : PipeState :=
  if s.pipe.nreaders = 0 then pipeLeave s c (.writeDone (countOr n (-32)))
  else if nonblock then pipeLeave s c (.writeDone (countOr n (-11)))
  else if env.sig then pipeLeave s c (.writeDone (countOr n (-4)))
  else s

/-- Bytes `i` to `i + k` of the caller's buffer. -/
def userBytes (buf : Nat → UInt8) (i k : Nat) : List UInt8 :=
  (List.range k).map fun j => buf (i + j)

/-- `k` more bytes are copied from the caller's buffer into the ring. -/
def writeBytes (env : Env) (s : PipeState) (n put tail : Nat) (stored : List UInt8) (k : Nat) :
    PipeState :=
  s.setPipe { s.pipe with
    data := runStore s.pipe.data tail put stored.length (userBytes env.buf (n + stored.length) k) }

/-- The bytes of a copy become readable, and the call is back at its loop. -/
def writeCommit (s : PipeState) (c len n put : Nat) (nonblock : Bool) (stored : List UInt8) :
    PipeState :=
  ((s.setPipe { s.pipe with count := s.pipe.count + put }).note (.commit c stored)).setCall c
    (.writing len (n + put) nonblock)

/-- The two `copy_from_user` of `pipe_write`, from where they are; `some` if the loop goes on. -/
def writeCopy (env : Env) (s : PipeState) (c len n put tail : Nat) (nonblock : Bool)
    (stored : List UInt8) : PipeState × Option Nat :=
  match env.copy n with
  | .done =>
      (writeCommit (writeBytes env s n put tail stored (put - stored.length)) c len n put nonblock
        (stored ++ userBytes env.buf (n + stored.length) (put - stored.length)), some (n + put))
  | .fault k =>
      (pipeLeave (writeBytes env s n put tail stored (min k (put - stored.length))) c
        (.writeDone (countOr n (-14))), none)
  | .sleep k =>
      ((writeBytes env s n put tail stored (min k (put - stored.length))).setCall c
        (.copyIn len n put tail nonblock
          (stored ++ userBytes env.buf (n + stored.length) (min k (put - stored.length)))), none)

/-- The bytes the next pass of the loop copies, and where to. -/
def writePut (s : PipeState) (len n : Nat) : Nat := min (len - n) (pipeBufSize - s.pipe.count)

def writeTail (s : PipeState) : Nat := (s.pipe.head + s.pipe.count) % pipeBufSize

/-- `pipe_write` from its loop on, to where it sleeps or returns. Each pass writes a byte at
least. -/
def writeLoop (env : Env) (c len : Nat) (nonblock : Bool) : Nat → PipeState → Nat → PipeState
  | 0, s, _ => s
  | fuel + 1, s, n =>
      if len ≤ n then pipeLeave s c (.writeDone n)
      else if s.pipe.count = pipeBufSize then writeFull env s c n nonblock
      else
        match writeCopy env (s.setCall c
          (.copyIn len n (writePut s len n) (writeTail s) nonblock []))
            c len n (writePut s len n) (writeTail s) nonblock [] with
        | (s', none) => s'
        | (s', some n') => writeLoop env c len nonblock fuel s' n'

/-- `pipe_write`, once its copy is awake again. -/
def writeResume (env : Env) (s : PipeState) (c len n put tail : Nat) (nonblock : Bool)
    (stored : List UInt8) : PipeState :=
  match writeCopy env s c len n put tail nonblock stored with
  | (s', none) => s'
  | (s', some n') => writeLoop env c len nonblock (len - n' + 1) s' n'

/-- `pipe_write`. -/
def pipeWrite (env : Env) (s : PipeState) (len : Int) (nonblock : Bool) : PipeState :=
  if len ≤ 0 then begin s (.writeDone 0)
  else if s.pipe.nreaders = 0 then
    pipeLeave (pin s (.writing len.toNat 0 nonblock)) s.next (.writeDone (-32))
  else
    writeLoop env s.next len.toNat nonblock (len.toNat + 1)
      (pin s (.writing len.toNat 0 nonblock)) 0

/-! ## Opening and closing -/

/-- `pipe_add_reader`. -/
def pipeAddReader (s : PipeState) : PipeState :=
  s.setPipe { s.pipe with nreaders := s.pipe.nreaders + 1 }

/-- `pipe_add_writer`. -/
def pipeAddWriter (s : PipeState) : PipeState :=
  s.setPipe { s.pipe with nwriters := s.pipe.nwriters + 1 }

/-- `pipe_close_read`. -/
def pipeCloseRead (s : PipeState) : PipeState :=
  pipeTryFree (s.setPipe { s.pipe with nreaders := s.pipe.nreaders - 1 })

/-- `pipe_close_write`. -/
def pipeCloseWrite (s : PipeState) : PipeState :=
  pipeTryFree (s.setPipe { s.pipe with nwriters := s.pipe.nwriters - 1 })

/-- `pipe_fifo_free`. -/
def pipeFifoFree (s : PipeState) : PipeState :=
  if 0 < s.pipe.pins then
    s.setPipe { s.pipe with fifo := false, nreaders := 0, nwriters := 0 }
  else { s with freed := true }

/-! ## The system -/

inductive PipeEvent
  | read (len : Int) (nonblock : Bool)
  | write (len : Int) (nonblock : Bool)
  /-- The call `c` is woken, for whatever reason, or the page its copy waited for is there. -/
  | woken (c : Nat)
  | addReader
  | addWriter
  | closeRead
  | closeWrite
  | fifoFree

/-- A woken call goes on from where it is. -/
def wake (env : Env) (s : PipeState) (c : Nat) : Option PipeState :=
  match s.calls c with
  | .reading len nonblock => some (readLoop env s c len nonblock)
  | .copyOut take head got => some (readCopy env s c take head got)
  | .writing len n nonblock => some (writeLoop env c len nonblock (len - n + 1) s n)
  | .copyIn len n put tail nonblock stored =>
      some (writeResume env s c len n put tail nonblock stored)
  | .new | .readDone _ | .writeDone _ => none

/-- An event, unless there is no descriptor or no call it could come from. A new descriptor comes
from an old one of the same end or from an open of the FIFO, and the FIFO's node goes away with its
last descriptor. -/
def PipeEvent.apply (env : Env) (s : PipeState) : PipeEvent → Option PipeState
  | read len nonblock => if 0 < s.pipe.nreaders then some (pipeRead env s len nonblock) else none
  | write len nonblock => if 0 < s.pipe.nwriters then some (pipeWrite env s len nonblock) else none
  | woken c => wake env s c
  | addReader =>
      if 0 < s.pipe.nreaders ∨ (s.pipe.fifo ∧ ¬ s.freed) then some (pipeAddReader s) else none
  | addWriter =>
      if 0 < s.pipe.nwriters ∨ (s.pipe.fifo ∧ ¬ s.freed) then some (pipeAddWriter s) else none
  | closeRead => if 0 < s.pipe.nreaders then some (pipeCloseRead s) else none
  | closeWrite => if 0 < s.pipe.nwriters then some (pipeCloseWrite s) else none
  | fifoFree =>
      if s.pipe.nreaders ≤ 0 ∧ s.pipe.nwriters ≤ 0 ∧ s.pipe.fifo ∧ ¬ s.freed then
        some (pipeFifoFree s)
      else none

/-- A pipe or FIFO that nobody has used yet. -/
def newPipe (p : PipeBuf) : PipeState := ⟨p, false, fun _ => .new, 0, []⟩

/-- Pipes under any interleaving of calls, with any signals, user buffers and sleeps. -/
def pipeSystem : System PipeState (PipeEvent × Env) where
  init s := ∃ data, s = newPipe (pipeAlloc data) ∨ s = newPipe (pipeFifoAlloc data)
  step s e s' := e.1.apply e.2 s = some s'

end MaeroOS.Pipe
