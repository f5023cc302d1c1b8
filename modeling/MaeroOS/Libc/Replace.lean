import Mathlib.Logic.Function.Basic

/-!
# Replacing a file

`maero_replace_file` (`userspace/auth/replace.c`) over a kernel that may fail any call. A call takes
its next answer from `answers`: 0 is a failure, and to a `read` or a `write` the answer is how many
bytes it may move. Whatever the answers are, what is returned is the truth about the file
(`replace_truthful`).

Owners and modes are left out. A descriptor is the name it was opened by: no name changes while it
is open, and a file is written to only by the call that created it.
-/

namespace MaeroOS.Libc.Replace

open Function (update update_of_ne)

abbrev Data := List UInt8

/-- The files there are, and what the kernel is going to answer. -/
structure Kernel (Name : Type) where
  files : Name → Option Data
  answers : List Nat

/-- A piece of the program. -/
abbrev Sys (Name α : Type) := StateM (Kernel Name) α

section Program

variable {Name : Type} [DecidableEq Name]

/-- A call: what becomes of the files by its answer. -/
def call {α : Type} (f : Nat → (Name → Option Data) → α × (Name → Option Data)) : Sys Name α :=
  fun k =>
  let (a, files) := f (k.answers.headD 0) k.files
  (a, ⟨files, k.answers.tail⟩)

/-- `malloc`, `fchown`, `fchmod`, `fsync` and `close`. -/
def done : Sys Name Bool := call fun a files => (a ≠ 0, files)

/-- A call that gives a name other contents. -/
def alter (name : Name) (ok : Option Data → Bool) (data : Option Data) : Sys Name Bool :=
  call fun a files =>
    if a ≠ 0 ∧ ok (files name) then (true, update files name data) else (false, files)

def unlink (name : Name) : Sys Name Bool := alter name Option.isSome none

/-- `open` with `O_CREAT | O_EXCL`. -/
def create (name : Name) : Sys Name Bool := alter name Option.isNone (some [])

/-- `open` with `O_RDONLY`. -/
def openRead (name : Name) : Sys Name Bool :=
  call fun a files => (a ≠ 0 ∧ (files name).isSome, files)

def read (name : Name) (offset room : Nat) : Sys Name (Option Data) := call fun a files =>
  (if a = 0 then none else (files name).map fun data => (data.drop offset).take (min a room), files)

/-- `rename` replaces the file, or does nothing. -/
def rename (src dst : Name) : Sys Name Unit := call fun a files =>
  ((), if a = 0 ∨ files src = none then files else update (update files dst (files src)) src none)

def write (name : Name) (buf : Data) : Sys Name Nat := call fun a files =>
  (min a buf.length, update files name ((files name).map (· ++ buf.take a)))

/-- `write_all`: a round writes one byte at least. -/
def writeAll (name : Name) : Nat → Data → Sys Name Bool
  | 0, buf => return buf.isEmpty
  | rounds + 1, buf => do
      if buf = [] then return true
      let n ← write name buf
      if n = 0 then return false else writeAll name rounds (buf.drop n)

/-- The loop of `file_equals`, up to one byte past `len`: what is read, unless a `read` fails. -/
def readLoop (name : Name) (len : Nat) : Nat → Data → Sys Name (Option Data)
  | 0, _ => return none
  | rounds + 1, got => do
      if len < got.length then return some got
      let some chunk ← read name got.length (len + 1 - got.length) | return none
      if chunk = [] then return some got else readLoop name len rounds (got ++ chunk)

/-- `file_equals`: as many bytes as `data` has, and the same. -/
def fileEquals (name : Name) (data : Data) : Sys Name Bool :=
  done <&&> openRead name <&&> do
    let got ← readLoop name data.length (data.length + 2) []
    let _ ← done
    return got = some data

/-- `maero_lock_down`. -/
def maeroLockDown : Sys Name Bool := done <&&> done

/-- `write_verified`. -/
def writeVerified (name : Name) (data : Data) : Sys Name Bool := do
  let _ ← unlink name
  create name <&&> do
    let ok ← maeroLockDown <&&> writeAll name data.length data <&&> done
    let closed ← done
    pure (ok && closed) <&&> fileEquals name data

/-- `check_target`. -/
def checkTarget (name : Name) (data : Data) : Sys Name Bool :=
  openRead name <&&> do
    let locked ← maeroLockDown
    let _ ← done
    pure locked <&&> fileEquals name data

/-- `MAERO_REPLACED`, `MAERO_UNCHANGED` and `MAERO_LOST`. -/
inductive Outcome
  | replaced | unchanged | lost
deriving DecidableEq

/-- `maero_replace_file`. -/
def maeroReplaceFile (path tmp : Name) (backup : Option Name) (oldData newData : Data) :
    Sys Name Outcome := do
  if !(← backup.elim (pure true) (writeVerified · oldData)) then return .unchanged
  if !(← writeVerified tmp newData) then
    let _ ← unlink tmp
    return .unchanged
  rename tmp path
  if ← checkTarget path newData then
    let _ ← unlink tmp
    return .replaced
  if ← checkTarget path oldData <||> writeVerified path oldData then
    let _ ← unlink tmp
    return .unchanged
  return .lost

end Program

/-! ## What a piece of the program does to a file -/

section Rules

variable {Name α β : Type} {name : Name} {data : Data} {m m' : Sys Name Bool}

theorem bind_apply (m : Sys Name α) (f : α → Sys Name β) (k : Kernel Name) :
    (m >>= f) k = f (m k).1 (m k).2 := rfl

/-- It leaves the file alone. -/
def Spares (name : Name) (m : Sys Name α) : Prop := ∀ k, (m k).2.files name = k.files name

theorem Spares.pure (a : α) : Spares name (Pure.pure a) := fun _ => rfl

theorem Spares.bind {m : Sys Name α} {f : α → Sys Name β} (hm : Spares name m)
    (hf : ∀ a, Spares name (f a)) : Spares name (m >>= f) :=
  fun k => (hf (m k).1 (m k).2).trans (hm k)

theorem Spares.ite {c : Prop} [Decidable c] {m m' : Sys Name α} (h : Spares name m)
    (h' : Spares name m') : Spares name (if c then m else m') := by
  split
  · exact h
  · exact h'

theorem Spares.and (h : Spares name m) (h' : Spares name m') : Spares name (m <&&> m') := by
  refine h.bind fun b => ?_
  cases b
  · exact .pure false
  · exact h'

/-- When it answers yes, the file has the data. -/
def Shows (name : Name) (data : Data) (m : Sys Name Bool) : Prop :=
  ∀ k, (m k).1 = true → (m k).2.files name = some data

theorem Shows.bind {m : Sys Name α} {f : α → Sys Name Bool} (hf : ∀ a, Shows name data (f a)) :
    Shows name data (m >>= f) :=
  fun _ => hf _ _

theorem Shows.and (h : Shows name data m') : Shows name data (m <&&> m') := by
  refine .bind fun b => ?_
  cases b
  · exact nofun
  · exact h

/-- After such an answer. -/
theorem Shows.cases {f : Bool → Sys Name β} {P : β × Kernel Name → Prop} (hm : Shows name data m)
    (hyes : ∀ k, k.files name = some data → P (f true k)) (hno : ∀ k, P (f false k))
    (k : Kernel Name) : P ((m >>= f) k) := by
  show P (f (m k).1 (m k).2)
  cases h : (m k).1 with
  | false => exact hno _
  | true => exact hyes _ (hm k h)

theorem Shows.or (h : Shows name data m) (h' : Shows name data m') : Shows name data (m <||> m') :=
  h.cases (P := fun r => r.1 = true → r.2.files name = some data) (fun _ hk _ => hk) h'

end Rules

section Calls

variable {Name : Type} {name other : Name} {k : Kernel Name}

theorem spares_done : Spares name (done : Sys Name Bool) := fun _ => rfl

theorem spares_readLoop (other : Name) (len rounds : Nat) (got : Data) :
    Spares name (readLoop other len rounds got) := by
  induction rounds generalizing got with
  | zero => exact .pure _
  | succ rounds ih =>
    refine .ite (.pure _) (.bind (fun _ => rfl) fun chunk => ?_)
    cases chunk with
    | none => exact .pure _
    | some chunk => exact .ite (.pure _) (ih _)

/-- What is read and fits in `len` bytes is all of the file. -/
theorem readLoop_eq_some {len rounds : Nat} {got r : Data}
    (hgot : ∀ data, k.files name = some data → got <+: data)
    (h : (readLoop name len rounds got k).1 = some r) (hr : r.length ≤ len) :
    k.files name = some r := by
  induction rounds generalizing got k with
  | zero => cases h
  | succ rounds ih =>
    unfold readLoop at h
    split at h
    · cases h
      omega
    rw [bind_apply] at h
    cases hread : (read name got.length (len + 1 - got.length) k).1 with
    | none =>
      rw [hread] at h
      cases h
    | some chunk =>
      obtain ⟨ha, data, hdata, rfl⟩ : k.answers.headD 0 ≠ 0 ∧ ∃ data, k.files name = some data ∧
          (data.drop got.length).take (min (k.answers.headD 0) (len + 1 - got.length)) = chunk := by
        simpa [read, call] using hread
      obtain ⟨rest, rfl⟩ := hgot data hdata
      rw [hread, List.drop_left] at h
      dsimp only at h
      split at h
      · -- there was room for a byte: it is the end of the file
        next hend =>
        cases h
        rcases List.take_eq_nil_iff.1 hend with hzero | rfl
        · omega
        · rw [hdata, List.append_nil]
      · refine ih (k := (read name got.length (len + 1 - got.length) k).2)
          (fun data' hdata' => ?_) h
        cases hdata.symm.trans hdata'
        exact (List.prefix_append_right_inj got).2 (List.take_prefix _ rest)

/-- `file_equals` compares the file as it is. -/
theorem shows_fileEquals (name : Name) (data : Data) : Shows name data (fileEquals name data) := by
  refine .and (.and fun k hk => ?_)
  have hread : (readLoop name data.length (data.length + 2) [] k).1 = some data :=
    of_decide_eq_true hk
  have hkept : Spares name _ := spares_readLoop name data.length (data.length + 2) []
  exact (hkept k).trans (readLoop_eq_some (fun _ _ => List.nil_prefix) hread (Nat.le_refl _))

theorem spares_fileEquals (other : Name) (data : Data) : Spares name (fileEquals other data) :=
  spares_done.and (.and (fun _ => rfl) (.bind (spares_readLoop other _ _ []) fun _ =>
    spares_done.bind fun _ => .pure _))

theorem shows_checkTarget (name : Name) (data : Data) : Shows name data (checkTarget name data) :=
  .and (.bind fun _ => .bind fun _ => .and (shows_fileEquals name data))

variable [DecidableEq Name]

theorem spares_alter (h : name ≠ other) (ok : Option Data → Bool) (data : Option Data) :
    Spares name (alter other ok data) := by
  intro k
  unfold alter call
  dsimp only
  split
  · exact update_of_ne h ..
  · rfl

theorem spares_writeAll (h : name ≠ other) (rounds : Nat) (buf : Data) :
    Spares name (writeAll other rounds buf) := by
  induction rounds generalizing buf with
  | zero => exact .pure _
  | succ rounds ih =>
    exact .ite (.pure true) (.bind (fun _ => update_of_ne h ..) fun _ => .ite (.pure false) (ih _))

theorem spares_writeVerified (h : name ≠ other) (data : Data) :
    Spares name (writeVerified other data) := by
  refine (spares_alter h _ _).bind fun _ => (spares_alter h _ _).and (.bind ?_ fun _ => ?_)
  · exact (spares_done.and spares_done).and ((spares_writeAll h _ _).and spares_done)
  · exact spares_done.bind fun _ => (Spares.pure _).and (spares_fileEquals other data)

theorem shows_writeVerified (name : Name) (data : Data) :
    Shows name data (writeVerified name data) :=
  .bind fun _ => .and (.bind fun _ => .bind fun _ => .and (shows_fileEquals name data))

end Calls

/-! ## What is returned -/

section Returned

variable {Name : Type} {path tmp : Name} {oldData newData : Data} {k : Kernel Name}

/-- What the caller is told of the file is so. -/
structure Truthful (path : Name) (oldData newData : Data) (r : Outcome × Kernel Name) : Prop where
  replaced : r.1 = .replaced → r.2.files path = some newData
  unchanged : r.1 = .unchanged → r.2.files path = some oldData

theorem Truthful.bind {α : Type} {m : Sys Name α} {f : α → Sys Name Outcome} (hm : Spares path m)
    (hk : k.files path = some oldData)
    (hf : ∀ a k, k.files path = some oldData → Truthful path oldData newData (f a k)) :
    Truthful path oldData newData ((m >>= f) k) :=
  hf _ _ ((hm k).trans hk)

variable [DecidableEq Name]

theorem Truthful.unlinked {r : Outcome} (htmp : path ≠ tmp)
    (h : Truthful path oldData newData (r, k)) :
    Truthful path oldData newData ((unlink tmp >>= fun _ => pure r) k) := by
  have hkept := spares_alter htmp Option.isSome none k
  exact ⟨fun hr => hkept.trans (h.replaced hr), fun hr => hkept.trans (h.unchanged hr)⟩

/-- **Replacing a file reports the truth**: whatever fails on the way, the file has the new content
when the answer is `MAERO_REPLACED`, the old one when it is `MAERO_UNCHANGED`, and a third one only
when it is `MAERO_LOST`. -/
theorem replace_truthful {backup : Option Name} (htmp : path ≠ tmp)
    (hbackup : ∀ b ∈ backup, path ≠ b) (hold : k.files path = some oldData) :
    Truthful path oldData newData (maeroReplaceFile path tmp backup oldData newData k) := by
  refine .bind ?_ hold fun saved k hold => ?_
  · cases backup with
    | none => exact .pure true
    | some backup => exact spares_writeVerified (hbackup backup rfl) oldData
  cases saved
  · exact ⟨nofun, fun _ => hold⟩
  refine .bind (spares_writeVerified htmp newData) hold fun ready k hold => ?_
  cases ready
  · exact .unlinked htmp ⟨nofun, fun _ => hold⟩
  -- whatever `rename` did, what is found there decides
  rw [if_neg (by decide), bind_apply]
  refine (shows_checkTarget path newData).cases (P := Truthful path oldData newData)
    (fun k hnew => ?_) (fun k => ?_) (rename tmp path k).2
  · exact .unlinked htmp ⟨fun _ => hnew, nofun⟩
  have hback := (shows_checkTarget path oldData).or (shows_writeVerified path oldData)
  exact hback.cases (fun k hold => .unlinked htmp ⟨nofun, fun _ => hold⟩)
    (fun k => ⟨nofun, nofun⟩) k

end Returned

/-- `passwd` replaces `/etc/shadow`, and no call fails. -/
def shadowRun : Outcome × Kernel String :=
  maeroReplaceFile "/etc/shadow" "/etc/shadow.tmp" (some "/etc/shadow-") [1] [2, 3]
    ⟨fun name => if name = "/etc/shadow" then some [1] else none, List.replicate 60 1⟩

theorem replace_shadow : shadowRun.1 = .replaced ∧ Truthful "/etc/shadow" [1] [2, 3] shadowRun :=
  ⟨by decide +kernel, replace_truthful (by decide) (by simp) rfl⟩

end MaeroOS.Libc.Replace
