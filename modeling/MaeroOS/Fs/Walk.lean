
/-!
# Path resolution

`vfs_walk` and `vfs_lookup_in` of `fs/vfs.c`. A path is its list of characters, of a byte each. The
file systems are what a walk sees of them: the lookup of a name in a directory, the mounts, the
contents of symbolic links, and the directories the caller may search. A walk does not follow a link
itself: it ends with the path to resolve instead, and the lookup starts over.

The mount a node was reached through and the last component kept for inotify are not modelled.
-/

namespace MaeroOS.Fs

/-- `VFS_PATH_MAX`. -/
def pathMax : Nat := 512

/-- `VFS_MAXSYMLINKS`. -/
def maxSymlinks : Nat := 40

/-- The sizes of `component` and `target`, without the final 0. -/
def nameMax : Nat := 255

/-- The size of `parents`. -/
def parentsMax : Nat := 64

abbrev Name := List Char

/-- The error codes of a walk. Reading a link may answer with others. -/
def enoent : Int := -2
def eacces : Int := -13
def enametoolong : Int := -36
def eloop : Int := -40

/-- `vfs_mnt_t`; `live` says that the slot is in use and not just a note of the boot. -/
structure Mount (ν : Type) where
  mp : ν
  root : ν
  seq : Nat
  live : Bool

/-- `VFS_MNT_MAX`. -/
def mntMax : Nat := 16

/-- The file systems, with nodes `ν`. -/
structure Vfs (ν : Type) where
  /-- `vfs_finddir`. -/
  finddir : ν → Name → Option ν
  /-- `g_mnt`. -/
  mounts : List (Mount ν)
  /-- The node is a directory that the caller may not search. -/
  locked : ν → Bool
  symlink : ν → Bool
  size : ν → Nat
  /-- `vfs_read` of a link, of at most `nameMax` characters. -/
  readLink : ν → Except Int Name
  /-- `vfs_root` and `vfs_root_overlay`. -/
  root : ν
  overlay : Option ν

/-- The arguments of a walk besides its path. -/
structure WalkArgs (ν : Type) where
  root : ν
  followFinal : Bool
  mayFollow : Bool
  topRestarts : Bool

/-- A walk on the way: the node reached, the directories it came through, the last one first, and
the textual path in `alt` (`none` is the length -1). -/
structure Walk (ν : Type) where
  cur : ν
  parents : List ν
  alt : Option Name

/-- How a walk ends. A restart at the top is told apart from one for a link. -/
inductive WalkEnd (ν : Type)
  | found (node : ν)
  | miss (err : Int)
  | restart (top : Bool) (path : Name)
  deriving DecidableEq

inductive WalkStep (ν : Type)
  | next (w : Walk ν)
  | done (e : WalkEnd ν)

def skipSlashes (p : Name) : Name := p.dropWhile (· = '/')

/-- The text of a path in a buffer ends with the first 0. -/
def cString (p : Name) : Name := p.takeWhile (· ≠ '\x00')

/-- The last component is cut off the textual path. -/
def chop (pre : Name) : Name := ((pre.reverse.dropWhile (· ≠ '/')).drop 1).reverse

namespace Vfs

variable {ν : Type} [DecidableEq ν] (fs : Vfs ν)

/-! ## Mounts -/

/-- `mnt_on`: the newest mount on a node. -/
def mntOn (n : ν) : Option (Mount ν) :=
  fs.mounts.foldl (fun best m => if m.live ∧ m.mp = n ∧ best.all (·.seq < m.seq) then some m
    else best) none

/-- The loop of `mnt_cross`, for so many hops. -/
def crossHops : Nat → ν → ν
  | 0, n => n
  | hops + 1, n =>
      match fs.mntOn n with
      | none => n
      | some m => crossHops hops m.root

/-- `mnt_cross`: to the root mounted on a node, through stacked mounts. -/
def mntCross (n : ν) : ν := fs.crossHops mntMax n

/-! ## The walk -/

/-- The path to resolve instead of the rest of the walk, for a link with the given target. -/
def linkPath (pre : Option Name) (target after : Name) : WalkEnd ν :=
  match if target.head? = some '/' then some [] else pre with
  | none => .miss enametoolong
  | some pre =>
      if pathMax < pre.length + 1 + target.length + 1 + after.length + 1 then .miss enametoolong
      else .restart false (cString
        (pre ++ (if target.head? = some '/' then [] else ['/']) ++ target ++
        (if after = [] then [] else '/' :: after)))

/-- A link that has to be followed. -/
def followLink (args : WalkArgs ν) (n : ν) (pre : Option Name) (after : Name) : WalkEnd ν :=
  if args.mayFollow = false then .miss eloop
  else if nameMax < fs.size n then .miss enametoolong
  else
    match fs.readLink n with
    | .error err => .miss err
    | .ok target => if target = [] then .miss enoent else linkPath pre (target.take nameMax) after

/-- The component `..`. -/
def dotdot (args : WalkArgs ν) (after : Name) (w : Walk ν) : WalkStep ν :=
  let cur := w.parents.head?.getD args.root
  let parents := w.parents.tail
  if args.topRestarts ∧ parents = [] then
    if pathMax < after.length + 2 then .done (.miss enametoolong)
      else .done (.restart true ('/' :: after))
  else .next { cur, parents, alt := w.alt.map chop }

/-- Into the node `n` called `name`. -/
def enter (name : Name) (n : ν) (w : Walk ν) : Walk ν where
  cur := n
  parents := if w.parents.length < parentsMax then w.cur :: w.parents else w.parents
  alt := w.alt.bind fun pre =>
    if pre.length + 1 + name.length < pathMax then some (pre ++ '/' :: name) else none

/-- One component; `after` is the path after it, from the next component on. -/
def step (args : WalkArgs ν) (name after : Name) (w : Walk ν) : WalkStep ν :=
  if fs.locked w.cur then .done (.miss eacces)
  else if name = ['.'] then .next w
  else if name = ['.', '.'] then dotdot args after w
  else
    match fs.finddir w.cur name with
    | none => .done (.miss enoent)
    | some n =>
        let n := fs.mntCross n
        if fs.symlink n ∧ (after ≠ [] ∨ args.followFinal) then
          .done (fs.followLink args n w.alt after)
        else .next (enter name n w)

/-- The loop of `vfs_walk`, with the part of a component that has been read. -/
def walkFrom (args : WalkArgs ν) : Name → Name → Walk ν → WalkEnd ν
  | [], name, w =>
      if name = [] then .found w.cur
      else
        match fs.step args name [] w with
        | .next w => .found w.cur
        | .done e => e
  | c :: p, name, w =>
      if c = '/' then
        if name = [] then walkFrom args p [] w
        else
          match fs.step args name (skipSlashes p) w with
          | .next w => walkFrom args p [] w
          | .done e => e
      else if name.length = nameMax then .miss enametoolong
      else walkFrom args p (name ++ [c]) w

/-- `vfs_walk`. -/
def vfsWalk (args : WalkArgs ν) (path : Name) : WalkEnd ν :=
  fs.walkFrom args (path.drop 1) [] ⟨args.root, [], some []⟩

end Vfs

/-! ## Lookups -/

/-- `path_first_component`. -/
def pathFirstComponent (path : Name) : Name :=
  ((skipSlashes (path.drop 1)).takeWhile (· ≠ '/')).take nameMax

/-- `vfs_path_skips_chroot`. -/
def skipsChroot (path : Name) : Bool :=
  pathFirstComponent path = "dev".toList ∨ pathFirstComponent path = "proc".toList

/-- `vfs_path_uses_root_overlay`. -/
def usesRootOverlay (path : Name) : Bool :=
  pathFirstComponent path ∉ [[], "dev".toList, "proc".toList, "tmp".toList, "disk".toList]

namespace Vfs

variable {ν : Type} [DecidableEq ν] (fs : Vfs ν)

/-- One round of `vfs_lookup_in`, after `links` restarts. -/
def lookupRound (croot : Option ν) (followFinal : Bool) (links : Nat) (path : Name) : WalkEnd ν :=
  let mayFollow := decide (links < maxSymlinks)
  match if skipsChroot path then none else croot with
  | some r => fs.vfsWalk ⟨r, followFinal, mayFollow, false⟩ path
  | none =>
      let boot := fs.vfsWalk ⟨fs.root, followFinal, mayFollow, croot.isSome⟩ path
      match if usesRootOverlay path then fs.overlay else none with
      | none => boot
      | some o =>
          match fs.vfsWalk ⟨o, followFinal, mayFollow, false⟩ path with
          | .miss err =>
              -- a directory the caller may not search hides nothing
              if err = eacces then .miss err
              else
                match boot with
                | .miss err' => .miss (if err = enoent then err' else err)
                | e => e
          | e => e

/-- The loop of `vfs_lookup_in`, with the restarts so far for links and at the top. -/
def lookupLoop (croot : Option ν) (followFinal : Bool) : Nat → Nat → Nat → Name →
    Option (Except Int ν × Nat × Nat)
  | 0, _, _, _ => none
  | fuel + 1, links, tops, path =>
      match fs.lookupRound croot followFinal (links + tops) path with
      | .found n => some (.ok n, links, tops)
      | .miss err => some (.error err, links, tops)
      | .restart false path => lookupLoop croot followFinal fuel (links + 1) tops path
      | .restart true path => lookupLoop croot followFinal fuel links (tops + 1) path

/-- `vfs_lookup_in`, with the numbers of restarts, as far as `fuel` rounds. -/
def lookupIn (croot : Option ν) (followFinal : Bool) (fuel : Nat) (path : Name) :
    Option (Except Int ν × Nat × Nat) :=
  if path.head? ≠ some '/' then some (.error enoent, 0, 0)
  else if pathMax ≤ path.length then some (.error enametoolong, 0, 0)
  else fs.lookupLoop croot followFinal fuel 0 0 path

end Vfs

end MaeroOS.Fs
