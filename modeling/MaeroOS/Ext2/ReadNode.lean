import MaeroOS.Ext2.Mapping
import MaeroOS.Ext2.BlockCache

/-!
# Reading a file

`ext2_read_node` copies block by block. A whole block that is not in the cache it reads past the
cache, together with the blocks after it that the request still wants, as long as they follow each
other on the disk, and with some more of the file that it only puts into the cache.

All of these give the bytes of the file (`readNode_spec`), wherever the caller's buffer is, whatever
is in the cache and whatever the lookups of blocks do to it.
-/

namespace MaeroOS.Ext2.File

open Lib (Buf inBlocks inBlocks_add inBlocks_from)
open Ext2.Extents (Fs)

variable {geo : Geometry} {fs fs' : Fs} {d d' : Disk} {dev dev' : Dev} {m m' : Mapping}
  {idx j b n : Nat} {buf out : Buf}

/-! ## A device that has a file -/

/-- The device has the data of the file that is mapped by `m` on `d`, but for the file block `skip`.
Data is never in the running transaction. -/
structure ShowsBut (geo : Geometry) (skip : Option Nat) (dev : Dev) (d : Disk) (m : Mapping) :
    Prop where
  consistent : dev.Consistent geo.blockSize
  unlogged : ∀ j, dataBlk geo d m j ≠ 0 → dev.jt (dataBlk geo d m j) = none
  data : ∀ j, some j ≠ skip → dataBlk geo d m j ≠ 0 →
    dev.raw (dataBlk geo d m j) = d.block (dataBlk geo d m j)

/-- The device has the data of the file. -/
abbrev Shows (geo : Geometry) (dev : Dev) (d : Disk) (m : Mapping) : Prop :=
  ShowsBut geo none dev d m

/-- From `m` on `d` to `m'` on `d'` the data of a file stays: a file block keeps its block with what
is in it, gets a cleared one, or loses it. -/
structure Kept (geo : Geometry) (skip : Option Nat) (d d' : Disk) (m m' : Mapping) : Prop where
  blk : ∀ j, dataBlk geo d m j ≠ 0 → dataBlk geo d' m' j ≠ 0 →
    dataBlk geo d' m' j = dataBlk geo d m j
  data : ∀ j, some j ≠ skip → dataBlk geo d' m' j ≠ 0 →
    d'.block (dataBlk geo d' m' j) = contents geo d m j

theorem Kept.refl : Kept geo none d d m m :=
  ⟨fun _ _ _ => rfl, fun _ _ hne => (contents_of_ne hne).symm⟩

/-- What looking up, mapping and freeing blocks, writing inodes and committing do to the device:
they go through the same cache and the same transaction, in whatever way. All that matters of it is
that they leave the data of the file. -/
structure Meta (geo : Geometry) where
  after : Dev → Fs → Mapping → Option Nat → Dev
  shows : ∀ {dev : Dev} {fs fs' : Fs} {m m' : Mapping} {skip : Option Nat},
    Shows geo dev fs.disk m → Kept geo skip fs.disk fs'.disk m m' →
    ShowsBut geo skip (after dev fs' m' skip) fs'.disk m'

/-! ## `ext2_read_node` -/

/-- Where kernel addresses begin. -/
def kernelVma : Nat := 0xC0000000

/-- `EXT2_READ_CLUSTER`. -/
def readCluster : Nat := 64

/-- `EXT2_READAHEAD`. -/
def readAhead : Nat := 32

/-- The address of the caller's buffer, the range to read, and the size of the file. -/
structure Request where
  addr : Nat
  off : Nat
  size : Nat
  isize : Nat

variable {q : Request}

/-- `ext2_file_blk`, with what it does to the device. -/
def lookupBlk (geo : Geometry) (env : Nat → Meta geo) (m : Mapping) (st : Fs × Dev) (idx : Nat) :
    Nat × Fs × Dev :=
  let (b, fs) := fileBlk geo st.1 m idx
  (b, fs, (env idx).after st.2 fs m none)

/-- The destination is in kernel memory. -/
def Request.kernel (q : Request) (done : Nat) : Bool := kernelVma ≤ (q.addr + done) % 2 ^ 32

/-- How many blocks of the request can be read together, `run` at least. -/
def clusterLoop (geo : Geometry) (env : Nat → Meta geo) (m : Mapping) (q : Request)
    (done idx blk : Nat) : Nat → Nat → Fs × Dev → Nat × Fs × Dev
  | 0, run, st => (run, st)
  | n + 1, run, st =>
    if q.kernel done ∧ run < readCluster ∧ (done + (run + 1) * geo.blockSize) % 2 ^ 32 ≤ q.size then
      let (b, st) := lookupBlk geo env m st ((idx + run) % 2 ^ 32)
      if b = (blk + run) % 2 ^ 32 then clusterLoop geo env m q done idx blk n (run + 1) st
        else (run, st)
    else (run, st)

/-- How many blocks to read with read-ahead, `total` at least. -/
def aheadLoop (geo : Geometry) (env : Nat → Meta geo) (m : Mapping) (q : Request) (idx blk : Nat) :
    Nat → Nat → Fs × Dev → Nat × Fs × Dev
  | 0, total, st => (total, st)
  | n + 1, total, st =>
    if total < readAhead ∧ (idx + total) % 2 ^ 32 < (q.isize + geo.blockSize - 1) /
      geo.blockSize then
      let (b, st) := lookupBlk geo env m st ((idx + total) % 2 ^ 32)
      if b = (blk + total) % 2 ^ 32 ∧ st.2.cacheFind ((blk + total) % 2 ^ 32) = none then
        aheadLoop geo env m q idx blk n (total + 1) st
      else (total, st)
    else (total, st)

/-- A whole block that the cache does not have, with what is read along with it. -/
def readMissing (geo : Geometry) (env : Nat → Meta geo) (m : Mapping) (q : Request)
    (done idx blk : Nat) (out : Buf) (st : Fs × Dev) : Nat × Buf × Fs × Dev :=
  let bs := geo.blockSize
  let (run, st) := clusterLoop geo env m q done idx blk readCluster 1 st
  let (total, st) :=
    if q.kernel done ∧ st.2.raBuf ∧ run < readAhead then aheadLoop geo env m q idx blk readAhead run
      st else (run, st)
  if run < total then
    let ra := st.2.rawReadBlocks bs blk
    (run * bs, out.copy done ra 0 (run * bs), st.1, Dev.insertBlocks bs blk ra st.2 0 total)
  else if 1 < run then
    let out := out.copy done (st.2.rawReadBlocks bs blk) 0 (run * bs)
    (run * bs, out, st.1, Dev.insertBlocks bs blk (fun i => out (done + i)) st.2 0 run)
  else
    let (buf, dev) := st.2.readBlock blk
    (bs, out.copy done buf 0 bs, st.1, dev)

/-- One round of the loop: how much it read, and into what. -/
def readRound (geo : Geometry) (env : Nat → Meta geo) (m : Mapping) (q : Request) (done : Nat)
    (out : Buf) (st : Fs × Dev) : Nat × Buf × Fs × Dev :=
  let bs := geo.blockSize
  let idx := (q.off + done) / bs % 2 ^ 32
  let blkOff := (q.off + done) % bs
  let toCopy := min (bs - blkOff) (q.size - done)
  let (blk, st) := lookupBlk geo env m st idx
  if blk = 0 then (toCopy, out.clear done toCopy, st)
  else if blkOff = 0 ∧ toCopy = bs then
    match st.2.cacheLookup blk with
    | (some buf, dev) => (toCopy, out.copy done buf 0 bs, st.1, dev)
    | (none, dev) => readMissing geo env m q done idx blk out (st.1, dev)
  else
    let (buf, dev) := st.2.readBlock blk
    (toCopy, out.copy done buf blkOff toCopy, st.1, dev)

/-- The loop of `ext2_read_node`. A round reads something, so there are no more rounds than
bytes. -/
def readLoop (geo : Geometry) (env : Nat → Meta geo) (m : Mapping) (q : Request) :
    Nat → Nat → Buf → Fs × Dev → Nat × Buf × Fs × Dev
  | 0, done, out, st => (done, out, st)
  | fuel + 1, done, out, st =>
    if done < q.size then
      let (n, out, st) := readRound geo env m q done out st
      readLoop geo env m q fuel (done + n) out st
    else (done, out, st)

/-- The part of an inode that contents depend on. -/
structure Node where
  map : Mapping
  size : Nat

/-- `ext2_read_node`, of a regular file. `out` is the caller's buffer at `addr`. -/
def readNode (geo : Geometry) (env : Nat → Meta geo) (node : Node) (addr off size : Nat) (out : Buf)
    (st : Fs × Dev) : Nat × Buf × Fs × Dev :=
  if node.size ≤ off then (0, out, st)
  else
    let size := if node.size - off < size then node.size - off else size
    readLoop geo env node.map ⟨addr, off, size, node.size⟩ size 0 out st

/-! ## Lookups -/

/-- The bytes of a file, past its end too. -/
def bytes (geo : Geometry) (d : Disk) (m : Mapping) : Buf :=
  inBlocks geo.blockSize (contents geo d m)

/-- What reading needs, and keeps. -/
structure Sees (geo : Geometry) (d : Disk) (m : Mapping) (st : Fs × Dev) : Prop where
  disk : st.1.disk = d
  ok : MapOk geo st.1 m
  shows : Shows geo st.2 d m

variable {env : Nat → Meta geo} {st : Fs × Dev} {blk done run total : Nat}

theorem blockSize_pos : 0 < geo.blockSize := Nat.mul_pos (by omega) BlockMap.ppb_pos

theorem blockSize_le : geo.blockSize ≤ 4096 := by
  unfold BlockMap.Geometry.blockSize
  rcases geo.ppb_eq with h | h | h <;> rw [h] <;> omega

/-- A sector number has 32 bits, and a block two sectors at least. -/
theorem blocksCount_le : geo.blocksCount ≤ 2 ^ 31 := by
  have hsectors := geo.sectors_le
  rcases geo.ppb_eq with h | h | h <;> rw [h] at hsectors <;> omega

section

variable (h : Sees geo d m st)

include h

theorem lookupBlk_spec :
    ∃ st', lookupBlk geo env m st idx = (dataBlk geo d m idx, st') ∧ Sees geo d m st' := by
  obtain ⟨rfl, hok, hshows⟩ := h
  obtain ⟨fs', hblk, hdisk, hok', -⟩ := fileBlk_spec hok
  refine ⟨(fs', (env idx).after st.2 fs' m none), ?_, hdisk, hok', ?_⟩
  · unfold lookupBlk
    rw [hblk]
  · have hkept : Kept geo none st.1.disk fs'.disk m m := by
      rw [hdisk]
      exact .refl
    have hafter := (env idx).shows hshows hkept
    rwa [hdisk] at hafter

theorem Sees.data (hne : dataBlk geo d m j ≠ 0) :
    st.2.raw (dataBlk geo d m j) = contents geo d m j := by
  rw [contents_of_ne hne]
  exact h.shows.data j nofun hne

theorem Sees.view (hne : dataBlk geo d m j ≠ 0) :
    st.2.view (dataBlk geo d m j) = contents geo d m j := by
  rw [Dev.view_of_none (h.shows.unlogged j hne), h.data hne]

/-- The cache has changed, but nothing else. -/
theorem Sees.same (hsame : Dev.Same st.2 dev) (hcons : dev.Consistent geo.blockSize) :
    Sees geo d m (st.1, dev) := by
  refine ⟨h.disk, h.ok, hcons, fun j hne => ?_, fun j hj hne => ?_⟩
  · rw [hsame.jt]
    exact h.shows.unlogged j hne
  · rw [hsame.raw]
    exact h.shows.data j hj hne

end

/-! ## Runs of blocks -/

/-- `n` file blocks from `idx` on are on the disk one after the other, from `blk` on. -/
def Follows (geo : Geometry) (d : Disk) (m : Mapping) (idx blk n : Nat) : Prop :=
  ∀ k < n, dataBlk geo d m (idx + k) = blk + k

theorem Follows.one (h : dataBlk geo d m idx = blk) : Follows geo d m idx blk 1 := by
  intro k hk
  obtain rfl : k = 0 := by omega
  exact h

variable (h : Follows geo d m idx blk n) (hsees : Sees geo d m st) (hblk : blk ≠ 0)

include h hsees hblk

/-- One block more, as the loops find it. -/
theorem Follows.succ (hn : 1 ≤ n)
    (hnext : dataBlk geo d m (idx + n) = (blk + n) % 2 ^ 32) : Follows geo d m idx blk (n + 1) := by
  have hlast := h (n - 1) (by omega)
  have hok := hsees.ok
  have hlt : blk + (n - 1) < geo.blocksCount := by
    rw [← hlast]
    have hne : dataBlk geo st.1.disk m (idx + (n - 1)) ≠ 0 := by
      rw [hsees.disk, hlast]
      omega
    have := dataBlk_lt hok hne
    rwa [hsees.disk] at this
  have hcount := @blocksCount_le geo
  intro k hk
  by_cases hkn : k = n
  · rw [hkn, hnext, Nat.mod_eq_of_lt (by omega)]
  · exact h k (by omega)

/-- What is read past the cache. -/
theorem Follows.raw (hj : j < n * geo.blockSize) :
    st.2.rawReadBlocks geo.blockSize blk j = contents geo d m (idx + j / geo.blockSize)
      (j % geo.blockSize) := by
  have hk : j / geo.blockSize < n := Nat.div_lt_of_lt_mul (by rwa [Nat.mul_comm])
  have hdata := h _ hk
  have hraw := hsees.data (show dataBlk geo d m (idx + j / geo.blockSize) ≠ 0 from fun h0 =>
    hblk (Nat.eq_zero_of_add_eq_zero_right (hdata.symm.trans h0)))
  rw [← hraw, hdata]
  rfl

/-- What is read past the cache may be published. -/
theorem Follows.publish
    (hbuf : ∀ i < n * geo.blockSize, buf i = st.2.rawReadBlocks geo.blockSize blk i) :
    Sees geo d m (st.1, Dev.insertBlocks geo.blockSize blk buf st.2 0 n) := by
  obtain ⟨hsame, hcons⟩ :=
    @Dev.insertBlocks_spec geo.blockSize blk buf n 0 st.2 hsees.shows.consistent fun k hk i hi => by
      have hlt : k * geo.blockSize + i < n * geo.blockSize := by
        have := Nat.mul_le_mul_right geo.blockSize (Nat.succ_le_of_lt hk)
        rw [Nat.succ_mul] at this
        omega
      have hview := hsees.view (show dataBlk geo d m (idx + k) ≠ 0 by rw [h k hk]; omega)
      rw [Nat.zero_add, hbuf _ hlt, h.raw hsees hblk hlt, ← h k hk, hview, Nat.mul_comm k,
        Nat.add_comm _ i,
        Nat.add_mul_div_left _ _ blockSize_pos, Nat.add_mul_mod_self_left, Nat.div_eq_of_lt hi,
          Nat.mod_eq_of_lt hi,
        Nat.zero_add]
  exact hsees.same hsame hcons

omit h hsees hblk

/-- A request that is within the file, of a buffer that is in user space or in the kernel's. -/
structure Request.Ok (geo : Geometry) (q : Request) : Prop where
  inFile : q.off + q.size ≤ q.isize
  small : q.isize ≤ 2 ^ 31 * geo.blockSize
  fits : q.addr + q.size ≤ kernelVma ∨ kernelVma ≤ q.addr ∧ q.addr + q.size ≤ 2 ^ 32

theorem Request.Ok.of_kernel (h : q.Ok geo) (hk : q.kernel done = true) (hdone : done < q.size) :
    q.size ≤ 2 ^ 30 := by
  have hfits := h.fits
  have hk' : kernelVma ≤ (q.addr + done) % 2 ^ 32 := by simpa [Request.kernel] using hk
  unfold kernelVma at hfits hk'
  rcases hfits with hlow | ⟨hlow, hhigh⟩
  · rw [Nat.mod_eq_of_lt (by omega)] at hk'
    omega
  · omega

/-- A block of the request. -/
theorem Request.Ok.idx_lt (h : q.Ok geo) (hdone : done + n ≤ q.size) (hn : 0 < n) :
    (q.off + done + n - 1) / geo.blockSize < 2 ^ 31 := by
  have hin := h.inFile
  have hsmall := h.small
  exact Nat.div_lt_of_lt_mul (by rw [Nat.mul_comm]; omega)

/-- The blocks that are read together are those of the request. -/
theorem clusterLoop_spec (hq : q.Ok geo) (hblk : blk ≠ 0)
    (hidx : idx * geo.blockSize = q.off + done) :
    ∀ n run st, Sees geo d m st → 1 ≤ run → done + run * geo.blockSize ≤ q.size →
      Follows geo d m idx blk run →
      ∃ run' st', clusterLoop geo env m q done idx blk n run st = (run', st') ∧ Sees geo d m st' ∧
        run ≤ run' ∧ done + run' * geo.blockSize ≤ q.size ∧ Follows geo d m idx blk run' := by
  intro n run st hsees hrun hle hfollows
  fun_induction clusterLoop geo env m q done idx blk n run st with
  | case1 run st | case4 n run st hcond => exact ⟨run, st, rfl, hsees, le_rfl, hle, hfollows⟩
  | case2 n run st hcond st' heq ih =>
    obtain ⟨hkernel, hcluster, hwant⟩ := hcond
    have hpos := @blockSize_pos geo
    have hbs := @blockSize_le geo
    -- in kernel memory a buffer is small enough for the sum not to wrap
    have hsize := hq.of_kernel hkernel (by
      have := Nat.mul_le_mul_right geo.blockSize hrun
      omega)
    have hmul : (run + 1) * geo.blockSize ≤ 64 * 4096 := Nat.mul_le_mul hcluster hbs
    rw [Nat.mod_eq_of_lt (by omega)] at hwant
    have hnext : idx + run < 2 ^ 31 := by
      have hlt := hq.idx_lt hwant (Nat.mul_pos (by omega) hpos)
      have heq : q.off + done + (run + 1) * geo.blockSize - 1 = geo.blockSize - 1 + geo.blockSize *
          (idx + run) := by
        rw [← hidx, Nat.mul_comm geo.blockSize, Nat.add_mul, Nat.add_mul]
        omega
      rw [heq, Nat.add_mul_div_left _ _ hpos, Nat.div_eq_of_lt (by omega)] at hlt
      omega
    obtain ⟨st₁, hlookup, hsees'⟩ := @lookupBlk_spec geo d m ((idx + run) % 2 ^ 32) env st hsees
    rw [Nat.mod_eq_of_lt (show idx + run < 2 ^ 32 by omega)] at hlookup heq
    obtain ⟨hb, rfl⟩ := Prod.mk.inj (hlookup.symm.trans heq)
    obtain ⟨run', st'', hloop, hsees'', hrun', hle', hfollows'⟩ := ih hsees' (by omega) hwant
      (hfollows.succ hsees hblk hrun hb)
    exact ⟨run', st'', hloop, hsees'', by omega, hle', hfollows'⟩
  | case3 n run st hcond b st' heq hb =>
    obtain ⟨st₁, hlookup, hsees'⟩ := lookupBlk_spec hsees
    cases hlookup.symm.trans heq
    exact ⟨run, st', rfl, hsees', le_rfl, hle, hfollows⟩

/-- Read-ahead goes on with blocks of the file. -/
theorem aheadLoop_spec (hblk : blk ≠ 0) (hidx : idx < 2 ^ 31) :
    ∀ n total st, Sees geo d m st → 1 ≤ total → Follows geo d m idx blk total →
      ∃ total' st', aheadLoop geo env m q idx blk n total st = (total', st') ∧ Sees geo d m st' ∧
        total ≤ total' ∧ Follows geo d m idx blk total' := by
  intro n
  induction n with
  | zero => exact fun total st hsees _ hfollows => ⟨total, st, rfl, hsees, le_rfl, hfollows⟩
  | succ n ih =>
    intro total st hsees htotal hfollows
    unfold aheadLoop
    split
    next hcond =>
      have hahead : total < 32 := hcond.1
      obtain ⟨st', hlookup, hsees'⟩ := lookupBlk_spec hsees
      dsimp only
      rw [hlookup, Nat.mod_eq_of_lt (show idx + total < 2 ^ 32 by omega)]
      split
      next hnext =>
        obtain ⟨total', st'', hloop, hsees'', hle, hfollows'⟩ :=
          ih (total + 1) st' hsees' (by omega) (hfollows.succ hsees hblk htotal hnext.1)
        exact ⟨total', st'', hloop, hsees'', by omega, hfollows'⟩
      · exact ⟨total, st', rfl, hsees', le_rfl, hfollows⟩
    · exact ⟨total, st, rfl, hsees, le_rfl, hfollows⟩

/-! ## What is read -/

/-- Bytes of consecutive blocks, copied. -/
theorem copy_follows (h : Follows geo d m idx blk total) (hsees : Sees geo d m st) (hblk : blk ≠ 0)
    (hidx : idx * geo.blockSize = q.off + done) (hrun : run ≤ total) :
    out.copy done (st.2.rawReadBlocks geo.blockSize blk) 0 (run * geo.blockSize) =
      out.copy done (bytes geo d m) (q.off + done) (run * geo.blockSize) := by
  have hpos := @blockSize_pos geo
  refine Buf.copy_congr fun i hi => ?_
  have hlt : i < total * geo.blockSize := lt_of_lt_of_le hi (Nat.mul_le_mul_right _ hrun)
  rw [Nat.zero_add, h.raw hsees hblk hlt, bytes,
    inBlocks_from hpos (by rw [← hidx, Nat.mul_mod_left]), ← hidx, Nat.mul_div_cancel _ hpos]

/-- Bytes of one block, copied. -/
theorem copy_block (hbuf : ∀ i < geo.blockSize,
    buf i = contents geo d m ((q.off + done) / geo.blockSize) i)
    (hn : (q.off + done) % geo.blockSize + n ≤ geo.blockSize) :
    out.copy done buf ((q.off + done) % geo.blockSize) n =
      out.copy done (bytes geo d m) (q.off + done) n := by
  refine Buf.copy_congr fun i hi => ?_
  rw [hbuf _ (by omega), bytes, inBlocks_add (by omega)]

/-- **A block that is not in the cache**, and the ones that are read with it. -/
theorem readMissing_spec (hq : q.Ok geo) (hsees : Sees geo d m st)
    (hblk : dataBlk geo d m idx = blk) (hne : blk ≠ 0)
    (hidx : idx * geo.blockSize = q.off + done) (hlt : idx < 2 ^ 31)
    (hdone : done + geo.blockSize ≤ q.size) :
    ∃ n st', readMissing geo env m q done idx blk out st =
      (n, out.copy done (bytes geo d m) (q.off + done) n, st') ∧
      Sees geo d m st' ∧ 0 < n ∧ done + n ≤ q.size := by
  have hpos := @blockSize_pos geo
  unfold readMissing
  obtain ⟨run, st₁, hcluster, hsees₁, hrun, hle, hfollows⟩ := clusterLoop_spec hq hne hidx
    readCluster 1 st hsees le_rfl (by rwa [Nat.one_mul]) (.one hblk)
  dsimp only
  rw [hcluster]
  have hahead : ∃ total st₂, (if q.kernel done ∧ st₁.2.raBuf ∧ run < readAhead then
      aheadLoop geo env m q idx blk readAhead run st₁ else (run, st₁)) = (total, st₂) ∧
        Sees geo d m st₂ ∧ run ≤ total ∧
      Follows geo d m idx blk total := by
    split
    · exact aheadLoop_spec hne hlt readAhead run st₁ hsees₁ hrun hfollows
    · exact ⟨run, st₁, rfl, hsees₁, le_rfl, hfollows⟩
  obtain ⟨total, st₂, hif, hsees₂, htotal, hfollows₂⟩ := hahead
  rw [hif]
  have hbytes : 0 < run * geo.blockSize := Nat.mul_pos (by omega) hpos
  by_cases hmore : run < total
  · rw [if_pos hmore, copy_follows hfollows₂ hsees₂ hne hidx htotal]
    exact ⟨_, _, rfl, hfollows₂.publish hsees₂ hne fun _ _ => rfl, hbytes, hle⟩
  · rw [if_neg hmore]
    by_cases hmany : 1 < run
    · rw [if_pos hmany]
      refine ⟨_, _, by rw [copy_follows hfollows hsees₂ hne hidx le_rfl], ?_, hbytes, hle⟩
      refine hfollows.publish hsees₂ hne fun i hi => ?_
      rw [← copy_follows hfollows hsees₂ hne hidx le_rfl, Buf.copy_apply hi, Nat.zero_add]
    · rw [if_neg hmany]
      obtain ⟨buf, dev', hread, hsame, hcons, hbuf⟩ := Dev.readBlock_spec hsees₂.shows.consistent
      rw [hread]
      refine ⟨geo.blockSize, _, ?_, hsees₂.same hsame hcons, hpos, hdone⟩
      have hmod : (q.off + done) % geo.blockSize = 0 := by rw [← hidx, Nat.mul_mod_left]
      have hdiv : (q.off + done) / geo.blockSize = idx := by rw [← hidx, Nat.mul_div_cancel _ hpos]
      have hcopy := @copy_block geo d m geo.blockSize buf out q done (fun i hi => by
        rw [hbuf i hi, hdiv, ← hblk, hsees₂.view (by rwa [hblk])]) (by omega)
      rw [hmod] at hcopy
      rw [hcopy]

/-- **One round of the loop** copies some bytes of the file. -/
theorem readRound_spec (hq : q.Ok geo) (hsees : Sees geo d m st) (hdone : done < q.size) :
    ∃ n st', readRound geo env m q done out st =
      (n, out.copy done (bytes geo d m) (q.off + done) n, st') ∧
      Sees geo d m st' ∧ 0 < n ∧ done + n ≤ q.size := by
  have hpos := @blockSize_pos geo
  have hmod := Nat.mod_lt (q.off + done) hpos
  have hidx : (q.off + done) / geo.blockSize < 2 ^ 31 := hq.idx_lt hdone Nat.one_pos
  unfold readRound
  dsimp only
  rw [Nat.mod_eq_of_lt (show (q.off + done) / geo.blockSize < 2 ^ 32 by omega)]
  generalize hcopy : min (geo.blockSize - (q.off + done) % geo.blockSize) (q.size - done) = toCopy
  have hfit : (q.off + done) % geo.blockSize + toCopy ≤ geo.blockSize := by omega
  obtain ⟨st₁, hlookup, hsees₁⟩ := lookupBlk_spec hsees
  rw [hlookup]
  by_cases hzero : dataBlk geo d m ((q.off + done) / geo.blockSize) = 0
  · rw [if_pos hzero, Buf.clear_eq_copy]
    refine ⟨toCopy, st₁, ?_, hsees₁, by omega, by omega⟩
    have hzeros : out.copy done (fun _ => 0) 0 toCopy =
        out.copy done (fun _ => 0) ((q.off + done) % geo.blockSize) toCopy :=
      Buf.copy_congr fun _ _ => rfl
    rw [hzeros, copy_block (fun i _ => by rw [contents_of_zero hzero]) hfit]
  rw [if_neg hzero]
  have hview := hsees₁.view hzero
  by_cases hwhole : (q.off + done) % geo.blockSize = 0 ∧ toCopy = geo.blockSize
  · rw [if_pos hwhole]
    obtain ⟨hoff, rfl⟩ := hwhole
    obtain ⟨found, dev', hcache, hsame, hcons, hfound, -⟩ :=
      @Dev.cacheLookup_spec st₁.2 geo.blockSize
        (dataBlk geo d m ((q.off + done) / geo.blockSize)) hsees₁.shows.consistent
    rw [hcache]
    cases found with
    | some buf =>
      refine ⟨geo.blockSize, (st₁.1, dev'), ?_, hsees₁.same hsame hcons, hpos, by omega⟩
      dsimp only
      have hblock := @copy_block geo d m geo.blockSize buf out q done
        (fun i hi => by rw [hfound buf rfl i hi, hview]) hfit
      rw [hoff] at hblock
      rw [hblock]
    | none =>
      refine readMissing_spec hq (hsees₁.same hsame hcons) rfl hzero ?_ hidx (by omega)
      have := Nat.div_add_mod (q.off + done) geo.blockSize
      rw [Nat.mul_comm]
      omega
  · rw [if_neg hwhole]
    obtain ⟨buf, dev', hread, hsame, hcons, hbuf⟩ := @Dev.readBlock_spec st₁.2 geo.blockSize
      (dataBlk geo d m ((q.off + done) / geo.blockSize)) hsees₁.shows.consistent
    rw [hread]
    refine ⟨toCopy, (st₁.1, dev'), ?_, hsees₁.same hsame hcons, by omega, by omega⟩
    dsimp only
    rw [copy_block (fun i hi => by rw [hbuf i hi, hview]) hfit]

/-- The loop reads all of the request. -/
theorem readLoop_spec (hq : q.Ok geo) : ∀ fuel done st, Sees geo d m st → done ≤ q.size →
    q.size ≤ done + fuel →
    ∃ st', readLoop geo env m q fuel done (out.copy 0 (bytes geo d m) q.off done) st =
      (q.size, out.copy 0 (bytes geo d m) q.off q.size, st') ∧ Sees geo d m st' := by
  intro fuel
  induction fuel with
  | zero =>
    intro done st hsees hle hfuel
    obtain rfl : done = q.size := by omega
    exact ⟨st, rfl, hsees⟩
  | succ fuel ih =>
    intro done st hsees hle hfuel
    unfold readLoop
    by_cases hdone : done < q.size
    · rw [if_pos hdone]
      obtain ⟨n, st', hround, hsees', hpos, hle'⟩ := @readRound_spec geo d m
        (out.copy 0 (bytes geo d m) q.off done) q env st done hq hsees hdone
      rw [hround]
      have hcopy := @Buf.copy_copy 0 done q.off out (bytes geo d m) n
      rw [Nat.zero_add] at hcopy
      rw [hcopy]
      exact ih (done + n) st' hsees' hle' (by omega)
    · rw [if_neg hdone]
      obtain rfl : done = q.size := by omega
      exact ⟨st, rfl, hsees⟩

/-- A caller's buffer of `size` bytes, in user space or in the kernel's. -/
def InSpace (addr size : Nat) : Prop :=
  addr + size ≤ kernelVma ∨ kernelVma ≤ addr ∧ addr + size ≤ 2 ^ 32

/-- **Reading a file**: as many bytes as there are, those of the file, and none past them. -/
theorem readNode_spec {node : Node} {addr off size : Nat} (hsees : Sees geo d node.map st)
    (hsmall : node.size ≤ 2 ^ 31 * geo.blockSize) (haddr : InSpace addr size) :
    ∃ st', readNode geo env node addr off size out st = (min size (node.size - off),
      out.copy 0 (bytes geo d node.map) off (min size (node.size - off)), st') ∧
        Sees geo d node.map st' := by
  unfold readNode
  by_cases hoff : node.size ≤ off
  · rw [if_pos hoff, show min size (node.size - off) = 0 by omega, Buf.copy_zero]
    exact ⟨st, rfl, hsees⟩
  · rw [if_neg hoff]
    rw [show (if node.size - off < size then node.size - off else size) =
      min size (node.size - off) by split <;> omega]
    have hq : (⟨addr, off, min size (node.size - off), node.size⟩ : Request).Ok geo := by
      refine ⟨by dsimp only; omega, hsmall, ?_⟩
      unfold InSpace at haddr
      dsimp only
      omega
    have hloop :=
      @readLoop_spec geo d node.map out _ env hq (min size (node.size - off)) 0 st hsees
        (Nat.zero_le _) (by rw [Nat.zero_add])
    rw [Buf.copy_zero] at hloop
    exact hloop

end MaeroOS.Ext2.File
