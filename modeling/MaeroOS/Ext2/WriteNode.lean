import MaeroOS.Ext2.ReadNode

/-!
# Writing and cutting a file

`ext2_write_node_do` maps block by block and writes each one past the journal. A block that is
written whole need not be cleared when it is new, nor read before. `ext2_truncate_do` frees the
blocks past the new end, and clears the rest of the last one.

Both change the bytes of a file as they should (`writeNodeDo_spec`, `truncate_spec`), with zeros in
the part of the last block that is past the end.
-/

namespace MaeroOS.Ext2.File

open Lib (Buf Bytes inBlocks inBlocks_update)
open Ext2.BlockMap (block_writeBlock_self block_writeBlock_of_ne)
open Ext2.Extents (Fs Csum Later Changed)

variable {geo : Geometry} {csum : Csum} {fs fs' : Fs} {d : Disk} {dev dev' : Dev} {m m' : Mapping}
  {idx j b n : Nat} {buf : Buf} {st : Fs × Dev}

/-! ## The driver's functions -/

/-- What stands around a call: what the allocator picks when a file block is mapped, when the
journal asks for a step, and what the metadata side does to the device on the way. -/
structure Env (geo : Geometry) where
  alloc : Nat → Allocator geo
  due : Nat → Bool
  cutDue : Nat → Nat → Bool
  look : Nat → Meta geo
  mapped : Nat → Meta geo
  step : Nat → Meta geo
  cut : Meta geo
  close : Meta geo

variable {env : Env geo}

/-- `ext2_max_file`. -/
def maxFile (geo : Geometry) (m : Mapping) : Nat :=
  let sectBlocks := 0xFFFFFFFF / geo.sectorsPerBlock
  let p := geo.ppb
  (match m with
    | .extents _ => min 0xFFFFFFFF sectBlocks
    | .blocks _ => min (12 + p + p * p + p * p * p)
        (sectBlocks - (1 + (1 + p) + (1 + p + p * p)))) * geo.blockSize

/-- The loop of `ext2_write_node_do` on its way. -/
structure Writing where
  done : Nat
  isize : Nat
  nospace : Bool
  fs : Fs
  map : Mapping
  dev : Dev
  blkBuf : Buf

/-- What the buffer has in it before the new bytes are copied over: a block that is written whole is
not read. -/
def fetchBlock (whole : Bool) (blk : Nat) (blkBuf : Buf) (dev : Dev) : Buf × Dev :=
  if whole then (blkBuf, dev) else dev.readBlock blk

/-- One round of the loop. -/
def writeRound (geo : Geometry) (csum : Csum) (env : Env geo) (off size : Nat) (buf : Buf)
    (w : Writing) : Writing :=
  let bs := geo.blockSize
  let idx := (off + w.done) / bs % 2 ^ 32
  let blkOff := (off + w.done) % bs
  let toCopy := min (bs - blkOff) (size - w.done)
  let whole := decide (blkOff = 0 ∧ toCopy = bs)
  let (blk, fs, map) := fileBlkAlloc (env.alloc idx) csum whole w.fs w.map idx
  let dev := (env.mapped idx).after w.dev fs map (if whole then some idx else none)
  if blk = 0 then { w with nospace := true, fs := fs, map := map, dev := dev }
  else
    let (blkBuf, dev) := fetchBlock whole blk w.blkBuf dev
    let blkBuf := blkBuf.copy blkOff buf w.done toCopy
    let fs := { fs with disk := writeBlock fs.disk blk blkBuf }
    let dev := dev.writeData blk blkBuf
    let done := w.done + toCopy
    if done < size ∧ env.due idx then
      -- a large write commits in steps, each a complete shorter write
      { w with
        done :=
          done, isize := if off + done > w.isize then off + done else w.isize, fs := fs, map := map,
        dev := (env.step idx).after dev fs map none, blkBuf := blkBuf }
    else { w with done := done, fs := fs, map := map, dev := dev, blkBuf := blkBuf }

/-- The loop of `ext2_write_node_do`. A round writes something or is the last, so there are no more
rounds than bytes. -/
def writeLoop (geo : Geometry) (csum : Csum) (env : Env geo) (off size : Nat) (buf : Buf) :
    Nat → Writing → Writing
  | 0, w => w
  | fuel + 1, w =>
    if w.done < size ∧ w.nospace = false then
      writeLoop geo csum env off size buf fuel (writeRound geo csum env off size buf w)
    else w

/-- What a write leaves: what it returns, the file, and whether there was no block. -/
structure Written where
  ret : Nat
  node : Node
  st : Fs × Dev
  nospace : Bool

/-- `VFS_WRITE_EFBIG`. -/
def writeEfbig : Nat := 0xFFFFFFFE

/-- `(uint32_t)-28`. -/
def writeEnospc : Nat := 2 ^ 32 - 28

/-- `ext2_write_node_do`, of a regular file. -/
def writeNodeDo (geo : Geometry) (csum : Csum) (env : Env geo) (node : Node) (off size : Nat)
    (buf : Buf) (st : Fs × Dev) : Written :=
  if maxFile geo node.map ≤ off then ⟨if size ≠ 0 then writeEfbig else 0, node, st, false⟩
  else
    let size := if maxFile geo node.map - off < size then maxFile geo node.map - off else size
    let w :=
      writeLoop geo csum env off size buf size
        ⟨0, node.size, false, st.1, node.map, st.2, fun _ => 0⟩
    let isize := if w.done ≠ 0 ∧ off + w.done > w.isize then off + w.done else w.isize
    -- the inode goes out if anything was written
    if w.done ≠ 0 then
      ⟨w.done, ⟨w.map, isize⟩, (w.fs, env.close.after w.dev w.fs w.map none), w.nospace⟩
    else ⟨if w.nospace then writeEnospc else 0, node, (w.fs, w.dev), w.nospace⟩

/-- `ext2_write_node`: a write that ended for want of a block goes on after a commit, if the running
transaction had freed some (`reclaim`). -/
def writeNode (geo : Geometry) (csum : Csum) (env env' : Env geo) (reclaim : Bool) (node : Node)
    (off size : Nat) (buf : Buf) (st : Fs × Dev) : Written :=
  let r := writeNodeDo geo csum env node off size buf st
  let got := if 2 ^ 31 ≤ r.ret then 0 else r.ret
  if r.nospace ∧ reclaim ∧ got < size then
    let dev := env'.close.after r.st.2 r.st.1 r.node.map none
    let r' :=
      writeNodeDo geo csum env' r.node (off + got) (size - got) (fun i => buf (got + i))
        (r.st.1, dev)
    if r'.ret < 2 ^ 31 then { r' with ret := got + r'.ret } else { r' with ret := r.ret }
  else r

/-- The end of `ext2_truncate_do`'s last block is cleared. -/
def clearTail (geo : Geometry) (env : Env geo) (map : Mapping) (newSize : Nat) (st : Fs × Dev) :
    Fs × Dev :=
  let bs := geo.blockSize
  let (blk, st) := lookupBlk geo env.look map st (newSize / bs % 2 ^ 32)
  if blk = 0 then st
  else
    let cut := newSize % bs
    let (tb, dev) := st.2.readBlock blk
    let tb := tb.clear cut (bs - cut)
    ({ st.1 with disk := writeBlock st.1.disk blk tb }, dev.writeData blk tb)

/-- `ext2_truncate_do`, of a regular file. -/
def truncate (geo : Geometry) (csum : Csum) (env : Env geo) (node : Node) (newSize : Nat)
    (st : Fs × Dev) : Int × Node × Fs × Dev :=
  if newSize > node.size ∧ newSize > maxFile geo node.map then (-27, node, st)
  else
    let bs := geo.blockSize
    let ob := node.size / bs + if node.size % bs ≠ 0 then 1 else 0
    let oldBlocks := if ob > 0xFFFFFFFF then 0xFFFFFFFF else ob
    let newBlocks := (newSize / bs + if newSize % bs ≠ 0 then 1 else 0) % 2 ^ 32
    let (map, st) :=
      if newBlocks < oldBlocks then
        let (fs, map) :=
          freeBlocksFrom (env.alloc newBlocks) csum env.cutDue st.1 node.map newBlocks
        (map, fs, env.cut.after st.2 fs map none)
      else (node.map, st)
    let st :=
      if newSize < node.size ∧ newSize % bs ≠ 0 then clearTail geo env map newSize st else st
    (0, ⟨map, newSize⟩, st.1, env.close.after st.2 st.1 map none)

/-! ## The largest file -/

theorem sectorsPerBlock_ge : 2 ≤ geo.sectorsPerBlock := by
  unfold BlockMap.Geometry.sectorsPerBlock
  rcases geo.ppb_eq with h | h | h <;> rw [h] <;> omega

theorem maxFile_le : maxFile geo m ≤ (2 ^ 31 - 1) * geo.blockSize := by
  refine Nat.mul_le_mul_right _ ?_
  have hsect : 0xFFFFFFFF / geo.sectorsPerBlock ≤ 2 ^ 31 - 1 := by
    rw [← Nat.lt_succ_iff, Nat.div_lt_iff_lt_mul (lt_of_lt_of_le (by omega) sectorsPerBlock_ge)]
    have := Nat.mul_le_mul_left (2 ^ 31 - 1 + 1) (@sectorsPerBlock_ge geo)
    omega
  cases m <;> dsimp only <;> omega

theorem maxFile_congr (h : m'.isExt = m.isExt) : maxFile geo m' = maxFile geo m := by
  cases m <;> cases m' <;> first | rfl | cases h

/-- Whatever is below the largest size can be mapped. -/
theorem mappable_of_lt (h : n < maxFile geo m) : Mappable geo (n / geo.blockSize) m := by
  have hidx : n / geo.blockSize < maxFile geo m / geo.blockSize := by
    have hdvd : geo.blockSize ∣ maxFile geo m := Nat.dvd_mul_left _ _
    rw [Nat.div_lt_iff_lt_mul blockSize_pos, Nat.div_mul_cancel hdvd]
    exact h
  unfold maxFile at hidx
  rw [Nat.mul_div_cancel _ blockSize_pos] at hidx
  cases m with
  | extents ino =>
    have hidx : n / geo.blockSize < min 0xFFFFFFFF (0xFFFFFFFF / geo.sectorsPerBlock) := hidx
    show n / geo.blockSize < 2 ^ 32 - 1
    omega
  | blocks ino =>
    show n / geo.blockSize < BlockMap.maxBlocks geo
    unfold BlockMap.maxBlocks
    dsimp only at hidx
    rw [Nat.pow_two, Nat.pow_succ, Nat.pow_two]
    omega

/-! ## Data blocks -/

/-- **A data block is written**, on the disk and in the cache. -/
theorem ShowsBut.writeData {skip : Option Nat} (h : ShowsBut geo skip dev fs.disk m)
    (hok : MapOk geo fs m)
    (hskip : ∀ j, j ≠ idx → some j ≠ skip) (hb : dataBlk geo fs.disk m idx = b) (hne : b ≠ 0) :
    Shows geo (dev.writeData b buf) (writeBlock fs.disk b buf) m := by
  have hne' : dataBlk geo fs.disk m idx ≠ 0 := by rwa [hb]
  obtain ⟨-, hdata⟩ := MapOk.writeBlock hok hne' hb
  have hjt : dev.jt b = none := hb ▸ h.unlogged idx hne'
  obtain ⟨hcons, hjt', hraw⟩ := Dev.writeData_spec h.consistent hjt
  refine ⟨hcons, fun j hj => ?_, fun j _ hj => ?_⟩
  · rw [hdata] at hj ⊢
    rw [hjt']
    exact h.unlogged j hj
  · rw [hdata] at hj ⊢
    rw [hraw]
    by_cases hji : j = idx
    · rw [hji, hb, Function.update_self, block_writeBlock_self]
    have hother : dataBlk geo fs.disk m j ≠ b :=
      fun heq => hji (dataBlk_inj hok hne' (heq.trans hb.symm))
    rw [Function.update_of_ne hother, block_writeBlock_of_ne hother]
    exact h.data j (hskip j hji) hj

/-- Mapping a file block keeps the data, except where a block that is new is left as it is. -/
theorem Alloc.kept {nozero : Bool} (h : Alloc geo nozero idx b fs fs' m m') (hb : b ≠ 0) :
    Kept geo (if nozero then some idx else none) fs.disk fs'.disk m m' := by
  refine ⟨fun j hj _ => ?_, fun j hskip hj => ?_⟩
  · by_cases hji : j = idx
    · rw [hji] at hj ⊢
      rw [h.blk, h.old hj]
    · exact h.others j hji
  · rw [← contents_of_ne hj]
    by_cases hji : j = idx
    · subst hji
      cases nozero with
      | true => exact absurd rfl hskip
      | false => exact h.contents_same hb rfl
    · exact h.contents_others hji

/-! ## The loop of a write -/

/-- What the rounds of a write keep, of a file that had the bytes `old` and the size `size₀` before:
so far `done` bytes are in it. -/
structure Writing.Ok (geo : Geometry) (m : Mapping) (old : Buf) (size₀ off size : Nat) (buf : Buf)
    (w : Writing) : Prop where
  map : MapOk geo w.fs w.map
  shows : Shows geo w.dev w.fs.disk w.map
  kind : w.map.isExt = m.isExt
  bytes : File.bytes geo w.fs.disk w.map = old.copy off buf 0 w.done
  done : w.done ≤ size
  isize : size₀ ≤ w.isize ∧ w.isize ≤ max size₀ (off + w.done)

variable {w : Writing} {old : Buf} {size₀ off size : Nat}

theorem writeRound_changed : Changed 1 w.fs (writeRound geo csum env off size buf w).fs := by
  unfold writeRound
  dsimp only
  have hone := @fileBlkAlloc_changed geo (env.alloc ((off + w.done) / geo.blockSize % 2 ^ 32)) csum
    (decide ((off + w.done) % geo.blockSize = 0 ∧
      min (geo.blockSize - (off + w.done) % geo.blockSize) (size - w.done) = geo.blockSize)) w.fs
    ((off + w.done) / geo.blockSize % 2 ^ 32) w.map
  split
  · exact hone
  · split <;> exact hone

/-- Where a round that had a block leaves off: at the end of it, or of all there is to write. -/
theorem writeRound_done (hdone : w.done < size) :
    let w' := writeRound geo csum env off size buf w
    w'.nospace = true ∨ w'.done = size ∨
      (off + w'.done) / geo.blockSize = (off + w.done) / geo.blockSize + 1 ∧ w'.done ≤ size := by
  have hpos := @blockSize_pos geo
  have hmod := Nat.mod_lt (off + w.done) hpos
  unfold writeRound
  dsimp only
  split
  · exact .inl rfl
  right
  have hnext : w.done + min (geo.blockSize - (off + w.done) % geo.blockSize)
      (size - w.done) = size ∨
      (off + (w.done + min (geo.blockSize - (off + w.done) % geo.blockSize) (size - w.done))) /
        geo.blockSize = (off + w.done) / geo.blockSize + 1 ∧
        w.done + min (geo.blockSize - (off + w.done) % geo.blockSize) (size - w.done) ≤ size := by
    by_cases hend : size - w.done ≤ geo.blockSize - (off + w.done) % geo.blockSize
    · exact .inl (by omega)
    · refine .inr ⟨?_, by omega⟩
      have hdiv := Nat.div_add_mod (off + w.done) geo.blockSize
      have hto : off + (w.done + min (geo.blockSize - (off + w.done) % geo.blockSize)
          (size - w.done)) = geo.blockSize * ((off + w.done) / geo.blockSize + 1) := by
        rw [Nat.mul_add]
        omega
      rw [hto, Nat.mul_div_cancel_left _ hpos]
  split <;> exact hnext

theorem writeLoop_stop (fuel : Nat) (h : ¬ (w.done < size ∧ w.nospace = false)) :
    writeLoop geo csum env off size buf fuel w = w := by
  cases fuel with
  | zero => rfl
  | succ fuel =>
    unfold writeLoop
    rw [if_neg h]

theorem writeLoop_xgen :
    ∀ fuel w, w.fs.xgen ≤ (writeLoop geo csum env off size buf fuel w).fs.xgen := by
  intro fuel w
  fun_induction writeLoop geo csum env off size buf fuel w with
  | case1 | case3 => exact le_rfl
  | case2 fuel w hcond ih => exact le_trans writeRound_changed.1 ih

/-- The blocks from offset `off` to `off + size`. -/
def blocksMet (geo : Geometry) (off size : Nat) : Nat :=
  (off + size) / geo.blockSize + 1 - off / geo.blockSize

/-- The loop changes the tree once at most for each block that is left. -/
theorem writeLoop_changes (fuel : Nat) (hsize : w.done ≤ size) :
    (writeLoop geo csum env off size buf fuel w).fs.xgen ≤
      w.fs.xgen + ((off + size) / geo.blockSize + 1 - (off + w.done) / geo.blockSize) := by
  induction fuel generalizing w with
  | zero => exact Nat.le_add_right _ _
  | succ fuel ih =>
    unfold writeLoop
    split
    · next hcond =>
      have hone := (@writeRound_changed geo csum buf env w off size).2
      have hleft : (off + w.done) / geo.blockSize ≤ (off + size) / geo.blockSize :=
        Nat.div_le_div_right (Nat.add_le_add_left hcond.1.le off)
      have hdone := @writeRound_done geo csum buf env w off size hcond.1
      generalize writeRound geo csum env off size buf w = w₁ at hone hdone ⊢
      rcases hdone with hfull | hend | ⟨hnext, hle⟩
      · rw [writeLoop_stop fuel (by simp [hfull])]
        omega
      · rw [writeLoop_stop fuel (by simp [hend])]
        omega
      · have hrest := ih hle
        have hleft' : (off + w₁.done) / geo.blockSize ≤ (off + size) / geo.blockSize :=
          Nat.div_le_div_right (Nat.add_le_add_left hle off)
        omega
    · exact Nat.le_add_right _ _

/-- A block is written, with new bytes in it and else what the file has there. -/
theorem bytes_writeBlock {blkBuf : Buf} {toCopy p : Nat} (hok : MapOk geo fs m)
    (hb : dataBlk geo fs.disk m (n / geo.blockSize) = b) (hne : b ≠ 0)
    (hfit : n % geo.blockSize + toCopy ≤ geo.blockSize)
    (hothers : ∀ j, j ≠ n / geo.blockSize → contents geo fs.disk m j = contents geo d m' j)
    (hbuf : ∀ i < geo.blockSize, ¬(n % geo.blockSize ≤ i ∧ i < n % geo.blockSize + toCopy) →
      blkBuf i = contents geo d m' (n / geo.blockSize) i) :
    bytes geo (writeBlock fs.disk b (blkBuf.copy (n % geo.blockSize) buf p toCopy)) m =
      (bytes geo d m').copy n buf p toCopy := by
  obtain ⟨-, hcontents⟩ := writeData_spec hok
    (by rwa [hb]) hb
  funext i
  refine inBlocks_update blockSize_pos hfit (fun j hj => ?_) fun i hi => ?_
  · rw [hcontents, if_neg hj, hothers j hj]
  · rw [hcontents, if_pos rfl, Buf.copy]
    split
    · rfl
    next hout => exact hbuf i hi hout

theorem fetchBlock_spec {whole : Bool} {blkBuf : Buf}
    (h : ShowsBut geo (if whole then some idx else none) dev fs.disk m)
    (hb : dataBlk geo fs.disk m idx = b) (hne : b ≠ 0) :
    ∃ blkBuf' dev', fetchBlock whole b blkBuf dev = (blkBuf', dev') ∧
      ShowsBut geo (if whole then some idx else none) dev' fs.disk m ∧
      (whole = false → ∀ i < geo.blockSize, blkBuf' i = contents geo fs.disk m idx i) := by
  cases whole with
  | true => exact ⟨blkBuf, dev, rfl, h, nofun⟩
  | false =>
    obtain ⟨blkBuf', dev', hread, hsame, hcons, hbuf⟩ := Dev.readBlock_spec h.consistent
    have hne' : dataBlk geo fs.disk m idx ≠ 0 := by rwa [hb]
    refine ⟨blkBuf', dev', hread, ⟨hcons, fun j hj => ?_, fun j hskip hj => ?_⟩, fun _ i hi => ?_⟩
    · rw [hsame.jt]
      exact h.unlogged j hj
    · rw [hsame.raw]
      exact h.data j hskip hj
    · rw [hbuf i hi, ← hb, Dev.view_of_none (h.unlogged idx hne'), h.data idx nofun hne',
        contents_of_ne hne']

/-- **One round of a write.** -/
theorem writeRound_spec (h : w.Ok geo m old size₀ off size buf) (hmax : off + size ≤ maxFile geo m)
    (hdone : w.done < size)
    {w' : Writing} (hw : writeRound geo csum env off size buf w = w') (hspace : w'.nospace = false)
    (hage : w'.fs.xgen < w.fs.cache.gen + 2 ^ 32) :
    w'.Ok geo m old size₀ off size buf ∧ w.done < w'.done ∧ Later w.fs w'.fs := by
  subst hw
  have hpos := @blockSize_pos geo
  have hmod := Nat.mod_lt (off + w.done) hpos
  have hlt : off + w.done < maxFile geo w.map := by
    rw [maxFile_congr h.kind]
    omega
  have hmappable := mappable_of_lt hlt
  have hidx : (off + w.done) / geo.blockSize < 2 ^ 32 := by
    have hle := @maxFile_le geo w.map
    have hhalf : (off + w.done) / geo.blockSize < 2 ^ 31 :=
      Nat.div_lt_of_lt_mul (by rw [Nat.mul_comm]; omega)
    omega
  unfold writeRound at hspace hage ⊢
  dsimp only at hspace hage ⊢
  rw [Nat.mod_eq_of_lt hidx] at hspace hage ⊢
  generalize hidx' : (off + w.done) / geo.blockSize = idx at *
  generalize hcopy : min (geo.blockSize - (off + w.done) % geo.blockSize) (size - w.done) =
    toCopy at *
  generalize hwhole : decide ((off + w.done) % geo.blockSize = 0 ∧ toCopy = geo.blockSize) =
    whole at *
  have hfit : (off + w.done) % geo.blockSize + toCopy ≤ geo.blockSize := by omega
  rcases halloc : fileBlkAlloc (env.alloc idx) csum whole w.fs w.map idx with ⟨blk, fs₁, m₁⟩
  rw [halloc] at hspace hage
  by_cases hzero : blk = 0
  · rw [if_pos hzero] at hspace
    cases hspace
  rw [if_neg hzero] at hage ⊢
  obtain ⟨hlater, hkind, hspec⟩ := fileBlkAlloc_spec h.map hmappable hzero halloc
  have hall := hspec (by split at hage <;> exact hage)
  -- the block with what is to be in it
  obtain ⟨blkBuf, dev₁, hfetch, hshows, hold⟩ := fetchBlock_spec
    ((env.mapped idx).shows h.shows (hall.kept hzero)) hall.blk hzero
  rw [hfetch]
  generalize hwritten : blkBuf.copy ((off + w.done) % geo.blockSize) buf w.done toCopy = written
  have hbytes : bytes geo (writeBlock fs₁.disk blk written) m₁ =
      old.copy off buf 0 (w.done + toCopy) := by
    rw [← hwritten, bytes_writeBlock hall.ok (hidx' ▸ hall.blk) hzero hfit
      (fun j hj => hall.contents_others (hidx' ▸ hj)) fun i hi hout => ?_]
    · rw [h.bytes]
      have hcopies := @Buf.copy_copy off w.done 0 old buf toCopy
      rwa [Nat.zero_add] at hcopies
    · -- a byte of the block that is not written over: the block is not written whole
      have hpart : whole = false := by
        rw [← hwhole]
        exact decide_eq_false fun hall' => hout ⟨by omega, by omega⟩
      rw [hold hpart i hi, hidx', hall.contents_same hzero hpart]
  have hok : MapOk geo { fs₁ with disk := writeBlock fs₁.disk blk written } m₁ :=
    (MapOk.writeBlock hall.ok (by rwa [hall.blk]) hall.blk).1
  have hshows' := @ShowsBut.writeData geo fs₁ dev₁ m₁ idx blk written _ hshows hall.ok
    (fun j hj => by cases whole <;> simp [hj]) hall.blk hzero
  have hisize := h.isize
  split
  · refine ⟨⟨hok, ?_, hkind.trans h.kind, hbytes, by dsimp only; omega, ?_⟩, by dsimp only; omega,
      hlater.xgen, hlater.cache⟩
    · exact @Meta.shows geo (env.step idx) _ { fs₁ with disk := writeBlock fs₁.disk blk written } _
        m₁ m₁ none hshows' .refl
    · dsimp only
      split <;> omega
  · exact ⟨⟨hok, hshows', hkind.trans h.kind,
      hbytes, by dsimp only; omega, by dsimp only; omega⟩, by dsimp only; omega,
      hlater.xgen, hlater.cache⟩

/-- The loop writes all of it, if there is a block each time. -/
theorem writeLoop_spec (hmax : off + size ≤ maxFile geo m) :
    ∀ fuel w, w.Ok geo m old size₀ off size buf → w.nospace = false → size ≤ w.done + fuel →
    let w' := writeLoop geo csum env off size buf fuel w
    w'.nospace = false → w'.fs.xgen < w.fs.cache.gen + 2 ^ 32 → w'.Ok geo m old size₀ off size buf ∧
      w'.done = size := by
  intro fuel
  induction fuel with
  | zero =>
    intro w h _ hfuel _ _ _
    have hle := h.done
    exact ⟨h, show w.done = size by omega⟩
  | succ fuel ih =>
    intro w h hnospace hfuel w' hspace hage
    unfold w' writeLoop at hspace hage ⊢
    by_cases hdone : w.done < size
    · rw [if_pos ⟨hdone, hnospace⟩] at hspace hage ⊢
      generalize hw₁ : writeRound geo csum env off size buf w = w₁ at hspace hage ⊢
      have hround : w₁.nospace = false := by
        -- a round without a block would be the last
        by_contra hne
        rw [writeLoop_stop fuel fun hcond => hne hcond.2] at hspace
        exact hne hspace
      have hmono := @writeLoop_xgen geo csum buf env off size fuel w₁
      obtain ⟨hok, hmore, hlater⟩ := writeRound_spec h hmax hdone hw₁ hround (by omega)
      have hcache := hlater.cache
      exact ih _ hok hround (by omega) hspace (by omega)
    · rw [if_neg fun hcond => hdone hcond.1]
      have hle := h.done
      exact ⟨h, by omega⟩

/-! ## What the calls do -/

/-- The file has the bytes of an array. What is past the end of it in blocks that the file has is
zero. -/
structure Refines (geo : Geometry) (a : Bytes) (node : Node) (st : Fs × Dev) : Prop where
  size : node.size = a.size
  max : node.size ≤ maxFile geo node.map
  map : MapOk geo st.1 node.map
  shows : Shows geo st.2 st.1.disk node.map
  bytes : File.bytes geo st.1.disk node.map = a.byte

variable {a : Bytes} {node : Node}

/-- **Writing a file** writes the array, up to the largest size. -/
theorem writeNodeDo_spec {r : Written} (h : Refines geo a node st)
    (hres : writeNodeDo geo csum env node off size buf st = r) (hspace : r.nospace = false)
    (hage : r.st.1.xgen < st.1.cache.gen + 2 ^ 32) :
    Refines geo (a.write off buf (min size (maxFile geo node.map - off))) r.node r.st ∧
      r.ret = (if maxFile geo node.map ≤ off ∧ size ≠ 0 then writeEfbig
        else min size (maxFile geo node.map - off)) ∧
      r.node.map.isExt = node.map.isExt := by
  unfold writeNodeDo at hres
  by_cases hbig : maxFile geo node.map ≤ off
  · rw [if_pos hbig] at hres
    subst hres
    rw [show min size (maxFile geo node.map - off) = 0 by omega, Bytes.write_zero]
    refine ⟨h, ?_, rfl⟩
    by_cases hsize : size = 0
    · simp [hsize]
    · simp [hsize, hbig]
  · rw [if_neg hbig] at hres
    dsimp only at hres
    rw [show (if maxFile geo node.map - off < size then maxFile geo node.map - off else size) =
      min size (maxFile geo node.map - off) by split <;> omega] at hres
    rw [if_neg fun hcond => hbig hcond.1]
    generalize hk : min size (maxFile geo node.map - off) = k at hres ⊢
    generalize hw : writeLoop geo csum env off k buf k ⟨0, node.size, false, st.1, node.map, st.2,
      fun _ => 0⟩ = w at hres
    have hstart : (⟨0, node.size, false, st.1, node.map, st.2, fun _ => 0⟩ : Writing).Ok geo
        node.map a.byte node.size off k buf := by
      refine ⟨h.map, h.shows, rfl, ?_, Nat.zero_le _, le_rfl, le_max_left _ _⟩
      rw [Buf.copy_zero]
      exact h.bytes
    have hloop :=
      @writeLoop_spec geo csum node.map buf env a.byte node.size off k (by omega) k _ hstart rfl
        (by dsimp only; omega)
    rw [hw] at hloop
    have hmax := h.max
    have hsize := h.size
    by_cases hdone : w.done = 0
    · rw [if_neg (by simpa using hdone)] at hres
      subst hres
      obtain ⟨-, hdone'⟩ := hloop hspace hage
      obtain rfl : k = 0 := by omega
      have hw0 : w = ⟨0, node.size, false, st.1, node.map, st.2, fun _ => 0⟩ := hw.symm
      rw [Bytes.write_zero]
      rw [hw0, if_neg (by simp)]
      exact ⟨h, rfl, rfl⟩
    · rw [if_pos hdone] at hres
      subst hres
      obtain ⟨hok, hdone'⟩ := hloop hspace hage
      have hisize := hok.isize
      have hmaxEq := @maxFile_congr geo _ _ hok.kind
      have hnew : (if w.done ≠ 0 ∧ off + w.done > w.isize then off + w.done else w.isize) =
          max node.size (off + k) := by
        split <;> omega
      refine ⟨⟨?_, ?_, hok.map, ?_, ?_⟩, hdone', hok.kind⟩
      · dsimp only
        rw [hnew, Bytes.write_size (by omega), hsize]
      · dsimp only
        rw [hnew, hmaxEq]
        omega
      · exact @Meta.shows geo env.close _ w.fs w.fs w.map w.map none hok.shows .refl
      · dsimp only
        rw [hok.bytes, hdone']
        rfl

/-- A write changes the tree once at most for each block it meets. -/
theorem writeNodeDo_changed :
    (writeNodeDo geo csum env node off size buf st).st.1.xgen ≤
      st.1.xgen + blocksMet geo off size := by
  unfold writeNodeDo
  split
  · exact Nat.le_add_right _ _
  dsimp only
  generalize hk : (if maxFile geo node.map - off < size then maxFile geo node.map - off else size) =
    k
  have hle : k ≤ size := by
    rw [← hk]
    split <;> omega
  have hloop :=
    @writeLoop_changes geo csum buf env ⟨0, node.size, false, st.1, node.map, st.2, fun _ => 0⟩ off
      k k (Nat.zero_le k)
  have hmet : (off + k) / geo.blockSize ≤ (off + size) / geo.blockSize :=
    Nat.div_le_div_right (Nat.add_le_add_left hle off)
  have hall : (writeLoop geo csum env off k buf k ⟨0, node.size, false, st.1, node.map, st.2,
      fun _ => 0⟩).fs.xgen ≤ st.1.xgen + blocksMet geo off size := by
    unfold blocksMet
    dsimp only [Nat.add_zero] at hloop
    omega
  split <;> exact hall

/-! ### Cutting -/

theorem fileBlk_xgen : (fileBlk geo fs m idx).2.xgen = fs.xgen := by
  cases m with
  | blocks ino => rfl
  | extents ino => exact Extents.extMap_xgen

theorem clearTail_xgen : (clearTail geo env m n st).1.xgen = st.1.xgen := by
  have hlookup : (lookupBlk geo env.look m st (n / geo.blockSize % 2 ^ 32)).2.1.xgen = st.1.xgen :=
    fileBlk_xgen
  unfold clearTail
  dsimp only
  split <;> exact hlookup

theorem truncate_changed {newSize : Nat} :
    (truncate geo csum env node newSize st).2.2.1.xgen ≤ st.1.xgen + cutChanges geo st.1.disk
      node.map := by
  unfold truncate
  split
  · exact Nat.le_add_right _ _
  dsimp only
  generalize (newSize / geo.blockSize + if newSize % geo.blockSize ≠ 0 then 1 else 0) % 2 ^ 32 =
    newBlocks
  generalize (if (node.size / geo.blockSize + if node.size % geo.blockSize ≠ 0 then 1 else 0) >
    0xFFFFFFFF then 0xFFFFFFFF
    else node.size / geo.blockSize + if node.size % geo.blockSize ≠ 0 then 1 else 0) = oldBlocks
  have hfreed :=
    (@freeBlocksFrom_changed geo (env.alloc newBlocks) csum st.1 newBlocks node.map env.cutDue).2
  by_cases hcut : newBlocks < oldBlocks
  · simp only [if_pos hcut]
    split
    · rw [clearTail_xgen]
      exact hfreed
    · exact hfreed
  · simp only [if_neg hcut]
    split
    · rw [clearTail_xgen]
      exact Nat.le_add_right _ _
    · exact Nat.le_add_right _ _

/-- **The rest of a block is cleared.** -/
theorem clearTail_spec {d : Disk} (h : Sees geo d m st) (hn : n / geo.blockSize < 2 ^ 32) :
    let st' := clearTail geo env m n st
    MapOk geo st'.1 m ∧ Shows geo st'.2 st'.1.disk m ∧
      bytes geo st'.1.disk m = (bytes geo d m).copy n (fun _ => 0) 0
        (geo.blockSize - n % geo.blockSize) := by
  have hmod := Nat.mod_lt n (@blockSize_pos geo)
  have hfit : n % geo.blockSize + (geo.blockSize - n % geo.blockSize) ≤ geo.blockSize := by omega
  obtain ⟨st₁, hlookup, hsees⟩ := lookupBlk_spec h
  obtain ⟨rfl, hok, hshows⟩ := hsees
  unfold clearTail
  dsimp only
  rw [Nat.mod_eq_of_lt hn, hlookup]
  by_cases hzero : dataBlk geo st₁.1.disk m (n / geo.blockSize) = 0
  · rw [if_pos hzero]
    refine ⟨hok, hshows, ?_⟩
    -- there is nothing to clear
    funext i
    refine @inBlocks_update i _ 0 geo.blockSize (contents geo st₁.1.disk m)
      (contents geo st₁.1.disk m) n (fun _ => 0) blockSize_pos hfit (fun _ _ => rfl) fun i _ => ?_
    rw [contents_of_zero hzero]
    split <;> rfl
  · rw [if_neg hzero]
    obtain ⟨tb, dev₁, hread, hsame, hcons, htb⟩ := @Dev.readBlock_spec st₁.2 geo.blockSize
      (dataBlk geo st₁.1.disk m (n / geo.blockSize)) hshows.consistent
    rw [hread]
    dsimp only
    rw [Buf.clear_eq_copy]
    have hsees : Sees geo st₁.1.disk m st₁ := ⟨rfl, hok, hshows⟩
    refine ⟨(MapOk.writeBlock hok hzero rfl).1,
      (hsees.same hsame hcons).shows.writeData hok (fun _ _ => nofun) rfl hzero, ?_⟩
    exact bytes_writeBlock hok rfl hzero hfit (fun _ _ => rfl) fun i hi _ => by
      rw [htb i hi, hsees.view hzero]

/-- The number of blocks that `n` bytes need. -/
theorem blocks_range {bs : Nat} (hbs : 0 < bs) :
    n ≤ (n / bs + if n % bs ≠ 0 then 1 else 0) * bs ∧
      (n / bs + if n % bs ≠ 0 then 1 else 0) * bs = n + if n % bs ≠ 0 then bs - n % bs else 0 := by
  have hdiv := Nat.div_add_mod n bs
  have hmod := Nat.mod_lt n hbs
  rw [Nat.add_mul, Nat.mul_comm (n / bs)]
  split
  · rw [Nat.one_mul]
    omega
  · omega

/-- What is left of a file after the blocks past the new end are freed. -/
structure CutTo (geo : Geometry) (a : Bytes) (newBlocks : Nat) (m m' : Mapping) (st : Fs × Dev) :
    Prop where
  map : MapOk geo st.1 m'
  shows : Shows geo st.2 st.1.disk m'
  kind : m'.isExt = m.isExt
  bytes : ∀ i, File.bytes geo st.1.disk m' i = if i < newBlocks * geo.blockSize then a.byte i else 0

/-- The blocks from `newBlocks` on are freed. -/
theorem cutTo_of_free {newBlocks : Nat} (h : Refines geo a node st)
    (hres : freeBlocksFrom (env.alloc newBlocks) csum env.cutDue st.1 node.map newBlocks =
      (fs', m'))
    (hage : fs'.xgen < st.1.cache.gen + 2 ^ 32) :
    CutTo geo a newBlocks node.map m' (fs', env.cut.after st.2 fs' m' none) := by
  obtain ⟨-, hkind, hspec⟩ := freeBlocksFrom_spec h.map hres
  obtain ⟨hok, hdata, hframe⟩ := hspec hage
  have hcontents : ∀ j, contents geo fs'.disk m' j = if j < newBlocks then contents geo st.1.disk
      node.map j else fun _ => 0 := by
    intro j
    split
    next hj => exact contents_congr ((hdata j).trans (if_pos hj)) (hframe j hj)
    next hj => exact contents_of_zero ((hdata j).trans (if_neg hj))
  have hkept : Kept geo none st.1.disk fs'.disk node.map m' := by
    refine ⟨fun j _ hj => ?_, fun j _ hj => ?_⟩
    · rw [hdata] at hj ⊢
      split at hj
      next hlt => rw [if_pos hlt]
      · exact absurd rfl hj
    · rw [← contents_of_ne hj, hcontents]
      rw [hdata] at hj
      split at hj
      next hlt => rw [if_pos hlt]
      · exact absurd rfl hj
  refine ⟨hok, env.cut.shows h.shows hkept, hkind, fun i => ?_⟩
  have hidx : i / geo.blockSize < newBlocks ↔ i < newBlocks * geo.blockSize :=
    Nat.div_lt_iff_lt_mul blockSize_pos
  rw [← h.bytes]
  unfold File.bytes inBlocks
  rw [hcontents]
  by_cases hi : i < newBlocks * geo.blockSize
  · rw [if_pos hi, if_pos (hidx.mpr hi)]
  · rw [if_neg hi, if_neg fun h' => hi (hidx.mp h')]

/-- **Cutting or extending a file** cuts or extends the array; extending it past the largest size
fails. -/
theorem truncate_spec {newSize : Nat} {ret : Int} {node' : Node} {st' : Fs × Dev}
    (h : Refines geo a node st)
    (hres : truncate geo csum env node newSize st = (ret, node', st'))
    (hage : st'.1.xgen < st.1.cache.gen + 2 ^ 32) :
    if newSize > a.size ∧ newSize > maxFile geo node.map then ret = -27 ∧ node' = node ∧ st' = st
    else ret = 0 ∧ Refines geo (a.truncate newSize) node' st' ∧
      node'.map.isExt = node.map.isExt := by
  have hpos := @blockSize_pos geo
  have hsize := h.size
  have hmax := h.max
  unfold truncate at hres
  rw [← hsize]
  by_cases hbig : newSize > node.size ∧ newSize > maxFile geo node.map
  · rw [if_pos hbig] at hres ⊢
    cases hres
    exact ⟨rfl, rfl, rfl⟩
  rw [if_neg hbig] at hres ⊢
  have hnew : newSize ≤ maxFile geo node.map := by omega
  have hle := @maxFile_le geo node.map
  -- block counts of sizes up to the largest
  have hcount : ∀ k, k ≤ maxFile geo node.map →
      k / geo.blockSize + (if k % geo.blockSize ≠ 0 then 1 else 0) < 2 ^ 32 := by
    intro k hk
    have hdiv : k / geo.blockSize < 2 ^ 31 := Nat.div_lt_of_lt_mul (by rw [Nat.mul_comm]; omega)
    split <;> omega
  have hidx : newSize / geo.blockSize < 2 ^ 32 :=
    lt_of_le_of_lt (Nat.le_add_right _ _) (hcount newSize hnew)
  dsimp only at hres
  rw [Nat.mod_eq_of_lt (hcount newSize hnew),
    if_neg (not_lt.mpr (Nat.le_of_lt_succ (hcount node.size hmax)))] at hres
  have hrange := @blocks_range newSize _ hpos
  have hrange' := @blocks_range node.size _ hpos
  generalize hnb : newSize / geo.blockSize + (if newSize % geo.blockSize ≠ 0 then 1 else 0) =
    newBlocks at hres hrange
  generalize hob : node.size / geo.blockSize + (if node.size % geo.blockSize ≠ 0 then 1 else 0) =
    oldBlocks at hres hrange'
  have hfree : ∃ m₁ st₁, (if newBlocks < oldBlocks then
      let (fs, map) := freeBlocksFrom (env.alloc newBlocks) csum env.cutDue st.1 node.map newBlocks
      (map, fs, env.cut.after st.2 fs map none) else (node.map, st)) = (m₁, st₁) ∧
      (st₁.1.xgen < st.1.cache.gen + 2 ^ 32 → CutTo geo a newBlocks node.map m₁ st₁) := by
    by_cases hcut : newBlocks < oldBlocks
    · rw [if_pos hcut]
      exact ⟨_, _, rfl, cutTo_of_free h rfl⟩
    · rw [if_neg hcut]
      refine ⟨_, _, rfl, fun _ => ⟨h.map, h.shows, rfl, fun i => ?_⟩⟩
      -- what is past the blocks that are kept is past the end
      rw [h.bytes]
      split
      · rfl
      next hi =>
        have hmul := Nat.mul_le_mul_right geo.blockSize (Nat.le_of_not_lt hcut)
        exact a.past i (by omega)
  obtain ⟨m₁, st₁, hpair, hcutTo⟩ := hfree
  rw [hpair] at hres
  by_cases htail : newSize < node.size ∧ newSize % geo.blockSize ≠ 0
  · rw [if_pos htail] at hres
    rw [if_pos htail.2] at hrange
    cases hres
    obtain ⟨hmap, hshows, hkind, hbytes⟩ := hcutTo (by rwa [clearTail_xgen] at hage)
    obtain ⟨hmap', hshows', hbytes'⟩ := clearTail_spec ⟨rfl, hmap, hshows⟩ hidx
    refine ⟨rfl, ⟨rfl, ?_, hmap', env.close.shows hshows' .refl, ?_⟩, hkind⟩
    · dsimp only
      rwa [maxFile_congr hkind]
    · dsimp only
      rw [hbytes']
      funext i
      simp only [Bytes.truncate, Buf.copy]
      split
      next hi => rw [if_neg (by omega)]
      next hi =>
        rw [hbytes]
        by_cases hlt : i < newSize
        · rw [if_pos hlt, if_pos (by omega)]
        · rw [if_neg hlt, if_neg (by omega)]
  · rw [if_neg htail] at hres
    cases hres
    obtain ⟨hmap, hshows, hkind, hbytes⟩ := hcutTo hage
    refine ⟨rfl, ⟨rfl, ?_, hmap, env.close.shows hshows .refl, ?_⟩, hkind⟩
    · dsimp only
      rwa [maxFile_congr hkind]
    · dsimp only
      funext i
      rw [hbytes]
      simp only [Bytes.truncate]
      by_cases hlt : i < newSize
      · rw [if_pos hlt, if_pos (by omega)]
      rw [if_neg hlt]
      split
      next hi =>
        -- in the last block, past the old end too
        have hlast : newSize % geo.blockSize ≠ 0 := by
          intro hzero
          rw [if_neg (by simpa using hzero)] at hrange
          omega
        exact a.past i (by omega)
      · rfl

end MaeroOS.Ext2.File
