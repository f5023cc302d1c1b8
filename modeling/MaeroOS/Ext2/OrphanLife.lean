import MaeroOS.Ext2.Orphan
import MaeroOS.Lib.Lives

/-!
# The life of an open inode

Over whole runs of an instance: when is an inode deleted, and how often.

A close of a marked node relies on the mark alone, so the invariant has to keep every mark on an
inode that is in use, without links and open (`Inv.marked`), and every close that waits for the lock
on one that is in use, without links and without references (`Inv.waiting`). References have to be
those of the holders (`Inv.refs`). Three steps can break this.

* The cleanup on a switch to read-write deletes recorded orphans without a look at their nodes: it
  takes an inode away from under its descriptors, and leaves the mark on the node, so that the last
  close deletes whatever file has the number by then (`remount_deletes_open`).
* A reference may be taken on a node that was looked up before its inode lost its last name and its
  last reference.
* A directory that is open counts no references, so it is deleted with its name. When the number
  belongs to a file and the file is looked up, the close of the directory drops a reference on the
  file (`directory_close_drops_file`).

`Careful` excludes the three, and nothing else is needed.
-/

namespace MaeroOS.Ext2.Orphan

open Function
open Lib (Run Lives run_drive)

variable {geo : Geometry} {s s' : Fs} {ino : Nat} {i victim : Inode}

/-! ## Steps that end no life -/

/-- What lives are about in an inode: its links, which file it is, and whether that is a
directory. -/
def Inode.life (i : Inode) : Nat × Nat × Bool := (i.links, i.stamp, i.isDir)

/-- The inodes keep their lives, and all else that lives are about is as before. -/
structure Same (s s' : Fs) : Prop where
  life : ∀ ino, (s'.inode ino).life = (s.inode ino).life
  inUse : s'.inUse = s.inUse
  node : s'.node = s.node
  held : s'.held = s.held
  pending : s'.pending = s.pending
  released : s'.released = s.released
  born : s'.born = s.born
  ro : s'.ro = s.ro

theorem links_of_life {i j : Inode} (h : i.life = j.life) : i.links = j.links :=
  congrArg (·.1) h

theorem stamp_of_life {i j : Inode} (h : i.life = j.life) : i.stamp = j.stamp :=
  congrArg (·.2.1) h

theorem isDir_of_life {i j : Inode} (h : i.life = j.life) : i.isDir = j.isDir :=
  congrArg (·.2.2) h

namespace Same

theorem refl (s : Fs) : Same s s := ⟨fun _ => rfl, rfl, rfl, rfl, rfl, rfl, rfl, rfl⟩

theorem trans {s₁ s₂ s₃ : Fs} (h : Same s₁ s₂) (h' : Same s₂ s₃) : Same s₁ s₃ where
  life ino := (h'.life ino).trans (h.life ino)
  inUse := h'.inUse.trans h.inUse
  node := h'.node.trans h.node
  held := h'.held.trans h.held
  pending := h'.pending.trans h.pending
  released := h'.released.trans h.released
  born := h'.born.trans h.born
  ro := h'.ro.trans h.ro

/-- The records of orphans play no part. -/
theorem records (s : Fs) (file : Option (List OrphanBlk)) (last : Nat) :
    Same s { s with orphanFile := file, lastOrphan := last } :=
  ⟨fun _ => rfl, rfl, rfl, rfl, rfl, rfl, rfl, rfl⟩

end Same

theorem writeInode_same (hlife : i.life = (s.inode ino).life) : Same s (writeInode s ino i) := by
  unfold writeInode
  split
  · exact Same.refl s
  refine ⟨fun j => ?_, rfl, rfl, rfl, rfl, rfl, rfl, rfl⟩
  dsimp only
  by_cases hj : j = ino
  · rw [hj, update_self, hlife]
  · rw [update_of_ne hj]

theorem Same.write (hs : Same s s') (hro : s.ro = false) (ino : Nat) (i : Inode) :
    Same { s with inode := update s.inode ino i } (writeInode s' ino i) := by
  have hro' : ¬ s'.ro = true := by rw [hs.ro, hro]; exact Bool.false_ne_true
  rw [writeInode, if_neg hro']
  refine ⟨fun j => ?_, hs.inUse, hs.node, hs.held, hs.pending, hs.released, hs.born, hs.ro⟩
  dsimp only
  by_cases hj : j = ino
  · rw [hj, update_self, update_self]
  · rw [update_of_ne hj, update_of_ne hj, hs.life]

theorem orphanAdd_same (s : Fs) (ino : Nat) (i : Inode) :
    Same s (orphanAdd s ino i).2 ∧ (orphanAdd s ino i).1.life = i.life := by
  unfold orphanAdd
  split
  · exact ⟨Same.refl s, rfl⟩
  split
  · exact ⟨Same.records s _ _, rfl⟩
  · exact ⟨Same.records s _ _, rfl⟩

theorem listDel_same {next : Nat} :
    ∀ (steps cur : Nat), listDel geo ino next steps cur s = some s' → Same s s' := by
  intro steps
  induction steps with
  | zero => intro cur h; cases h
  | succ steps ih =>
    intro cur h
    unfold listDel at h
    split at h
    · cases h
    split at h
    · cases h
      exact writeInode_same rfl
    · exact ih _ h

theorem orphanDel_same (geo : Geometry) (s : Fs) (ino : Nat) (i : Inode) :
    Same s (orphanDel geo s ino i).2 ∧ (orphanDel geo s ino i).1.life = i.life := by
  unfold orphanDel
  split
  · exact ⟨Same.refl s, rfl⟩
  split
  · exact ⟨Same.records s _ _, rfl⟩
  split
  · exact ⟨Same.records s _ _, rfl⟩
  split
  · next hdel => exact ⟨listDel_same _ _ hdel, rfl⟩
  · exact ⟨Same.refl s, rfl⟩

theorem truncateDo_same (geo : Geometry) (ino size : Nat) : Same s (truncateDo geo s ino size) := by
  unfold truncateDo
  dsimp only
  split
  · exact Same.refl s
  · apply writeInode_same
    split <;> rfl

theorem truncate_same (ino size : Nat) : Same s (truncate geo s ino size) := by
  unfold truncate
  split
  · obtain ⟨hadd, haddl⟩ := orphanAdd_same s ino (s.inode ino)
    have hwrite := writeInode_same (haddl.trans (hadd.life ino).symm)
    have hcut := (hadd.trans hwrite).trans (truncateDo_same geo ino size)
    dsimp only
    generalize truncateDo geo _ ino size = s₁ at hcut ⊢
    obtain ⟨hdel, hdell⟩ := orphanDel_same geo s₁ ino (s₁.inode ino)
    exact (hcut.trans hdel).trans (writeInode_same (hdell.trans (hdel.life ino).symm))
  · exact truncateDo_same geo ino size

/-! ## Deletion -/

/-- The life of `victim` in inode `ino` has ended, and is in the log. -/
structure Deleted (s : Fs) (ino : Nat) (victim : Inode) (s' : Fs) : Prop where
  life : ∀ j, j ≠ ino → (s'.inode j).life = (s.inode j).life
  inUse : s'.inUse = Function.update s.inUse ino false
  node : s'.node = s.node
  held : s'.held = s.held
  pending : s'.pending = s.pending
  released : s'.released =
    ⟨ino, victim.stamp, victim.links, (s.node ino).refs, holders s ino, victim.blocks⟩ :: s.released
  born : s'.born = s.born
  ro : s'.ro = s.ro

theorem deleteInode_spec (hro : s.ro = false) (hrange : geo.InRange ino) (victim : Inode)
    (unorphan : Bool) (now : Nat) :
    Deleted s ino victim (deleteInode geo s ino victim unorphan now) := by
  have hlog : logRelease s ino victim = { s with released :=
      ⟨ino, victim.stamp, victim.links, (s.node ino).refs, holders s ino, victim.blocks⟩ ::
        s.released } := by
    rw [logRelease, hro]
    rfl
  have hdel : ∀ r : Inode × Fs, Same (logRelease s ino victim) r.2 → Deleted s ino victim
      (freeInode geo (writeInode r.2 ino { r.1 with size := 0, dtime := now }) ino) := by
    intro r hr
    rw [hlog] at hr
    have hro' : r.2.ro = false := hr.ro.trans hro
    have hfree : freeInode geo (writeInode r.2 ino { r.1 with size := 0, dtime := now }) ino =
        { r.2 with
          inode := update r.2.inode ino { r.1 with size := 0, dtime := now }
          inUse := update r.2.inUse ino false } := by
      simp [freeInode, writeInode, hro', hrange]
    rw [hfree]
    refine ⟨fun j hj => ?_, congrArg (update · ino false) hr.inUse, hr.node, hr.held, hr.pending,
      hr.released, hr.born, hr.ro⟩
    show (update r.2.inode ino _ j).life = _
    rw [update_of_ne hj]
    exact hr.life j
  cases unorphan with
  | false => exact hdel _ (Same.refl _)
  | true => exact hdel _ (orphanDel_same _ _ _ _).1

/-! ## The invariant -/

/-- The stamps of the inodes in use. -/
def lives (s : Fs) (ino : Nat) : Option Nat :=
  if s.inUse ino then some (s.inode ino).stamp else none

/-- What is held is the file that was opened, and its node has the operations it was opened with. A
directory that is held has links. -/
structure Kept (s : Fs) (d : Handle) : Prop where
  live : lives s d.ino = some d.stamp
  fits : (s.node d.ino).dir = some d.dir
  isDir : (s.inode d.ino).isDir = d.dir
  linked : d.dir = true → (s.inode d.ino).links ≠ 0

/-- An inode in use that no name leads to. -/
def Unlinked (geo : Geometry) (s : Fs) (ino : Nat) : Prop :=
  s.inUse ino = true ∧ (s.inode ino).links = 0 ∧ geo.InRange ino

/-- Those who hold an inode and count as references. -/
def counted (held : List Handle) (ino : Nat) : Nat := held.countP fun d => d.ino == ino && !d.dir

/-- What the lives of inodes rest on, in every state that a careful run reaches. -/
structure Inv (geo : Geometry) (s : Fs) : Prop where
  lives : Lives (lives s) (s.released.map (·.stamp)) s.born
  cause : ∀ r ∈ s.released, r.links = 0 ∧ r.refs = 0 ∧ r.holders = 0
  kept : ∀ d ∈ s.held, Kept s d
  refs : ∀ ino, (s.node ino).refs = counted s.held ino
  marked : ∀ ino, (s.node ino).orphan = true → Unlinked geo s ino ∧ 0 < (s.node ino).refs
  waiting : ∀ ino ∈ s.pending, Unlinked geo s ino ∧ (s.node ino).refs = 0
  apart : s.pending.Nodup

theorem lives_of_inUse (h : s.inUse ino = true) : lives s ino = some (s.inode ino).stamp := if_pos h

theorem inUse_of_lives {n : Nat} (h : lives s ino = some n) :
    s.inUse ino = true ∧ (s.inode ino).stamp = n := by
  unfold lives at h
  split at h
  · next huse => exact ⟨huse, Option.some.inj h⟩
  · cases h

/-- The inode and the node of what is held are as before. -/
theorem Kept.of_life {d : Handle} (h : Kept s d) (hnode : s'.node = s.node)
    (huse : s'.inUse d.ino = s.inUse d.ino) (hlife : (s'.inode d.ino).life = (s.inode d.ino).life) :
    Kept s' d where
  live := by
    rw [lives, huse, stamp_of_life hlife]
    exact h.live
  fits := hnode ▸ h.fits
  isDir := (isDir_of_life hlife).trans h.isDir
  linked := links_of_life hlife ▸ h.linked

theorem Unlinked.of_life (h : Unlinked geo s ino) (huse : s'.inUse ino = s.inUse ino)
    (hlife : (s'.inode ino).life = (s.inode ino).life) : Unlinked geo s' ino :=
  ⟨huse.trans h.1, (links_of_life hlife).trans h.2.1, h.2.2⟩

theorem counted_pos {held : List Handle} {d : Handle} (hd : d ∈ held) (hdir : d.dir = false) :
    0 < counted held d.ino :=
  List.countP_pos_iff.mpr ⟨d, hd, by simp [hdir]⟩

theorem counted_erase {held : List Handle} {d : Handle} (hd : d ∈ held) (j : Nat) :
    counted held j = counted (held.erase d) j + if d.ino == j && !d.dir then 1 else 0 := by
  unfold counted
  rw [(List.perm_cons_erase hd).countP_eq, List.countP_cons]

namespace Inv

theorem init (h : Mounted s) : Inv geo s := by
  have hlive : ∀ ino n, Orphan.lives s ino = some n → n = ino ∧ s.inUse ino = true := by
    intro ino n hn
    obtain ⟨huse, hstamp⟩ := inUse_of_lives hn
    exact ⟨hstamp.symm.trans (h.stamps ino), huse⟩
  constructor
  · rw [h.log]
    refine ⟨List.nodup_nil, fun _ _ _ => List.not_mem_nil, fun a a' n ha ha' => ?_,
      fun a n ha => ?_, fun n hn => nomatch hn⟩
    · exact (hlive a n ha).1.symm.trans (hlive a' n ha').1
    · obtain ⟨rfl, huse⟩ := hlive a n ha
      exact h.born n huse
  · rw [h.log]
    exact fun r hr => nomatch hr
  · rw [h.nobody]
    exact fun d hd => nomatch hd
  · intro ino
    rw [h.closed, h.nobody]
    rfl
  · intro ino hmark
    rw [h.closed] at hmark
    cases hmark
  · rw [h.idle]
    exact fun ino hino => nomatch hino
  · rw [h.idle]
    exact List.nodup_nil

variable (h : Inv geo s)

include h

/-- Whoever holds an inode without links has a reference on it. -/
theorem not_held (hlinks : (s.inode ino).links = 0) (hrefs : (s.node ino).refs = 0) :
    ∀ d ∈ s.held, d.ino ≠ ino := by
  rintro d hd rfl
  have hdir : d.dir = false := Bool.eq_false_iff.mpr fun hdir => (h.kept d hd).linked hdir hlinks
  have hpos := counted_pos hd hdir
  rw [← h.refs] at hpos
  omega

/-- Inodes may change as long as what is held, marked or waiting stays so. -/
theorem carry (hnode : s'.node = s.node) (hheld : s'.held = s.held)
    (hpending : s'.pending = s.pending)
    (hlives : Lives (Orphan.lives s') (s'.released.map (·.stamp)) s'.born)
    (hcause : ∀ r ∈ s'.released, r.links = 0 ∧ r.refs = 0 ∧ r.holders = 0)
    (hkept : ∀ d ∈ s.held, Kept s d → Kept s' d)
    (hgone : ∀ j, (s.node j).orphan = true ∨ j ∈ s.pending → Unlinked geo s j → Unlinked geo s' j) :
    Inv geo s' := by
  refine ⟨hlives, hcause, fun d hd => ?_, fun j => ?_, fun j hj => ?_, fun j hj => ?_,
    hpending ▸ h.apart⟩
  · rw [hheld] at hd
    exact hkept d hd (h.kept d hd)
  · rw [hnode, hheld]
    exact h.refs j
  · rw [hnode] at hj ⊢
    obtain ⟨hgone', hrefs⟩ := h.marked j hj
    exact ⟨hgone j (.inl hj) hgone', hrefs⟩
  · rw [hpending] at hj
    rw [hnode]
    obtain ⟨hgone', hrefs⟩ := h.waiting j hj
    exact ⟨hgone j (.inr hj) hgone', hrefs⟩

theorem same (hs : Same s s') : Inv geo s' := by
  have hlives : Orphan.lives s' = Orphan.lives s := by
    funext j
    unfold Orphan.lives
    rw [hs.inUse, stamp_of_life (hs.life j)]
  have huse : ∀ j, s'.inUse j = s.inUse j := fun j => congrFun hs.inUse j
  refine h.carry hs.node hs.held hs.pending ?_ (hs.released ▸ h.cause)
    (fun d _ hk => hk.of_life hs.node (huse _) (hs.life _)) fun j _ hj =>
      hj.of_life (huse j) (hs.life j)
  rw [hlives, hs.released, hs.born]
  exact h.lives

/-- An inode that nobody holds, without links, references and waiting closes, may be deleted. -/
theorem delete (hd : Deleted s ino victim s') (huse : s.inUse ino = true)
    (hstamp : victim.stamp = (s.inode ino).stamp) (hlinks : victim.links = 0)
    (hrefs : (s.node ino).refs = 0) (hheld : ∀ d ∈ s.held, d.ino ≠ ino) (hidle : ino ∉ s.pending) :
    Inv geo s' := by
  have hlives : Orphan.lives s' = update (Orphan.lives s) ino none := by
    funext j
    unfold Orphan.lives
    rw [hd.inUse]
    by_cases hj : j = ino
    · rw [hj, update_self, update_self]
      rfl
    · rw [update_of_ne hj, update_of_ne hj, stamp_of_life (hd.life j hj)]
  have huses : ∀ j, j ≠ ino → s'.inUse j = s.inUse j :=
    fun j hj => by rw [hd.inUse, update_of_ne hj]
  have hnobody : holders s ino = 0 := List.countP_eq_zero.mpr fun d hd => by simpa using hheld d hd
  refine h.carry hd.node hd.held hd.pending ?_ ?_ (fun d hmem hk => ?_) fun j hj hgone => ?_
  · rw [hlives, hd.released, hd.born]
    exact h.lives.die ((lives_of_inUse huse).trans (congrArg some hstamp.symm))
  · rw [hd.released]
    exact List.forall_mem_cons.mpr ⟨⟨hlinks, hrefs, hnobody⟩, h.cause⟩
  · have hne := hheld d hmem
    exact hk.of_life hd.node (huses _ hne) (hd.life _ hne)
  · have hne : j ≠ ino := by
      rintro rfl
      rcases hj with hj | hj
      · have := (h.marked j hj).2
        omega
      · exact hidle hj
    exact hgone.of_life (huses j hne) (hd.life j hne)

/-- The links of an inode that has some may change; a directory that is held keeps some. -/
theorem relink (hlinks : (s.inode ino).links ≠ 0) (hstamp : i.stamp = (s.inode ino).stamp)
    (hdir : i.isDir = (s.inode ino).isDir)
    (hheld : ∀ d ∈ s.held, d.ino = ino → i.isDir = true → i.links ≠ 0) :
    Inv geo { s with inode := update s.inode ino i } := by
  have hother : ∀ j, j ≠ ino → (update s.inode ino i j).life = (s.inode j).life :=
    fun j hj => congrArg Inode.life (update_of_ne hj _ _)
  have hlives : Orphan.lives { s with inode := update s.inode ino i } = Orphan.lives s := by
    funext j
    unfold Orphan.lives
    dsimp only
    by_cases hj : j = ino
    · rw [hj, update_self, hstamp]
    · rw [update_of_ne hj]
  refine h.carry rfl rfl rfl (hlives ▸ h.lives) h.cause (fun d hd hk => ?_) fun j _ hgone => ?_
  · by_cases hj : d.ino = ino
    · have hself : (update s.inode ino i d.ino) = i := by rw [hj, update_self]
      have hisdir : i.isDir = d.dir := by
        rw [hdir, ← hj]
        exact hk.isDir
      refine ⟨hlives ▸ hk.live, hk.fits, ?_, fun hd' => ?_⟩
      · exact (congrArg Inode.isDir hself).trans hisdir
      · show (update s.inode ino i d.ino).links ≠ 0
        rw [hself]
        exact hheld d hd hj (hisdir.trans hd')
    · exact hk.of_life rfl rfl (hother d.ino hj)
  · refine hgone.of_life rfl (hother j ?_)
    rintro rfl
    exact hlinks hgone.2.1

end Inv

/-! ## The cleanup -/

/-- No inode without links is open, or about to be released by a close. -/
def Quiet (s : Fs) : Prop :=
  ∀ ino, s.inUse ino = true → (s.inode ino).links = 0 → (s.node ino).refs = 0 ∧ ino ∉ s.pending

/-- The states that the cleanup goes through. -/
structure Cleaning (geo : Geometry) (s : Fs) : Prop where
  inv : Inv geo s
  quiet : Quiet s
  writable : s.ro = false

namespace Cleaning

theorem same (h : Cleaning geo s) (hs : Same s s') : Cleaning geo s' := by
  refine ⟨h.inv.same hs, fun j hj hlinks => ?_, hs.ro.trans h.writable⟩
  rw [hs.inUse] at hj
  rw [links_of_life (hs.life j)] at hlinks
  rw [hs.node, hs.pending]
  exact h.quiet j hj hlinks

theorem finish (h : Cleaning geo s) (ino now : Nat) :
    Cleaning geo (orphanFinish geo s ino now).2 := by
  unfold orphanFinish
  dsimp only
  split
  · exact h
  next hrange =>
  split
  · exact h
  next huse =>
  have huse' : s.inUse ino = true := by
    cases hu : s.inUse ino with
    | true => rfl
    | false => exact absurd (.inr hu) huse
  split
  · next hlinks =>
    -- an orphan without links: its node was not asked, `Quiet` answers for it
    have hd := deleteInode_spec h.writable (not_not.mp hrange) (s.inode ino) false now
    obtain ⟨hrefs, hidle⟩ := h.quiet ino huse' hlinks
    have hheld := h.inv.not_held hlinks hrefs
    refine ⟨h.inv.delete hd huse' rfl hlinks hrefs hheld hidle, fun j hj hlinks' => ?_,
      hd.ro.trans h.writable⟩
    have hne : j ≠ ino := by
      rintro rfl
      rw [hd.inUse, update_self] at hj
      cases hj
    rw [hd.inUse, update_of_ne hne] at hj
    rw [links_of_life (hd.life j hne)] at hlinks'
    rw [hd.node, hd.pending]
    exact h.quiet j hj hlinks'
  · apply h.same
    apply writeInode_same
    split <;> rfl

theorem slots (now : Nat) : ∀ (l : List Nat) {s : Fs}, Cleaning geo s →
    Cleaning geo
      (l.foldl (fun s ino => if ino = 0 then s else (orphanFinish geo s ino now).2) s) := by
  intro l
  induction l with
  | nil => exact fun h => h
  | cons ino l ih =>
    intro s h
    apply ih
    dsimp only
    split
    · exact h
    · exact h.finish ino now

theorem file (h : Cleaning geo s) (now : Nat) : Cleaning geo (cleanupFile geo s now) := by
  unfold cleanupFile
  split
  · exact h
  · exact (slots now _ h).same (Same.records _ _ _)

theorem list (now : Nat) : ∀ (steps ino : Nat) {s : Fs}, Cleaning geo s →
    Cleaning geo (cleanupList geo now steps ino s) := by
  intro steps
  induction steps with
  | zero => exact fun ino s h => h.same (Same.records _ _ _)
  | succ steps ih =>
    intro ino s h
    unfold cleanupList
    split
    · exact h.same (Same.records _ _ _)
    · exact ih _ ((h.finish ino now).same (Same.records _ _ _))

theorem cleanup (h : Cleaning geo s) (now : Nat) : Cleaning geo (orphanCleanup geo s now) := by
  unfold orphanCleanup
  split
  · exact h
  · exact list now _ _ (h.file now)

end Cleaning

/-! ## The steps -/

/-- What the steps of a careful run keep to. A reference is taken on a node with the operations for
its inode, and the inode still has a name or is held by somebody; a directory keeps its name while
it is held; and the instance becomes writable only while no inode without links is held. -/
def Careful (s : Fs) : Event → Prop
  | .open ino _ => (s.node ino).dir = some (s.inode ino).isDir ∧
      ((s.inUse ino = true ∧ 0 < (s.inode ino).links) ∨ 0 < (s.node ino).refs)
  | .dropName ino _ => (s.inode ino).isDir = true → ∀ d ∈ s.held, d.ino ≠ ino
  | .setRo ro _ => ro = false → s.ro = true → Quiet s
  | _ => True

namespace Inv

variable (h : Inv geo s)

include h

/-- A switch of the instance. -/
theorem flags (ro : Bool) : Inv geo { s with ro := ro } :=
  { h with kept := fun d hd => { h.kept d hd with } }

/-- A node changes together with those who hold its inode and the closes that wait. -/
theorem setNode {n : Node} {held : List Handle} {pending : List Nat} (hkept : ∀ d ∈ held, Kept s d)
    (hdir : ∀ d ∈ held, d.ino = ino → n.dir = some d.dir)
    (hrefs : ∀ j, (if j = ino then n.refs else (s.node j).refs) = counted held j)
    (hmark : n.orphan = true → Unlinked geo s ino ∧ 0 < n.refs)
    (hwait : ∀ j ∈ pending, (j = ino ∧ Unlinked geo s j ∧ n.refs = 0) ∨ (j ≠ ino ∧ j ∈ s.pending))
    (hapart : pending.Nodup) :
    Inv geo { s with held := held, node := update s.node ino n, pending := pending } := by
  refine ⟨h.lives, h.cause, fun d hd => ?_, fun j => ?_, fun j hj => ?_, fun j hj => ?_, hapart⟩
  · obtain ⟨hlive, hfits, hisdir, hlinked⟩ := hkept d hd
    refine ⟨hlive, ?_, hisdir, hlinked⟩
    dsimp only
    by_cases hj : d.ino = ino
    · rw [hj, update_self]
      exact hdir d hd hj
    · rw [update_of_ne hj]
      exact hfits
  · rw [← hrefs]
    simp only [update_apply, apply_ite Node.refs]
  · dsimp only at hj ⊢
    by_cases hne : j = ino
    · rw [hne, update_self] at hj ⊢
      exact hmark hj
    · rw [update_of_ne hne] at hj ⊢
      exact h.marked j hj
  · dsimp only
    rcases hwait j hj with ⟨rfl, hgone, hzero⟩ | ⟨hne, hin⟩
    · rw [update_self]
      exact ⟨hgone, hzero⟩
    · rw [update_of_ne hne]
      exact h.waiting j hin

/-- The references of a node, if one number is counted as before. -/
theorem refs_unchanged (j : Nat) :
    (if j = ino then (s.node ino).refs else (s.node j).refs) = counted s.held j := by
  rw [← h.refs]
  split
  · next heq => rw [heq]
  · rfl

theorem lookup (ino : Nat) : Inv geo (makeNode s ino) := by
  refine h.setNode h.kept (fun d hd hino => ?_) h.refs_unchanged (h.marked ino)
    (fun j hj => ?_) h.apart
  · rw [← hino, (h.kept d hd).isDir]
  · by_cases hne : j = ino
    · subst hne
      exact .inl ⟨rfl, h.waiting j hj⟩
    · exact .inr ⟨hne, hj⟩

theorem retain {write : Bool} (hcare : Careful s (.open ino write)) :
    Inv geo (retain s ino write) := by
  obtain ⟨hfits, hlive⟩ := hcare
  have hdir : ((s.node ino).dir == some true) = (s.inode ino).isDir := by
    rw [hfits]
    cases (s.inode ino).isDir <;> rfl
  have hnew : Kept s ⟨ino, (s.inode ino).stamp, (s.inode ino).isDir, write⟩ := by
    rcases hlive with ⟨huse, hlinks⟩ | hrefs
    · exact ⟨lives_of_inUse huse, hfits, rfl, fun _ => Nat.pos_iff_ne_zero.mp hlinks⟩
    · -- somebody else holds it, and not as a directory
      rw [h.refs] at hrefs
      obtain ⟨d, hd, hsame⟩ := List.countP_pos_iff.mp hrefs
      rw [Bool.and_eq_true, beq_iff_eq, Bool.not_eq_true'] at hsame
      obtain ⟨rfl, hfile⟩ := hsame
      have hk := h.kept d hd
      refine ⟨lives_of_inUse (inUse_of_lives hk.live).1, hfits, rfl, fun hisdir => ?_⟩
      rw [hk.isDir, hfile] at hisdir
      cases hisdir
  have hkept := List.forall_mem_cons.mpr ⟨hnew, h.kept⟩
  unfold Orphan.retain
  dsimp only
  rw [hdir]
  split
  · next hisdir =>
    -- a directory, and nothing but the handle is new
    refine { h with kept := fun d hd => { hkept d hd with }, refs := fun j => ?_ }
    rw [h.refs]
    simp [counted, hisdir]
  · next hisdir =>
    have hisdir := Bool.eq_false_iff.mpr hisdir
    refine h.setNode hkept (fun d hd hino => ?_) (fun j => ?_) (fun hmark => ?_)
      (fun j hj => ?_) h.apart
    · rw [← (hkept d hd).isDir, hino]
      exact hfits
    · by_cases hj : j = ino
      · simp [counted, hisdir, hj, h.refs]
      · simp [counted, hj, Ne.symm hj, h.refs]
    · exact ⟨(h.marked ino hmark).1, Nat.succ_pos _⟩
    · refine .inr ⟨?_, hj⟩
      rintro rfl
      obtain ⟨⟨-, hzero, -⟩, hnone⟩ := h.waiting j hj
      omega

theorem close {d : Handle} (hd : d ∈ s.held) : Inv geo (close s d) := by
  have hk := h.kept d hd
  have hkept : ∀ d' ∈ s.held.erase d, Kept s d' :=
    fun d' hd' => h.kept d' (List.mem_of_mem_erase hd')
  have hdirs : ∀ d' ∈ s.held.erase d, d'.ino = d.ino → (s.node d.ino).dir = some d'.dir :=
    fun d' hd' hino => hino ▸ (hkept d' hd').fits
  unfold Orphan.close
  dsimp only
  rw [hk.fits]
  cases hdir : d.dir with
  | true =>
    rw [if_pos rfl]
    refine { h with kept := fun d' hd' => { hkept d' hd' with }, refs := fun j =>
      (h.refs j).trans ?_ }
    rw [counted_erase hd]
    simp [hdir]
  | false =>
    have hpos := counted_pos hd hdir
    rw [← h.refs] at hpos
    have hrefs : ∀ j, (if j = d.ino then (s.node d.ino).refs - 1 else (s.node j).refs) =
        counted (s.held.erase d) j := by
      intro j
      rw [h.refs, h.refs, counted_erase hd, counted_erase hd]
      by_cases hj : j = d.ino
      · simp [hj, hdir]
      · simp [hj, Ne.symm hj]
    have hidle : ∀ j ∈ s.pending, j ≠ d.ino := by
      rintro j hj rfl
      have := (h.waiting d.ino hj).2
      omega
    rw [if_neg (by simp)]
    unfold closeNode
    dsimp only
    rw [if_neg (by omega)]
    split
    · next hone =>
      -- the last reference: a mark becomes a waiting close
      rw [hone] at hrefs
      refine h.setNode hkept hdirs hrefs (fun hmark => nomatch hmark) (fun j hj => ?_) ?_
      · split at hj
        · next hmark =>
          rcases List.mem_cons.mp hj with rfl | hin
          · exact .inl ⟨rfl, (h.marked d.ino hmark).1, rfl⟩
          · exact .inr ⟨hidle j hin, hin⟩
        · exact .inr ⟨hidle j hj, hj⟩
      · split
        · exact List.nodup_cons.mpr ⟨fun hin => hidle d.ino hin rfl, h.apart⟩
        · exact h.apart
    · exact h.setNode hkept hdirs hrefs
        (fun hmark => ⟨(h.marked d.ino hmark).1, by dsimp only; omega⟩)
        (fun j hj => .inr ⟨hidle j hj, hj⟩) h.apart

theorem release (hwait : ino ∈ s.pending) (now : Nat) : Inv geo (closeRelease geo s ino now) := by
  obtain ⟨⟨huse, hlinks, hrange⟩, hrefs⟩ := h.waiting ino hwait
  have herase : Inv geo { s with pending := s.pending.erase ino } :=
    { h with
      kept := fun d hd => { h.kept d hd with }
      waiting := fun j hj => h.waiting j (List.mem_of_mem_erase hj)
      apart := h.apart.erase ino }
  unfold closeRelease releaseOrphan
  by_cases hro : s.ro = true
  · simpa [deleteInode, logRelease, orphanDel, writeInode, freeInode, hro] using herase
  · have hd := deleteInode_spec (s := { s with pending := s.pending.erase ino })
      (Bool.not_eq_true _ ▸ hro) hrange (s.inode ino) true now
    exact herase.delete hd huse rfl hlinks hrefs (h.not_held hlinks hrefs) h.apart.not_mem_erase

theorem create (hfree : s.inUse ino = false) (type : FileType) (extents : Bool) :
    Inv geo (create s ino type extents) := by
  have hother : ∀ j, s.inUse j = true → j ≠ ino := by
    rintro j hj rfl
    rw [hfree] at hj
    cases hj
  have hlives : Orphan.lives (Orphan.create s ino type extents) =
      update (Orphan.lives s) ino (some s.born) := by
    funext j
    by_cases hj : j = ino
    · subst hj
      simp [Orphan.lives, Orphan.create]
    · simp [Orphan.lives, Orphan.create, hj]
  have hnone : Orphan.lives s ino = none := by
    rw [Orphan.lives, hfree]
    rfl
  have huse : ∀ j, j ≠ ino → (Orphan.create s ino type extents).inUse j = s.inUse j :=
    fun j hj => update_of_ne hj _ _
  have hlife : ∀ j, j ≠ ino → ((Orphan.create s ino type extents).inode j).life =
      (s.inode j).life :=
    fun j hj => congrArg Inode.life (update_of_ne hj _ _)
  refine h.carry rfl rfl rfl (hlives ▸ h.lives.birth hnone) h.cause (fun d _ hk => ?_)
    fun j _ hgone => ?_
  · have hne := hother d.ino (inUse_of_lives hk.live).1
    exact hk.of_life rfl (huse _ hne) (hlife _ hne)
  · have hne := hother j hgone.1
    exact hgone.of_life (huse j hne) (hlife j hne)

theorem link (ino : Nat) : Inv geo (link s ino) := by
  unfold Orphan.link writeInode
  dsimp only
  split
  · exact h
  next hcond =>
  split
  · exact h
  · exact h.relink (fun hlinks => hcond (.inr (.inl hlinks))) rfl rfl fun _ _ _ _ =>
      Nat.succ_ne_zero _

/-- The mark of an open inode whose links are gone. -/
theorem mark (hgone : Unlinked geo s ino) (hrefs : 0 < (s.node ino).refs) :
    Inv geo { s with node := update s.node ino { s.node ino with orphan := true } } := by
  refine h.setNode h.kept (fun d hd hino => ?_) h.refs_unchanged (fun _ => ⟨hgone, hrefs⟩)
    (fun j hj => .inr ⟨?_, hj⟩) h.apart
  · rw [← hino, (h.kept d hd).fits]
  · rintro rfl
    have := (h.waiting j hj).2
    omega

theorem putUnlinked (hro : s.ro = false) (huse : s.inUse ino = true)
    (hold : (s.inode ino).links ≠ 0)
    (hrange : geo.InRange ino) (hlinks : victim.links = 0)
    (hstamp : victim.stamp = (s.inode ino).stamp) (hdir : victim.isDir = (s.inode ino).isDir)
    (hheld : (s.inode ino).isDir = true → ∀ d ∈ s.held, d.ino ≠ ino) (now : Nat) :
    Inv geo (putUnlinked geo s ino victim now) := by
  have hidle : ino ∉ s.pending := fun hin => hold (h.waiting ino hin).1.2.1
  have hrelink : ∀ i : Inode, i.life = victim.life →
      Inv geo { s with inode := update s.inode ino i } := by
    intro i hi
    refine h.relink hold ((stamp_of_life hi).trans hstamp) ((isDir_of_life hi).trans hdir) ?_
    intro d hd hino hisdir
    rw [isDir_of_life hi, hdir] at hisdir
    exact absurd hino (hheld hisdir d hd)
  unfold Orphan.putUnlinked
  split
  · next hrefs =>
    -- still open: without links, marked and recorded
    dsimp only
    obtain ⟨hadd, hlife⟩ := orphanAdd_same
      { s with node := update s.node ino { s.node ino with orphan := true } } ino victim
    generalize orphanAdd
      { s with node := update s.node ino { s.node ino with orphan := true } } ino victim = r at *
    have hlinks' : (update s.inode ino r.1 ino).links = 0 := by
      rw [update_self, links_of_life hlife, hlinks]
    exact ((hrelink r.1 hlife).mark ⟨huse, hlinks', hrange⟩ hrefs).same (hadd.write hro ino r.1)
  next hrefs =>
  have hrefs : (s.node ino).refs = 0 := by omega
  have hnobody : ∀ d ∈ s.held, d.ino ≠ ino := by
    rintro d hd rfl
    cases hisdir : d.dir with
    | true => exact hheld ((h.kept d hd).isDir.trans hisdir) d hd rfl
    | false =>
      have hpos := counted_pos hd hisdir
      rw [← h.refs] at hpos
      omega
  split
  · obtain ⟨hadd, hlife⟩ := orphanAdd_same s ino victim
    generalize orphanAdd s ino victim = r at *
    have hsame := hadd.write hro ino r.1
    have hd := deleteInode_spec (hsame.ro.trans hro) hrange r.1 true now
    refine ((hrelink r.1 hlife).same hsame).delete hd ?_ ?_
      ((links_of_life hlife).trans hlinks) ?_ ?_ ?_
    · rw [hsame.inUse]
      exact huse
    · rw [stamp_of_life (hsame.life ino)]
      show r.1.stamp = (update s.inode ino r.1 ino).stamp
      rw [update_self]
    · rw [hsame.node]
      exact hrefs
    · rw [hsame.held]
      exact hnobody
    · rw [hsame.pending]
      exact hidle
  · have hd := deleteInode_spec hro hrange victim false now
    exact h.delete hd huse hstamp hlinks hrefs hnobody hidle

theorem dropName (hro : s.ro = false) (huse : s.inUse ino = true) (hlinks : 0 < (s.inode ino).links)
    (hrange : geo.InRange ino) (hheld : (s.inode ino).isDir = true → ∀ d ∈ s.held, d.ino ≠ ino)
    (now : Nat) : Inv geo (dropName geo s ino now) := by
  unfold Orphan.dropName
  have hold := Nat.pos_iff_ne_zero.mp hlinks
  dsimp only
  generalize (if (s.inode ino).type = some .dir then 0 else (s.inode ino).links - 1) = links
  by_cases hmore : 0 < links
  · rw [if_pos hmore, writeInode, if_neg (by rw [hro]; exact Bool.false_ne_true)]
    exact h.relink hold rfl rfl fun _ _ _ _ => Nat.pos_iff_ne_zero.mp hmore
  · rw [if_neg hmore]
    refine h.putUnlinked hro huse hold hrange ?_ ?_ ?_ hheld now
    · exact Nat.eq_zero_of_not_pos hmore
    · rfl
    · rfl

theorem setRo {ro : Bool} (hquiet : ro = false → s.ro = true → Quiet s) (now : Nat) :
    Inv geo (setRoLocked geo s ro now) := by
  unfold setRoLocked
  split
  · exact h
  next hne =>
  split
  · exact h.flags true
  next hrw =>
  split
  · have hro : ro = false := by simpa using hrw
    have hold : s.ro = true := by
      subst hro
      cases hs : s.ro with
      | true => rfl
      | false => exact absurd hs.symm hne
    have hclean : Cleaning geo { s with ro := false } := ⟨h.flags false, hquiet hro hold, rfl⟩
    exact (hclean.cleanup now).inv
  · exact h

/-- Every careful step keeps the invariant. -/
theorem exec (e : Event) (hen : Enabled geo s e) (hcare : Careful s e) :
    Inv geo (exec geo s e) := by
  cases e with
  | create ino type extents => exact h.create hen.2.1 type extents
  | link ino => exact h.link ino
  | dropName ino now => exact h.dropName hen.1 hen.2.1 hen.2.2.1 hen.2.2.2 hcare now
  | write ino blocks size => exact h.same (writeInode_same rfl)
  | truncate ino size => exact h.same (truncate_same ino size)
  | lookup ino => exact h.lookup ino
  | «open» ino write => exact h.retain hcare
  | close d => exact h.close hen
  | release ino now => exact h.release hen now
  | setRo ro now => exact h.setRo hcare now

omit h

theorem of_run {h : List Event} (hr : Run ((orphanSystem geo).restrict Careful) h s) :
    Inv geo s := by
  refine hr.invariant (fun s hinit => init (s := s) hinit) ?_
  rintro s e s' hinv ⟨⟨hen, rfl⟩, hcare⟩
  exact hinv.exec e hen hcare

end Inv

/-! ## Open inodes -/

/-- What an instance owes to those who hold its inodes. A deletion found neither links nor
references nor holders, no file was deleted twice, what is held is the file that was opened, and a
last close on a writable instance frees the inode. -/
structure OpenOk (geo : Geometry) (s : Fs) : Prop where
  cause : ∀ r ∈ s.released, r.links = 0 ∧ r.refs = 0 ∧ r.holders = 0
  once : (s.released.map (·.stamp)).Nodup
  opened : ∀ d ∈ s.held, s.inUse d.ino = true ∧ (s.inode d.ino).stamp = d.stamp
  released : ∀ ino ∈ s.pending, ∀ now, s.ro = false →
    (exec geo s (.release ino now)).inUse ino = false

/-- **Open inodes are not deleted**, and no inode is deleted twice, in any run that takes references
on inodes that are still named or held, removes no directory that is held, and switches to
read-write only while no inode without links is held. -/
theorem open_inodes_survive {h : List Event} (hr : Run ((orphanSystem geo).restrict Careful) h s) :
    OpenOk geo s := by
  have hinv := Inv.of_run hr
  refine ⟨hinv.cause, hinv.lives.once, fun d hd => inUse_of_lives (hinv.kept d hd).live,
    fun ino hin now hro => ?_⟩
  have hd := deleteInode_spec (s := { s with pending := s.pending.erase ino }) hro
    (hinv.waiting ino hin).1.2.2 (s.inode ino) true now
  show (deleteInode geo _ ino _ true now).inUse ino = false
  rw [hd.inUse, update_self]

/-! ## Small runs -/

/-- A small instance with a journal, and without an orphan file. -/
def smallGeometry : Geometry := ⟨11, 16, 1024, fun _ => 65536⟩

def smallFs : Fs where
  ro := false
  rwOk := true
  journal := true
  inode := fun ino => ⟨none, 0, 0, 0, false, [], ino⟩
  inUse := fun ino => ino < 11
  node := fun _ => ⟨0, false, none⟩
  orphanFile := none
  lastOrphan := 0
  held := []
  pending := []
  released := []
  born := 11

theorem smallFs_mounted : Mounted smallFs where
  closed _ := rfl
  nobody := rfl
  idle := rfl
  log := rfl
  stamps _ := rfl
  born _ h := of_decide_eq_true h

/-- The events of a list, each when it can happen. -/
def apply (geo : Geometry) (s : Fs) (e : Event) : Option Fs :=
  if Enabled geo s e then some (exec geo s e) else none

theorem step_apply (s : Fs) (e : Event) (s' : Fs) (h : apply geo s e = some s') :
    (orphanSystem geo).step s e s' := by
  unfold apply at h
  split at h
  · next hen =>
    cases h
    exact ⟨hen, rfl⟩
  · cases h

theorem careful_step {h : List Event} (hr : Run ((orphanSystem geo).restrict Careful) h s)
    (e : Event) (hen : Enabled geo s e) (hcare : Careful s e) :
    Run ((orphanSystem geo).restrict Careful) (e :: h) (exec geo s e) :=
  .step hr ⟨⟨hen, rfl⟩, hcare⟩

/-- A file that is open is remounted under, unlinked and closed, and its number goes to a new
file. -/
theorem open_inodes_survive_unlink :
    ∃ h s, Run ((orphanSystem smallGeometry).restrict Careful) h s ∧
    s.released.map (·.stamp) = [11] ∧ (s.inode 11).stamp = 12 ∧ OpenOk smallGeometry s := by
  have hinit : Run ((orphanSystem smallGeometry).restrict Careful) [] smallFs :=
    .init smallFs_mounted
  have hfound := careful_step (careful_step hinit (.create 11 .reg true) (by decide) trivial)
    (.lookup 11) (by decide) trivial
  have hopened := careful_step (careful_step hfound (.open 11 false) (by decide)
    ⟨rfl, .inl (by decide)⟩) (.setRo true 100) (by decide) (fun h => nomatch h)
  have hquiet : Quiet (exec smallGeometry (exec smallGeometry (exec smallGeometry
      (exec smallGeometry smallFs (.create 11 .reg true)) (.lookup 11)) (.open 11 false))
      (.setRo true 100)) := by
    intro ino _ hlinks
    have hne : ino ≠ 11 := by
      rintro rfl
      revert hlinks
      decide
    refine ⟨?_, List.not_mem_nil⟩
    show (update (update smallFs.node 11 _) 11 _ ino).refs = 0
    rw [update_of_ne hne, update_of_ne hne]
    rfl
  have hwritable := careful_step hopened (.setRo false 200) (by decide) fun _ _ => hquiet
  have hunlinked := careful_step hwritable (.dropName 11 300) (by decide +kernel) fun hdir =>
    absurd hdir (by decide +kernel)
  have hclosed := careful_step hunlinked (.close ⟨11, 11, false, false⟩) (by decide +kernel) trivial
  have hreleased := careful_step hclosed (.release 11 400) (by decide +kernel) trivial
  have hrun := careful_step hreleased (.create 11 .reg true) (by decide +kernel) trivial
  exact ⟨_, _, hrun, by decide +kernel, by decide +kernel, open_inodes_survive hrun⟩

/-- A file is opened for reading and unlinked. The instance becomes read-only and writable again,
and the number of the inode goes to a new file before the descriptor is closed. -/
def remountEvents : List Event :=
  [.create 11 .reg true, .lookup 11, .open 11 false, .dropName 11 100, .setRo true 200,
    .setRo false 300, .create 11 .reg true, .close ⟨11, 11, false, false⟩, .release 11 400]

/-- The cleanup deletes the file that is open, and the close the new one. -/
theorem remount_deletes_open : ∃ h s, Run (orphanSystem smallGeometry) h s ∧
    s.released.map (fun r => (r.stamp, r.links, r.refs)) = [(12, 1, 0), (11, 0, 1)] := by
  exact run_drive (apply smallGeometry) remountEvents smallFs (fun e _ s s' => step_apply s e s')
    (.init smallFs_mounted) (by decide +kernel)

/-- A directory is removed while it is open, its number goes to a file, and that is opened. Then the
directory is closed, and the file unlinked. -/
def directoryEvents : List Event :=
  [.create 11 .dir true, .lookup 11, .open 11 false, .dropName 11 100, .create 11 .reg true,
    .lookup 11, .open 11 false, .close ⟨11, 11, true, false⟩, .dropName 11 200]

/-- Both are deleted while somebody holds them: the directory with its name, and the file because
the close of the directory has dropped the reference on it. -/
theorem directory_close_drops_file : ∃ h s, Run (orphanSystem smallGeometry) h s ∧
    s.released.map (fun r => (r.stamp, r.links, r.refs, r.holders)) =
      [(12, 0, 0, 1), (11, 0, 0, 1)] := by
  exact run_drive (apply smallGeometry) directoryEvents smallFs (fun e _ s s' => step_apply s e s')
    (.init smallFs_mounted) (by decide +kernel)

end MaeroOS.Ext2.Orphan
