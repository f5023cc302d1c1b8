import MaeroOS.Fs.Components

/-!
# A chroot confines lookups

A lookup of a process with the root `r` ends, and what it finds was reached from `r`, or from the
`/dev` or `/proc` of the boot file system, going down only. The walk from `r` keeps that of its node
and of all the directories it may return to. The walk from the boot root, which is only begun for a
path that starts with one of the two names, keeps the boot root at the bottom of these directories,
and starts over at `r` when it gets there.

The lookup ends because there are at most 40 restarts up to the last one for a link, and a restart
at the top makes the path shorter.
-/

namespace MaeroOS.Fs

open List
open Vfs

variable {ν : Type} [DecidableEq ν] {fs : Vfs ν} {args : WalkArgs ν} {w w' : Walk ν}
  {name after p q : Name} {d n : ν} {followFinal top : Bool}

/-- A name that a directory is asked for. A file system answers `..` with the directory above. -/
def Plain (name : Name) : Prop := name ≠ ['.'] ∧ name ≠ ['.', '.']

/-- Reached from `d` by looking up names other than `.` and `..` and crossing mounts. -/
inductive Reach (fs : Vfs ν) (d : ν) : ν → Prop
  | refl : Reach fs d d
  | lookup {a b : ν} {name : Name} (h : Reach fs d a) (hname : Plain name)
      (hfind : fs.finddir a name = some b) : Reach fs d b
  | mount {m : Mount ν} (h : Reach fs d m.mp) (hm : m ∈ fs.mounts) (hlive : m.live = true) :
      Reach fs d m.root

/-! ## Mounts -/

theorem mntOn_spec {m : Mount ν} (h : fs.mntOn n = some m) :
    m ∈ fs.mounts ∧ m.live = true ∧ m.mp = n := by
  revert m
  refine foldlRecOn (motive := fun best => ∀ {m}, best = some m → m ∈ fs.mounts ∧ m.live = true ∧
    m.mp = n) _ _ ?_ ?_
  · nofun
  · intro best hbest m hm m' hm'
    split at hm'
    · next hcond =>
      cases hm'
      exact ⟨hm, hcond.1, hcond.2.1⟩
    · exact hbest hm'

theorem Reach.crossHops (h : Reach fs d n) (hops : Nat) : Reach fs d (fs.crossHops hops n) := by
  induction hops generalizing n with
  | zero => exact h
  | succ hops ih =>
    unfold Vfs.crossHops
    split
    · exact h
    next m hm =>
    obtain ⟨hmem, hlive, rfl⟩ := mntOn_spec hm
    exact ih (h.mount hmem hlive)

/-! ## One component -/

omit [DecidableEq ν] in
theorem followLink_cases (fs : Vfs ν) (args : WalkArgs ν) (n : ν) (pre : Option Name)
    (after : Name) : (∃ err, fs.followLink args n pre after = .miss err) ∨
      args.mayFollow = true ∧ ∃ q, q.length < pathMax ∧ fs.followLink args n pre after =
        .restart false q := by
  unfold followLink
  split
  · exact .inl ⟨_, rfl⟩
  next hmay =>
  split
  · exact .inl ⟨_, rfl⟩
  split
  · exact .inl ⟨_, rfl⟩
  split
  · exact .inl ⟨_, rfl⟩
  unfold linkPath
  split
  · exact .inl ⟨_, rfl⟩
  split
  · exact .inl ⟨_, rfl⟩
  next pre _ hfits =>
  refine .inr ⟨by simpa using hmay, _, ?_, rfl⟩
  refine lt_of_le_of_lt (takeWhile_sublist _).length_le ?_
  simp only [length_append, apply_ite length, length_cons, length_nil]
  split <;> split <;> omega

variable (fs args name after w) in
/-- What a component can do: go on, or end the walk with an error, with a restart at the top after
`..`, or with one for a link, which is followed only while that is allowed. -/
inductive Stepped : WalkStep ν → Prop
  | dot (hname : name = ['.']) : Stepped (.next w)
  | up (alt : Option Name) (hname : name = ['.', '.'])
      (hmore : args.topRestarts = false ∨ w.parents.tail ≠ []) :
      Stepped (.next ⟨w.parents.head?.getD args.root, w.parents.tail, alt⟩)
  | enter (n : ν) (hname : Plain name) (hfind : fs.finddir w.cur name = some n) :
      Stepped (.next (enter name (fs.mntCross n) w))
  | miss (err : Int) : Stepped (.done (.miss err))
  | top (hname : name = ['.', '.']) (hfits : after.length + 2 ≤ pathMax) :
      Stepped (.done (.restart true ('/' :: after)))
  | link (q : Name) (hmay : args.mayFollow = true) (hlt : q.length < pathMax) :
      Stepped (.done (.restart false q))

theorem step_spec : Stepped fs args w name after (fs.step args name after w) := by
  unfold Vfs.step
  split
  · exact .miss _
  split
  · next hname => exact .dot hname
  next hdot =>
  split
  · next hname =>
    unfold dotdot
    dsimp only
    split
    · split
      · exact .miss _
      · next hfits => exact .top hname (Nat.le_of_not_lt hfits)
    · next htop =>
      refine .up _ hname ?_
      cases htr : args.topRestarts with
      | false => exact .inl rfl
      | true => exact .inr fun hnil => htop ⟨htr, hnil⟩
  next hdots =>
  split
  · exact .miss _
  next n hfind =>
  dsimp only
  split
  · obtain ⟨err, heq⟩ | ⟨hmay, q, hlt, heq⟩ :=
      followLink_cases fs args (fs.mntCross n) w.alt after <;> rw [heq]
    · exact .miss err
    · exact .link q hmay hlt
  · exact .enter n ⟨hdot, hdots⟩ hfind

/-- A component never ends the walk with a node. -/
theorem step_not_found : fs.step args name after w ≠ .done (.found n) := by
  intro he
  cases he ▸ step_spec

/-! ## The walk -/

variable {l : List (Name × Name)}

/-- **The walk keeps what its components keep**: its node is the one of a state that has it. -/
theorem walkPieces_found {I : Walk ν → Prop}
    (hstep : ∀ name after w w', I w → fs.step args name after w = .next w' → I w')
    (hw : I w) (h : fs.walkPieces args l w = .found n) : ∃ w', I w' ∧ w'.cur = n := by
  fun_induction fs.walkPieces args l w with
  | case1 w =>
    cases h
    exact ⟨w, hw, rfl⟩
  | case2 => cases h
  | case3 name after l w hlong w' hw' ih => exact ih (hstep _ _ _ _ hw hw') h
  | case4 name after l w hlong e he => exact absurd (h ▸ he) step_not_found

/-- A path to start over with fits into the buffer. One for the top is shorter than what was to be
walked. -/
theorem walkPieces_restart {len : Nat} (hlen : ∀ x ∈ l, x.1.length + x.2.length ≤ len)
    (h : fs.walkPieces args l w = .restart top q) :
    q.length < pathMax ∧ (top = true → q.length + 1 ≤ len) ∧
      (top = false → args.mayFollow = true) := by
  induction l generalizing w with
  | nil => cases h
  | cons x l ih =>
    obtain ⟨hx, hlen⟩ := forall_mem_cons.mp hlen
    unfold walkPieces at h
    split at h
    · cases h
    split at h
    · exact ih hlen h
    next e he =>
    subst h
    cases he ▸ step_spec with
    | top hname hfits =>
      rw [hname] at hx
      simp only [length_cons, length_nil] at hx ⊢
      exact ⟨by omega, fun _ => by omega, nofun⟩
    | link _ hmay hlt => exact ⟨hlt, nofun, fun _ => hmay⟩

/-! ## The walk from the chroot -/

/-- The node and the directories to return to are below `d`. -/
def Below (fs : Vfs ν) (d : ν) (w : Walk ν) : Prop :=
  Reach fs d w.cur ∧ ∀ n ∈ w.parents, Reach fs d n

omit [DecidableEq ν] in
theorem mem_enter_parents (hn : n ∈ (enter name d w).parents) : n = w.cur ∨ n ∈ w.parents := by
  unfold enter at hn
  split at hn
  · exact mem_cons.mp hn
  · exact .inr hn

theorem Below.step (hw : Below fs args.root w) (h : fs.step args name after w = .next w') :
    Below fs args.root w' := by
  obtain ⟨hcur, hparents⟩ := hw
  cases h ▸ step_spec with
  | dot => exact ⟨hcur, hparents⟩
  | up alt =>
    refine ⟨?_, fun n hn => hparents n (mem_of_mem_tail hn)⟩
    cases hps : w.parents with
    | nil => exact .refl
    | cons d ps => exact hparents d (by rw [hps]; exact mem_cons_self)
  | enter n hname hfind =>
    refine ⟨(hcur.lookup hname hfind).crossHops _, fun m hm => ?_⟩
    obtain rfl | hm := mem_enter_parents hm
    · exact hcur
    · exact hparents m hm

theorem vfsWalk_below (h : fs.vfsWalk args p = .found n) : Reach fs args.root n := by
  rw [vfsWalk_eq] at h
  obtain ⟨w, hw, rfl⟩ := walkPieces_found (fun _ _ _ _ hw h => Below.step hw h) ⟨.refl, nofun⟩ h
  exact hw.1

/-! ## The walk from the boot root -/

/-- The node and the directories to return to are below `d`, but for the boot root at the bottom. -/
def BelowTop (fs : Vfs ν) (root d : ν) (w : Walk ν) : Prop :=
  Reach fs d w.cur ∧ ∃ init, w.parents = init ++ [root] ∧ ∀ n ∈ init, Reach fs d n

theorem BelowTop.step (htop : args.topRestarts = true) (hw : BelowTop fs args.root d w)
    (h : fs.step args name after w = .next w') : BelowTop fs args.root d w' := by
  obtain ⟨hcur, init, hparents, hinit⟩ := hw
  cases h ▸ step_spec with
  | dot => exact ⟨hcur, init, hparents, hinit⟩
  | up alt _ hmore =>
    -- the walk goes on only when the boot root is not the last one left
    cases init with
    | nil => simp [htop, hparents] at hmore
    | cons m init =>
      rw [hparents]
      exact ⟨hinit m mem_cons_self, init, rfl, fun n hn => hinit n (mem_cons_of_mem _ hn)⟩
  | enter n hname hfind =>
    refine ⟨(hcur.lookup hname hfind).crossHops _, ?_⟩
    unfold enter
    split
    · refine ⟨w.cur :: init, by rw [hparents]; rfl, fun m hm => ?_⟩
      obtain rfl | hm := mem_cons.mp hm
      · exact hcur
      · exact hinit m hm
    · exact ⟨init, hparents, hinit⟩

/-- The first component of a walk that starts over at the top leads to a node of the boot root. -/
theorem step_first (hcur : w.cur = args.root) (hparents : w.parents = []) (hname : Plain name)
    (h : fs.step args name after w = .next w') :
    ∃ d, fs.finddir args.root name = some d ∧ BelowTop fs args.root d w' := by
  cases h ▸ step_spec with
  | dot hdot => exact absurd hdot hname.1
  | up _ hdots => exact absurd hdots hname.2
  | enter d _ hfind =>
    refine ⟨d, hcur ▸ hfind, Reach.refl.crossHops _, [], ?_, nofun⟩
    simp [enter, hparents, hcur, parentsMax]

/-! ## Lookups -/

/-- The path's first component is the name that lets it past the chroot. -/
theorem pieces_of_skipsChroot (h : skipsChroot p = true) :
    ∃ first ∈ ["dev".toList, "proc".toList], ∃ after rest,
      pieces (p.drop 1) [] = (first, after) :: rest := by
  have hcut : ∀ {first : Name}, pathFirstComponent p = first → first ≠ [] → first.length < nameMax →
      ∃ after rest, pieces (p.drop 1) [] = (first, after) :: rest := by
    rintro first rfl hne hlt
    rw [pathFirstComponent, length_take] at hlt
    exact pieces_first (take_of_length_le (by omega)).symm hne
  obtain h | h := of_decide_eq_true h
  · exact ⟨_, mem_cons_self, hcut h (by decide) (by decide)⟩
  · exact ⟨_, mem_cons_of_mem _ mem_cons_self, hcut h (by decide) (by decide)⟩

/-- A lookup in a chroot never uses the overlay of the boot root. -/
theorem lookupRound_chroot (fs : Vfs ν) (r : ν) (followFinal : Bool) (links : Nat) (path : Name) :
    fs.lookupRound (some r) followFinal links path =
      fs.vfsWalk ⟨if skipsChroot path then fs.root else r, followFinal,
        decide (links < maxSymlinks), skipsChroot path⟩ path := by
  unfold lookupRound
  cases hskip : skipsChroot path with
  | false => rfl
  | true =>
    have hoverlay : usesRootOverlay path = false := by
      obtain hdev | hproc : _ ∨ _ := by simpa [skipsChroot] using hskip
      · simp [usesRootOverlay, hdev]
      · simp [usesRootOverlay, hproc]
    simp [hoverlay]

/-- Below the chroot, or below what the boot root calls `dev` or `proc`. -/
def Confined (fs : Vfs ν) (r n : ν) : Prop :=
  Reach fs r n ∨ ∃ name ∈ ["dev".toList, "proc".toList], ∃ d, fs.finddir fs.root name = some d ∧
    Reach fs d n

theorem lookupRound_found {r : ν} {links : Nat}
    (h : fs.lookupRound (some r) followFinal links p = .found n) : Confined fs r n := by
  rw [lookupRound_chroot] at h
  by_cases hskip : skipsChroot p = true
  · simp only [hskip, if_true] at h
    obtain ⟨first, hmem, after, rest, hfirst⟩ := pieces_of_skipsChroot hskip
    have hnames : Plain first := by
      rcases mem_cons.mp hmem with rfl | hmem
      · exact ⟨by decide, by decide⟩
      · rw [mem_singleton.mp hmem]
        exact ⟨by decide, by decide⟩
    rw [vfsWalk_eq, hfirst, walkPieces] at h
    split at h
    · cases h
    split at h
    · next w' hw' =>
      obtain ⟨d, hfind, hw'⟩ := step_first rfl rfl hnames hw'
      obtain ⟨w'', hw'', rfl⟩ := walkPieces_found (fun _ _ _ _ hw h => BelowTop.step rfl hw h) hw' h
      exact .inr ⟨first, hmem, d, hfind, hw''.1⟩
    · next e he => exact absurd (h ▸ he) step_not_found
  · simp only [hskip] at h
    exact .inl (vfsWalk_below h)

theorem lookupRound_restart {r : ν} {links : Nat}
    (h : fs.lookupRound (some r) followFinal links p = .restart top q) :
    q.length < pathMax ∧ (top = true → q.length + 2 ≤ p.length) ∧
      (top = false → links < maxSymlinks) := by
  rw [lookupRound_chroot, vfsWalk_eq] at h
  obtain ⟨hlt, htop, hlink⟩ := walkPieces_restart (fun x hx => (mem_pieces (by simp) hx).2.2) h
  refine ⟨hlt, fun ht => ?_, fun ht => of_decide_eq_true (hlink ht)⟩
  have := htop ht
  simp only [length_nil, length_drop] at this
  omega

/-! ## The loop of restarts -/

/-- How many rounds are left at most, after `total` restarts and with a path of `len` characters. -/
def roundsLeft (total len : Nat) : Nat :=
  if total < maxSymlinks then maxSymlinks - total + pathMax / 2 else len / 2 + 1

theorem roundsLeft_restart {total : Nat} (hq : q.length < pathMax)
    (htop : top = true → q.length + 2 ≤ p.length)
    (hlink : top = false → total < maxSymlinks) :
    roundsLeft (total + 1) q.length < roundsLeft total p.length := by
  unfold roundsLeft
  have hpath : pathMax = 512 := rfl
  cases top with
  | false =>
    have hmay := hlink rfl
    rw [if_pos hmay]
    split <;> omega
  | true =>
    have := htop rfl
    split <;> split <;> omega

/-- What a lookup that ended with `links` and `tops` restarts has done since `links₀` and
`tops₀`. -/
structure Ended (fs : Vfs ν) (r : ν) (links₀ tops₀ : Nat) (path : Name) (res : Except Int ν)
    (links tops : Nat) : Prop where
  links_ge : links₀ ≤ links
  links_le : links ≤ maxSymlinks
  total_lt : links + tops < links₀ + tops₀ + roundsLeft (links₀ + tops₀) path.length
  /-- Without a link, the restarts at the top use up the path. -/
  tops_le : links = links₀ → 2 * tops ≤ 2 * tops₀ + path.length
  confined : ∀ n, res = .ok n → Confined fs r n

theorem lookupLoop_ended (fs : Vfs ν) (r : ν) (followFinal : Bool) {fuel : Nat} (links tops : Nat)
    (p : Name) (hlinks : links ≤ maxSymlinks) (hfuel : roundsLeft (links + tops) p.length ≤ fuel) :
    ∃ res links' tops', fs.lookupLoop (some r) followFinal fuel links tops p =
      some (res, links', tops') ∧ Ended fs r links tops p res links' tops' := by
  induction fuel generalizing links tops p with
  | zero =>
    unfold roundsLeft at hfuel
    split at hfuel <;> omega
  | succ fuel ih =>
    have hpos : 0 < roundsLeft (links + tops) p.length := by
      unfold roundsLeft
      split <;> omega
    unfold lookupLoop
    split
    · next n hround =>
      refine ⟨_, _, _, rfl, le_rfl, hlinks, by omega, fun _ => by omega, ?_⟩
      rintro _ ⟨⟩
      exact lookupRound_found hround
    · exact ⟨_, _, _, rfl, le_rfl, hlinks, by omega, fun _ => by omega, nofun⟩
    · next q hround =>
      obtain ⟨hlt, htop, hlink⟩ := lookupRound_restart hround
      have hless := roundsLeft_restart hlt htop hlink
      have hmay := hlink rfl
      rw [show links + tops + 1 = links + 1 + tops by omega] at hless
      obtain ⟨res, links', tops', heq, hend⟩ := ih (links + 1) tops q (by omega) (by omega)
      have := hend.links_ge
      have := hend.total_lt
      exact ⟨res, links', tops', heq, by omega, hend.links_le, by omega, fun _ => by omega,
        hend.confined⟩
    · next q hround =>
      obtain ⟨hlt, htop, hlink⟩ := lookupRound_restart hround
      have hless := roundsLeft_restart hlt htop hlink
      have hshort := htop rfl
      rw [show links + tops + 1 = links + (tops + 1) by omega] at hless
      obtain ⟨res, links', tops', heq, hend⟩ := ih links (tops + 1) q hlinks (by omega)
      have := hend.total_lt
      exact ⟨res, links', tops', heq, hend.links_ge, hend.links_le, by omega,
        fun h => by have := hend.tops_le h; omega, hend.confined⟩

/-- **A chroot confines every lookup, and every lookup ends.** There are at most 40 restarts for
links. Those at the top are fewer than a path may have characters, and at most half as many as this
path has while no link is followed. -/
theorem chroot_confines (fs : Vfs ν) (r : ν) (followFinal : Bool) (path : Name) :
    ∃ res links tops, fs.lookupIn (some r) followFinal (maxSymlinks + pathMax) path =
      some (res, links, tops) ∧
      links ≤ maxSymlinks ∧ tops < pathMax ∧ (links = 0 → 2 * tops ≤ path.length) ∧ ∀ n,
        res = .ok n → Confined fs r n := by
  unfold lookupIn
  split
  · exact ⟨_, _, _, rfl, by decide, by decide, fun _ => Nat.zero_le _, nofun⟩
  split
  · exact ⟨_, _, _, rfl, by decide, by decide, fun _ => Nat.zero_le _, nofun⟩
  have hleft : roundsLeft (0 + 0) path.length = 296 := rfl
  have hpath : pathMax = 512 := rfl
  have hfuel : roundsLeft (0 + 0) path.length ≤ maxSymlinks + pathMax := by omega
  obtain ⟨res, links, tops, heq, hend⟩ :=
    lookupLoop_ended fs r followFinal 0 0 path (Nat.zero_le _) hfuel
  have htotal := hend.total_lt
  exact ⟨res, links, tops, heq, hend.links_le, by omega, fun h => by simpa using hend.tops_le h,
    hend.confined⟩

/-- The nodes of `bouncing`. -/
inductive Bounce
  | boot | dev | jail | link
  deriving DecidableEq

/-- A chroot with a link that goes to `/dev` and back up three times. -/
def bouncing : Vfs Bounce where
  finddir d name :=
    match d with
    | .boot => if name = "dev".toList then some .dev else none
    | .jail => if name = "l".toList then some .link else none
    | _ => none
  mounts := []
  locked _ := false
  symlink n := n = .link
  size n := if n = .link then 21 else 0
  readLink _ := .ok "/dev/../dev/../dev/..".toList
  root := .boot
  overlay := none

/-- The restarts at the top are not bounded by the length of the path that was given: a link may put
a longer one in its place. -/
theorem bouncing_tops : bouncing.lookupIn (some .jail) true (maxSymlinks + pathMax) "/l".toList =
    some (.ok .jail, 1, 3) ∧ "/l".toList.length < 3 := by
  exact ⟨rfl, by decide⟩

end MaeroOS.Fs
