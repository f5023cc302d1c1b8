import MaeroOS.Fs.Components

/-!
# What a path means

Reading a path from left to right, a name descends, `.` stays, and `..` returns to the directory the
current one was entered from. `readPath` reads components this way, with all the directories it came
through. `vfs_walk` keeps the first 64 of them: its walk is the reading for every tree as long as
the path never climbs from more than 64 directories deep, and for no other path. The textual prefix
that a relative link is resolved against is the path of names to the directory, so that it is read
back to the same directory.
-/

namespace MaeroOS.Fs

open List
open Vfs

variable {ν : Type} [DecidableEq ν] {fs : Vfs ν} {args : WalkArgs ν} {w w' : Walk ν}
  {name path : Name} {cs d names : List Name} {above : List ν}

/-! ## Reading a path -/

/-- Reads components at the directory `cur`, entered through the directories `above`. It is about
directories that the caller may search: there is no reading when one is locked, or through a
symbolic link. -/
def Vfs.readPath (fs : Vfs ν) (root : ν) : List Name → ν × List ν → Option (ν × List ν)
  | [], d => some d
  | name :: rest, (cur, above) =>
      if fs.locked cur then none
      else if name = ['.'] then fs.readPath root rest (cur, above)
      else if name = ['.', '.'] then fs.readPath root rest (above.head?.getD root, above.tail)
      else
        match (fs.finddir cur name).map fs.mntCross with
        | none => none
        | some n => if fs.symlink n then none else fs.readPath root rest (n, cur :: above)

/-- Some `..` is taken more directories deep than a walk keeps. -/
def climbsDeep : Nat → List Name → Bool
  | _, [] => false
  | depth, name :: rest =>
      if name = ['.'] then climbsDeep depth rest
      else if name = ['.', '.'] then decide (parentsMax < depth) || climbsDeep (depth - 1) rest
      else climbsDeep (depth + 1) rest

theorem readPath_append (fs : Vfs ν) (root : ν) (a b : List Name) (d : ν × List ν) :
    fs.readPath root (a ++ b) d = (fs.readPath root a d).bind (fs.readPath root b) := by
  induction a generalizing d with
  | nil => rfl
  | cons name a ih =>
    simp only [cons_append, readPath]
    split
    · rfl
    split
    · exact ih _
    split
    · exact ih _
    split
    · rfl
    split
    · rfl
    · exact ih _

/-- A name that descends. -/
def Descends (name : Name) : Prop :=
  Component name ∧ name ≠ ['.'] ∧ name ≠ ['.', '.'] ∧ '\x00' ∉ name

/-- A walk at the directory that reading the path of `names` leads to. -/
structure At (fs : Vfs ν) (root : ν) (names : List Name) (above : List ν) (w : Walk ν) : Prop where
  parents : w.parents = above.drop (above.length - parentsMax)
  alt : w.alt = some (pathOf names.reverse)
  descends : ∀ name ∈ names, Descends name
  read : fs.readPath root names.reverse (root, []) = some (w.cur, above)

/-! ## One component -/

theorem chop_name (pre : Name) (hname : '/' ∉ name) : chop (pre ++ '/' :: name) = pre := by
  have hall : ∀ c ∈ name.reverse, (decide (c ≠ '/')) = true := by
    intro c hc
    have hne : c ≠ '/' := fun h => hname (h ▸ mem_reverse.mp hc)
    simpa using hne
  simp only [chop, reverse_append, reverse_cons, append_assoc, singleton_append]
  rw [dropWhile_append_of_pos hall]
  simp

/-- The name of the directory the walk is in was looked up in the directory it was entered from. -/
theorem readPath_snoc {root : ν} {d : ν × List ν} (hname : Descends name)
    (h : fs.readPath root (names ++ [name]) (root, []) = some d) :
    ∃ a as, fs.readPath root names (root, []) = some (a, as) ∧ d.2 = a :: as := by
  rw [readPath_append] at h
  obtain ⟨⟨a, as⟩, hnames, h⟩ := Option.bind_eq_some_iff.mp h
  refine ⟨a, as, hnames, ?_⟩
  simp only [readPath, if_neg hname.2.1, if_neg hname.2.2.1] at h
  split at h
  · cases h
  split at h
  · cases h
  split at h
  · cases h
  · cases h
    rfl

/-- **A component is walked as it is read**, unless it climbs from too deep. -/
theorem At.step {names rest : List Name} {r : ν × List ν} (htop : args.topRestarts = false)
    (hat : At fs args.root names above w) (hcomp : Component name ∧ '\x00' ∉ name)
    (hfit : (pathOf names.reverse).length + 1 + name.length < pathMax)
    (hdeep : climbsDeep above.length (name :: rest) = false)
    (hread : fs.readPath args.root (name :: rest) (w.cur, above) = some r) :
    ∃ names' above' w', (∀ after, fs.step args name after w = .next w') ∧
      At fs args.root names' above' w' ∧
      (pathOf names'.reverse).length ≤ (pathOf names.reverse).length + 1 + name.length ∧
      climbsDeep above'.length rest = false ∧ fs.readPath args.root rest (w'.cur, above') =
        some r := by
  unfold readPath at hread
  unfold climbsDeep at hdeep
  unfold Vfs.step
  split at hread
  · cases hread
  next hopen =>
  simp only [if_neg hopen]
  split at hread
  · next hdot =>
    rw [if_pos hdot] at hdeep
    exact ⟨names, above, w, fun _ => if_pos hdot, hat, by omega, hdeep, hread⟩
  next hdot =>
  simp only [if_neg hdot] at hdeep ⊢
  split at hread
  · next hdots =>
    simp only [if_pos hdots] at hdeep ⊢
    obtain ⟨hshallow, hdeep⟩ : ¬parentsMax < above.length ∧ climbsDeep (above.length - 1) rest =
        false := by
      simpa using hdeep
    have hparents : w.parents = above := by
      rw [hat.parents, Nat.sub_eq_zero_of_le (Nat.le_of_not_lt hshallow), drop_zero]
    have hstep : ∀ after,
        dotdot args after w = .next ⟨above.head?.getD args.root, above.tail, w.alt.map chop⟩ := by
      intro after
      simp [dotdot, htop, hparents]
    have hkept : above.tail = above.tail.drop (above.tail.length - parentsMax) := by
      rw [length_tail, Nat.sub_eq_zero_of_le (by omega), drop_zero]
    cases hnames : names with
    | nil =>
      have hread₀ := hat.read
      rw [hnames] at hread₀
      obtain ⟨hcur, rfl⟩ : args.root = w.cur ∧ [] = above := by simpa [readPath] using hread₀
      refine ⟨[], [], _, hstep, ⟨rfl, ?_, by simp, rfl⟩, by simp [pathOf], hdeep, hread⟩
      simp [hat.alt, hnames, pathOf, chop]
    | cons n ns =>
      have hn := hat.descends n (by rw [hnames]; exact mem_cons_self)
      have hread₀ := hat.read
      rw [hnames, reverse_cons] at hread₀
      obtain ⟨a, as, hns, rfl⟩ := readPath_snoc hn hread₀
      refine ⟨ns, as, _, hstep,
        ⟨hkept, ?_, fun m hm => hat.descends m (by rw [hnames]; exact mem_cons_of_mem _ hm), hns⟩,
        ?_, hdeep, hread⟩
      · rw [hat.alt, hnames, reverse_cons, pathOf_snoc, Option.map_some, chop_name _ hn.1.2]
      · rw [reverse_cons, pathOf_snoc, length_append]
        omega
  next hdots =>
  simp only [if_neg hdots] at hdeep ⊢
  split at hread
  · cases hread
  next n hfind =>
  split at hread
  · cases hread
  next hlink =>
  obtain ⟨m, hm, rfl⟩ := Option.map_eq_some_iff.mp hfind
  refine ⟨name :: names, w.cur :: above, enter name (fs.mntCross m) w, fun after => ?_,
    ⟨?_, ?_, ?_, ?_⟩, ?_, hdeep, hread⟩
  · simp [hm, hlink]
  · have hparents := hat.parents
    simp only [enter, length_cons]
    split
    · next hlt =>
      rw [hparents, length_drop] at hlt
      rw [hparents, Nat.sub_eq_zero_of_le (by omega), Nat.sub_eq_zero_of_le (by omega)]
      rfl
    · next hfull =>
      rw [hparents, length_drop] at hfull
      rw [hparents, show above.length + 1 - parentsMax = above.length - parentsMax + 1 by omega,
        drop_succ_cons]
  · simp [enter, hat.alt, hfit, pathOf_snoc]
  · exact forall_mem_cons.mpr ⟨⟨hcomp.1, hdot, hdots, hcomp.2⟩, hat.descends⟩
  · rw [reverse_cons, readPath_append, hat.read, Option.bind_some]
    simp [readPath, hopen, hdot, hdots, hm, hlink, enter]
  · rw [reverse_cons, pathOf_snoc, length_append, length_cons]
    omega

/-! ## The walk -/

/-- **The components that are read are walked**, to the directory they are read to. -/
theorem walkPieces_reads {r : ν × List ν} {l : List (Name × Name)} (tail : List (Name × Name))
    (htop : args.topRestarts = false) (hat : At fs args.root names above w)
    (hl : ∀ a ∈ l.map Prod.fst, Component a ∧ '\x00' ∉ a ∧ a.length ≤ nameMax)
    (hfit : (pathOf names.reverse).length + (pathOf (l.map Prod.fst)).length < pathMax)
    (hdeep : climbsDeep above.length (l.map Prod.fst) = false)
    (hread : fs.readPath args.root (l.map Prod.fst) (w.cur, above) = some r) :
    ∃ names' w', fs.walkPieces args (l ++ tail) w = fs.walkPieces args tail w' ∧ w'.cur = r.1 ∧
      At fs args.root names' r.2 w' ∧
      (pathOf names'.reverse).length ≤ (pathOf names.reverse).length +
        (pathOf (l.map Prod.fst)).length := by
  induction l generalizing names above w with
  | nil =>
    cases hread
    exact ⟨names, w, rfl, rfl, hat, le_rfl⟩
  | cons x l ih =>
    obtain ⟨⟨hcomp, hnul, hlen⟩, hl⟩ := forall_mem_cons.mp hl
    have hcons : (pathOf (map Prod.fst (x :: l))).length =
        1 + x.1.length + (pathOf (l.map Prod.fst)).length := by
      simp [pathOf]
      omega
    rw [hcons] at hfit ⊢
    obtain ⟨names₁, above₁, w₁, hstep, hat₁, hle, hdeep, hread⟩ :=
      hat.step htop ⟨hcomp, hnul⟩ (by omega) hdeep hread
    obtain ⟨names', w', hwalk, hcur, hat', hle'⟩ := ih hat₁ hl (by omega) hdeep hread
    refine ⟨names', w', ?_, hcur, hat', by omega⟩
    rw [← hwalk, cons_append, walkPieces, if_neg (not_lt.mpr hlen), hstep]

/-! ## Where the walk is right -/

/-- The paths a lookup accepts. -/
structure Accepted (path : Name) : Prop where
  absolute : path.head? = some '/'
  short : path.length < pathMax
  text : '\x00' ∉ path
  names : ∀ name ∈ components path, name.length ≤ nameMax

/-- In every tree, a walk of the path ends at the node the path is read to. -/
def ReadRight (path : Name) : Prop :=
  ∀ (ν : Type) [DecidableEq ν] (fs : Vfs ν) (args : WalkArgs ν) (n : ν) (above : List ν),
    args.topRestarts = false →
    fs.readPath args.root (components path) (args.root, []) = some (n, above) →
      fs.vfsWalk args path = .found n

/-- A relative link met in the directory the path is read to is resolved there: the path put in its
place reads like the target and the rest of the path in this directory, if it is not too long. -/
def LinkRight (path : Name) : Prop :=
  ∀ (ν : Type) [DecidableEq ν] (fs : Vfs ν) (args : WalkArgs ν) (dir n : ν) (above :
    List ν) (link tail target : Name),
    args.topRestarts = false → args.mayFollow = true →
      fs.readPath args.root (components path) (args.root, []) = some (dir, above) →
    Accepted (path ++ '/' :: (link ++ tail)) → Descends link → tail = [] ∨ tail.head? = some '/' →
    fs.locked dir = false → fs.finddir dir link = some n → fs.symlink (fs.mntCross n) = true →
    skipSlashes tail ≠ [] ∨ args.followFinal = true →
    fs.size (fs.mntCross n) ≤ nameMax → fs.readLink (fs.mntCross n) = .ok target →
      target.length ≤ nameMax → target ≠ [] →
    target.head? ≠ some '/' → '\x00' ∉ target →
    (fs.vfsWalk args (path ++ '/' :: (link ++ tail)) = .miss enametoolong ∧
        pathMax < path.length + target.length + tail.length + 3) ∨
      ∃ q, fs.vfsWalk args (path ++ '/' :: (link ++ tail)) = .restart false q ∧
        fs.readPath args.root (components q) (args.root, []) =
          fs.readPath args.root (components target ++ components tail) (dir, above)

theorem At.root (fs : Vfs ν) (root : ν) : At fs root [] [] ⟨root, [], some []⟩ :=
  ⟨rfl, rfl, by simp, rfl⟩

theorem Accepted.cons (h : Accepted path) : ∃ p, path = '/' :: p := by
  cases path with
  | nil => cases h.absolute
  | cons c p => exact ⟨p, by rw [Option.some.inj h.absolute]⟩

theorem Accepted.component {path a : Name} (h : Accepted path) (ha : a ∈ components path) :
    Component a ∧ '\x00' ∉ a ∧ a.length ≤ nameMax := by
  obtain ⟨x, hx, rfl⟩ := mem_map.mp ha
  obtain ⟨hcomp, hchars, -⟩ := mem_pieces (by simp) hx
  exact ⟨hcomp, fun hnul => h.text ((hchars _ hnul).resolve_left not_mem_nil), h.names _ ha⟩

theorem length_pathOf_components (p : Name) :
    (pathOf (components ('/' :: p))).length ≤ p.length + 1 := by
  have := length_pathOf_pieces p []
  rw [components_cons]
  simp only [length_nil] at this
  omega

theorem readRight_of_shallow (h : Accepted path) (hdeep : climbsDeep 0 (components path) = false) :
    ReadRight path := by
  intro ν _ fs args n above htop hread
  have hcomponents : ∀ a ∈ components path, Component a ∧ '\x00' ∉ a ∧ a.length ≤ nameMax :=
    fun a => h.component
  obtain ⟨p, rfl⟩ := h.cons
  have hfit := lt_of_le_of_lt (length_pathOf_components p) h.short
  rw [components_cons] at hdeep hread hfit hcomponents
  obtain ⟨_, w, hwalk, hcur, -⟩ :=
    walkPieces_reads [] htop (At.root fs args.root) hcomponents (by simpa [pathOf] using hfit)
      hdeep hread
  rw [append_nil] at hwalk
  rw [vfsWalk_eq, drop_one, tail_cons, hwalk, walkPieces, hcur]

theorem prefix_shallow {a b : List Name} {depth : Nat} (hbegins : a <+: b)
    (hdeep : climbsDeep depth b = false) : climbsDeep depth a = false := by
  obtain ⟨c, rfl⟩ := hbegins
  induction a generalizing depth with
  | nil => rfl
  | cons name a ih =>
    simp only [cons_append, climbsDeep] at hdeep ⊢
    by_cases hdot : name = ['.']
    · rw [if_pos hdot] at hdeep ⊢
      exact ih hdeep
    rw [if_neg hdot] at hdeep ⊢
    by_cases hdots : name = ['.', '.']
    · rw [if_pos hdots, Bool.or_eq_false_iff] at hdeep ⊢
      exact ⟨hdeep.1, ih hdeep.2⟩
    · rw [if_neg hdots] at hdeep ⊢
      exact ih hdeep

/-- The walk of a longer path comes to the directory its first part is read to. -/
theorem vfsWalk_reads {path more : Name} {dir : ν} (htop : args.topRestarts = false)
    (h : Accepted (path ++ '/' :: more)) (hdeep : climbsDeep 0 (components path) = false)
    (hread : fs.readPath args.root (components path) (args.root, []) = some (dir, above)) :
    ∃ names w, fs.vfsWalk args (path ++ '/' :: more) = fs.walkPieces args (pieces more []) w ∧
      w.cur = dir ∧
      At fs args.root names above w ∧ (pathOf names.reverse).length ≤ path.length := by
  obtain ⟨front, hfront, hfst, hlen⟩ : ∃ front, pieces ((path ++ '/' :: more).drop 1) [] =
      front ++ pieces more [] ∧
      front.map Prod.fst = components path ∧ (pathOf (components path)).length ≤ path.length := by
    cases path with
    | nil => exact ⟨[], rfl, rfl, le_rfl⟩
    | cons c p =>
      obtain rfl : c = '/' := by simpa using h.absolute
      obtain ⟨front, hfront, hfst⟩ := pieces_slash p more []
      exact ⟨front, hfront, by rw [hfst, components_cons], length_pathOf_components p⟩
  have hcomponents : ∀ a ∈ components path, Component a ∧ '\x00' ∉ a ∧ a.length ≤ nameMax :=
    fun a ha =>
    h.component (by rw [components_slash]; exact mem_append_left _ ha)
  have hshort := h.short
  have hnil : (pathOf (reverse [])).length = 0 := rfl
  rw [length_append] at hshort
  rw [← hfst] at hdeep hread hcomponents hlen
  obtain ⟨names, w, hwalk, hcur, hat, hle⟩ :=
    walkPieces_reads (pieces more []) htop (At.root fs args.root) hcomponents (by omega) hdeep hread
  exact ⟨names, w, by rw [vfsWalk_eq, hfront, hwalk], hcur, hat, by omega⟩

theorem cString_of_not_mem {p : Name} (h : '\x00' ∉ p) : cString p = p := by
  refine takeWhile_eq_self_iff.mpr fun c hc => decide_eq_true ?_
  rintro rfl
  exact h hc

theorem linkRight_of_shallow (hdeep : climbsDeep 0 (components path) = false) : LinkRight path := by
  intro ν _ fs args dir n above link tail target htop hmay hread hacc hlink htail hopen hfind hsym
    hfollow hsize hrl hlen hne hrel hnul
  obtain ⟨names, w, hwalk, rfl, hat, hle⟩ := vfsWalk_reads htop hacc hdeep hread
  obtain ⟨rest, hpieces⟩ := pieces_end hlink.1.1 htail
  have hlinkLen : link.length ≤ nameMax := by
    refine hacc.names link ?_
    rw [components_slash, components, components, pieces_name hlink.1.2, nil_append, hpieces]
    simp
  set after := skipSlashes tail with hafter
  have hstep : fs.step args link after w =
      .done (fs.followLink args (fs.mntCross n) w.alt after) := by
    simp [Vfs.step, hopen, hlink.2.1, hlink.2.2.1, hfind, hsym, hfollow]
  rw [pieces_name hlink.1.2, nil_append, hpieces, walkPieces, if_neg (not_lt.mpr hlinkLen),
    hstep] at hwalk
  dsimp only at hwalk
  -- the path put in place of the link, with the names to the directory in front
  have hfl : fs.followLink args (fs.mntCross n) w.alt after =
      if pathMax < (pathOf names.reverse).length + 1 + target.length + 1 + after.length + 1 then
        .miss enametoolong
      else .restart false (cString (pathOf names.reverse ++ '/' :: (target ++
        if after = [] then [] else '/' :: after))) := by
    simp [followLink, linkPath, hmay, not_lt.mpr hsize, hrl, hne, hat.alt, hrel,
      take_of_length_le hlen]
  rw [hfl] at hwalk
  have hskip : after.length ≤ tail.length := (dropWhile_sublist _).length_le
  split at hwalk
  · exact .inl ⟨hwalk, by omega⟩
  refine .inr ⟨_, hwalk, ?_⟩
  have hclean : '\x00' ∉ pathOf names.reverse ++ '/' ::
      (target ++ if after = [] then [] else '/' :: after) := by
    have htail : '\x00' ∉ after := fun hmem => hacc.text (by simp [(dropWhile_sublist _).mem hmem])
    have hpath : '\x00' ∉ pathOf names.reverse := by
      simpa [pathOf] using fun name hname => (hat.descends name hname).2.2.2
    simp only [mem_append, mem_cons, not_or]
    refine ⟨hpath, by decide, hnul, ?_⟩
    split <;> simp [htail]
  have hcomponents : components (target ++ if after = [] then [] else '/' :: after) =
      components target ++ components tail := by
    rw [show components tail = components after by rw [components, components, pieces_skipSlashes]]
    split
    · next hnil => simp [hnil, components, pieces]
    · exact components_slash _ _
  rw [cString_of_not_mem hclean, components_slash, hcomponents, readPath_append,
    components_pathOf fun name hname => (hat.descends name (mem_reverse.mp hname)).1, hat.read,
      Option.bind_some]

/-! ## Where the walk is wrong -/

/-- The tree in which every name descends: a node is the names that lead to it, the last one
first. -/
def nameTree : Vfs (List Name) where
  finddir d name := some (name :: d)
  mounts := []
  locked _ := false
  symlink _ := false
  size _ := 0
  readLink _ := .ok []
  root := []
  overlay := none

/-- The directories above one of them. -/
def ups : List Name → List (List Name)
  | [] => []
  | _ :: d => d :: ups d

@[simp] theorem length_ups (d : List Name) : (ups d).length = d.length := by
  induction d with
  | nil => rfl
  | cons _ d ih => simp [ups, ih]

theorem drop_ups (d : List Name) (k : Nat) : (ups d).drop k = ups (d.drop k) := by
  induction k generalizing d with
  | zero => rfl
  | succ k ih =>
    cases d with
    | nil => rfl
    | cons _ d => exact ih d

theorem head_ups (d : List Name) : (ups d).head?.getD [] = d.tail := by
  cases d <;> rfl

theorem nameTree_dots (rest : List Name) (d : List Name) :
    nameTree.readPath [] (['.', '.'] :: rest) (d, ups d) =
      nameTree.readPath [] rest (d.tail, ups d.tail) := by
  have htail : (ups d).tail = ups d.tail := by simpa using drop_ups d 1
  simp [readPath, nameTree, head_ups, htail]

/-- The first `..` that climbs from too deep. -/
theorem climbsDeep_split (h : climbsDeep d.length cs = true) :
    ∃ pre post d', cs = pre ++ ['.', '.'] :: post ∧ climbsDeep d.length pre = false ∧
      nameTree.readPath [] pre (d, ups d) = some (d', ups d') ∧ parentsMax < d'.length := by
  induction cs generalizing d with
  | nil => cases h
  | cons name cs ih =>
    unfold climbsDeep at h
    by_cases hdot : name = ['.']
    · rw [if_pos hdot] at h
      obtain ⟨pre, post, d', rfl, hdeep, hread, hlt⟩ := ih h
      exact ⟨name :: pre, post, d',
        rfl, by rw [climbsDeep, if_pos hdot, hdeep], by
        simpa [readPath, nameTree, hdot] using hread, hlt⟩
    rw [if_neg hdot] at h
    by_cases hdots : name = ['.', '.']
    · subst hdots
      by_cases hlt : parentsMax < d.length
      · exact ⟨[], cs, d, rfl, rfl, rfl, hlt⟩
      rw [if_pos rfl, decide_eq_false hlt, Bool.false_or, ← length_tail] at h
      obtain ⟨pre, post, d', rfl, hdeep, hread, hlt'⟩ := ih h
      refine ⟨['.', '.'] :: pre, post, d', rfl, ?_, by rw [nameTree_dots, hread], hlt'⟩
      rw [climbsDeep, if_neg hdot, if_pos rfl, decide_eq_false hlt, Bool.false_or,
        ← length_tail, hdeep]
    · rw [if_neg hdots] at h
      obtain ⟨pre, post, d', rfl, hdeep, hread, hlt⟩ :=
        ih (show climbsDeep (name :: d).length cs = true from h)
      refine ⟨name :: pre, post, d',
        rfl, by rw [climbsDeep, if_neg hdot, if_neg hdots]; exact hdeep, ?_, hlt⟩
      rw [← hread]
      simp [readPath, nameTree, hdot, hdots, mntCross, crossHops, mntMax, mntOn, ups]

/-- The path of the first components of an accepted path is accepted. -/
theorem Accepted.pathOf_begins (h : Accepted path) (hcs : cs <+: components path) (hne : cs ≠ []) :
    Accepted (pathOf cs) ∧ components (pathOf cs) = cs := by
  have hcomponents : components (pathOf cs) = cs :=
    components_pathOf fun a ha => (h.component (hcs.subset ha)).1
  refine ⟨⟨?_, ?_, ?_, fun a ha => h.names a (hcs.subset (hcomponents ▸ ha))⟩, hcomponents⟩
  · obtain ⟨a, cs, rfl⟩ := exists_cons_of_ne_nil hne
    rfl
  · obtain ⟨rest, hrest⟩ := hcs
    obtain ⟨p, rfl⟩ := h.cons
    have hlen := length_pathOf_components p
    have hshort := h.short
    rw [← hrest, pathOf_append, length_append] at hlen
    rw [length_cons] at hshort
    omega
  · simpa [pathOf] using fun a ha => (h.component (hcs.subset ha)).2.1

/-- A walk of the tree of names that climbs from too deep ends somewhere else. -/
theorem not_readRight {pre : List Name} (h : Accepted path)
    (hpath : components path = pre ++ [['.', '.']]) (htext : path = pathOf pre ++ '/' :: ['.', '.'])
    (hdeep : climbsDeep 0 pre = false)
    (hpre : components (pathOf pre) = pre)
    (hread : nameTree.readPath [] pre ([], []) = some (d, ups d)) (hlt : parentsMax < d.length) :
    ¬ReadRight path := by
  intro hright
  let args : WalkArgs (List Name) := ⟨[], true, true, false⟩
  have htrue : nameTree.vfsWalk args path = .found d.tail := by
    refine hright _ nameTree args d.tail (ups d.tail) rfl ?_
    rw [hpath, readPath_append, hread, Option.bind_some, nameTree_dots]
    rfl
  rw [← hpre] at hdeep hread
  rw [htext] at h htrue
  obtain ⟨names, w, hwalk, -, hat, -⟩ :=
    vfsWalk_reads (show args.topRestarts = false from rfl) h hdeep hread
  have hdots : nameTree.walkPieces args (pieces ['.', '.'] []) w =
      .found (w.parents.head?.getD []) := by
    simp [pieces, walkPieces, Vfs.step, dotdot, nameTree, args, nameMax]
  rw [hwalk, hdots, hat.parents, drop_ups, head_ups, WalkEnd.found.injEq] at htrue
  have hlen := congrArg length htrue
  simp only [length_ups, length_tail, length_drop] at hlen
  have hmax : parentsMax = 64 := rfl
  omega

/-- **A walk is the reading of its path exactly when the path never climbs from more than 64
directories deep**: then, in every tree, each path that begins like this one leads to the node it is
read to, and a relative link met there is resolved in the directory it was found in. -/
theorem walk_reads_iff (path : Name) (h : Accepted path) :
    (∀ q, components q <+: components path → (Accepted q → ReadRight q) ∧ LinkRight q) ↔
      climbsDeep 0 (components path) = false := by
  constructor
  · intro hright
    by_contra hdeep
    obtain ⟨pre, post, d, hsplit, hpre, hread, hlt⟩ :=
      climbsDeep_split (show climbsDeep ([] : List Name).length _ = true by simpa using hdeep)
    have hbegins : pre ++ [['.', '.']] <+: components path := ⟨post, by simp [hsplit]⟩
    have hne : pre ≠ [] := by
      rintro rfl
      cases hread
      simp at hlt
    obtain ⟨hacc, hcomponents⟩ := h.pathOf_begins hbegins (by simp)
    have hcpre := (h.pathOf_begins ((prefix_append _ _).trans hbegins) hne).2
    exact not_readRight hacc hcomponents (pathOf_snoc _ _) hpre hcpre hread hlt
      ((hright _ (hcomponents.symm ▸ hbegins)).1 hacc)
  · intro hdeep q hq
    have hshallow := prefix_shallow hq hdeep
    exact ⟨fun hacc => readRight_of_shallow hacc hshallow, linkRight_of_shallow hshallow⟩

theorem walk_reads_up : Accepted "/usr/..".toList ∧ ReadRight "/usr/..".toList := by
  have h : Accepted "/usr/..".toList := ⟨rfl, by decide, by decide, by decide⟩
  exact ⟨h, ((walk_reads_iff _ h).mpr (by decide) _ (prefix_refl _)).1 h⟩

/-- 65 directories deep, and one up. -/
def deepPath : Name := pathOf (List.replicate 65 ['a'] ++ [['.', '.']])

theorem deepPath_lost : Accepted deepPath ∧
    (nameTree.readPath [] (components deepPath) ([], [])).map Prod.fst =
      some (List.replicate 64 ['a']) ∧
    nameTree.vfsWalk ⟨[], true, true, false⟩ deepPath = .found (List.replicate 63 ['a']) := by
  refine ⟨⟨rfl, ?_, ?_, ?_⟩, ?_, ?_⟩ <;> decide +kernel

end MaeroOS.Fs
