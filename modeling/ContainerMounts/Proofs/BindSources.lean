/-
ContainerMounts.Proofs.BindSources — what the source of a bind turns out to be.

A bind source is looked at up to three times: as it stands (`lstat`), with every link
followed and written out (`realPath`), and at the path that this gave (`stat`). The
three looks walk by different rules, so their answers are compared first:

* a file that is no symlink has a real path, unless one on the way is too long
  (`realPath_of_lstat`);
* what has a real path is there as it stands, if the kernel takes its path
  (`lstat_of_realPath`);
* a real path leads, by the names it is written with, to a file (`stat_of_trace`).

Main statement: the source is the link itself, a file under its real path or an error,
each exactly when it should be (`bind_source_classified`). A path that is too long for
the kernel is refused although its real path may be short
(`bind_source_refused_dotted`).
-/
import ContainerMounts.Plan
import ContainerMounts.Proofs.ChrootLookup

namespace ContainerMounts

namespace Path

/-- Every path but the empty one asks for some move. -/
theorem moves_ne_nil {p : Path} (h : p.bytes ≠ []) : p.moves ≠ [] := by
  obtain ⟨b, hlast⟩ : ∃ b, p.bytes.getLast? = some b := ⟨_, List.getLast?_eq_some_getLast h⟩
  by_cases hslash : b = slash
  · simp [moves, hlast, hslash]
  · have hmem : b ∈ joinPieces slash p.parts := by
      rw [parts, joinPieces_pieces]
      exact List.mem_of_getLast? hlast
    obtain ⟨piece, hpiece, hb⟩ := (mem_joinPieces hmem).resolve_left hslash
    have hne : piece ≠ [] := List.ne_nil_of_mem hb
    obtain ⟨move, hmove⟩ : ∃ move, Move.ofPiece? piece = some move := by
      simp only [Move.ofPiece?, if_neg hne]
      split
      · exact ⟨_, rfl⟩
      · split <;> exact ⟨_, rfl⟩
    exact List.ne_nil_of_mem
      (List.mem_append_left _ (List.mem_filterMap.2 ⟨piece, hpiece, hmove⟩))

theorem length_ofNames_dropLast {names : List Name} (h : ∀ n ∈ names, slash ∉ n) :
    (ofNames names.dropLast).bytes.length ≤ (ofNames names).bytes.length := by
  rcases List.eq_nil_or_concat names with rfl | ⟨init, last, rfl⟩
  · exact Nat.le_refl _
  · have hlen := length_le_join (ofNames init) (h last (by simp))
    rw [List.concat_eq_append, List.dropLast_concat, ofNames, ofNames, joinNames_concat]
    rw [ofNames] at hlen
    omega

end Path

namespace FileTree

variable {tree : FileTree} {rules rules' : WalkRules}
  {jump jump' : List Name → List Move → Except Errno (List Name)}
  {here place : List Name} {xs : List Move} {p real : Path}

/-! ## Where the real path leads -/

/-- A walk with a reach comes to no place whose path is longer. -/
theorem walkInvariant_inReach {limit : Nat} (hreach : rules.reach = some limit)
    (hlimit : 0 < limit) : WalkInvariant tree rules fun place =>
      tree.Sound place ∧ (Path.ofNames place).bytes.length ≤ limit where
  root := ⟨Sound.nil tree, hlimit⟩
  up h hdir := ⟨h.1.dropLast hdir, Nat.le_trans
    (Path.length_ofNames_dropLast fun n hn => (h.1.plain n hn).no_slash) h.2⟩
  down h hname hlen hfar hat hnode :=
    ⟨h.1.concat hname hlen hat hnode, by simpa [WalkRules.tooFar, hreach] using hfar⟩

theorem accept_of_trace (h : tree.trace p = .ok place) :
    accept (Path.ofNames place) = .ok () := by
  obtain ⟨hsound, hlen⟩ := (walkInvariant_inReach rfl (by decide)).walk rfl
    ⟨Sound.nil tree, by decide⟩ (fun _ hn => Move.plain_of_mem_moves hn) (trace_eq_ok.1 h).2
  refine accept_eq_ok.2 ⟨fun hempty => ?_, hlen⟩
  have habs := Path.isAbsolute_ofNames hsound.plain
  simp [Path.isAbsolute, hempty] at habs

theorem isDirAt_of_trace (h : tree.trace p = .ok place) : tree.IsDirAt [] := by
  obtain ⟨hne, hwalk⟩ := trace_eq_ok.1 h
  obtain ⟨move, rest, hmoves⟩ := List.exists_cons_of_ne_nil (Path.moves_ne_nil hne)
  rw [hmoves] at hwalk
  exact (walkVia_cons_ok hwalk).2.1

theorem at?_of_trace (h : tree.trace p = .ok place) :
    ∃ node, tree.at? place = some node ∧ node.isSymlink = false := by
  rcases (sound_of_trace h).node with rfl | hnode
  · obtain ⟨mode, entries, hat⟩ := isDirAt_of_trace h
    exact ⟨_, hat, rfl⟩
  · exact hnode

/-- The real path is looked up by the names it is written with. -/
theorem stat_of_trace {node : Node} (h : tree.trace p = .ok place)
    (hat : tree.at? place = some node) (hnul : ∀ n ∈ place, 0 ∉ n) :
    tree.stat (Path.ofNames place) = .ok node := by
  have hsound := sound_of_trace h
  have hloc := locate_of_sound hsound hnul (accept_of_trace h) (isDirAt_of_trace h)
  have hbytes : 0 ∉ (Path.ofNames place).bytes :=
    Path.nul_notMem_joinNames (fun n hn => (hsound.plain n hn).no_slash) (by decide) hnul
  exact findNode_eq_ok.2 ⟨place, find_eq_ok.2 ⟨hbytes, hloc⟩, hat⟩

/-! ## The path as it stands and the path followed -/

theorem walkVia_far {move : Move} {rest : List Move} (h : rules.tooFar here move = true) :
    walkVia tree rules jump here (move :: rest) = .error .nameTooLong := by
  rw [walkVia, if_pos h]

/-- A walk that ends at no symlink ends there when every link is followed, or comes to
a path that is too long. -/
theorem walkVia_followed (hfollow : rules'.followLast = true) (hplace : ¬ tree.IsSymlinkAt place)
    (hjump : ∀ from' moves, jump from' moves = .ok place →
      jump' from' moves = .ok place ∨ jump' from' moves = .error .nameTooLong)
    (h : walkVia tree rules jump here xs = .ok place) :
    walkVia tree rules' jump' here xs = .ok place
      ∨ walkVia tree rules' jump' here xs = .error .nameTooLong := by
  induction xs generalizing here with
  | nil => exact .inl (by simpa [walkVia] using h)
  | cons move rest ih =>
      obtain ⟨-, hdir, hstay | hup | hdown⟩ := walkVia_cons_ok h
      · obtain ⟨rfl, hrest⟩ := hstay
        rw [walkVia_stay hdir tooFar_stay]
        exact ih hrest
      · obtain ⟨rfl, hrest⟩ := hup
        rw [walkVia_up hdir tooFar_up]
        exact ih hrest
      · obtain ⟨name, node, rfl, hlen, hchild, hcase⟩ := hdown
        cases hfar : rules'.tooFar here (.down name) with
        | true => exact .inr (walkVia_far hfar)
        | false =>
            rcases hcase with ⟨text, rfl, -, hjumped⟩ | ⟨-, hnode, rfl⟩ | ⟨hnode, hrest⟩
            · rw [walkVia_down_symlink hdir hfar hlen hchild, hfollow, Bool.not_true,
                Bool.and_false, if_neg Bool.false_ne_true]
              exact hjump _ _ hjumped
            · obtain ⟨text, rfl⟩ := Node.eq_symlink_of_isSymlink hnode
              exact absurd ⟨text, hchild⟩ hplace
            · rw [walkVia_down_plain hdir hfar hlen hchild hnode]
              exact ih hrest

theorem walk_followed (rules' : WalkRules) {links : Nat} (hfollow : rules'.followLast = true)
    (hplace : ¬ tree.IsSymlinkAt place) (h : walk tree rules links here xs = .ok place) :
    walk tree rules' links here xs = .ok place
      ∨ walk tree rules' links here xs = .error .nameTooLong := by
  induction links generalizing here xs with
  | zero => exact walkVia_followed hfollow hplace (fun _ _ hj => by simp at hj) h
  | succ links ih => exact walkVia_followed hfollow hplace (fun _ _ hj => ih hj) h

/-- A walk that follows every link and comes to a file does so without following the
last one, at that link. -/
theorem walkVia_unfollowed (hfollow : rules.followLast = true) (hreach : rules'.reach = none)
    (hplace : (tree.at? place).isSome = true)
    (hjump : ∀ from' moves, jump from' moves = .ok place →
      ∃ place', jump' from' moves = .ok place' ∧ (tree.at? place').isSome = true)
    (h : walkVia tree rules jump here xs = .ok place) :
    ∃ place', walkVia tree rules' jump' here xs = .ok place'
      ∧ (tree.at? place').isSome = true := by
  induction xs generalizing here with
  | nil => exact ⟨place, by simpa [walkVia] using h, hplace⟩
  | cons move rest ih =>
      have hfar : ∀ m, rules'.tooFar here m = false := tooFar_eq_false hreach
      obtain ⟨-, hdir, hstay | hup | hdown⟩ := walkVia_cons_ok h
      · obtain ⟨rfl, hrest⟩ := hstay
        rw [walkVia_stay hdir (hfar _)]
        exact ih hrest
      · obtain ⟨rfl, hrest⟩ := hup
        rw [walkVia_up hdir (hfar _)]
        exact ih hrest
      · obtain ⟨name, node, rfl, hlen, hchild, hlink | hlast | hplain⟩ := hdown
        · obtain ⟨text, rfl, -, hjumped⟩ := hlink
          rw [walkVia_down_symlink hdir (hfar _) hlen hchild]
          split
          · exact ⟨_, rfl, by simp [hchild]⟩
          · exact hjump _ _ hjumped
        · simp [hfollow] at hlast
        · obtain ⟨hnode, hrest⟩ := hplain
          rw [walkVia_down_plain hdir (hfar _) hlen hchild hnode]
          exact ih hrest

theorem walk_unfollowed (rules' : WalkRules) {links : Nat} (hfollow : rules.followLast = true)
    (hreach : rules'.reach = none) (hplace : (tree.at? place).isSome = true)
    (h : walk tree rules links here xs = .ok place) :
    ∃ place', walk tree rules' links here xs = .ok place'
      ∧ (tree.at? place').isSome = true := by
  induction links generalizing here xs with
  | zero => exact walkVia_unfollowed hfollow hreach hplace (fun _ _ hj => by simp at hj) h
  | succ links ih => exact walkVia_unfollowed hfollow hreach hplace (fun _ _ hj => ih hj) h

/-- The kernel looks at no path that is too long. -/
theorem length_le_of_lstat {node : Node} (h : tree.lstat p = .ok node) :
    p.bytes.length ≤ pathLimit := by
  obtain ⟨place, hfind, -⟩ := findNode_eq_ok.1 h
  exact (accept_eq_ok.1 (locate_eq_ok.1 (find_eq_ok.1 hfind).2).1).2

theorem lstat_of_long (tree : FileTree) (hnul : 0 ∉ p.bytes) (hlong : pathLimit < p.bytes.length) :
    tree.lstat p = .error (.os .nameTooLong) := by
  have hne : p.bytes.isEmpty = false :=
    List.isEmpty_eq_false_iff.2 (List.length_pos_iff.1 (Nat.lt_of_le_of_lt (Nat.zero_le _) hlong))
  simp [lstat, findNode, find, locate, accept, hnul, hne, hlong, bind, Except.bind,
    Except.mapError]

/-- A file that is no symlink has a real path, unless one on the way is too long. -/
theorem realPath_of_lstat {node : Node} (h : tree.lstat p = .ok node)
    (hnode : node.isSymlink = false) :
    (∃ real, tree.realPath p = .ok real) ∨ tree.realPath p = .error (.os .nameTooLong) := by
  obtain ⟨place, hfind, hat⟩ := findNode_eq_ok.1 h
  obtain ⟨hnul, hloc⟩ := find_eq_ok.1 hfind
  obtain ⟨hacc, hwalk⟩ := locate_eq_ok.1 hloc
  have hplace : ¬ tree.IsSymlinkAt place := by
    rintro ⟨text, htext⟩
    obtain rfl : Node.symlink text = node := by simpa [htext] using hat
    simp [Node.isSymlink] at hnode
  rcases walk_followed { followLast := true, reach := some pathLimit } rfl hplace hwalk
    with htrace | htrace
  · exact .inl ⟨_, realPath_eq_ok.2
      ⟨hnul, place, trace_eq_ok.2 ⟨(accept_eq_ok.1 hacc).1, htrace⟩, rfl⟩⟩
  · refine .inr ?_
    have hne := List.isEmpty_eq_false_iff.2 (accept_eq_ok.1 hacc).1
    simp [realPath, trace, hnul, hne, htrace, Except.map, Except.mapError]

/-- What has a real path is there as it stands, if the kernel takes its path. -/
theorem lstat_of_realPath (h : tree.realPath p = .ok real) (hlen : p.bytes.length ≤ pathLimit) :
    ∃ node, tree.lstat p = .ok node := by
  obtain ⟨hnul, place, htrace, -⟩ := realPath_eq_ok.1 h
  obtain ⟨hne, hwalk⟩ := trace_eq_ok.1 htrace
  obtain ⟨node, hat, -⟩ := at?_of_trace htrace
  obtain ⟨place', hwalk', hsome⟩ := walk_unfollowed { followLast := false } rfl rfl
    (by simp [hat]) hwalk
  obtain ⟨node', hat'⟩ := Option.isSome_iff_exists.1 hsome
  have hloc := locate_eq_ok.2 ⟨accept_eq_ok.2 ⟨hne, hlen⟩, hwalk'⟩
  exact ⟨node', findNode_eq_ok.2 ⟨place', find_eq_ok.2 ⟨hnul, hloc⟩, hat'⟩⟩

end FileTree

/-! ## The classes of sources -/

namespace MountSource

variable {tree : FileTree} {p real : Path} {copy : Bool} {text : Path} {node : Node}
  {kind : FileKind} {fault : Fault} {result : Except Error MountSource}

/-- The container gets the link itself: there is one, and it is to be copied or leads
nowhere. -/
structure StaysLink (tree : FileTree) (p : Path) (copy : Bool) (text : Path) : Prop where
  link : tree.lstat p = .ok (.symlink text)
  kept : copy = true ∨ tree.realPath p = .error (.os .noEntry)

/-- How the look at a source ends. -/
inductive Inspected (tree : FileTree) (p : Path) (copy : Bool) :
    Except Error MountSource → Prop
  /-- There is nothing to look at. -/
  | unseen {fault : Fault} (h : tree.lstat p = .error fault) :
      Inspected tree p copy (.error (missing p fault))
  | link {text : Path} (h : StaysLink tree p copy text) :
      Inspected tree p copy (.ok (.symlink text))
  /-- What is there cannot be followed. -/
  | unresolved {node : Node} {fault : Fault} (hseen : tree.lstat p = .ok node)
      (hstays : ¬ ∃ text, StaysLink tree p copy text) (h : tree.realPath p = .error fault) :
      Inspected tree p copy (.error (.io fault))
  | found {node file : Node} {names : List Name} {kind : FileKind}
      (hseen : tree.lstat p = .ok node) (hstays : ¬ ∃ text, StaysLink tree p copy text)
      (htrace : tree.trace p = .ok names) (hreal : tree.realPath p = .ok (.ofNames names))
      (hat : tree.at? names = some file) (hfile : tree.stat (.ofNames names) = .ok file)
      (hkind : FileKind.ofNode? file = some kind) :
      Inspected tree p copy (.ok (.path (.ofNames names) kind))

theorem exists_kind (h : node.isSymlink = false) : ∃ kind, FileKind.ofNode? node = some kind := by
  cases node with
  | symlink text => simp [Node.isSymlink] at h
  | _ => exact ⟨_, rfl⟩

theorem missing_eq_io (h : fault ≠ .os .noEntry) : missing p fault = .io fault := by
  rw [missing, if_neg h]

theorem inspect_unseen (h : tree.lstat p = .error fault) :
    inspect tree p copy = .error (missing p fault) := by
  unfold inspect
  rw [h]
  rfl

theorem StaysLink.inspect_eq (h : StaysLink tree p copy text) :
    inspect tree p copy = .ok (.symlink text) := by
  unfold inspect
  rw [h.link]
  rcases h.kept with rfl | hnowhere
  · rfl
  · cases copy with
    | true => rfl
    | false =>
        simp only [Except.mapError, hnowhere]
        rfl

/-- A link that does not stay one is followed. -/
theorem inspect_followed_link (hseen : tree.lstat p = .ok (.symlink text))
    (hstays : ¬ ∃ text, StaysLink tree p copy text) :
    inspect tree p copy = (tree.realPath p).mapError .io >>= ofReal tree := by
  have hcopy : copy = false := by
    cases copy with
    | false => rfl
    | true => exact absurd ⟨text, hseen, .inl rfl⟩ hstays
  unfold inspect
  rw [hseen, hcopy]
  cases hreal : tree.realPath p with
  | ok real => rfl
  | error fault =>
      have hfault : fault ≠ .os .noEntry := fun h => hstays ⟨text, hseen, .inr (by rw [hreal, h])⟩
      exact if_neg hfault

/-- What is there and does not stay a link is followed. -/
theorem inspect_followed (hseen : tree.lstat p = .ok node)
    (hstays : ¬ ∃ text, StaysLink tree p copy text) :
    inspect tree p copy = (tree.realPath p).mapError .io >>= ofReal tree := by
  cases hlink : node.isSymlink with
  | true =>
      obtain ⟨text, rfl⟩ := Node.eq_symlink_of_isSymlink hlink
      exact inspect_followed_link hseen hstays
  | false =>
      -- A file that is there does not go missing, so no fault is one of the configuration.
      have hio : (tree.realPath p).mapError (missing p) = (tree.realPath p).mapError .io := by
        obtain ⟨real, hreal⟩ | hlong := FileTree.realPath_of_lstat hseen hlink
        · rw [hreal]
          rfl
        · rw [hlong, Except.mapError, missing_eq_io (by decide)]
          rfl
      unfold inspect
      rw [hseen]
      cases node with
      | symlink text => simp [Node.isSymlink] at hlink
      | _ => exact congrArg (· >>= ofReal tree) hio

theorem inspect_inspected (tree : FileTree) (p : Path) (copy : Bool)
    (hnames : ∀ place node, tree.at? place = some node → ∀ n ∈ place, 0 ∉ n) :
    Inspected tree p copy (inspect tree p copy) := by
  cases hseen : tree.lstat p with
  | error fault => exact inspect_unseen hseen ▸ .unseen hseen
  | ok node =>
      by_cases hstays : ∃ text, StaysLink tree p copy text
      · obtain ⟨text, hlink⟩ := hstays
        exact hlink.inspect_eq ▸ .link hlink
      · rw [inspect_followed hseen hstays]
        cases hreal : tree.realPath p with
        | error fault => exact .unresolved hseen hstays hreal
        | ok real =>
            obtain ⟨-, names, htrace, rfl⟩ := FileTree.realPath_eq_ok.1 hreal
            obtain ⟨file, hat, hplain⟩ := FileTree.at?_of_trace htrace
            have hfile := FileTree.stat_of_trace htrace hat (hnames names file hat)
            obtain ⟨kind, hkind⟩ := exists_kind hplain
            have hfound : ofReal tree (.ofNames names) = .ok (.path (.ofNames names) kind) := by
              simp only [ofReal, hfile, Except.mapError, bind, Except.bind, hkind]
            show Inspected tree p copy (ofReal tree (.ofNames names))
            rw [hfound]
            exact .found hseen hstays htrace hreal hat hfile hkind

/-- What the source of a bind is, said by what is at the path. -/
structure Classified (tree : FileTree) (p : Path) (copy : Bool)
    (result : Except Error MountSource) : Prop where
  link_iff : ∀ text, result = .ok (.symlink text) ↔ StaysLink tree p copy text
  path_iff : ∀ real kind, result = .ok (.path real kind) ↔
    (p.bytes.length ≤ FileTree.pathLimit ∧ ¬ ∃ text, StaysLink tree p copy text)
      ∧ tree.realPath p = .ok real
      ∧ ∃ file, tree.stat real = .ok file ∧ FileKind.ofNode? file = some kind
  /-- Whatever is at a real path can be bound. -/
  found : ∀ real, p.bytes.length ≤ FileTree.pathLimit → (¬ ∃ text, StaysLink tree p copy text) →
    tree.realPath p = .ok real → ∃ kind, result = .ok (.path real kind)
  /-- The path of a source names its file through directories only. -/
  real : ∀ real kind, result = .ok (.path real kind) → real.isAbsolute = true
    ∧ ∃ names file, real = .ofNames names ∧ tree.at? names = some file
      ∧ FileKind.ofNode? file = some kind
      ∧ ∀ above, above <+: names → ¬ tree.IsSymlinkAt above
  absent : tree.lstat p = .error (.os .noEntry) →
    result = .error (.config ("bind source " ++ p.display ++ " does not exist"))
  refused : ∀ fault, tree.lstat p = .error fault → fault ≠ .os .noEntry →
    result = .error (.io fault)
  tooLong : 0 ∉ p.bytes → FileTree.pathLimit < p.bytes.length →
    result = .error (.io (.os .nameTooLong))
  unresolved : ∀ fault, (∃ node, tree.lstat p = .ok node) →
    (¬ ∃ text, StaysLink tree p copy text) → tree.realPath p = .error fault →
    result = .error (.io fault)

namespace Inspected

theorem link_iff (h : Inspected tree p copy result) (text : Path) :
    result = .ok (.symlink text) ↔ StaysLink tree p copy text := by
  cases h with
  | unseen hunseen => exact ⟨fun h => by simp at h, fun h => by simp [h.link] at hunseen⟩
  | @link kept hlink =>
      refine ⟨fun h => ?_, fun h => ?_⟩
      · obtain rfl : kept = text := by simpa using h
        exact hlink
      · obtain rfl : kept = text := by simpa [hlink.link] using h.link
        rfl
  | unresolved _ hstays _ => exact ⟨fun h => by simp at h, fun h => absurd ⟨text, h⟩ hstays⟩
  | found _ hstays => exact ⟨fun h => by simp at h, fun h => absurd ⟨text, h⟩ hstays⟩

theorem path_iff (h : Inspected tree p copy result) (real : Path) (kind : FileKind) :
    result = .ok (.path real kind) ↔
      (p.bytes.length ≤ FileTree.pathLimit ∧ ¬ ∃ text, StaysLink tree p copy text)
        ∧ tree.realPath p = .ok real
        ∧ ∃ file, tree.stat real = .ok file ∧ FileKind.ofNode? file = some kind := by
  cases h with
  | unseen hunseen =>
      refine ⟨fun h => by simp at h, fun ⟨⟨hlen, _⟩, hreal, _⟩ => ?_⟩
      obtain ⟨node, hseen⟩ := FileTree.lstat_of_realPath hreal hlen
      simp [hunseen] at hseen
  | link hlink => exact ⟨fun h => by simp at h, fun ⟨⟨_, hstays⟩, _⟩ => absurd ⟨_, hlink⟩ hstays⟩
  | unresolved _ _ hfault =>
      exact ⟨fun h => by simp at h, fun ⟨_, hreal, _⟩ => by simp [hfault] at hreal⟩
  | found hseen hstays _ hfound _ hfile hkind =>
      constructor
      · intro h
        obtain ⟨rfl, rfl⟩ : _ = real ∧ _ = kind := by simpa using h
        exact ⟨⟨FileTree.length_le_of_lstat hseen, hstays⟩, hfound, _, hfile, hkind⟩
      · rintro ⟨-, hreal, file, hfile', hkind'⟩
        obtain rfl : _ = real := by simpa [hfound] using hreal
        obtain rfl : _ = file := by simpa [hfile] using hfile'
        obtain rfl : _ = kind := by simpa [hkind] using hkind'
        rfl

theorem found_real (h : Inspected tree p copy result)
    (hfound : result = .ok (.path real kind)) :
    real.isAbsolute = true ∧ ∃ names file, real = .ofNames names ∧ tree.at? names = some file
      ∧ FileKind.ofNode? file = some kind
      ∧ ∀ above, above <+: names → ¬ tree.IsSymlinkAt above := by
  cases h with
  | unseen _ => simp at hfound
  | link _ => simp at hfound
  | unresolved _ _ _ => simp at hfound
  | @found _ file names _ _ _ htrace _ hat _ hkind =>
      obtain ⟨rfl, rfl⟩ : _ = real ∧ _ = kind := by simpa using hfound
      refine ⟨Path.isAbsolute_ofNames (FileTree.sound_of_trace htrace).plain, names, file, rfl,
        hat, hkind, ?_⟩
      rintro above ⟨rest, rfl⟩ ⟨text, hlink⟩
      by_cases hrest : rest = []
      · subst hrest
        obtain rfl : Node.symlink text = file := by simpa [hlink] using hat
        simp [FileKind.ofNode?] at hkind
      · exact (FileTree.isDirAt_of_at?_append hat hrest).not_symlink ⟨text, hlink⟩

theorem refused (h : Inspected tree p copy result) (hunseen : tree.lstat p = .error fault)
    (hfault : fault ≠ .os .noEntry) : result = .error (.io fault) := by
  cases h with
  | unseen hunseen' =>
      obtain rfl : _ = fault := by simpa [hunseen'] using hunseen
      rw [missing_eq_io hfault]
  | link hlink => simp [hlink.link] at hunseen
  | unresolved hseen => simp [hseen] at hunseen
  | found hseen => simp [hseen] at hunseen

theorem classified (h : Inspected tree p copy result) : Classified tree p copy result where
  link_iff := h.link_iff
  path_iff := h.path_iff
  found real hlen hstays hreal := by
    obtain ⟨node, hseen⟩ := FileTree.lstat_of_realPath hreal hlen
    cases h with
    | unseen hunseen => simp [hunseen] at hseen
    | link hlink => exact absurd ⟨_, hlink⟩ hstays
    | unresolved _ _ hfault => simp [hfault] at hreal
    | @found _ _ names kind _ _ _ hfound =>
        obtain rfl : Path.ofNames names = real := by simpa [hfound] using hreal
        exact ⟨kind, rfl⟩
  real _ _ := h.found_real
  absent hunseen := by
    cases h with
    | unseen hunseen' =>
        obtain rfl : _ = Fault.os .noEntry := by simpa [hunseen'] using hunseen
        rfl
    | link hlink => simp [hlink.link] at hunseen
    | unresolved hseen => simp [hseen] at hunseen
    | found hseen => simp [hseen] at hunseen
  refused _ := h.refused
  tooLong hnul hlong := h.refused (FileTree.lstat_of_long tree hnul hlong) (by decide)
  unresolved fault hseen hstays hunresolved := by
    obtain ⟨node, hseen⟩ := hseen
    cases h with
    | unseen hunseen => simp [hunseen] at hseen
    | link hlink => exact absurd ⟨_, hlink⟩ hstays
    | unresolved _ _ hfault =>
        obtain rfl : _ = fault := by simpa [hfault] using hunresolved
        rfl
    | found _ _ _ hreal => simp [hreal] at hunresolved

end Inspected

end MountSource

namespace MountRequest

theorem findSource_eq {tree : FileTree} {r : MountRequest} {raw : String} {bundle : Option Path}
    {o : MountOptions} (hkind : r.kind = .bind) (hsource : r.source = some raw) :
    r.findSource tree bundle o
      = MountSource.inspect tree (sourcePath bundle raw) o.copySymlink := by
  rw [findSource, if_pos hkind, hsource]

/-- A bind of this file of the host. -/
def bindOf (source : String) : MountRequest :=
  { destination := "/d", kind := .bind, source := some source }

end MountRequest

theorem Rootfs.names_linkedFile (place : List Name) (node : Node)
    (hat : linkedFile.at? place = some node) : ∀ n ∈ place, 0 ∉ n :=
  fun n hn => (ordinary_linkedFile.names place node hat n hn).2

open MountRequest Rootfs

/-- Parts `.` in front of the name of a file are no part of its real path. -/
theorem realPath_dotted (n : Nat) {tree : FileTree} {name : Name} {node : Node}
    (hdir : tree.IsDirAt []) (hname : FileTree.FitName name) (hat : tree.at? [name] = some node)
    (hnode : node.isSymlink = false) :
    tree.realPath ((dottedRoot n).join ⟨name⟩) = .ok (.ofNames [name]) := by
  have hstays : ∀ move ∈ (dottedRoot n).pieceMoves, move = .stay := fun move hmove =>
    moves_dottedRoot n move (List.mem_append_left _ hmove)
  have hfar : FileTree.WalkRules.tooFar { followLast := true, reach := some FileTree.pathLimit }
      [] (.down name) = false := by
    have hshort := hname.short
    have hlen : (Path.root.join ⟨name⟩).bytes.length ≤ 2 + FileTree.nameLimit :=
      Nat.le_trans (Path.length_join_le Path.root hname.no_slash) (Nat.add_le_add_left hshort 2)
    have hroom : 2 + FileTree.nameLimit ≤ FileTree.pathLimit := by decide
    simp only [FileTree.WalkRules.tooFar, List.nil_append, decide_eq_false_iff_not, Nat.not_lt]
    exact Nat.le_trans hlen hroom
  have hwalk : FileTree.walk tree { followLast := true, reach := some FileTree.pathLimit }
      FileTree.linkLimit [] ((dottedRoot n).join ⟨name⟩).moves = .ok [name] := by
    rw [Path.moves_join _ hname.toPlainName, FileTree.walk_stays hdir hstays]
    exact FileTree.walkVia_down_plain hdir hfar hname.short hat hnode
  have hne : ((dottedRoot n).join ⟨name⟩).bytes ≠ [] := by
    have hlen := Path.length_le_join (dottedRoot n) hname.no_slash
    rw [length_dottedRoot] at hlen
    intro hempty
    simp [hempty] at hlen
  have hnul := Path.nul_notMem_join hname.no_slash (nul_notMem_dottedRoot n) hname.no_nul
  exact FileTree.realPath_eq_ok.2 ⟨hnul, [name], FileTree.trace_eq_ok.2 ⟨hne, hwalk⟩, rfl⟩

end ContainerMounts
