/-
ContainerMounts.Proofs.ChrootLookup — the resolver's walk is the lookup of a
changed root.

The resolver keeps one queue of moves and puts the text of a symlink in
front of what is left. The plain meaning of a path below a changed root is
recursive: the text of a symlink is looked up first, from the root or from
the directory of the link, and the remaining components follow from where
it led. `Chroot.lookup` is that meaning, over the files of the root alone,
with a budget of links that the inner lookups draw on.

`walk_lookup` shows that the queue does the recursive lookup of its front
and then goes on with the rest, by induction along the recursion of the
lookup. `resolve_lookup` is the result. The kernel takes no path longer
than `FileTree.pathLimit`, and the resolver asks by host paths, so a
component can be out of its reach that a process in the root would find
(`resolve_dottedRoot`).
-/
import ContainerMounts.Proofs.Resolution

namespace ContainerMounts

open FileTree

namespace Chroot

/-- What a lookup comes to. -/
inductive Outcome where
  /-- A file, by the names from the root, after following so many links. -/
  | found (place : List Name) (followed : Nat)
  /-- A component that does not exist. -/
  | absent
  /-- A move up from the root. -/
  | climbed
  /-- One link more than may be followed. -/
  | exhausted
  /-- Components left behind a file that is no directory. -/
  | blocked
  /-- A component that may not be looked at. -/
  | outOfReach
  deriving DecidableEq, Repr

/-- The outcome, after so many links were followed before. -/
def Outcome.after (followed : Nat) : Outcome → Outcome
  | .found place more => .found place (followed + more)
  | stopped => stopped

/-- A directory is at the place. -/
def holdsDir (files : FileTree) (place : List Name) : Bool :=
  match files.at? place with
  | some node => node.isDir
  | none => false

/-- Where the text of a link in the directory `dir` is looked up from. -/
def linkStart (dir : List Name) (text : Path) : List Name := if text.isAbsolute then [] else dir

/-- The lookup of a path from the directory `dir`, following at most `links`
links. Only components that `reachable` admits may be looked at. -/
def lookup (reachable : List Name → Bool) (files : FileTree) (links : Nat) (dir : List Name) :
    List Step → Outcome
  | [] => .found dir 0
  | step :: rest =>
      if holdsDir files dir then
        match step with
        | .up => if dir = [] then .climbed else lookup reachable files links dir.dropLast rest
        | .down name =>
            if reachable (dir ++ [name]) then
              match files.at? (dir ++ [name]) with
              | none => .absent
              | some (.symlink text) =>
                  match links with
                  | 0 => .exhausted
                  | links + 1 =>
                      match lookup reachable files links (linkStart dir text) text.steps with
                      | .found place followed =>
                          (lookup reachable files (links - followed) place rest).after (followed + 1)
                      | stopped => stopped
              | some _ => lookup reachable files links (dir ++ [name]) rest
            else .outOfReach
      else .blocked
termination_by steps => (links, steps.length)
decreasing_by
  all_goals simp_wf
  all_goals omega

variable {reachable : List Name → Bool} {files : FileTree} {links : Nat} {dir place : List Name}
  {steps : List Step} {followed : Nat}

/-! ## Where a lookup ends -/

/-- A place that a lookup can end at. -/
structure Stood (files : FileTree) (place : List Name) : Prop where
  plain : ∀ n ∈ place, PlainName n
  node : ∃ node, files.at? place = some node ∧ node.isSymlink = false

theorem holdsDir_iff : holdsDir files place = true ↔ files.IsDirAt place := by
  unfold holdsDir
  constructor
  · intro h
    cases hat : files.at? place with
    | none => simp [hat] at h
    | some node =>
        simp only [hat] at h
        obtain ⟨mode, entries, rfl⟩ := Node.eq_dir_of_isDir h
        exact ⟨mode, entries, hat⟩
  · rintro ⟨mode, entries, hat⟩
    simp [hat, Node.isDir]

theorem Outcome.after_eq_found {outcome : Outcome} {n m : Nat}
    (h : outcome.after n = .found place m) : ∃ k, outcome = .found place k ∧ m = n + k := by
  cases outcome with
  | found p k =>
      obtain ⟨rfl, rfl⟩ : p = place ∧ n + k = m := by simpa [after] using h
      exact ⟨k, rfl, rfl⟩
  | _ => simp [after] at h

theorem Stood.dropLast (h : Stood files dir) (hdir : files.IsDirAt dir) :
    Stood files dir.dropLast := by
  have hdir' : files.IsDirAt ([] ++ dir) := hdir
  obtain ⟨mode, entries, hat⟩ := hdir'.dropLast
  exact ⟨fun n hn => h.plain n (List.dropLast_subset _ hn), _, hat, rfl⟩

theorem Stood.root (h : files.IsDirAt []) : Stood files [] := by
  obtain ⟨mode, entries, hat⟩ := h
  exact ⟨by simp, _, hat, rfl⟩

theorem isDirAt_linkStart {text : Path} (hroot : files.IsDirAt []) (hdir : files.IsDirAt dir) :
    files.IsDirAt (linkStart dir text) := by
  unfold linkStart
  split
  · exact hroot
  · exact hdir

theorem Stood.linkStart {text : Path} (h : Stood files dir) (hroot : Stood files []) :
    Stood files (linkStart dir text) := by
  unfold Chroot.linkStart
  split
  · exact hroot
  · exact h

theorem Stood.down {name : Name} {node : Node} (h : Stood files dir) (hname : PlainName name)
    (hat : files.at? (dir ++ [name]) = some node) (hkind : node.isSymlink = false) :
    Stood files (dir ++ [name]) :=
  ⟨List.forall_mem_append.2 ⟨h.plain, List.forall_mem_singleton.2 hname⟩, node, hat, hkind⟩

/-- A lookup that finds something ends at a file that is no link, and has
kept to its budget. -/
theorem lookup_found (hroot : files.IsDirAt []) (hdir : Stood files dir)
    (hsteps : ∀ n, .down n ∈ steps → PlainName n)
    (h : lookup reachable files links dir steps = .found place followed) :
    Stood files place ∧ followed ≤ links := by
  fun_induction lookup reachable files links dir steps generalizing place followed with
  | case1 links dir =>
      obtain ⟨rfl, rfl⟩ : dir = place ∧ 0 = followed := by simpa using h
      exact ⟨hdir, Nat.zero_le _⟩
  | case3 links dir rest hholds hne ih =>
      have hrest : ∀ n, .down n ∈ rest → PlainName n := fun n hn => hsteps n (by simp [hn])
      exact ih (hdir.dropLast (holdsDir_iff.1 hholds)) hrest h
  | case6 dir rest hholds name hreach text hat links mid more hmid ihtext ihrest =>
      have hrest : ∀ n, .down n ∈ rest → PlainName n := fun n hn => hsteps n (by simp [hn])
      have htext : ∀ n, .down n ∈ text.steps → PlainName n := fun n => Step.plain_of_mem_steps
      obtain ⟨hstood, hmore⟩ := ihtext (hdir.linkStart (.root hroot)) htext hmid
      obtain ⟨k, hk, rfl⟩ := Outcome.after_eq_found h
      obtain ⟨hplace, hkle⟩ := ihrest hstood hrest hk
      exact ⟨hplace, by omega⟩
  | case7 dir rest hholds name hreach text hat links hstopped ih => exact absurd h (hstopped _ _)
  | case8 links dir rest hholds name hreach node hnode hat ih =>
      have hrest : ∀ n, .down n ∈ rest → PlainName n := fun n hn => hsteps n (by simp [hn])
      have hstood : Stood files (dir ++ [name]) :=
        hdir.down (hsteps name (by simp)) hat (Node.isSymlink_eq_false hnode)
      exact ih hstood hrest h
  | _ => simp at h

/-! ## Reach -/

/-- Every component may be looked at. -/
def everywhere : List Name → Bool := fun _ => true

theorem Outcome.after_eq_outOfReach {outcome : Outcome} {n : Nat} :
    outcome.after n = .outOfReach ↔ outcome = .outOfReach := by
  cases outcome <;> simp [after]

/-- A limited reach takes nothing but what is out of it. -/
theorem lookup_everywhere (h : lookup reachable files links dir steps ≠ .outOfReach) :
    lookup everywhere files links dir steps = lookup reachable files links dir steps := by
  fun_induction lookup reachable files links dir steps with
  | case1 links dir => rw [lookup]
  | case2 links rest hholds => rw [lookup, if_pos hholds, if_pos rfl]
  | case3 links dir rest hholds hne ih => rw [lookup, if_pos hholds, if_neg hne, ih h]
  | case4 links dir rest hholds name hreach hat =>
      rw [lookup, if_pos hholds]
      simp only [everywhere, if_true, hat]
  | case5 dir rest hholds name hreach text hat =>
      rw [lookup, if_pos hholds]
      simp only [everywhere, if_true, hat]
  | case6 dir rest hholds name hreach text hat links mid used hmid ihtext ihrest =>
      have htext := ihtext (by simp [hmid])
      have hrest := ihrest fun hout => h (Outcome.after_eq_outOfReach.2 hout)
      rw [hmid] at htext
      rw [lookup, if_pos hholds, everywhere, if_pos rfl]
      simp only [hat, htext, hrest]
  | case7 dir rest hholds name hreach text hat links hstopped ih =>
      rw [lookup, if_pos hholds, everywhere, if_pos rfl]
      simp only [hat, ih h]
  | case8 links dir rest hholds name hreach node hnode hat ih =>
      rw [lookup, if_pos hholds, everywhere, if_pos rfl]
      simp only [hat, ih h]
  | case9 => exact absurd rfl h
  | case10 links dir step rest hholds =>
      rw [lookup.eq_def]
      exact if_neg hholds

/-- Names and link texts as a file system has them: no name is longer than
the kernel's limit, and none of them has a NUL byte. -/
structure Ordinary (files : FileTree) : Prop where
  names : ∀ place node, files.at? place = some node → ∀ n ∈ place,
    n.length ≤ nameLimit ∧ 0 ∉ n
  texts : ∀ place text, files.at? place = some (.symlink text) → 0 ∉ text.bytes

theorem ordinary_bare {node : Node} (h : IsBare node)
    (htext : ∀ text, node = .symlink text → 0 ∉ text.bytes) : Ordinary node := by
  constructor
  · intro place found hat n hn
    rw [h.at?_eq_none (List.ne_nil_of_mem hn)] at hat
    simp at hat
  · intro place text hat
    by_cases hne : place = []
    · subst hne
      exact htext text (by simpa using hat)
    · rw [h.at?_eq_none hne] at hat
      simp at hat

theorem ordinary_dir {mode : Nat} {entries : List (Name × Node)}
    (h : ∀ e ∈ entries, e.1.length ≤ nameLimit ∧ 0 ∉ e.1 ∧ Ordinary e.2) :
    Ordinary (.dir mode entries) := by
  have hchild : ∀ name rest found, Node.at? (.dir mode entries) (name :: rest) = some found →
      ∃ child, name.length ≤ nameLimit ∧ 0 ∉ name ∧ Ordinary child
        ∧ child.at? rest = some found := by
    intro name rest found hat
    rw [Node.at?_cons, Node.child?_dir] at hat
    obtain ⟨child, hlookup, hrest⟩ := Option.bind_eq_some_iff.1 hat
    obtain ⟨before, after, rfl, -⟩ := List.lookup_eq_some_iff.1 hlookup
    obtain ⟨hlen, hnul, hord⟩ := h (name, child) (by simp)
    exact ⟨child, hlen, hnul, hord, hrest⟩
  constructor
  · intro place found hat n hn
    cases place with
    | nil => simp at hn
    | cons name rest =>
        obtain ⟨child, hlen, hnul, hord, hrest⟩ := hchild name rest found hat
        rcases List.mem_cons.1 hn with rfl | hn
        · exact ⟨hlen, hnul⟩
        · exact hord.names rest found hrest n hn
  · intro place text hat
    cases place with
    | nil => simp at hat
    | cons name rest =>
        obtain ⟨child, -, -, hord, hrest⟩ := hchild name rest _ hat
        exact hord.texts rest text hrest

end Chroot

namespace Rootfs

open Chroot

/-- The kernel takes the host path of the place. -/
def reaches (rootfs : Rootfs) (place : List Name) : Bool :=
  decide ((rootfs.hostPath place).bytes.length ≤ pathLimit)

variable {rootfs : Rootfs} {tree files : FileTree} {target : Path} {top names dir : List Name}
  {links : Nat} {rest steps : List Step} {name : Name}

/-! ## The walk, with any number of links left -/

theorem walk_nil : rootfs.walk tree target true links names [] = .ok (names, none) := by
  cases links <;> simp [walk, walkVia]

theorem walk_up_root :
    rootfs.walk tree target true links [] (.up :: rest)
      = .error (escape target "symlink climbs above the container root") := by
  cases links <;> simp [walk, walkVia]

theorem walk_up (hne : names ≠ []) :
    rootfs.walk tree target true links names (.up :: rest)
      = rootfs.walk tree target true links names.dropLast rest := by
  cases links <;> exact walkVia_up hne

theorem walk_down_fault {fault : Fault}
    (hstat : tree.lstat ((rootfs.hostPath names).join ⟨name⟩) = .error fault)
    (hfault : fault ≠ .os .noEntry) :
    rootfs.walk tree target true links names (.down name :: rest) = .error (.io fault) := by
  cases links <;> exact walkVia_down_fault hstat hfault

theorem walk_down_plain {node : Node}
    (hstat : tree.lstat ((rootfs.hostPath names).join ⟨name⟩) = .ok node)
    (hnode : node.isSymlink = false) :
    rootfs.walk tree target true links names (.down name :: rest)
      = if rest.isEmpty || node.isDir then
          rootfs.walk tree target true links (names ++ [name]) rest
        else .error (.ofErrno .notDirectory) := by
  cases links <;> exact walkVia_down_plain hstat hnode

theorem walk_down_symlink_zero {text : Path}
    (hstat : tree.lstat ((rootfs.hostPath names).join ⟨name⟩) = .ok (.symlink text)) :
    rootfs.walk tree target true 0 names (.down name :: rest)
      = .error (escape target "too many levels of symbolic links") :=
  walkVia_down_symlink hstat

theorem walk_down_symlink_succ {text : Path}
    (hstat : tree.lstat ((rootfs.hostPath names).join ⟨name⟩) = .ok (.symlink text)) :
    rootfs.walk tree target true (links + 1) names (.down name :: rest)
      = rootfs.walk tree target true links (linkStart names text) (text.steps ++ rest) :=
  walkVia_down_symlink hstat

/-! ## The queue and the recursion -/

/-- The walk from a file that was reached: nothing may follow a file that is
no directory. -/
def onward (rootfs : Rootfs) (tree files : FileTree) (target : Path) (links : Nat)
    (place : List Name) (rest : List Step) : Except Error Walked :=
  if rest = [] ∨ holdsDir files place then rootfs.walk tree target true links place rest
  else .error (.ofErrno .notDirectory)

/-- The result of a walk is what the outcome of a lookup says; from a file
that was found, the walk goes on. -/
def Predicted (target : Path) (goOn : (followed : Nat) → List Name → Except Error Walked)
    (result : Except Error Walked) : Outcome → Prop
  | .found place followed => result = goOn followed place
  | .absent => True
  | .climbed | .exhausted => ∃ reason, result = .error (escape target reason)
  | .blocked => result = .error (.ofErrno .notDirectory)
  | .outOfReach => result = .error (.ofErrno .nameTooLong)

theorem Predicted.after {goOn goOn' : Nat → List Name → Except Error Walked}
    {result : Except Error Walked} {outcome : Outcome} {n : Nat}
    (h : Predicted target goOn' result outcome)
    (hgo : ∀ k place, outcome = .found place k → goOn' k place = goOn (n + k) place) :
    Predicted target goOn result (outcome.after n) := by
  cases outcome with
  | found place k => exact Eq.trans h (hgo k place rfl)
  | _ => exact h

theorem onward_eq_walk (hdir : files.IsDirAt dir) :
    rootfs.onward tree files target links dir rest
      = rootfs.walk tree target true links dir rest := by
  rw [onward, if_pos (.inr (holdsDir_iff.2 hdir))]

theorem at?_below {place : List Name} (hfiles : tree.at? top = some files) :
    tree.at? (top ++ place) = files.at? place := by
  rw [Node.at?_append, hfiles, Option.bind_some]

theorem passable_of_stood (hfiles : tree.at? top = some files) (hord : Ordinary files)
    (hdir : Stood files dir) (hholds : files.IsDirAt dir) : tree.Passable top dir := by
  obtain ⟨mode, entries, hat⟩ := hholds
  refine ⟨⟨mode, entries, by rw [at?_below hfiles, hat]⟩, fun n hn => ?_⟩
  obtain ⟨hshort, hnul⟩ := hord.names dir _ hat n hn
  exact ⟨hdir.plain n hn, hshort, hnul⟩

/-- What the resolver sees of a component within reach. -/
theorem lstat_reachable (hopen : tree.openDir rootfs.path = .ok top)
    (hfiles : tree.at? top = some files) (hord : Ordinary files) (hdir : Stood files dir)
    (hhere : files.IsDirAt dir) (hname : PlainName name)
    (hreach : rootfs.reaches (dir ++ [name]) = true) {node : Node}
    (hat : files.at? (dir ++ [name]) = some node) :
    tree.lstat ((rootfs.hostPath dir).join ⟨name⟩) = .ok node := by
  have hpass := passable_of_stood hfiles hord hdir hhere
  obtain ⟨hshort, hnul⟩ := hord.names _ _ hat name (by simp)
  have hlen : ¬ pathLimit < ((rootfs.hostPath dir).join ⟨name⟩).bytes.length := by
    have hle := of_decide_eq_true hreach
    rw [hostPath, Path.joinNames_concat] at hle
    exact Nat.not_lt.2 hle
  have hentry : tree.entry (top ++ dir) name = .ok node := by
    refine entry_eq_ok.2 ⟨hshort, ?_⟩
    rw [List.append_assoc, at?_below hfiles, hat]
  rw [hostPath] at hlen ⊢
  rw [lstat_behind (.of_openDir hopen) hpass hname, if_neg hnul, if_neg hlen, hentry]
  rfl

theorem lstat_unreachable (hopen : tree.openDir rootfs.path = .ok top)
    (hfiles : tree.at? top = some files) (hord : Ordinary files) (hdir : Stood files dir)
    (hhere : files.IsDirAt dir) (hname : PlainName name) (hnul : 0 ∉ name)
    (hreach : ¬ rootfs.reaches (dir ++ [name]) = true) :
    tree.lstat ((rootfs.hostPath dir).join ⟨name⟩) = .error (.os .nameTooLong) := by
  have hpass := passable_of_stood hfiles hord hdir hhere
  have hlen : pathLimit < ((rootfs.hostPath dir).join ⟨name⟩).bytes.length := by
    have hgt := Nat.not_le.1 (of_decide_eq_false (Bool.not_eq_true _ ▸ hreach))
    rwa [hostPath, Path.joinNames_concat] at hgt
  rw [hostPath] at hlen ⊢
  rw [lstat_behind (.of_openDir hopen) hpass hname, if_neg hnul, if_pos hlen]

/-- The steps go down to ordinary names only. -/
def PlainSteps (steps : List Step) : Prop := ∀ n, .down n ∈ steps → PlainName n ∧ 0 ∉ n

theorem PlainSteps.tail {step : Step} {more : List Step} (h : PlainSteps (step :: more)) :
    PlainSteps more :=
  fun n hn => h n (List.mem_cons_of_mem step hn)

theorem plainSteps_of_path {p : Path} (h : 0 ∉ p.bytes) : PlainSteps p.steps :=
  fun _ hn => ⟨Step.plain_of_mem_steps hn, Step.notMem_of_mem_steps hn h⟩

/-- **The queue does the recursive lookup.** A walk that has the components
of a lookup in front of others does what the lookup does, and goes on with
the others from where the lookup ends, with the links that are left. -/
theorem walk_lookup (hopen : tree.openDir rootfs.path = .ok top)
    (hfiles : tree.at? top = some files) (hord : Ordinary files) (hroot : files.IsDirAt [])
    (hdir : Stood files dir) (hsteps : PlainSteps steps) (rest : List Step) :
    Predicted target
      (fun followed place => rootfs.onward tree files target (links - followed) place rest)
      (rootfs.onward tree files target links dir (steps ++ rest))
      (lookup rootfs.reaches files links dir steps) := by
  fun_induction lookup rootfs.reaches files links dir steps generalizing rest with
  | case1 links dir => exact rfl
  | case2 links more hholds =>
      -- up from the root
      rw [onward_eq_walk (holdsDir_iff.1 hholds), List.cons_append, walk_up_root]
      exact ⟨_, rfl⟩
  | case3 links dir more hholds hne ih =>
      -- up from a directory below it
      have hhere := holdsDir_iff.1 hholds
      have hhere' : files.IsDirAt ([] ++ dir) := hhere
      have hup : files.IsDirAt dir.dropLast := hhere'.dropLast
      rw [onward_eq_walk hhere, List.cons_append, walk_up hne, ← onward_eq_walk hup]
      exact ih (hdir.dropLast hhere) hsteps.tail rest
  | case4 => exact trivial
  | case5 dir more hholds name hreach text hat =>
      -- a link, and none may be followed any more
      have hhere := holdsDir_iff.1 hholds
      have hstat := lstat_reachable hopen hfiles hord hdir hhere (hsteps name (by simp)).1
        hreach hat
      rw [onward_eq_walk hhere, List.cons_append, walk_down_symlink_zero hstat]
      exact ⟨_, rfl⟩
  | case6 dir more hholds name hreach text hat links mid used hmid ihtext ihmore =>
      -- a link whose text leads somewhere
      have htext : PlainSteps text.steps := plainSteps_of_path (hord.texts _ _ hat)
      have hhere := holdsDir_iff.1 hholds
      have hstat := lstat_reachable hopen hfiles hord hdir hhere (hsteps name (by simp)).1
        hreach hat
      have hstart : files.IsDirAt (linkStart dir text) := isDirAt_linkStart hroot hhere
      obtain ⟨hstood, -⟩ := lookup_found hroot (hdir.linkStart (.root hroot))
        (fun n hn => (htext n hn).1) hmid
      -- the text first, then what is left behind it
      have hfirst := ihtext (hdir.linkStart (.root hroot)) htext (more ++ rest)
      rw [hmid] at hfirst
      have hfirst' : rootfs.onward tree files target links (linkStart dir text)
          (text.steps ++ (more ++ rest))
          = rootfs.onward tree files target (links - used) mid (more ++ rest) := hfirst
      rw [onward_eq_walk hhere, List.cons_append, walk_down_symlink_succ hstat,
        ← onward_eq_walk hstart, hfirst']
      apply (ihmore hstood hsteps.tail rest).after
      intro k place _
      have hleft : links - used - k = links + 1 - (used + 1 + k) := by omega
      rw [hleft]
  | case7 dir more hholds name hreach text hat links hstopped ih =>
      -- a link whose text leads nowhere
      have htext : PlainSteps text.steps := plainSteps_of_path (hord.texts _ _ hat)
      have hhere := holdsDir_iff.1 hholds
      have hstat := lstat_reachable hopen hfiles hord hdir hhere (hsteps name (by simp)).1
        hreach hat
      have hstart : files.IsDirAt (linkStart dir text) := isDirAt_linkStart hroot hhere
      have hfirst := ih (hdir.linkStart (.root hroot)) htext (more ++ rest)
      rw [onward_eq_walk hhere, List.cons_append, walk_down_symlink_succ hstat,
        ← onward_eq_walk hstart]
      cases hout : lookup rootfs.reaches files links (linkStart dir text) text.steps with
      | found place used => exact absurd hout (hstopped place used)
      | _ => rwa [hout] at hfirst
  | case8 links dir more hholds name hreach node hnode hat ih =>
      -- a file that is no link
      have hhere := holdsDir_iff.1 hholds
      have hname := (hsteps name (by simp)).1
      have hkind : node.isSymlink = false := Node.isSymlink_eq_false hnode
      have hstat := lstat_reachable hopen hfiles hord hdir hhere hname hreach hat
      have hstood : Stood files (dir ++ [name]) := hdir.down hname hat hkind
      have hstep : rootfs.walk tree target true links dir (.down name :: (more ++ rest))
          = rootfs.onward tree files target links (dir ++ [name]) (more ++ rest) := by
        rw [walk_down_plain hstat hkind, onward]
        simp [holdsDir, hat]
      rw [onward_eq_walk hhere, List.cons_append, hstep]
      exact ih hstood hsteps.tail rest
  | case9 links dir more hholds name hreach =>
      -- a component whose path is too long
      have hhere := holdsDir_iff.1 hholds
      obtain ⟨hname, hnul⟩ := hsteps name (by simp)
      have hstat := lstat_unreachable hopen hfiles hord hdir hhere hname hnul hreach
      rw [onward_eq_walk hhere, List.cons_append, walk_down_fault hstat (by decide)]
      exact rfl
  | case10 links dir step more hholds =>
      -- components are left behind a file
      have hnot : ¬ (step :: more ++ rest = [] ∨ holdsDir files dir = true) := by simp [hholds]
      rw [onward, if_neg hnot]
      exact rfl

/-- What the resolver has to answer where the lookup came to this. -/
def Answers (rootfs : Rootfs) (target : Path) (answer : Except Error ResolvedPath) :
    Outcome → Prop
  | .found place _ =>
      ∃ r, answer = .ok r ∧ r.exists? = true ∧ r.hostPath = rootfs.hostPath place
  | .absent => True
  | .climbed | .exhausted => ∃ reason, answer = .error (.pathEscape target.display reason)
  | .blocked => answer = .error (.ofErrno .notDirectory)
  | .outOfReach => answer = .error (.ofErrno .nameTooLong)

/-- What the resolver answers, where a component may be out of its reach. -/
theorem resolve_answers (rootfs : Rootfs) (tree files : FileTree) (target : Path)
    (hroot : tree.stat rootfs.path = .ok files) (hdir : files.isDir = true)
    (hord : Ordinary files) (htarget : 0 ∉ target.bytes) :
    Answers rootfs target (rootfs.resolve tree target)
      (lookup rootfs.reaches files maxLinks [] target.steps) := by
  obtain ⟨top, hopen, hat⟩ := exists_openDir hroot hdir
  obtain ⟨mode, entries, rfl⟩ := Node.eq_dir_of_isDir hdir
  have hhere : FileTree.IsDirAt (.dir mode entries) [] := ⟨mode, entries, rfl⟩
  have hqueue : Predicted target
      (fun followed place =>
        rootfs.onward tree (.dir mode entries) target (maxLinks - followed) place [])
      (rootfs.onward tree (.dir mode entries) target maxLinks [] (target.steps ++ []))
      (lookup rootfs.reaches (.dir mode entries) maxLinks [] target.steps) :=
    walk_lookup hopen hat hord hhere (.root hhere) (plainSteps_of_path htarget) []
  rw [onward_eq_walk hhere, List.append_nil] at hqueue
  unfold resolve resolveWith
  revert hqueue
  cases lookup rootfs.reaches (.dir mode entries) maxLinks [] target.steps with
  | found place followed =>
      intro hwalk
      have hend : rootfs.onward tree (.dir mode entries) target (maxLinks - followed) place []
          = .ok (place, none) := by
        rw [onward, if_pos (.inl rfl), walk_nil]
      rw [Eq.trans hwalk hend]
      exact ⟨_, rfl, rfl, rfl⟩
  | absent => exact fun _ => trivial
  | climbed =>
      rintro ⟨reason, hwalk⟩
      rw [hwalk]
      exact ⟨reason, rfl⟩
  | exhausted =>
      rintro ⟨reason, hwalk⟩
      rw [hwalk]
      exact ⟨reason, rfl⟩
  | blocked =>
      intro hwalk
      rw [show rootfs.walk tree target true maxLinks [] target.steps = _ from hwalk]
      exact rfl
  | outOfReach =>
      intro hwalk
      rw [show rootfs.walk tree target true maxLinks [] target.steps = _ from hwalk]
      exact rfl

/-- **The resolver agrees with the lookup of a changed root.** The root is any
path that leads to a directory, and its files are any files with ordinary
names. Then a target is resolved to the file that the recursive lookup
finds with at most 40 links; it is refused as an escape where the
lookup moves up from the root or needs one link more, and as no directory
where the lookup leaves components behind another file. The one exception
is a lookup that comes to a component whose host path is too long for the
kernel; then the target is refused as too long. -/
theorem resolve_lookup (rootfs : Rootfs) (tree files : FileTree) (target : Path)
    (hroot : tree.stat rootfs.path = .ok files) (hdir : files.isDir = true)
    (hord : Ordinary files) (htarget : 0 ∉ target.bytes) :
    Answers rootfs target (rootfs.resolve tree target)
        (lookup everywhere files 40 [] target.steps)
      ∨ (lookup rootfs.reaches files 40 [] target.steps = .outOfReach
        ∧ rootfs.resolve tree target = .error (.ofErrno .nameTooLong)) := by
  have hanswers : Answers rootfs target (rootfs.resolve tree target)
      (lookup rootfs.reaches files 40 [] target.steps) :=
    resolve_answers rootfs tree files target hroot hdir hord htarget
  by_cases hout : lookup rootfs.reaches files 40 [] target.steps = .outOfReach
  · rw [hout] at hanswers
    exact .inr ⟨hout, hanswers⟩
  · rw [lookup_everywhere hout]
    exact .inl hanswers

/-! ## A root whose path is too long for the names in it -/

theorem not_reaches_of_long (hlong : pathLimit ≤ rootfs.path.bytes.length)
    (hname : PlainName name) : ¬ rootfs.reaches [name] = true := by
  intro hreach
  have hle := of_decide_eq_true hreach
  have hjoin := Path.length_le_join rootfs.path hname.no_slash
  have hpos : 0 < name.length := List.length_pos_iff.2 hname.ne_nil
  rw [hostPath, Path.joinNames_singleton] at hle
  omega

/-- The root of all files, by a path with so many parts `.` in it. -/
def dottedRoot (n : Nat) : Path := ⟨slash :: (List.replicate n [0x2E, slash]).flatten⟩

theorem length_dottedRoot (n : Nat) : (dottedRoot n).bytes.length = 1 + 2 * n := by
  simp [dottedRoot, List.length_flatten]
  omega

theorem nul_notMem_dottedRoot (n : Nat) : 0 ∉ (dottedRoot n).bytes := by
  have hs : (0 : UInt8) ≠ slash := by decide
  simp [dottedRoot, hs]

theorem moves_dottedRoot (n : Nat) : ∀ move ∈ (dottedRoot n).moves, move = .stay := by
  have hpieces : ∀ piece ∈ pieces slash (List.replicate n [0x2E, slash]).flatten,
      piece = [] ∨ piece = dotName := by
    induction n with
    | zero => simp [pieces]
    | succ n ih =>
        have hcut : (List.replicate (n + 1) [0x2E, slash]).flatten
            = dotName ++ slash :: (List.replicate n [0x2E, slash]).flatten := rfl
        rw [hcut, pieces_append_sep, pieces_eq_singleton (by decide)]
        exact List.forall_mem_cons.2 ⟨.inr rfl, ih⟩
  intro move hmove
  rcases List.mem_append.1 hmove with hmove | hmove
  · obtain ⟨piece, hpiece, hof⟩ := List.mem_filterMap.1 hmove
    have hparts : (dottedRoot n).parts
        = [] :: pieces slash (List.replicate n [0x2E, slash]).flatten := by
      simp [Path.parts, dottedRoot, pieces]
    rw [hparts] at hpiece
    have hkind : piece = [] ∨ piece = dotName := by
      rcases List.mem_cons.1 hpiece with rfl | hpiece
      · exact .inl rfl
      · exact hpieces piece hpiece
    rcases hkind with rfl | rfl
    · simp [Move.ofPiece?] at hof
    · simpa [Move.ofPiece?, dotName, eq_comm] using hof
  · split at hmove
    · simpa using hmove
    · simp at hmove

theorem stat_dottedRoot {n : Nat} (hn : 1 + 2 * n ≤ pathLimit) (hdir : tree.IsDirAt []) :
    tree.stat (dottedRoot n) = .ok tree := by
  have hacc : accept (dottedRoot n) = .ok () :=
    accept_eq_ok.2 ⟨by simp [dottedRoot], by rwa [length_dottedRoot]⟩
  have hwalk : tree.walk { followLast := true } linkLimit [] (dottedRoot n).moves = .ok [] := by
    rw [← List.append_nil (dottedRoot n).moves, walk_stays hdir (moves_dottedRoot n)]
    rfl
  exact findNode_eq_ok.2
    ⟨[], find_eq_ok.2 ⟨nul_notMem_dottedRoot n, locate_eq_ok.2 ⟨hacc, hwalk⟩⟩, Node.at?_nil tree⟩

/-- A file `n` and a link `l` to it. -/
def linkedFile : FileTree :=
  .dir 0o755 [([0x6C], .symlink ⟨[slash, 0x6E]⟩), ([0x6E], .file 0o644 [])]

theorem ordinary_linkedFile : Ordinary linkedFile := by
  refine ordinary_dir ?_
  simp only [List.forall_mem_cons]
  refine ⟨⟨by decide, by decide, ordinary_bare (fun _ => rfl) ?_⟩,
    ⟨by decide, by decide, ordinary_bare (fun _ => rfl) (by simp)⟩, by simp⟩
  intro text htext
  obtain rfl : Path.mk [slash, 0x6E] = text := by simpa using htext
  decide

/-- The link is looked up, and so is the text behind it. -/
theorem resolve_lookup_linkedFile :
    linkedFile.stat Path.root = .ok linkedFile ∧ linkedFile.isDir = true
      ∧ Ordinary linkedFile ∧ 0 ∉ (Path.mk [slash, 0x6C]).bytes
      ∧ (Answers ⟨Path.root⟩ ⟨[slash, 0x6C]⟩ (resolve ⟨Path.root⟩ linkedFile ⟨[slash, 0x6C]⟩)
          (lookup everywhere linkedFile 40 [] (Path.mk [slash, 0x6C]).steps)
        ∨ (lookup (reaches ⟨Path.root⟩) linkedFile 40 [] (Path.mk [slash, 0x6C]).steps
            = .outOfReach
          ∧ resolve ⟨Path.root⟩ linkedFile ⟨[slash, 0x6C]⟩ = .error (.ofErrno .nameTooLong))) :=
  ⟨rfl, rfl, ordinary_linkedFile, by decide,
    resolve_lookup ⟨Path.root⟩ linkedFile linkedFile ⟨[slash, 0x6C]⟩ rfl rfl
      ordinary_linkedFile (by decide)⟩

/-- **A file that the lookup finds and the resolver cannot reach.** The path of
the root has 4095 bytes, which is as long as a path may be, so no file in
it can be named on the host. -/
theorem resolve_dottedRoot :
    linkedFile.stat (dottedRoot 2047) = .ok linkedFile ∧ linkedFile.isDir = true
      ∧ Ordinary linkedFile ∧ 0 ∉ (Path.mk [slash, 0x6E]).bytes
      ∧ ¬ Answers ⟨dottedRoot 2047⟩ ⟨[slash, 0x6E]⟩
          (resolve ⟨dottedRoot 2047⟩ linkedFile ⟨[slash, 0x6E]⟩)
          (lookup everywhere linkedFile 40 [] (Path.mk [slash, 0x6E]).steps) := by
  have hdir : linkedFile.IsDirAt [] := ⟨_, _, rfl⟩
  have hstat : linkedFile.stat (dottedRoot 2047) = .ok linkedFile :=
    stat_dottedRoot (by decide) hdir
  have hsteps : (Path.mk [slash, 0x6E]).steps = [.down [0x6E]] := by decide
  have hholds : holdsDir linkedFile [] = true := holdsDir_iff.2 hdir
  have hat : linkedFile.at? ([] ++ [[0x6E]]) = some (.file 0o644 []) := rfl
  have hfound : lookup everywhere linkedFile 40 [] [.down [0x6E]]
      = .found [[0x6E]] 0 := by
    rw [lookup, if_pos hholds, everywhere, if_pos rfl]
    simp only [hat]
    rw [lookup]
    rfl
  have hlong : pathLimit ≤ (dottedRoot 2047).bytes.length := by
    rw [length_dottedRoot]
    decide
  have hfar : ¬ reaches ⟨dottedRoot 2047⟩ [[0x6E]] = true :=
    not_reaches_of_long hlong (by decide)
  have hout : lookup (reaches ⟨dottedRoot 2047⟩) linkedFile 40 [] [.down [0x6E]]
      = .outOfReach := by
    rw [lookup, if_pos hholds]
    exact if_neg hfar
  have hanswer : Answers ⟨dottedRoot 2047⟩ ⟨[slash, 0x6E]⟩
      (resolve ⟨dottedRoot 2047⟩ linkedFile ⟨[slash, 0x6E]⟩)
      (lookup (reaches ⟨dottedRoot 2047⟩) linkedFile 40 [] (Path.mk [slash, 0x6E]).steps) :=
    resolve_answers _ _ _ _ hstat rfl ordinary_linkedFile (by decide)
  refine ⟨hstat, rfl, ordinary_linkedFile, by decide, ?_⟩
  rw [hsteps] at hanswer ⊢
  rw [hout] at hanswer
  rw [hfound]
  rintro ⟨r, hr, -⟩
  have herror : resolve ⟨dottedRoot 2047⟩ linkedFile ⟨[slash, 0x6E]⟩ = _ := hanswer
  rw [herror] at hr
  simp at hr

end Rootfs

end ContainerMounts
