/-
ContainerMounts.Proofs.RetracedWalk — a prepared target is looked up once more.

The executor resolves the target of a mount again, after it was prepared. By
then the files are others: names that the first walk found missing, and took
as written from there on, are now looked up for real. `Comes` lists what the
first walk comes by. The second walk keeps pace with it (`Progress`): it
stands at the same names, with the same moves left, only that fewer of the
names are missing. What it can meet that the first did not is what was made
itself (`Hindrance`): the file that was made, with moves left behind it, or a
name that the kernel cannot be asked for, in a directory that was made. Both
take a link that goes up again from behind a missing name.

Main statement: `prepare_retraced`.
-/
import ContainerMounts.Proofs.CreatedFiles
import ContainerMounts.Proofs.SampleHost

namespace ContainerMounts.Rootfs

open FileTree

variable {rootfs : Rootfs} {tree before after : FileTree} {target : Path} {top names : List Name}
  {rest steps : List Step} {name : Name} {links : Nat} {placeholder : Placeholder}
  {r : ResolvedPath} {missing : Option Nat}

/-! ## Asking for a name -/

/-- Why the kernel cannot be asked for the name in the directory at the path. -/
def askFault? (path : Path) (name : Name) : Option Fault :=
  if 0 ∈ name then some .nulInName
  else if pathLimit < (path.join ⟨name⟩).bytes.length ∨ nameLimit < name.length then
    some (.os .nameTooLong)
  else none

theorem askFault?_ne_noEntry {path : Path} : askFault? path name ≠ some (.os .noEntry) := by
  have hlong : Errno.nameTooLong ≠ .noEntry := by decide
  unfold askFault?
  split
  · simp
  · split
    · simp [hlong]
    · simp

theorem lstat_asked (hlead : tree.Leads rootfs.path top) (hpass : tree.Passable top names)
    (hname : PlainName name) :
    tree.lstat ((rootfs.hostPath names).join ⟨name⟩)
      = match askFault? (rootfs.hostPath names) name with
        | some fault => .error fault
        | none =>
            match tree.at? (top ++ names ++ [name]) with
            | some node => .ok node
            | none => .error (.os .noEntry) := by
  rw [hostPath, lstat_behind hlead hpass hname]
  unfold askFault? entry
  split
  · rfl
  · by_cases hlong : pathLimit < ((rootfs.path.joinNames names).join ⟨name⟩).bytes.length
    · simp [hlong]
    · by_cases hshort : nameLimit < name.length
      · simp [hlong, hshort, Except.mapError]
      · simp only [hlong, hshort, or_self, if_false]
        cases tree.at? (top ++ names ++ [name]) <;> rfl

theorem fitName_of_asked {path : Path} (hname : PlainName name) (h : askFault? path name = none) :
    FitName name := by
  unfold askFault? at h
  split at h
  · simp at h
  · rename_i hnul
    split at h
    · simp at h
    · rename_i hshort
      exact ⟨hname, by omega, hnul⟩

section Asked

variable (hlead : tree.Leads rootfs.path top) (hpass : tree.Passable top names)
  (hname : PlainName name)

include hlead hpass hname

theorem asked_ok {node : Node}
    (h : tree.lstat ((rootfs.hostPath names).join ⟨name⟩) = .ok node) :
    askFault? (rootfs.hostPath names) name = none
      ∧ tree.at? (top ++ names ++ [name]) = some node := by
  rw [lstat_asked hlead hpass hname] at h
  split at h
  · simp at h
  · rename_i hask
    refine ⟨hask, ?_⟩
    split at h
    · rename_i found hat
      rw [hat, Except.ok.inj h]
    · simp at h

theorem asked_noEntry
    (h : tree.lstat ((rootfs.hostPath names).join ⟨name⟩) = .error (.os .noEntry)) :
    askFault? (rootfs.hostPath names) name = none
      ∧ tree.at? (top ++ names ++ [name]) = none := by
  rw [lstat_asked hlead hpass hname] at h
  split at h
  · rename_i fault hask
    rw [Except.error.inj h] at hask
    exact absurd hask askFault?_ne_noEntry
  · rename_i hask
    refine ⟨hask, ?_⟩
    split at h
    · simp at h
    · rename_i hat
      exact hat

end Asked

/-! ## The walk from where it stands -/

/-- The walk from these names on, with so many links left. -/
def walkFrom (rootfs : Rootfs) (tree : FileTree) (target : Path) :
    (links : Nat) → Walked → List Step → Except Error Walked
  | 0 =>
      rootfs.walkVia tree target true
        fun _ _ => .error (escape target "too many levels of symbolic links")
  | links + 1 => rootfs.walkVia tree target true (rootfs.walk tree target true links)

theorem walk_eq_walkFrom :
    rootfs.walk tree target true links names steps
      = rootfs.walkFrom tree target links (names, none) steps := by
  cases links <;> rfl

theorem walkFrom_nil {walked : Walked} :
    rootfs.walkFrom tree target links walked [] = .ok walked := by
  cases links <;> simp [walkFrom, walkVia]

theorem walkFrom_up (hne : names ≠ []) :
    rootfs.walkFrom tree target links (names, missing) (.up :: rest)
      = rootfs.walkFrom tree target links
          (names.dropLast, stillMissing missing names.dropLast) rest := by
  cases links <;> exact walkVia_up hne

theorem walkFrom_behind {i : Nat} :
    rootfs.walkFrom tree target links (names, some i) (.down name :: rest)
      = rootfs.walkFrom tree target links (names ++ [name], some i) rest := by
  cases links <;> simp [walkFrom, walkVia]

theorem walkFrom_missing
    (hstat : tree.lstat ((rootfs.hostPath names).join ⟨name⟩) = .error (.os .noEntry)) :
    rootfs.walkFrom tree target links (names, none) (.down name :: rest)
      = rootfs.walkFrom tree target links (names ++ [name], some names.length) rest := by
  cases links <;> exact walkVia_down_missing hstat

theorem walkFrom_fault {fault : Fault}
    (hstat : tree.lstat ((rootfs.hostPath names).join ⟨name⟩) = .error fault)
    (hfault : fault ≠ .os .noEntry) :
    rootfs.walkFrom tree target links (names, none) (.down name :: rest) = .error (.io fault) := by
  cases links <;> exact walkVia_down_fault hstat hfault

theorem walkFrom_plain {node : Node}
    (hstat : tree.lstat ((rootfs.hostPath names).join ⟨name⟩) = .ok node)
    (hnode : node.isSymlink = false) :
    rootfs.walkFrom tree target links (names, none) (.down name :: rest)
      = if rest.isEmpty || node.isDir then
          rootfs.walkFrom tree target links (names ++ [name], none) rest
        else .error (.ofErrno .notDirectory) := by
  cases links <;> exact walkVia_down_plain hstat hnode

theorem walkFrom_dir {node : Node}
    (hstat : tree.lstat ((rootfs.hostPath names).join ⟨name⟩) = .ok node)
    (hdir : node.isDir = true) :
    rootfs.walkFrom tree target links (names, none) (.down name :: rest)
      = rootfs.walkFrom tree target links (names ++ [name], none) rest := by
  obtain ⟨mode, entries, rfl⟩ := Node.eq_dir_of_isDir hdir
  rw [walkFrom_plain hstat rfl, hdir, Bool.or_true, if_pos rfl]

theorem walkFrom_link_zero {text : Path}
    (hstat : tree.lstat ((rootfs.hostPath names).join ⟨name⟩) = .ok (.symlink text)) :
    rootfs.walkFrom tree target 0 (names, none) (.down name :: rest)
      = .error (escape target "too many levels of symbolic links") :=
  walkVia_down_symlink hstat

theorem walkFrom_link {text : Path}
    (hstat : tree.lstat ((rootfs.hostPath names).join ⟨name⟩) = .ok (.symlink text)) :
    rootfs.walkFrom tree target (links + 1) (names, none) (.down name :: rest)
      = rootfs.walkFrom tree target links (if text.isAbsolute then [] else names, none)
          (text.steps ++ rest) :=
  (walkVia_down_symlink hstat).trans walk_eq_walkFrom

/-- Where names lead to a directory, none of them is missing. -/
theorem Stands.none_of_passable (h : Stands tree top (names, missing))
    (hpass : tree.Passable top names) : missing = none := by
  cases h with
  | inside h => rfl
  | @behind above below name h fit free plain =>
      have hdir : tree.IsDirAt (top ++ above ++ [name] ++ below) := by simpa using hpass.isDir
      obtain ⟨mode, entries, hat⟩ := hdir.above
      rw [free] at hat
      simp at hat

/-! ## What was made in the way -/

/-- What a walk that goes down from the directory at `names` can meet there of
what was made for `r`, with the moves `rest` left behind `name`, and how it
fails then. -/
inductive Hindrance (placeholder : Placeholder) (r : ResolvedPath) :
    List Name → Name → List Step → Error → Prop where
  /-- The file that was made, with moves left behind it. -/
  | file {names : List Name} {name : Name} {rest : List Step} (kind : placeholder = .file)
      (new : r.exists? = false) (place : names ++ [name] = r.names) (more : rest ≠ []) :
      Hindrance placeholder r names name rest (.ofErrno .notDirectory)
  /-- A name that cannot be asked for, in a directory that was made. -/
  | ask {names : List Name} {name : Name} {rest : List Step} {i : Nat} {fault : Fault}
      (kind : placeholder = .directory ∨ names ≠ r.names) (missing : r.firstMissing = some i)
      (new : i < names.length) (inside : names <+: r.names)
      (ask : askFault? (r.rootfs.hostPath names) name = some fault) :
      Hindrance placeholder r names name rest (.io fault)

/-- The walk of the target over `before` comes by something that is in the way
later. -/
def Hindered (rootfs : Rootfs) (before : FileTree) (target : Path) (placeholder : Placeholder)
    (r : ResolvedPath) (e : Error) : Prop :=
  ∃ names missing name rest, Comes rootfs before target true (names, missing) (.down name :: rest)
    ∧ Hindrance placeholder r names name rest e

/-- Nothing is put in the way of a target that exists. -/
theorem Hindered.exists?_eq_false {e : Error} (h : Hindered rootfs before target placeholder r e) :
    r.exists? = false := by
  obtain ⟨names, missing, name, rest, -, hhindrance⟩ := h
  cases hhindrance with
  | file kind new place more => exact new
  | ask kind missing new inside ask => simp [ResolvedPath.exists?, missing]

/-- What was missing of `r` before is there, and nothing else is new. -/
structure Completed (rootfs : Rootfs) (before after : FileTree) (top : List Name)
    (placeholder : Placeholder) (r : ResolvedPath) (i : Nat) : Prop where
  kind : placeholder ≠ .parentOnly
  root : r.rootfs = rootfs
  missing : r.firstMissing = some i
  leads : before.Leads rootfs.path top
  absent : before.at? (top ++ r.names) = none
  kept : before.Keeps after
  lands : after.Lands top r.names
  new : ∀ names node, before.at? (top ++ names) = none → after.at? (top ++ names) = some node →
    names <+: r.names ∧ i < names.length ∧ node.isSymlink = false
      ∧ (node.isDir = true ↔ placeholder = .directory ∨ names ≠ r.names)

/-- How far the walk of the target over `after` has come where that over `before`
has come to these names and moves, with so many links left. -/
inductive Progress (rootfs : Rootfs) (before after : FileTree) (target : Path) (top : List Name)
    (placeholder : Placeholder) (r : ResolvedPath) (links : Nat) :
    List Name → List Step → Prop where
  /-- To the same names and moves. -/
  | stands {names : List Name} {missing : Option Nat} {steps : List Step}
      (h : Stands after top (names, missing))
      (go : rootfs.walk after target true maxLinks [] target.steps
        = rootfs.walkFrom after target links (names, missing) steps) :
      Progress rootfs before after target top placeholder r links names steps
  | arrived {names : List Name}
      (h : rootfs.walk after target true maxLinks [] target.steps = .ok (names, none)) :
      Progress rootfs before after target top placeholder r links names []
  | stopped {names : List Name} {steps : List Step} {e : Error}
      (hindered : Hindered rootfs before target placeholder r e)
      (h : rootfs.walk after target true maxLinks [] target.steps = .error e) :
      Progress rootfs before after target top placeholder r links names steps

theorem Progress.up (hinside : names ≠ [])
    (h : Progress rootfs before after target top placeholder r links names (.up :: rest)) :
    Progress rootfs before after target top placeholder r links names.dropLast rest := by
  cases h with
  | stands hstands hgo => exact .stands hstands.up (hgo.trans (walkFrom_up hinside))
  | stopped hindered herror => exact .stopped hindered herror

section Progress

variable {i : Nat} (hc : Completed rootfs before after top placeholder r i)

include hc

/-- What is new and no directory is the file that was asked for. -/
theorem Completed.eq_of_file {node : Node} (hnone : before.at? (top ++ names) = none)
    (hat : after.at? (top ++ names) = some node) (hdir : node.isDir = false) :
    placeholder = .file ∧ names = r.names := by
  obtain ⟨-, -, -, hkind⟩ := hc.new names node hnone hat
  have hfile : ¬ (placeholder = .directory ∨ names ≠ r.names) := by
    rw [← hkind, hdir]
    simp
  obtain ⟨hnot, hplace⟩ : placeholder ≠ .directory ∧ names = r.names := by simpa using hfile
  refine ⟨?_, hplace⟩
  cases placeholder with
  | directory => exact absurd rfl hnot
  | file => rfl
  | parentOnly => exact absurd rfl hc.kind

/-- A step down to a name where nothing was before. -/
theorem Progress.down_new
    (hcomes : Comes rootfs before target true (names, missing) (.down name :: rest))
    (hpass : after.Passable top names) (hnone : before.at? (top ++ names ++ [name]) = none)
    (hask : askFault? (rootfs.hostPath names) name = none)
    (hgo : rootfs.walk after target true maxLinks [] target.steps
      = rootfs.walkFrom after target links (names, none) (.down name :: rest)) :
    Progress rootfs before after target top placeholder r links (names ++ [name]) rest := by
  have hname : PlainName name := hcomes.plain name (by simp)
  have hfit := fitName_of_asked hname hask
  have hstat := lstat_asked (hc.leads.keeps hc.kept) hpass hname
  simp only [hask] at hstat
  cases hat : after.at? (top ++ names ++ [name]) with
  | none =>
      simp only [hat] at hstat
      rw [walkFrom_missing hstat] at hgo
      exact .stands (.behind hpass hfit hat (by simp)) hgo
  | some node =>
      simp only [hat] at hstat
      obtain ⟨-, -, hsymlink, -⟩ := hc.new (names ++ [name]) node
        (by rwa [← List.append_assoc]) (by rwa [← List.append_assoc])
      cases hdir : node.isDir with
      | true =>
          obtain ⟨mode, entries, rfl⟩ := Node.eq_dir_of_isDir hdir
          rw [walkFrom_dir hstat hdir] at hgo
          exact .stands (.inside (hpass.concat hfit ⟨mode, entries, hat⟩)) hgo
      | false =>
          obtain ⟨hkind, hplace⟩ := hc.eq_of_file (by rwa [← List.append_assoc])
            (by rwa [← List.append_assoc]) hdir
          rw [walkFrom_plain hstat hsymlink, hdir, Bool.or_false] at hgo
          by_cases hmore : rest = []
          · subst hmore
            rw [List.isEmpty_nil, if_pos rfl, walkFrom_nil] at hgo
            exact .arrived hgo
          · have hnew : r.exists? = false := by simp [ResolvedPath.exists?, hc.missing]
            rw [if_neg (by simpa using hmore)] at hgo
            exact .stopped ⟨_, _, _, _, hcomes, .file hkind hnew hplace hmore⟩ hgo

/-- Behind a name that was missing, the second walk may stand in a directory that
was made, and ask for the name that the first took as written. -/
theorem Progress.behind {j : Nat}
    (hcomes : Comes rootfs before target true (names, some j) (.down name :: rest))
    (h : Progress rootfs before after target top placeholder r links names (.down name :: rest)) :
    Progress rootfs before after target top placeholder r links (names ++ [name]) rest := by
  have hname : PlainName name := hcomes.plain name (by simp)
  cases h with
  | stopped hindered herror => exact .stopped hindered herror
  | stands hstands hgo =>
      rename_i missing'
      cases missing' with
      | some k => exact .stands (hstands.down_behind hname) (hgo.trans walkFrom_behind)
      | none =>
          have hpass := hstands.inside_of_none
          have hnone : before.at? (top ++ names) = none :=
            ((walkInvariant_stands hc.leads).comes hcomes).at?_missing
          cases hask : askFault? (rootfs.hostPath names) name with
          | none =>
              refine .down_new hc hcomes hpass ?_ hask hgo
              rw [Node.at?_append, hnone]
              rfl
          | some fault =>
              obtain ⟨mode, entries, hat⟩ := hpass.isDir
              obtain ⟨hinside, hnew, -, hkind⟩ := hc.new names _ hnone hat
              have hstat := lstat_asked (hc.leads.keeps hc.kept) hpass hname
              simp only [hask] at hstat
              have hfault : fault ≠ .os .noEntry := by
                rintro rfl
                exact askFault?_ne_noEntry hask
              rw [walkFrom_fault hstat hfault] at hgo
              rw [← hc.root] at hask
              exact .stopped
                ⟨_, _, _, _, hcomes, .ask (hkind.1 rfl) hc.missing hnew hinside hask⟩ hgo

/-- Where the first walk stands in a directory, so does the second, if it was not
stopped. -/
theorem Progress.inside
    (hcomes : Comes rootfs before target true (names, none) (.down name :: rest))
    (h : Progress rootfs before after target top placeholder r links names (.down name :: rest)) :
    (before.Passable top names ∧ rootfs.walk after target true maxLinks [] target.steps
        = rootfs.walkFrom after target links (names, none) (.down name :: rest))
      ∨ ∃ e, Hindered rootfs before target placeholder r e
        ∧ rootfs.walk after target true maxLinks [] target.steps = .error e := by
  have hpass := ((walkInvariant_stands hc.leads).comes hcomes).inside_of_none
  cases h with
  | stopped hindered herror => exact .inr ⟨_, hindered, herror⟩
  | stands hstands hgo =>
      obtain rfl := hstands.none_of_passable (hpass.keeps hc.kept)
      exact .inl ⟨hpass, hgo⟩

theorem Progress.absent
    (hcomes : Comes rootfs before target true (names, none) (.down name :: rest))
    (hstat : before.lstat ((rootfs.hostPath names).join ⟨name⟩) = .error (.os .noEntry))
    (h : Progress rootfs before after target top placeholder r links names (.down name :: rest)) :
    Progress rootfs before after target top placeholder r links (names ++ [name]) rest := by
  obtain ⟨hpass, hgo⟩ | ⟨e, hindered, herror⟩ := h.inside hc hcomes
  · obtain ⟨hask, hnone⟩ := asked_noEntry hc.leads hpass (hcomes.plain name (by simp)) hstat
    exact .down_new hc hcomes (hpass.keeps hc.kept) hnone hask hgo
  · exact .stopped hindered herror

theorem Progress.link {text : Path}
    (hcomes : Comes rootfs before target true (names, none) (.down name :: rest))
    (hstat : before.lstat ((rootfs.hostPath names).join ⟨name⟩) = .ok (.symlink text))
    (h : Progress rootfs before after target top placeholder r (links + 1) names
      (.down name :: rest)) :
    Progress rootfs before after target top placeholder r links
      (if text.isAbsolute then [] else names) (text.steps ++ rest) := by
  obtain ⟨hpass, hgo⟩ | ⟨e, hindered, herror⟩ := h.inside hc hcomes
  · have hlead := hc.leads.keeps hc.kept
    have hpass' := hpass.keeps hc.kept
    have hname : PlainName name := hcomes.plain name (by simp)
    obtain ⟨hask, hat⟩ := asked_ok hc.leads hpass hname hstat
    have hstat' := lstat_asked hlead hpass' hname
    simp only [hask, hc.kept.at?_symlink hat] at hstat'
    refine .stands ?_ (hgo.trans (walkFrom_link hstat'))
    split
    · exact .inside (.nil hlead.isDir)
    · exact .inside hpass'
  · exact .stopped hindered herror

theorem Progress.dir {node : Node}
    (hcomes : Comes rootfs before target true (names, none) (.down name :: rest))
    (hstat : before.lstat ((rootfs.hostPath names).join ⟨name⟩) = .ok node)
    (hdir : node.isDir = true)
    (h : Progress rootfs before after target top placeholder r links names (.down name :: rest)) :
    Progress rootfs before after target top placeholder r links (names ++ [name]) rest := by
  obtain ⟨hpass, hgo⟩ | ⟨e, hindered, herror⟩ := h.inside hc hcomes
  · have hpass' := hpass.keeps hc.kept
    have hname : PlainName name := hcomes.plain name (by simp)
    obtain ⟨hask, hat⟩ := asked_ok hc.leads hpass hname hstat
    obtain ⟨mode, entries, rfl⟩ := Node.eq_dir_of_isDir hdir
    obtain ⟨mode', entries', hat'⟩ := hc.kept.isDirAt ⟨mode, entries, hat⟩
    have hstat' := lstat_asked (hc.leads.keeps hc.kept) hpass' hname
    simp only [hask, hat'] at hstat'
    refine .stands (.inside ?_) (hgo.trans (walkFrom_dir hstat' rfl))
    exact hpass'.concat (fitName_of_asked hname hask) ⟨mode', entries', hat'⟩
  · exact .stopped hindered herror

/-- **The walks keep pace.** Wherever the first walk comes by, the second has come
as far, with as many links left. -/
theorem Completed.progress {walked w : Walked}
    (hok : rootfs.walk before target true maxLinks [] target.steps = .ok w)
    (h : Comes rootfs before target true walked steps) :
    ∃ links, rootfs.walk before target true maxLinks [] target.steps
        = rootfs.walkFrom before target links walked steps
      ∧ Progress rootfs before after target top placeholder r links walked.1 steps := by
  induction h with
  | root =>
      have hroot : after.IsDirAt top := hc.kept.isDirAt hc.leads.isDir
      exact ⟨maxLinks, walk_eq_walkFrom, .stands (.inside (.nil hroot)) walk_eq_walkFrom⟩
  | up h inside ih =>
      obtain ⟨links, hgo, hprogress⟩ := ih
      exact ⟨links, hgo.trans (walkFrom_up inside), hprogress.up inside⟩
  | behind h ih =>
      obtain ⟨links, hgo, hprogress⟩ := ih
      exact ⟨links, hgo.trans walkFrom_behind, hprogress.behind hc h⟩
  | absent h stat ih =>
      obtain ⟨links, hgo, hprogress⟩ := ih
      exact ⟨links, hgo.trans (walkFrom_missing stat), hprogress.absent hc h stat⟩
  | link h stat followed ih =>
      obtain ⟨links, hgo, hprogress⟩ := ih
      cases links with
      | zero =>
          -- the first walk had a link left, since it got to its end
          rw [hok, walkFrom_link_zero stat] at hgo
          simp at hgo
      | succ links => exact ⟨links, hgo.trans (walkFrom_link stat), hprogress.link hc h stat⟩
  | dir h stat kind ih =>
      obtain ⟨links, hgo, hprogress⟩ := ih
      exact ⟨links, hgo.trans (walkFrom_dir stat kind), hprogress.dir hc h stat kind⟩

/-! ## The end of the second walk -/

/-- What was made as a directory can be passed. -/
theorem Completed.passable (hkind : placeholder = .directory ∨ names ≠ r.names)
    (hinside : names <+: r.names) : after.Passable top names := by
  refine ⟨?_, fun n hn => hc.lands.fit n (hinside.subset hn)⟩
  obtain ⟨node, hnode, -⟩ := hc.lands.node
  by_cases hall : names = r.names
  · rw [hall]
    obtain ⟨-, -, -, hdir⟩ := hc.new r.names node hc.absent hnode
    obtain ⟨mode, entries, rfl⟩ := Node.eq_dir_of_isDir (hdir.2 (hall ▸ hkind))
    exact ⟨mode, entries, hnode⟩
  · obtain ⟨tail, htail⟩ := hinside
    rw [← htail, ← List.append_assoc] at hnode
    exact isDirAt_of_at?_append hnode fun hnil => hall (by simpa [hnil] using htail)

/-- A hindrance on its way stops the second walk. -/
theorem Completed.stopped {w : Walked} {e : Error}
    (hok : rootfs.walk before target true maxLinks [] target.steps = .ok w)
    (h : Hindered rootfs before target placeholder r e) :
    ∃ e', rootfs.walk after target true maxLinks [] target.steps = .error e' := by
  obtain ⟨names, missing, name, rest, hcomes, hhindrance⟩ := h
  have hlead := hc.leads.keeps hc.kept
  have hname : PlainName name := hcomes.plain name (by simp)
  obtain ⟨links, -, hprogress⟩ := hc.progress hok hcomes
  cases hprogress with
  | stopped hindered herror => exact ⟨_, herror⟩
  | stands hstands hgo =>
      cases hhindrance with
      | file kind new place more =>
          have hlands : after.Lands top (names ++ [name]) := place ▸ hc.lands
          obtain rfl := hstands.none_of_passable hlands.init
          obtain ⟨node, hnode, hsymlink⟩ := hlands.node
          obtain ⟨-, -, -, hdir⟩ := hc.new _ node (place ▸ hc.absent) hnode
          have hnot : node.isDir = false := by
            rw [Bool.eq_false_iff, ne_eq, hdir, kind, place]
            simp
          rw [← List.append_assoc] at hnode
          have hstat := lstat_asked hlead hlands.init hname
          cases hask : askFault? (rootfs.hostPath names) name with
          | some fault =>
              simp only [hask] at hstat
              have hfault : fault ≠ .os .noEntry := fun heq => askFault?_ne_noEntry (heq ▸ hask)
              exact ⟨_, hgo.trans (walkFrom_fault hstat hfault)⟩
          | none =>
              simp only [hask, hnode] at hstat
              rw [walkFrom_plain hstat hsymlink, hnot, if_neg (by simpa using more)] at hgo
              exact ⟨_, hgo⟩
      | ask kind missing new inside ask =>
          have hpass := hc.passable kind inside
          obtain rfl := hstands.none_of_passable hpass
          have hstat := lstat_asked hlead hpass hname
          rw [hc.root] at ask
          simp only [ask] at hstat
          exact ⟨_, hgo.trans (walkFrom_fault hstat fun heq => askFault?_ne_noEntry (heq ▸ ask))⟩

/-- The second walk ends at the same names, unless something is in its way. -/
theorem Completed.retraced (h : rootfs.resolve before target = .ok r) :
    (∃ e, Hindered rootfs before target placeholder r e ∧ rootfs.resolve after target = .error e)
      ∨ ((∀ e, ¬ Hindered rootfs before target placeholder r e)
        ∧ rootfs.resolve after target = .ok { r with firstMissing := none }) := by
  obtain ⟨hroot, hok⟩ := resolveWith_eq_ok h
  have harrives := walk_arrives .root hok
  rw [hc.missing] at harrives
  obtain ⟨links, -, hprogress⟩ := hc.progress hok harrives.comes
  have hfound : rootfs.walk after target true maxLinks [] target.steps = .ok (r.names, none) →
      (∀ e, ¬ Hindered rootfs before target placeholder r e)
        ∧ rootfs.resolve after target = .ok { r with firstMissing := none } := by
    intro hwalk
    refine ⟨fun e he => ?_, ?_⟩
    · obtain ⟨e', herror⟩ := hc.stopped hok he
      rw [hwalk] at herror
      simp at herror
    · simp [resolve, resolveWith, hwalk, bind, Except.bind, pure, Except.pure, hroot]
  cases hprogress with
  | stopped hindered herror =>
      refine .inl ⟨_, hindered, ?_⟩
      simp [resolve, resolveWith, herror, bind, Except.bind]
  | arrived hwalk => exact .inr (hfound hwalk)
  | stands hstands hgo =>
      rename_i missing'
      cases missing' with
      | none => exact .inr (hfound (hgo.trans walkFrom_nil))
      | some k =>
          obtain ⟨node, hnode, -⟩ := hc.lands.node
          rw [hstands.at?_missing] at hnode
          simp at hnode

end Progress

/-! ## What a preparation completes -/

section Prepared

variable {host : Host} {m m' : Machine} {path : Path}

/-- A directory that is there afterwards was looked for in one. -/
theorem ensureDir_leads (hname : PlainName name) :
    Contract .silent host m (ensureDir (path.join ⟨name⟩))
      fun _ _ => ∃ parent, m.tree.Leads path parent := by
  have hleads : (∀ fault, m.tree.makeDir (path.join ⟨name⟩) dirMode = .error fault →
      fault = .os .alreadyExists) → ∃ parent, m.tree.Leads path parent :=
    exists_leads_of_makeDir hname
  unfold ensureDir
  refine .bind (.change? (fun made m' hedit _ _ => ⟨trivial, fun _ => .pure ?_⟩)
    fun fault hedit _ => ?_)
  · exact hleads fun fault hfault => by simp [hedit] at hfault
  · dsimp only
    split
    · rename_i hexists
      refine .pure (hleads fun other hother => ?_)
      rw [hedit] at hother
      rw [← Except.error.inj hother, hexists]
    · exact .throw

theorem makeNames_leads {first : Name} {rest : List Name} (hkind : placeholder ≠ .parentOnly)
    (hname : PlainName first) :
    Contract .silent host m (makeNames placeholder path (first :: rest))
      fun _ _ => ∃ parent, m.tree.Leads path parent := by
  cases rest with
  | cons second rest =>
      have hmore : second :: rest = [] → False := by simp
      rw [makeNames.eq_3 _ _ _ _ hmore]
      exact .andThen (ensureDir_leads hname) fun _ _ _ hleads =>
        makeNames_silent.mono fun _ _ _ _ => hleads
  | nil =>
      cases placeholder with
      | directory => exact ensureDir_leads hname
      | file =>
          refine .bind (.change? (fun made m' hedit _ _ => ⟨trivial, fun _ => .pure ?_⟩)
            fun fault _ _ => .throw)
          exact exists_leads_of_makeFile hname hedit
      | parentOnly => exact absurd rfl hkind

/-- A root in which something was made is a directory. -/
theorem prepare_leads (hkind : placeholder ≠ .parentOnly) :
    Contract .silent host m (rootfs.prepare target placeholder)
      fun r _ => r.exists? = false → ∃ top, m.tree.Leads rootfs.path top := by
  refine prepare_new fun above name below habove hplain _ => ?_
  refine (makeNames_leads hkind (hplain name (by simp))).mono fun _ _ _ hleads => ?_
  obtain ⟨parent, hparent⟩ := hleads
  exact exists_leads_of_joinNames habove.plain hparent

/-- What is new at names below the root is a directory above the last name, or
what was asked for there. -/
theorem new_of_adds {node : Node} (hlead : after.Leads r.rootfs.path top)
    (hlands : after.Lands top r.names) (hadds : before.Adds after (r.toMake placeholder))
    (hnone : before.at? (top ++ names) = none) (hat : after.at? (top ++ names) = some node) :
    ∃ i k, r.firstMissing = some i ∧ i < k ∧ names = r.names.take k
      ∧ (k < r.names.length ∧ node.stat = .dir 0o755
        ∨ k = r.names.length ∧ placeholder.stat? = some node.stat) := by
  have hsome : after.statAt? (top ++ names) = some node.stat := by simp [statAt?, hat]
  obtain ⟨path, hmem, hfind⟩ := hadds.complete _ _ (statAt?_eq_none.2 hnone) hsome
  obtain ⟨i, k, hmissing, hk, rfl, hstat⟩ := ResolvedPath.mem_toMake hmem
  refine ⟨i, k, hmissing, hk, ?_, hstat⟩
  have htake : after.Lands top (r.names.take k) := hlands.of_prefix (List.take_prefix k r.names)
  have hne : r.names.take k ≠ [] := by
    have hlength : k ≤ r.names.length := by omega
    rw [ne_eq, ← List.length_eq_zero_iff, List.length_take]
    omega
  -- the path is looked up by its last name, in a directory
  obtain ⟨init, last, hinit⟩ : ∃ init last, r.names.take k = init ++ [last] :=
    ⟨_, _, (List.dropLast_append_getLast hne).symm⟩
  rw [hinit] at htake hfind ⊢
  rw [hostPath, Path.joinNames_concat] at hfind
  have hplace := find_behind_ok hlead htake.init (htake.fit last (by simp)).toPlainName hfind
  rw [List.append_assoc] at hplace
  exact List.append_cancel_left hplace

/-- A preparation that succeeds completes the target. -/
theorem prepare_completed {i : Nat} (hkind : placeholder ≠ .parentOnly)
    (h : (rootfs.prepare target placeholder).result host m = (.ok r, m'))
    (hmissing : r.firstMissing = some i) :
    ∃ top, Completed rootfs m.tree m'.tree top placeholder r i := by
  obtain ⟨hresolve, -, hadds⟩ := prepare_ok h
  have hnew : r.exists? = false := by simp [ResolvedPath.exists?, hmissing]
  obtain ⟨top, hlead⟩ : ∃ top, m.tree.Leads rootfs.path top := by
    have hleads : Contract .silent host m (rootfs.prepare target placeholder) _ :=
      prepare_leads hkind
    exact hleads.returns r (by rw [h]) hnew
  obtain ⟨hroot, hends⟩ := resolveWith_ends hlead hresolve
  rw [hmissing] at hends
  have hlands : m'.tree.Lands top r.names := by
    have hprepare : Contract (.growing top fun _ _ => True) host m
        (rootfs.prepare target placeholder) _ := prepare_contract hlead
    have hreturns := hprepare.returns r
    rw [h] at hreturns
    obtain ⟨-, -, -, hprepared⟩ := hreturns rfl
    exact hprepared.lands hkind
  refine ⟨top, hkind, hroot, hmissing, hlead, hends.at?_missing, hadds.kept, hlands, ?_⟩
  intro names node hnone hat
  have hlead' : m'.tree.Leads r.rootfs.path top := by
    rw [hroot]
    exact hlead.keeps hadds.kept
  obtain ⟨j, k, hj, hk, rfl, hstat⟩ := new_of_adds hlead' hlands hadds hnone hat
  obtain rfl : i = j := Option.some.inj (hmissing.symm.trans hj)
  refine ⟨List.take_prefix k r.names, by rw [List.length_take]; omega, ?_⟩
  rcases hstat with ⟨hlt, hstat⟩ | ⟨rfl, hstat⟩
  · have hne : r.names.take k ≠ r.names := by
      intro heq
      have hlength := congrArg List.length heq
      rw [List.length_take] at hlength
      omega
    cases node <;> simp_all [Node.stat, Node.isSymlink, Node.isDir]
  · rw [List.take_length]
    cases placeholder <;> cases node <;>
      simp_all [Node.stat, Node.isSymlink, Node.isDir, Placeholder.stat?]

end Prepared

/-- **A prepared target is found again.** Let a preparation succeed. Then the
target is resolved to the same names, all of which exist, and a second
preparation returns that and changes nothing, unless the walk of the target
over the files as they were comes by something that was then put in its way.
In that case both fail, and with the error that it says. -/
theorem prepare_retraced {rootfs : Rootfs} {target : Path} {placeholder : Placeholder}
    {host : Host} {m m' : Machine} {r : ResolvedPath} (hkind : placeholder ≠ .parentOnly)
    (h : (rootfs.prepare target placeholder).result host m = (.ok r, m')) :
    (∃ e, Hindered rootfs m.tree target placeholder r e
        ∧ rootfs.resolve m'.tree target = .error e
        ∧ ∀ host', (rootfs.prepare target placeholder).result host' m' = (.error e, m'))
      ∨ (∀ e, ¬ Hindered rootfs m.tree target placeholder r e)
        ∧ rootfs.resolve m'.tree target = .ok { r with firstMissing := none }
        ∧ ∀ host', (rootfs.prepare target placeholder).result host' m'
            = (.ok { r with firstMissing := none }, m') := by
  have hfollow : decide (placeholder ≠ .parentOnly) = true := decide_eq_true hkind
  have herror : ∀ e, rootfs.resolve m'.tree target = .error e →
      ∀ host', (rootfs.prepare target placeholder).result host' m' = (.error e, m') := by
    intro e he host'
    rw [prepare_result, hfollow, show rootfs.resolveWith m'.tree target true = .error e from he]
  have hfound : rootfs.resolve m'.tree target = .ok { r with firstMissing := none } →
      ∀ host', (rootfs.prepare target placeholder).result host' m'
        = (.ok { r with firstMissing := none }, m') := by
    intro hr host'
    exact prepare_existing (by rwa [hfollow]) rfl
  obtain ⟨hresolve, -, -⟩ := prepare_ok h
  cases hmissing : r.firstMissing with
  | none =>
      have hall : r.exists? = true := by simp [ResolvedPath.exists?, hmissing]
      obtain rfl : m' = m := (Prod.mk.inj (h.symm.trans (prepare_existing hresolve hall))).2
      rw [hfollow] at hresolve
      have hr : rootfs.resolve m'.tree target = .ok { r with firstMissing := none } := by
        rw [← hmissing]
        exact hresolve
      exact .inr ⟨fun e he => by simp [he.exists?_eq_false] at hall, hr, hfound hr⟩
  | some i =>
      obtain ⟨top, hc⟩ := prepare_completed hkind h hmissing
      rw [hfollow] at hresolve
      rcases hc.retraced hresolve with ⟨e, hindered, he⟩ | ⟨hclear, hr⟩
      · exact .inl ⟨e, hindered, he, herror e he⟩
      · exact .inr ⟨hclear, hr, hfound hr⟩

/-- `/l`, prepared where the link has this text. -/
def circlingRun (placeholder : Placeholder) (text : Path) : Except Error ResolvedPath × Machine :=
  (Sample.root.prepare ⟨[slash, 0x6C]⟩ placeholder).result Sample.host
    { tree := Sample.linked text }

/-- The text of the link is `g/../f`. The file `f` is made, and found again with
`g` still missing. -/
theorem prepare_retraced_detour :
    Placeholder.file ≠ .parentOnly
      ∧ (circlingRun .file (Path.ofString "g/../f")).1 = .ok ⟨Sample.root, [[0x66]], some 0⟩
      ∧ (∀ e, ¬ Hindered Sample.root (Sample.linked (Path.ofString "g/../f")) ⟨[slash, 0x6C]⟩ .file
          ⟨Sample.root, [[0x66]], some 0⟩ e)
      ∧ ∀ host', (Sample.root.prepare ⟨[slash, 0x6C]⟩ .file).result host'
            (circlingRun .file (Path.ofString "g/../f")).2
          = (.ok ⟨Sample.root, [[0x66]], none⟩,
            (circlingRun .file (Path.ofString "g/../f")).2) := by
  have hkind : Placeholder.file ≠ .parentOnly := by decide
  have hmade : (circlingRun .file (Path.ofString "g/../f")).1
      = .ok ⟨Sample.root, [[0x66]], some 0⟩ := by decide +kernel
  have hfound : Sample.root.resolve (circlingRun .file (Path.ofString "g/../f")).2.tree
      ⟨[slash, 0x6C]⟩ = .ok ⟨Sample.root, [[0x66]], none⟩ := by decide +kernel
  have hrun : circlingRun .file (Path.ofString "g/../f") = (.ok ⟨Sample.root, [[0x66]], some 0⟩,
      (circlingRun .file (Path.ofString "g/../f")).2) := by rw [← hmade]
  rcases prepare_retraced hkind hrun with ⟨e, -, herror, -⟩ | ⟨hclear, -, hagain⟩
  · exact absurd (hfound.symm.trans herror) (by simp)
  · exact ⟨hkind, hmade, hclear, hagain⟩

/-- From the missing `g` down to a name that is one byte too long, and up
again. -/
def overlongText : Path :=
  ⟨[0x67, slash] ++ List.replicate (nameLimit + 1) 0x6E ++ [slash, 0x2E, 0x2E]⟩

/-- **Prepared targets that are not found again.** Where the text of the link is
`f/../f`, the file `f` is made. Now the walk comes by that file with moves
left. Where the text goes by a name that is too long, it is asked for in the
directory that was made. Either way neither a resolution nor a second
preparation succeeds. -/
theorem prepare_circles :
    ((circlingRun .file (Path.ofString "f/../f")).1 = .ok ⟨Sample.root, [[0x66]], some 0⟩
      ∧ Sample.root.resolve (circlingRun .file (Path.ofString "f/../f")).2.tree ⟨[slash, 0x6C]⟩
        = .error (.ofErrno .notDirectory)
      ∧ ((Sample.root.prepare ⟨[slash, 0x6C]⟩ .file).result Sample.host
          (circlingRun .file (Path.ofString "f/../f")).2).1 = .error (.ofErrno .notDirectory))
      ∧ (circlingRun .directory overlongText).1 = .ok ⟨Sample.root, [[0x67]], some 0⟩
      ∧ Sample.root.resolve (circlingRun .directory overlongText).2.tree ⟨[slash, 0x6C]⟩
        = .error (.ofErrno .nameTooLong)
      ∧ ((Sample.root.prepare ⟨[slash, 0x6C]⟩ .directory).result Sample.host
          (circlingRun .directory overlongText).2).1 = .error (.ofErrno .nameTooLong) := by
  refine ⟨⟨?_, ?_, ?_⟩, ?_, ?_, ?_⟩ <;> decide +kernel

end ContainerMounts.Rootfs
