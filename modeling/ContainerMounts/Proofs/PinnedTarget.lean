/-
ContainerMounts.Proofs.PinnedTarget — a target is pinned at the file that it
was resolved to.

A target is looked up twice. Resolution walks below the root, reads every
link on the way and, in a preparation, makes what is missing. Pinning hands
the names that this left to the kernel, which walks down by them and refuses
every link. What is held open then is to be the file that was resolved, even
if somebody moves files around between the two.

Names that land are walked down to their end (`descend_lands`); a walk down
that gets to an end has met no link (`descend_found`), and a link behind
directories stops it (`descend_link`). So a pin returns the same file on the
same files (`pin_lands`), a file with no link on the way to it on any files
(`pin_held`), and none where a link was put on the way (`pin_planted`).

Main statement: `pin_agrees`.
-/
import ContainerMounts.Proofs.AcceptedPaths
import ContainerMounts.Proofs.SampleHost

namespace ContainerMounts

/-! ## Down by names -/

namespace FileTree

variable {tree : FileTree} {here top names rest place : List Name} {name : Name}

theorem descend_cons {node : Node} (hdir : tree.IsDirAt here) (hshort : name.length ≤ nameLimit)
    (hchild : tree.at? (here ++ [name]) = some node) (hnode : node.isSymlink = false) :
    tree.descend here (name :: rest) = tree.descend (here ++ [name]) rest := by
  obtain ⟨mode, entries, hat⟩ := hdir
  rw [at?_concat hat, Node.child?_dir] at hchild
  simp only [descend, hat, hchild, Nat.not_lt.2 hshort, if_false]
  cases node with
  | symlink text => simp [Node.isSymlink] at hnode
  | _ => rfl

theorem descend_link (hdir : tree.IsDirAt here) (hshort : name.length ≤ nameLimit)
    (hlink : tree.IsSymlinkAt (here ++ [name])) :
    tree.descend here (name :: rest) = .error .loop := by
  obtain ⟨mode, entries, hat⟩ := hdir
  obtain ⟨text, hchild⟩ := hlink
  rw [at?_concat hat, Node.child?_dir] at hchild
  simp [descend, hat, hchild, Nat.not_lt.2 hshort]

/-- A walk down by names through directories has no choice. -/
theorem descend_through (hdir : tree.IsDirAt (here ++ names))
    (hshort : ∀ n ∈ names, n.length ≤ nameLimit) :
    tree.descend here (names ++ rest) = tree.descend (here ++ names) rest := by
  induction names generalizing here with
  | nil => simp
  | cons name names ih =>
      have hdir' : tree.IsDirAt (here ++ [name] ++ names) := by simpa using hdir
      obtain ⟨mode, entries, hchild⟩ := hdir'.above
      have hhere : tree.IsDirAt here := hdir.above
      rw [List.cons_append, descend_cons hhere (hshort name (by simp)) hchild rfl,
        ih hdir' fun n hn => hshort n (by simp [hn])]
      simp

/-- **Names that land are walked down to their end.** -/
theorem descend_lands (h : tree.Lands top names) : tree.descend top names = .ok (top ++ names) := by
  rcases List.eq_nil_or_concat names with rfl | ⟨init, last, rfl⟩
  · simp [descend]
  · rw [List.concat_eq_append] at h ⊢
    obtain ⟨node, hnode, hkind⟩ := h.node
    have hinit : tree.Passable top init := h.init
    have hlast : tree.at? (top ++ init ++ [last]) = some node := by simpa using hnode
    rw [descend_through hinit.isDir fun n hn => (hinit.fit n hn).short,
      descend_cons hinit.isDir (h.fit last (by simp)).short hlast hkind]
    simp [descend]

/-- At the end of a walk down is a file that is no symlink. -/
theorem descend_found {node : Node} (hhere : tree.at? here = some node)
    (hnode : node.isSymlink = false) (h : tree.descend here names = .ok place) :
    ∃ found, tree.at? (here ++ names) = some found ∧ found.isSymlink = false := by
  induction names generalizing here node with
  | nil => exact ⟨node, by simpa using hhere, hnode⟩
  | cons name rest ih =>
      simp only [descend, hhere] at h
      split at h
      · rename_i mode entries hdir
        obtain rfl := Option.some.inj hdir
        split at h
        · simp at h
        · cases hchild : entries.lookup name with
          | none => simp [hchild] at h
          | some child =>
              have hat : tree.at? (here ++ [name]) = some child := by
                rw [at?_concat hhere, Node.child?_dir, hchild]
              cases child with
              | symlink text => simp [hchild] at h
              | _ =>
                  simp only [hchild] at h
                  have hfound := ih hat rfl h
                  simpa using hfound
      · simp at h
      · simp at h

/-- No walk is refused as unknown to the kernel. -/
theorem descend_ne_notImplemented : tree.descend here names ≠ .error .notImplemented := by
  induction names generalizing here with
  | nil => simp [descend]
  | cons name rest ih =>
      have hloop : Errno.loop ≠ .notImplemented := by decide
      have hlong : Errno.nameTooLong ≠ .notImplemented := by decide
      have hmissing : Errno.noEntry ≠ .notImplemented := by decide
      have hdir : Errno.notDirectory ≠ .notImplemented := by decide
      simp only [descend]
      split
      · split
        · simp [hlong]
        · split
          · simp [hmissing]
          · simp [hloop]
          · exact ih
      · simp [hdir]
      · simp [hmissing]

theorem openBeneath_of_accept (h : accept (Path.ofNames names) = .ok ()) :
    tree.openBeneath top names = tree.descend top names := by
  simp [openBeneath, h, bind, Except.bind]

theorem openBeneath_ne_notImplemented : tree.openBeneath top names ≠ .error .notImplemented := by
  unfold openBeneath
  cases hacc : accept (Path.ofNames names) with
  | error e =>
      intro h
      obtain rfl : e = .notImplemented := by simpa [bind, Except.bind] using h
      exact absurd (accept_error hacc) (by decide)
  | ok _ => exact descend_ne_notImplemented

end FileTree

namespace Rootfs

open FileTree

variable {rootfs : Rootfs} {host : Host} {m : Machine} {tree : FileTree}
  {top names : List Name} {r : ResolvedPath}

/-! ## Targets that were resolved or made -/

/-- The ways to come by a target all of which exists, with the files before and
after: it was resolved, or it was prepared. -/
inductive Obtained (rootfs : Rootfs) : FileTree → FileTree → ResolvedPath → Prop where
  | resolved {tree : FileTree} {target : Path} {r : ResolvedPath}
      (h : rootfs.resolve tree target = .ok r) (hall : r.exists? = true) :
      Obtained rootfs tree tree r
  | prepared {host : Host} {m m' : Machine} {target : Path} {placeholder : Placeholder}
      {r : ResolvedPath} (hkind : placeholder ≠ .parentOnly)
      (h : (rootfs.prepare target placeholder).result host m = (.ok r, m')) :
      Obtained rootfs m.tree m'.tree r

namespace Obtained

variable {before after : FileTree}

/-- A target that was obtained is there. -/
theorem lands (h : Obtained rootfs before after r) (hopen : before.openDir rootfs.path = .ok top) :
    r.rootfs = rootfs ∧ after.openDir rootfs.path = .ok top ∧ after.Lands top r.names := by
  cases h with
  | resolved h hall =>
      have hnone : r.firstMissing = none := by simpa [ResolvedPath.exists?] using hall
      obtain ⟨hroot, hends⟩ := resolveWith_ends (.of_openDir hopen) h
      rw [hnone] at hends
      exact ⟨hroot, hopen, hends.lands⟩
  | @prepared host m m' target placeholder r hkind h =>
      have hprepare : Contract (.growing top fun _ _ => True) host m
          (rootfs.prepare target placeholder) _ := prepare_contract (.of_openDir hopen)
      have hgrows := hprepare.kept.files
      have hreturns := hprepare.returns r
      rw [h] at hgrows hreturns
      obtain ⟨-, hroot, -, hprep⟩ := hreturns rfl
      exact ⟨hroot, openDir_grows hgrows hopen, hprep.lands hkind⟩

theorem accepted (h : Obtained rootfs before after r)
    (hopen : before.openDir rootfs.path = .ok top) : accept r.hostPath = .ok () := by
  cases h with
  | resolved h hall =>
      have hnone : r.firstMissing = none := by simpa [ResolvedPath.exists?] using hall
      exact accept_of_resolveWith hopen h hnone
  | @prepared host m m' target placeholder r hkind h =>
      have hmade : Contract .free host m _ _ := prepare_accepts target hkind hopen
      have hreturns := hmade.returns r
      rw [h] at hreturns
      exact hreturns rfl

end Obtained

/-- The kernel takes the target, by its path on the host and by its names. -/
structure Askable (rootfs : Rootfs) (r : ResolvedPath) : Prop where
  root : r.rootfs = rootfs
  fit : ∀ n ∈ r.names, FitName n
  hostPath : accept (rootfs.hostPath r.names) = .ok ()
  containerPath : accept (Path.ofNames r.names) = .ok ()

theorem Obtained.askable {before after : FileTree} (h : Obtained rootfs before after r)
    (hopen : before.openDir rootfs.path = .ok top) : Askable rootfs r := by
  obtain ⟨rfl, -, hlands⟩ := h.lands hopen
  have hno_slash : ∀ n ∈ r.names, slash ∉ n := fun n hn => (hlands.fit n hn).no_slash
  have hplain : ∀ n ∈ r.names, PlainName n := fun n hn => (hlands.fit n hn).toPlainName
  have haccept := h.accepted hopen
  refine ⟨rfl, hlands.fit, haccept, accept_eq_ok.2 ⟨?_, ?_⟩⟩
  · intro hempty
    have habsolute := Path.isAbsolute_ofNames hplain
    rw [Path.isAbsolute, hempty] at habsolute
    exact absurd habsolute (by decide)
  · -- the path below the root is no longer than that on the host
    have hroot := (accept_eq_ok.1 (locate_eq_ok.1 (openDir_eq_ok.1 hopen).2.1).1).1
    exact Nat.le_trans (Path.length_ofNames_le hroot hno_slash) (accept_eq_ok.1 haccept).2

/-! ## What a pin returns -/

/-- The spot that is held open at the file that the path leads to. -/
def HeldAt (tree : FileTree) (path : Path) (spot : Spot) : Prop :=
  ∃ place node, spot = .held (Path.ofNames place)
    ∧ tree.find true path = .ok place ∧ tree.at? place = some node

/-- Names that land are found by their path. -/
theorem find_hostPath (hopen : tree.openDir rootfs.path = .ok top) (hlands : tree.Lands top names)
    (haccept : accept (rootfs.hostPath names) = .ok ()) :
    tree.find true (rootfs.hostPath names) = .ok (top ++ names) := by
  have hnul : 0 ∉ (rootfs.hostPath names).bytes :=
    Path.nul_notMem_joinNames (fun n hn => (hlands.fit n hn).no_slash) (openDir_eq_ok.1 hopen).1
      fun n hn => (hlands.fit n hn).no_nul
  exact find_eq_ok.2 ⟨hnul, locate_lands hopen hlands haccept⟩

/-- The answer to a request to open the names below the root. -/
def beneathAnswer (host : Host) (m : Machine) (top names : List Name) : Except Errno (List Name) :=
  match host.answer .openat2 (m.attempts.count .openat2) with
  | some e => .error e
  | none => m.tree.openBeneath top names

/-- What a pin makes of the answer. -/
def spotOf (r : ResolvedPath) : Except Errno (List Name) → Except Error Spot
  | .ok place => .ok (.held (Path.ofNames place))
  | .error e =>
      if e = .notImplemented then .ok (.at r.hostPath)
      else if e = .loop then
        .error (escape r.containerPath "path changed between resolution and mount")
      else .error (.mount "openat2" r.hostPath (.os e))

theorem beneathAnswer_eq_ok {place : List Name} :
    beneathAnswer host m top names = .ok place
      ↔ host.answer .openat2 (m.attempts.count .openat2) = none
        ∧ m.tree.openBeneath top names = .ok place := by
  unfold beneathAnswer
  cases host.answer .openat2 (m.attempts.count .openat2) <;> simp

theorem beneathAnswer_eq_notImplemented :
    beneathAnswer host m top names = .error .notImplemented
      ↔ host.answer .openat2 (m.attempts.count .openat2) = some .notImplemented := by
  unfold beneathAnswer
  cases host.answer .openat2 (m.attempts.count .openat2) with
  | some e => simp
  | none => simp [openBeneath_ne_notImplemented]

theorem spotOf_eq_held {answer : Except Errno (List Name)} {real : Path} :
    spotOf r answer = .ok (.held real)
      ↔ ∃ place, answer = .ok place ∧ real = Path.ofNames place := by
  cases answer with
  | ok place => simp [spotOf, eq_comm]
  | error e =>
      simp only [spotOf]
      split
      · simp
      · split <;> simp

theorem spotOf_eq_at {answer : Except Errno (List Name)} {path : Path} :
    spotOf r answer = .ok (.at path) ↔ path = r.hostPath ∧ answer = .error .notImplemented := by
  cases answer with
  | ok place => simp [spotOf]
  | error e =>
      simp only [spotOf]
      split
      · rename_i he
        simp [he, eq_comm]
      · rename_i he
        split <;> simp [he]

theorem openTarget_result (hnul : ∀ n ∈ names, 0 ∉ n) :
    (openTarget top names).result host m = (.ok (beneathAnswer host m top names),
      { m with attempts := m.attempts ++ [.openat2] }) := by
  have hany : names.any (·.contains 0) = false := by simpa using hnul
  unfold openTarget beneathAnswer
  rw [hany, if_neg (by simp), Run.result_bind, Run.result_attempt]
  cases host.answer .openat2 (m.attempts.count .openat2) <;> rfl

theorem pin_result (h : Askable rootfs r) (hopen : m.tree.openDir rootfs.path = .ok top) :
    ((rootfs.pin r).result host m).1 = spotOf r (beneathAnswer host m top r.names) := by
  have hnul : ∀ n ∈ r.names, 0 ∉ n := fun n hn => (h.fit n hn).no_nul
  unfold pin
  rw [Run.result_bind, Run.result_tree]
  simp only [hopen]
  rw [Run.result_bind, openTarget_result hnul]
  cases beneathAnswer host m top r.names with
  | ok place => rfl
  | error e =>
      simp only [spotOf]
      split
      · rfl
      · split <;> rfl

/-- A pin opens the root first. -/
theorem pin_opens {spot : Spot} (h : ((rootfs.pin r).result host m).1 = .ok spot) :
    ∃ top, m.tree.openDir rootfs.path = .ok top := by
  have hpin : Contract .free host m (rootfs.pin r) _ := pin_contract
  obtain ⟨-, -, top, hopen, -⟩ := hpin.returns spot h
  exact ⟨top, hopen⟩

/-! ## Both lookups -/

section Pinned

variable (hask : Askable rootfs r) (hopen : m.tree.openDir rootfs.path = .ok top)

include hask hopen

/-- A target that lands is pinned at the file it was resolved to. -/
theorem pin_lands (hlands : m.tree.Lands top r.names)
    (hanswer : host.answer .openat2 (m.attempts.count .openat2) = none) :
    ∃ spot, ((rootfs.pin r).result host m).1 = .ok spot ∧ HeldAt m.tree r.hostPath spot := by
  obtain ⟨node, hnode, -⟩ := hlands.node
  have hbeneath : m.tree.openBeneath top r.names = .ok (top ++ r.names) :=
    (openBeneath_of_accept hask.containerPath).trans (descend_lands hlands)
  rw [pin_result hask hopen, beneathAnswer_eq_ok.2 ⟨hanswer, hbeneath⟩]
  refine ⟨_, rfl, _, node, rfl, ?_, hnode⟩
  rw [ResolvedPath.hostPath, hask.root]
  exact find_hostPath hopen hlands hask.hostPath

/-- What is held open is the file at the end of the names, with no symlink at any
of them. -/
theorem pin_held {real : Path} (h : ((rootfs.pin r).result host m).1 = .ok (.held real)) :
    real = Path.ofNames (top ++ r.names) ∧ m.tree.Lands top r.names := by
  rw [pin_result hask hopen] at h
  obtain ⟨place, hanswer, rfl⟩ := spotOf_eq_held.1 h
  obtain ⟨-, hbeneath⟩ := beneathAnswer_eq_ok.1 hanswer
  rw [openBeneath_of_accept hask.containerPath] at hbeneath
  obtain rfl := descend_ok hbeneath
  obtain ⟨mode, entries, htop⟩ := (openDir_eq_ok.1 hopen).2.2
  exact ⟨rfl, descend_found htop rfl hbeneath, hask.fit⟩

/-- A symlink behind directories is refused. -/
theorem pin_planted {init rest : List Name} {name : Name} (hnames : r.names = init ++ name :: rest)
    (hdir : m.tree.IsDirAt (top ++ init)) (hlink : m.tree.IsSymlinkAt (top ++ init ++ [name]))
    (hanswer : host.answer .openat2 (m.attempts.count .openat2) = none) :
    ((rootfs.pin r).result host m).1
      = .error (escape r.containerPath "path changed between resolution and mount") := by
  have hfit : ∀ n ∈ init ++ name :: rest, n.length ≤ nameLimit :=
    fun n hn => (hask.fit n (hnames ▸ hn)).short
  have hdescend : m.tree.descend top r.names = .error .loop := by
    rw [hnames, descend_through hdir fun n hn => hfit n (by simp [hn])]
    exact descend_link hdir (hfit name (by simp)) hlink
  rw [pin_result hask hopen, beneathAnswer, hanswer]
  simp only [openBeneath_of_accept hask.containerPath, hdescend]
  rfl

/-- The plain path is what a kernel without the call gets. -/
theorem pin_at_iff {path : Path} : ((rootfs.pin r).result host m).1 = .ok (.at path)
    ↔ path = r.hostPath
      ∧ host.answer .openat2 (m.attempts.count .openat2) = some .notImplemented := by
  rw [pin_result hask hopen, spotOf_eq_at, beneathAnswer_eq_notImplemented]

end Pinned

/-- **A target is pinned at the file that it was resolved to.** Let the target be
resolved to something that exists, or prepared. On the files as that left
them, a kernel that opens files below a root holds the file open that the
target's path leads to. On any other files, what is held open is the file at
the end of the target's names, and no symlink is at any of them; where one
is, behind directories, the pin is refused as an escape; and the plain path
is used just when the kernel does not know the call. -/
theorem pin_agrees {rootfs : Rootfs} {before after : FileTree} {r : ResolvedPath} {files : Node}
    (hroot : before.stat rootfs.path = .ok files) (hdir : files.isDir = true)
    (hobtained : Obtained rootfs before after r) :
    (∀ host m, m.tree = after → host.answer .openat2 (m.attempts.count .openat2) = none →
      ∃ spot, ((rootfs.pin r).result host m).1 = .ok spot ∧ HeldAt after r.hostPath spot)
    ∧ ∀ host m,
      (∀ real, ((rootfs.pin r).result host m).1 = .ok (.held real) →
        HeldAt m.tree r.hostPath (.held real)
        ∧ ∃ top, m.tree.openDir rootfs.path = .ok top ∧ real = Path.ofNames (top ++ r.names)
          ∧ ∀ init, init <+: r.names → ¬ m.tree.IsSymlinkAt (top ++ init))
      ∧ (∀ top init name rest, m.tree.openDir rootfs.path = .ok top →
          r.names = init ++ name :: rest → m.tree.IsDirAt (top ++ init) →
          m.tree.IsSymlinkAt (top ++ init ++ [name]) →
          host.answer .openat2 (m.attempts.count .openat2) = none →
          ((rootfs.pin r).result host m).1
            = .error (escape r.containerPath "path changed between resolution and mount"))
      ∧ ∀ path, ((rootfs.pin r).result host m).1 = .ok (.at path) →
          path = r.hostPath
          ∧ host.answer .openat2 (m.attempts.count .openat2) = some .notImplemented := by
  obtain ⟨top, hopen⟩ : ∃ top, before.openDir rootfs.path = .ok top := by
    obtain ⟨mode, entries, rfl⟩ := Node.eq_dir_of_isDir hdir
    obtain ⟨place, hfind, hat⟩ := findNode_eq_ok.1 hroot
    obtain ⟨hnul, hloc⟩ := find_eq_ok.1 hfind
    exact ⟨place, openDir_eq_ok.2 ⟨hnul, hloc, mode, entries, hat⟩⟩
  have hask := hobtained.askable hopen
  refine ⟨?_, fun host m => ⟨?_, ?_, ?_⟩⟩
  · rintro host m rfl hanswer
    obtain ⟨-, hopen', hlands⟩ := hobtained.lands hopen
    exact pin_lands hask hopen' hlands hanswer
  · intro real hpin
    obtain ⟨top', hopen'⟩ := pin_opens hpin
    obtain ⟨rfl, hlands⟩ := pin_held hask hopen' hpin
    obtain ⟨node, hnode, -⟩ := hlands.node
    have hfind := find_hostPath hopen' hlands hask.hostPath
    rw [← hask.root] at hfind
    refine ⟨⟨_, node, rfl, hfind, hnode⟩, top', hopen', rfl, ?_⟩
    rintro init ⟨rest, hrest⟩
    exact hlands.not_symlink hrest.symm
  · intro top' init name rest hopen' hnames hdir' hlink hanswer
    exact pin_planted hask hopen' hnames hdir' hlink hanswer
  · intro path hpin
    obtain ⟨top', hopen'⟩ := pin_opens hpin
    exact (pin_at_iff hask hopen').1 hpin

/-- A root with the directories `a` and `a/b` in it. -/
def nestedRoot : FileTree := Sample.files [([0x61], .dir 0o755 [([0x62], .dir 0o755 [])])] []

/-- A link in place of `a`, to `e` as the container sees it, which also has a
directory `b` in it. -/
def swappedRoot : FileTree :=
  Sample.files [([0x61], .symlink ⟨[slash, 0x65]⟩), ([0x65], .dir 0o755 [([0x62], .dir 0o755 [])])]
    []

/-- `/a/b` below the root. -/
def nestedTarget : ResolvedPath := ⟨Sample.root, [[0x61], [0x62]], none⟩

/-- Where a link was put in the place of a directory, the pin is refused. -/
theorem pin_agrees_swapped :
    (∃ files, nestedRoot.stat nestedTarget.rootfs.path = .ok files ∧ files.isDir = true)
      ∧ Obtained nestedTarget.rootfs nestedRoot nestedRoot nestedTarget
      ∧ (∃ spot, ((nestedTarget.rootfs.pin nestedTarget).result Sample.host
            { tree := nestedRoot }).1 = .ok spot
          ∧ HeldAt nestedRoot nestedTarget.hostPath spot)
      ∧ ((nestedTarget.rootfs.pin nestedTarget).result Sample.host { tree := swappedRoot }).1
          = .error (.pathEscape "/a/b" "path changed between resolution and mount") := by
  have hstat : nestedRoot.stat nestedTarget.rootfs.path
      = .ok (.dir 0o755 [([0x61], .dir 0o755 [([0x62], .dir 0o755 [])])]) := Sample.stat_root _ _
  have hresolve : nestedTarget.rootfs.resolve nestedRoot ⟨[slash, 0x61, slash, 0x62]⟩
      = .ok nestedTarget := by rfl
  have hobtained : Obtained nestedTarget.rootfs nestedRoot nestedRoot nestedTarget :=
    .resolved hresolve rfl
  obtain ⟨hunchanged, hchanged⟩ := pin_agrees hstat rfl hobtained
  refine ⟨⟨_, hstat, rfl⟩, hobtained, hunchanged Sample.host { tree := nestedRoot } rfl rfl, ?_⟩
  obtain ⟨-, hplanted, -⟩ := hchanged Sample.host { tree := swappedRoot }
  have hescape := hplanted [[0x72]] [] [0x61] [[0x62]] rfl rfl ⟨_, _, rfl⟩ ⟨_, rfl⟩ rfl
  rw [hescape]
  decide +kernel

end Rootfs

end ContainerMounts
