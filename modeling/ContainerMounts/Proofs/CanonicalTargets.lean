/-
ContainerMounts.Proofs.CanonicalTargets — a resolved target resolves to itself.

What a resolution returns is read again: the executor pins it, mounts on it
and resolves it once more to set a propagation. So the names of a result
have to be the plain ones of the place it stands for, without a link among
them, and the path that they make as the container sees it has to come back
to the same result, the missing names included.

The second walk asks the host about the names that the first one kept. What
the first was told about those is `Shown`: it holds of the names wherever the
walk stands, since a move up takes back the name last asked about and a link
starts over from names asked about before. A walk down by names that are
shown has no choice (`Shown.through`, `Shown.retraced`).

Main statement: `resolve_canonical`.
-/
import ContainerMounts.Proofs.Resolution
import ContainerMounts.Proofs.SampleHost
import Mathlib.Data.List.Induction

namespace ContainerMounts.Rootfs

open FileTree

variable {rootfs : Rootfs} {tree : FileTree} {target : Path} {followLast : Bool}
  {jump : List Name → List Step → Except Error Walked} {top names init : List Name}
  {walked w : Walked} {rest : List Step} {name : Name}

/-! ## What the host said about the names -/

/-- The host shows a directory at each name up to the first missing one, and
nothing there. -/
structure Shown (rootfs : Rootfs) (tree : FileTree) (walked : Walked) : Prop where
  plain : ∀ n ∈ walked.1, PlainName n
  within : ∀ i ∈ walked.2, i < walked.1.length
  dir : ∀ init name, init ++ [name] <+: walked.1 → (∀ i ∈ walked.2, init.length < i) →
    ∃ node, tree.lstat ((rootfs.hostPath init).join ⟨name⟩) = .ok node ∧ node.isDir = true
  absent : ∀ init name, init ++ [name] <+: walked.1 → walked.2 = some init.length →
    tree.lstat ((rootfs.hostPath init).join ⟨name⟩) = .error (.os .noEntry)

/-- What the host said about the names at the end of a walk. -/
inductive ShownEnd (rootfs : Rootfs) (tree : FileTree) (followLast : Bool) : Walked → Prop where
  | stands {walked : Walked} (h : Shown rootfs tree walked) :
      ShownEnd rootfs tree followLast walked
  /-- A file in the last place. -/
  | leaf {names : List Name} {name : Name} {node : Node} (h : Shown rootfs tree (names, none))
      (plain : PlainName name) (stat : tree.lstat ((rootfs.hostPath names).join ⟨name⟩) = .ok node)
      (kind : followLast = true → node.isSymlink = false) :
      ShownEnd rootfs tree followLast (names ++ [name], none)

namespace Shown

variable {missing : Option Nat}

theorem start (rootfs : Rootfs) (tree : FileTree) : Shown rootfs tree ([], none) where
  plain := by simp
  within := by simp
  dir init name hinit := by simp at hinit
  absent init name hinit := by simp at hinit

/-- What is shown of the names is shown of the first ones. -/
theorem above (h : Shown rootfs tree (names, missing)) (hinit : init <+: names)
    (hbefore : ∀ i ∈ missing, init.length ≤ i) : Shown rootfs tree (init, none) := by
  refine ⟨fun n hn => h.plain n (hinit.subset hn), by simp, fun inner name hinner _ => ?_, by simp⟩
  have hlength := hinner.length_le
  simp only [List.length_append, List.length_singleton] at hlength
  exact h.dir inner name (hinner.trans hinit) fun i hi => by
    have hle := hbefore i hi
    omega

theorem up (h : Shown rootfs tree (names, missing)) :
    Shown rootfs tree (names.dropLast, stillMissing missing names.dropLast) := by
  have hkept : ∀ i, stillMissing missing names.dropLast = some i →
      missing = some i ∧ i < names.dropLast.length := by
    intro i hi
    simpa [stillMissing, Option.filter_eq_some_iff] using hi
  refine ⟨fun n hn => h.plain n (List.dropLast_subset _ hn), fun i hi => (hkept i hi).2, ?_, ?_⟩
  · intro init name hinit hbefore
    refine h.dir init name (hinit.trans (List.dropLast_prefix names)) ?_
    -- a missing name that was taken back lies behind all names that are left
    intro i hi
    by_cases hlt : i < names.dropLast.length
    · exact hbefore i (Option.filter_eq_some_iff.2 ⟨hi, by simpa using hlt⟩)
    · have hle := hinit.length_le
      simp only [List.length_append, List.length_singleton] at hle
      omega
  · intro init name hinit hmissing
    exact h.absent init name (hinit.trans (List.dropLast_prefix names)) (hkept _ hmissing).1

theorem concat_plain (h : Shown rootfs tree (names, missing)) (hname : PlainName name) :
    ∀ n ∈ names ++ [name], PlainName n :=
  List.forall_mem_append.2 ⟨h.plain, List.forall_mem_singleton.2 hname⟩

theorem behind {i : Nat} (h : Shown rootfs tree (names, some i)) (hname : PlainName name) :
    Shown rootfs tree (names ++ [name], some i) := by
  have hi : i < names.length := h.within i rfl
  have hbefore : ∀ init next, init ++ [next] <+: names ++ [name] → init.length ≤ i →
      init ++ [next] <+: names := by
    intro init next hinit hle
    rcases List.prefix_concat_iff.1 hinit with heq | hinit
    · have hlen := congrArg List.length heq
      simp only [List.length_append, List.length_singleton] at hlen
      omega
    · exact hinit
  refine ⟨h.concat_plain hname, ?_, ?_, ?_⟩
  · intro j hj
    obtain rfl := Option.some.inj hj
    simp only [List.length_append, List.length_singleton]
    omega
  · intro init next hinit hlt
    exact h.dir init next (hbefore init next hinit (Nat.le_of_lt (hlt i rfl))) hlt
  · intro init next hinit hmissing
    have hlen : init.length ≤ i := Nat.le_of_eq (Option.some.inj hmissing).symm
    exact h.absent init next (hbefore init next hinit hlen) hmissing

theorem down {node : Node} (h : Shown rootfs tree (names, none)) (hname : PlainName name)
    (hstat : tree.lstat ((rootfs.hostPath names).join ⟨name⟩) = .ok node)
    (hdir : node.isDir = true) : Shown rootfs tree (names ++ [name], none) := by
  refine ⟨h.concat_plain hname, by simp, ?_, by simp⟩
  intro init next hinit _
  rcases List.prefix_concat_iff.1 hinit with heq | hinit
  · obtain ⟨rfl, hlast⟩ := List.append_inj' heq rfl
    obtain rfl : next = name := by simpa using hlast
    exact ⟨node, hstat, hdir⟩
  · exact h.dir init next hinit (by simp)

theorem down_missing (h : Shown rootfs tree (names, none)) (hname : PlainName name)
    (hstat : tree.lstat ((rootfs.hostPath names).join ⟨name⟩) = .error (.os .noEntry)) :
    Shown rootfs tree (names ++ [name], some names.length) := by
  refine ⟨h.concat_plain hname, by simp, ?_, ?_⟩
  · intro init next hinit hlt
    rcases List.prefix_concat_iff.1 hinit with heq | hinit
    · obtain ⟨rfl, -⟩ := List.append_inj' heq rfl
      exact absurd (hlt _ rfl) (Nat.lt_irrefl _)
    · exact h.dir init next hinit (by simp)
  · intro init next hinit hmissing
    have hlen : init.length = names.length := (Option.some.inj hmissing).symm
    rcases List.prefix_concat_iff.1 hinit with heq | hinit
    · obtain ⟨rfl, hlast⟩ := List.append_inj' heq rfl
      obtain rfl : next = name := by simpa using hlast
      exact hstat
    · have hle := hinit.length_le
      simp only [List.length_append, List.length_singleton] at hle
      omega

/-- The names above the first missing one, that name and those behind it. -/
theorem split {i : Nat} (h : Shown rootfs tree (names, some i)) :
    ∃ above name below, names = above ++ name :: below ∧ i = above.length
      ∧ Shown rootfs tree (above, none)
      ∧ tree.lstat ((rootfs.hostPath above).join ⟨name⟩) = .error (.os .noEntry) := by
  have hi : i < names.length := h.within i rfl
  obtain ⟨above, name, below, rfl, rfl⟩ : ∃ above name below,
      names = above ++ name :: below ∧ i = above.length :=
    ⟨names.take i, names[i], names.drop (i + 1), by simp, by simp [Nat.le_of_lt hi]⟩
  refine ⟨above, name, below, rfl, rfl, h.above (List.prefix_append above _) ?_, ?_⟩
  · intro j hj
    exact Nat.le_of_eq (Option.some.inj hj)
  · exact h.absent above name ⟨below, by simp⟩ rfl

end Shown

theorem walkInvariant_shown :
    WalkInvariant rootfs tree followLast (Shown rootfs tree) (ShownEnd rootfs tree followLast) where
  root := .start rootfs tree
  stop h := .stands h
  up h := h.up
  behind h hname := h.behind hname
  absent h hname hstat := h.down_missing hname hstat
  dir h hname hstat hdir := h.down hname hstat hdir
  leaf h hname hstat hkind := .leaf h hname hstat hkind

namespace ShownEnd

theorem plain (h : ShownEnd rootfs tree followLast walked) : ∀ n ∈ walked.1, PlainName n := by
  cases h with
  | stands h => exact h.plain
  | leaf h hname stat kind => exact h.concat_plain hname

theorem shown {i : Nat} (h : ShownEnd rootfs tree followLast (names, some i)) :
    Shown rootfs tree (names, some i) := by
  cases h with
  | stands h => exact h

end ShownEnd

/-! ## The second walk -/

/-- Behind a missing name the rest is taken as written. -/
theorem walkVia_behind {i : Nat} (below : List Name) :
    rootfs.walkVia tree target followLast jump (names, some i) (below.map .down)
      = .ok (names ++ below, some i) := by
  induction below generalizing names with
  | nil => simp [walkVia]
  | cons name below ih =>
      rw [List.map_cons, walkVia, ih]
      simp

/-- A walk down by names that are all shown has no choice. -/
theorem Shown.through (h : Shown rootfs tree (names, none)) :
    rootfs.walkVia tree target followLast jump ([], none) (names.map .down ++ rest)
      = rootfs.walkVia tree target followLast jump (names, none) rest := by
  induction names using List.reverseRecOn generalizing rest with
  | nil => rfl
  | append_singleton init last ih =>
      obtain ⟨node, hstat, hdir⟩ := h.dir init last List.prefix_rfl (by simp)
      have hinit : Shown rootfs tree (init, none) := h.above (List.prefix_append init _) (by simp)
      obtain ⟨mode, entries, rfl⟩ := Node.eq_dir_of_isDir hdir
      rw [List.map_append, List.append_assoc, ih hinit, List.map_singleton,
        List.singleton_append, walkVia_down_plain hstat rfl, hdir, Bool.or_true, if_pos rfl]

/-- A walk down by the names where a walk stands comes to stand there. -/
theorem Shown.retraced (h : Shown rootfs tree walked) :
    rootfs.walkVia tree target followLast jump ([], none) (walked.1.map .down) = .ok walked := by
  obtain ⟨names, missing⟩ := walked
  cases missing with
  | none =>
      have hthrough : rootfs.walkVia tree target followLast jump ([], none) (names.map .down ++ [])
          = rootfs.walkVia tree target followLast jump (names, none) [] := h.through
      rw [List.append_nil, walkVia] at hthrough
      exact hthrough
  | some i =>
      obtain ⟨above, name, below, rfl, rfl, habove, hstat⟩ := h.split
      rw [List.map_append, List.map_cons, habove.through, walkVia_down_missing hstat,
        walkVia_behind]
      simp

theorem ShownEnd.retraced (h : ShownEnd rootfs tree followLast walked) :
    rootfs.walkVia tree target followLast jump ([], none) (walked.1.map .down) = .ok walked := by
  cases h with
  | stands h => exact h.retraced
  | @leaf names name node h plain stat kind =>
      rw [List.map_append, h.through, List.map_singleton]
      cases hnode : node.isSymlink with
      | false =>
          rw [walkVia_down_plain stat hnode]
          simp [walkVia]
      | true =>
          obtain ⟨text, rfl⟩ := Node.eq_symlink_of_isSymlink hnode
          have hkeep : followLast = false := by
            cases followLast with
            | false => rfl
            | true => simp [Node.isSymlink] at kind
          rw [walkVia_down_symlink stat, hkeep]
          simp [walkVia]

/-- The names of a result lead back to it. -/
theorem resolveWith_containerPath {r : ResolvedPath}
    (h : rootfs.resolveWith tree target followLast = .ok r) :
    rootfs.resolveWith tree r.containerPath followLast = .ok r := by
  obtain ⟨hroot, hshown⟩ := walkInvariant_shown.resolveWith h
  have hwalk : rootfs.walk tree r.containerPath followLast maxLinks [] (r.names.map .down)
      = .ok (r.names, r.firstMissing) := hshown.retraced
  rw [resolveWith, ResolvedPath.containerPath, Path.steps_ofNames hshown.plain]
  rw [ResolvedPath.containerPath] at hwalk
  rw [hwalk]
  simp [bind, Except.bind, pure, Except.pure, ← hroot]

/-! ## Results -/

/-- The result stands for a place below `top`, by plain names through
directories. A symlink can only be in the last place, and only if that was
not to be followed. -/
structure Canonical (rootfs : Rootfs) (tree : FileTree) (top : List Name) (followLast : Bool)
    (r : ResolvedPath) : Prop where
  plain : ∀ n ∈ r.names, PlainName n
  hostPath : r.hostPath.components = rootfs.path.components ++ r.names.map .normal
  containerPath : r.containerPath.components = .root :: r.names.map .normal
  /-- What lies above the target and is not missing is a directory. -/
  above : ∀ init, init <+: r.names → init ≠ r.names → (∀ i ∈ r.firstMissing, init.length ≤ i) →
    tree.IsDirAt (top ++ init)
  no_symlink : ∀ init, init <+: r.names → (followLast = true ∨ init ≠ r.names) →
    ¬ tree.IsSymlinkAt (top ++ init)
  present : r.firstMissing = none → ∃ node, tree.at? (top ++ r.names) = some node
  missing : ∀ i ∈ r.firstMissing,
    i < r.names.length ∧ tree.at? (top ++ r.names.take (i + 1)) = none

namespace Ends

theorem above (h : Ends tree top followLast w) (hinit : init <+: w.1) (hne : init ≠ w.1)
    (hbefore : ∀ i ∈ w.2, init.length ≤ i) : tree.IsDirAt (top ++ init) := by
  have hdir : ∀ names, tree.Passable top names → init <+: names → tree.IsDirAt (top ++ init) := by
    rintro names hpass ⟨tail, rfl⟩
    have hend := hpass.isDir
    rw [← List.append_assoc] at hend
    exact hend.above
  cases h with
  | stands h =>
      cases h with
      | inside h => exact hdir _ h hinit
      | @behind above below name h fit free plain =>
          refine hdir _ h (List.prefix_of_prefix_length_le hinit (List.prefix_append _ _) ?_)
          exact hbefore _ rfl
  | leaf h fit found kind => exact hdir _ h ((List.prefix_concat_iff.1 hinit).resolve_left hne)

theorem no_symlink (h : Ends tree top followLast w) (hinit : init <+: w.1)
    (hkept : followLast = true ∨ init ≠ w.1) : ¬ tree.IsSymlinkAt (top ++ init) := by
  obtain ⟨tail, htail⟩ := hinit
  cases h with
  | stands h => exact (Ends.stands h).not_symlink htail.symm
  | leaf h fit found kind =>
      rcases hkept with rfl | hne
      · exact (Ends.leaf h fit found kind).not_symlink htail.symm
      · obtain ⟨behind, rfl⟩ := (List.prefix_concat_iff.1 ⟨tail, htail⟩).resolve_left hne
        exact h.lands.not_symlink rfl

theorem present (h : Ends tree top followLast (names, none)) :
    ∃ node, tree.at? (top ++ names) = some node := by
  generalize hw : (names, none) = w at h
  cases h with
  | stands h =>
      cases h with
      | inside h =>
          obtain rfl : names = _ := (Prod.mk.inj hw).1
          obtain ⟨mode, entries, hat⟩ := h.isDir
          exact ⟨_, hat⟩
      | behind h fit free plain => simp at hw
  | leaf h fit found kind =>
      obtain rfl : names = _ := (Prod.mk.inj hw).1
      exact ⟨_, by rwa [← List.append_assoc]⟩

theorem missing {i : Nat} (h : Ends tree top followLast (names, some i)) :
    i < names.length ∧ tree.at? (top ++ names.take (i + 1)) = none := by
  cases h with
  | stands h =>
      cases h with
      | @behind above below name h fit free plain =>
          have htake : (above ++ name :: below).take (above.length + 1) = above ++ [name] := by
            simp [List.take_append, List.take_of_length_le]
          rw [htake, ← List.append_assoc]
          exact ⟨by simp, free⟩

end Ends

theorem resolveWith_canonical {r : ResolvedPath} (hopen : tree.openDir rootfs.path = .ok top)
    (h : rootfs.resolveWith tree target followLast = .ok r) :
    Canonical rootfs tree top followLast r
      ∧ rootfs.resolveWith tree r.containerPath followLast = .ok r := by
  obtain ⟨hroot, hends⟩ := resolveWith_ends (.of_openDir hopen) h
  have hpath : rootfs.path.bytes ≠ [] :=
    (accept_eq_ok.1 (locate_eq_ok.1 (openDir_eq_ok.1 hopen).2.1).1).1
  refine ⟨⟨hends.plain, ?_, Path.components_ofNames hends.plain, ?_, ?_, ?_, ?_⟩,
    resolveWith_containerPath h⟩
  · rw [ResolvedPath.hostPath, hroot]
    exact Path.components_joinNames_of_ne_nil hpath hends.plain
  · exact fun init hinit hne hbefore => hends.above hinit hne hbefore
  · exact fun init hinit hkept => hends.no_symlink hinit hkept
  · intro hall
    rw [hall] at hends
    exact hends.present
  · intro i hi
    rw [Option.mem_def.1 hi] at hends
    exact hends.missing

/-- **A resolved target is canonical.** The root is any path that leads to a
directory, at the place `top`. Whatever a target is resolved to has plain
names; its path on the host is the root's with these names behind it; what
lies above it and is not missing is a directory; no symlink is at any of its
names, except at the last one if that is kept; its first missing name is
missing; and the path that it has as the container sees it is resolved to
the same result again. -/
theorem resolve_canonical (rootfs : Rootfs) (tree files : FileTree)
    (hroot : tree.stat rootfs.path = .ok files) (hdir : files.isDir = true) :
    ∃ top, tree.openDir rootfs.path = .ok top
      ∧ (∀ target r, rootfs.resolve tree target = .ok r →
          Canonical rootfs tree top true r ∧ rootfs.resolve tree r.containerPath = .ok r)
      ∧ ∀ target r, rootfs.resolveParent tree target = .ok r →
          Canonical rootfs tree top false r
            ∧ rootfs.resolveParent tree r.containerPath = .ok r := by
  obtain ⟨top, hopen, -⟩ := exists_openDir hroot hdir
  exact ⟨top, hopen, fun _ _ h => resolveWith_canonical hopen h,
    fun _ _ h => resolveWith_canonical hopen h⟩

/-- A root with a directory `d` in it and a link `l`, whose text goes into the
missing directory `m`, back out and into `d`. -/
def backOutTree : FileTree :=
  Sample.files [([0x64], .dir 0o755 []), ([0x6C], .symlink (Path.ofString "m/../d/x"))] []

/-- `/d/x`, of which `d` exists. -/
def backOutTarget : ResolvedPath := ⟨Sample.root, [[0x64], [0x78]], some 1⟩

/-- The link is resolved to a name that is missing from `d`, and so is the path
of that name. -/
theorem resolve_canonical_backOut :
    (∃ files, backOutTree.stat Sample.root.path = .ok files ∧ files.isDir = true)
      ∧ Sample.root.resolve backOutTree ⟨[slash, 0x6C]⟩ = .ok backOutTarget
      ∧ Canonical Sample.root backOutTree [[0x72]] true backOutTarget
      ∧ Sample.root.resolve backOutTree backOutTarget.containerPath = .ok backOutTarget := by
  have hlink : Sample.root.resolve backOutTree ⟨[slash, 0x6C]⟩ = .ok backOutTarget := by
    decide +kernel
  have hopen : backOutTree.openDir Sample.root.path = .ok [[0x72]] := Sample.openDir_root _ _
  obtain ⟨top, htop, hresolve, -⟩ := resolve_canonical Sample.root backOutTree _ rfl rfl
  obtain rfl : [[0x72]] = top := Except.ok.inj (hopen.symm.trans htop)
  exact ⟨⟨_, rfl, rfl⟩, hlink, hresolve _ _ hlink⟩

end ContainerMounts.Rootfs
