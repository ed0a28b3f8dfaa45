/-
ContainerMounts.Proofs.SampleHost — a small host that general statements are
seen on.

The container's root is `/r`. What it holds, and what the host holds beside it,
is left to each use: `/r` is its own real path and opens as the directory it
is, whatever else there is (`openDir_root`, `isRealDir_root`).

Three sets of files are used by several modules: a symlink in the root
(`linked`), a directory to bind from (`sourced`), and the host's control groups
(`groups`).
-/
import ContainerMounts.Executor
import ContainerMounts.Proofs.OpenedDirectory

namespace ContainerMounts.Sample

open FileTree (IsBare wellNamed_dir)

/-- The container's root `/r`. -/
def root : Rootfs := ⟨⟨[slash, 0x72]⟩⟩

/-- What acts below that root, for a process in the host's namespaces. -/
def executor : Executor := { rootfs := root, namespaces := {} }

/-! ## Hosts -/

/-- A host that grants every call, without a mount. -/
def host : Host := .granting {} (.ok [])

/-- A host that refuses the first call of this kind. -/
def refusing (kind : CallKind) (e : Errno) : Host := { host with refusals := [⟨kind, 0, e⟩] }

/-- A host with its control groups at `/g`, which lists first what was added
last. -/
def groupHost : Host :=
  { Host.granting { cgroupRoot := ⟨[slash, 0x67]⟩ } (.ok []) with
    listing := ⟨List.reverse, List.reverse_perm⟩ }

/-- A table that presents the id 0 as itself. -/
def rootOnly : IdMapping := ⟨[⟨0, 0, 1⟩]⟩

/-! ## Files -/

section Files

variable (inside beside : List (Name × Node))

/-- The root with these files in it, and these beside it. -/
def files : FileTree := .dir 0o755 (([0x72], .dir 0o755 inside) :: beside)

theorem stat_root : (files inside beside).stat root.path = .ok (.dir 0o755 inside) := rfl

theorem openDir_root : (files inside beside).openDir root.path = .ok [[0x72]] := rfl

theorem isRealDir_root : (files inside beside).IsRealDir root.path :=
  ⟨⟨root.path, rfl⟩, 0o755, inside, stat_root inside beside⟩

variable {inside beside}

theorem wellNamed_files (hinside : ∀ e ∈ inside, PlainName e.1 ∧ FileTree.WellNamed e.2)
    (hbeside : ∀ e ∈ beside, PlainName e.1 ∧ FileTree.WellNamed e.2) :
    (files inside beside).WellNamed := by
  have hroot : PlainName [0x72] := by decide
  exact wellNamed_dir (List.forall_mem_cons.2 ⟨⟨hroot, wellNamed_dir hinside⟩, hbeside⟩)

end Files

/-- The root with a symlink `l` in it, to the text. -/
def linked (text : Path) : FileTree := files [([0x6C], .symlink text)] []

theorem wellNamed_linked (text : Path) : (linked text).WellNamed := by
  have hname : PlainName [0x6C] := by decide
  have hlink : IsBare (.symlink text) := fun _ => rfl
  exact wellNamed_files (List.forall_mem_singleton.2 ⟨hname, hlink.wellNamed⟩)
    (List.forall_mem_nil _)

/-- An empty root, and a directory `/s` beside it. -/
def sourced : FileTree := files [] [([0x73], .dir 0o755 [])]

/-- Two controllers `c` and `n`, a link `l` to the second, and a file `f`. -/
def controllers : List (Name × Node) :=
  [([0x63], .dir 0o755 []), ([0x6C], .symlink ⟨[0x6E]⟩), ([0x66], .file 0o644 []),
    ([0x6E], .dir 0o755 [])]

/-- An empty root, and a directory `/g` with the controllers. -/
def groups : FileTree := files [] [([0x67], .dir 0o755 controllers)]

theorem wellNamed_controllers : ∀ e ∈ controllers, PlainName e.1 ∧ FileTree.WellNamed e.2 := by
  have hdir : FileTree.WellNamed (.dir 0o755 []) := wellNamed_dir (List.forall_mem_nil _)
  have hlink : IsBare (.symlink ⟨[0x6E]⟩) := fun _ => rfl
  have hfile : IsBare (.file 0o644 []) := fun _ => rfl
  simp only [controllers, List.forall_mem_cons]
  exact ⟨⟨by decide, hdir⟩, ⟨by decide, hlink.wellNamed⟩, ⟨by decide, hfile.wellNamed⟩,
    ⟨by decide, hdir⟩, List.forall_mem_nil _⟩

theorem wellNamed_groups : groups.WellNamed :=
  wellNamed_files (List.forall_mem_nil _)
    (List.forall_mem_singleton.2 ⟨by decide, wellNamed_dir wellNamed_controllers⟩)

end ContainerMounts.Sample
