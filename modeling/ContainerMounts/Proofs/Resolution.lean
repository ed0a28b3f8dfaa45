/-
ContainerMounts.Proofs.Resolution — where a resolution below a root ends.

The walk of `Rootfs.resolveWith` keeps names and the number of those that
exist, and asks the kernel about one name at a time. The invariant is
`Stands`: either all names exist and lead to a directory through
directories, or the first missing name is known and what lies above it is
such a directory. Every move keeps it, a link that is followed included,
since the walk goes on from the root or from the directory of the link.
`Comes` lists what a walk comes by, move after move, and a walk that
succeeds ends at one of these (`walk_arrives`); so what every move keeps is
known of the walk at its end (`WalkInvariant`).

`resolveWith_ends` is what a resolution that succeeds knows; the names
are plain (`Ends.plain`), and no symlink is left in them
(`Ends.not_symlink`).
-/
import ContainerMounts.Proofs.OpenedDirectory
import ContainerMounts.Resolver

namespace ContainerMounts.Rootfs

open FileTree

/-- Where a walk can stand on its way. -/
inductive Stands (tree : FileTree) (top : List Name) : Walked → Prop where
  /-- In a directory. -/
  | inside {names : List Name} (h : tree.Passable top names) : Stands tree top (names, none)
  /-- Behind a name that is missing from a directory. -/
  | behind {above below : List Name} {name : Name} (h : tree.Passable top above)
      (fit : FitName name) (free : tree.at? (top ++ above ++ [name]) = none)
      (plain : ∀ n ∈ below, PlainName n) :
      Stands tree top (above ++ name :: below, some above.length)

/-- Where a walk can end. -/
inductive Ends (tree : FileTree) (top : List Name) (followLast : Bool) : Walked → Prop where
  | stands {walked : Walked} (h : Stands tree top walked) : Ends tree top followLast walked
  /-- At a file, which is no symlink if the last name was to be followed. -/
  | leaf {names : List Name} {name : Name} {node : Node} (h : tree.Passable top names)
      (fit : FitName name) (found : tree.at? (top ++ names ++ [name]) = some node)
      (kind : followLast = true → node.isSymlink = false) :
      Ends tree top followLast (names ++ [name], none)

variable {rootfs : Rootfs} {tree : FileTree} {target : Path} {followLast : Bool}
  {jump : List Name → List Step → Except Error Walked} {top names : List Name}
  {walked w : Walked} {rest steps : List Step}

/-! ## One move -/

theorem Stands.up (h : Stands tree top walked) :
    Stands tree top (walked.1.dropLast, stillMissing walked.2 walked.1.dropLast) := by
  cases h with
  | inside h => exact .inside h.dropLast
  | @behind above below name h fit free plain =>
      rcases List.eq_nil_or_concat below with rfl | ⟨init, last, rfl⟩
      · have hdrop : (above ++ [name]).dropLast = above := List.dropLast_concat
        have hback : stillMissing (some above.length) above = none := by
          simp [stillMissing, Option.filter]
        simp only [hdrop, hback]
        exact .inside h
      · have hdrop : (above ++ name :: init.concat last).dropLast = above ++ name :: init := by
          rw [List.concat_eq_append, ← List.cons_append, ← List.append_assoc,
            List.dropLast_concat]
        have hkept : stillMissing (some above.length) (above ++ name :: init)
            = some above.length := by
          simp [stillMissing, Option.filter]
        simp only [hdrop, hkept]
        exact .behind h fit free fun n hn => plain n (by simp [hn])

theorem Stands.down_behind {i : Nat} {name : Name} (h : Stands tree top (names, some i))
    (hname : PlainName name) : Stands tree top (names ++ [name], some i) := by
  cases h with
  | @behind above below missing h fit free plain =>
      rw [List.append_assoc, List.cons_append]
      refine .behind h fit free ?_
      exact List.forall_mem_append.2 ⟨plain, List.forall_mem_singleton.2 hname⟩

theorem Stands.inside_of_none (h : Stands tree top (names, none)) : tree.Passable top names := by
  cases h with
  | inside h => exact h

/-- Nothing is at names with a missing one among them. -/
theorem Stands.at?_missing {i : Nat} (h : Stands tree top (names, some i)) :
    tree.at? (top ++ names) = none := by
  cases h with
  | @behind above below name h fit free plain =>
      have hsplit : top ++ (above ++ name :: below) = (top ++ above ++ [name]) ++ below := by simp
      rw [hsplit, Node.at?_append, free]
      rfl

theorem walkVia_up (hne : names ≠ []) {missing : Option Nat} :
    rootfs.walkVia tree target followLast jump (names, missing) (.up :: rest)
      = rootfs.walkVia tree target followLast jump
          (names.dropLast, stillMissing missing names.dropLast) rest := by
  rw [walkVia, if_neg hne]

theorem walkVia_down_missing {name : Name}
    (hstat : tree.lstat ((rootfs.hostPath names).join ⟨name⟩) = .error (.os .noEntry)) :
    rootfs.walkVia tree target followLast jump (names, none) (.down name :: rest)
      = rootfs.walkVia tree target followLast jump
          (names ++ [name], some names.length) rest := by
  rw [walkVia, hstat]
  simp

theorem walkVia_down_symlink {name : Name} {text : Path}
    (hstat : tree.lstat ((rootfs.hostPath names).join ⟨name⟩) = .ok (.symlink text)) :
    rootfs.walkVia tree target followLast jump (names, none) (.down name :: rest)
      = if followLast || !rest.isEmpty then
          jump (if text.isAbsolute then [] else names) (text.steps ++ rest)
        else rootfs.walkVia tree target followLast jump (names ++ [name], none) rest := by
  rw [walkVia, hstat]

theorem walkVia_down_plain {name : Name} {node : Node}
    (hstat : tree.lstat ((rootfs.hostPath names).join ⟨name⟩) = .ok node)
    (hnode : node.isSymlink = false) :
    rootfs.walkVia tree target followLast jump (names, none) (.down name :: rest)
      = if rest.isEmpty || node.isDir then
          rootfs.walkVia tree target followLast jump (names ++ [name], none) rest
        else .error (.ofErrno .notDirectory) := by
  rw [walkVia, hstat]
  cases node with
  | symlink text => simp [Node.isSymlink] at hnode
  | _ => rfl

theorem walkVia_down_fault {name : Name} {fault : Fault}
    (hstat : tree.lstat ((rootfs.hostPath names).join ⟨name⟩) = .error fault)
    (hfault : fault ≠ .os .noEntry) :
    rootfs.walkVia tree target followLast jump (names, none) (.down name :: rest)
      = .error (.io fault) := by
  rw [walkVia, hstat]
  simp [hfault]

/-! ## What a walk that got to its end did first -/

theorem walkVia_up_ok {missing : Option Nat}
    (h : rootfs.walkVia tree target followLast jump (names, missing) (.up :: rest) = .ok w) :
    names ≠ [] ∧ rootfs.walkVia tree target followLast jump
      (names.dropLast, stillMissing missing names.dropLast) rest = .ok w := by
  unfold walkVia at h
  split at h
  · simp at h
  · rename_i hne
    exact ⟨hne, h⟩

theorem walkVia_error_ok {name : Name} {fault : Fault}
    (hstat : tree.lstat ((rootfs.hostPath names).join ⟨name⟩) = .error fault)
    (h : rootfs.walkVia tree target followLast jump (names, none) (.down name :: rest) = .ok w) :
    fault = .os .noEntry
      ∧ rootfs.walkVia tree target followLast jump (names ++ [name], some names.length) rest
        = .ok w := by
  by_cases hfault : fault = .os .noEntry
  · subst hfault
    rw [walkVia_down_missing hstat] at h
    exact ⟨rfl, h⟩
  · rw [walkVia_down_fault hstat hfault] at h
    simp at h

theorem walkVia_symlink_ok {name : Name} {text : Path}
    (hstat : tree.lstat ((rootfs.hostPath names).join ⟨name⟩) = .ok (.symlink text))
    (h : rootfs.walkVia tree target followLast jump (names, none) (.down name :: rest) = .ok w) :
    ((followLast = true ∨ rest ≠ [])
        ∧ jump (if text.isAbsolute then [] else names) (text.steps ++ rest) = .ok w)
      ∨ (followLast = false ∧ rest = [] ∧ w = (names ++ [name], none)) := by
  rw [walkVia_down_symlink hstat] at h
  split at h
  · rename_i hfollow
    exact .inl ⟨by simpa using hfollow, h⟩
  · rename_i hlast
    obtain ⟨rfl, hempty⟩ : followLast = false ∧ rest.isEmpty = true := by simpa using hlast
    obtain rfl := List.isEmpty_iff.1 hempty
    rw [walkVia] at h
    exact .inr ⟨rfl, rfl, (Except.ok.inj h).symm⟩

theorem walkVia_plain_ok {name : Name} {node : Node}
    (hstat : tree.lstat ((rootfs.hostPath names).join ⟨name⟩) = .ok node)
    (hnode : node.isSymlink = false)
    (h : rootfs.walkVia tree target followLast jump (names, none) (.down name :: rest) = .ok w) :
    (node.isDir = true
        ∧ rootfs.walkVia tree target followLast jump (names ++ [name], none) rest = .ok w)
      ∨ (rest = [] ∧ w = (names ++ [name], none)) := by
  rw [walkVia_down_plain hstat hnode] at h
  cases hdir : node.isDir with
  | true =>
      rw [hdir, Bool.or_true, if_pos rfl] at h
      exact .inl ⟨rfl, h⟩
  | false =>
      rw [hdir, Bool.or_false] at h
      split at h
      · rename_i hempty
        obtain rfl := List.isEmpty_iff.1 hempty
        rw [walkVia] at h
        exact .inr ⟨rfl, (Except.ok.inj h).symm⟩
      · simp at h

theorem resolveWith_eq_ok {r : ResolvedPath}
    (h : rootfs.resolveWith tree target followLast = .ok r) :
    r.rootfs = rootfs
      ∧ rootfs.walk tree target followLast maxLinks [] target.steps
        = .ok (r.names, r.firstMissing) := by
  unfold resolveWith at h
  cases hwalk : rootfs.walk tree target followLast maxLinks [] target.steps with
  | error e => simp [hwalk, bind, Except.bind] at h
  | ok w =>
      obtain rfl : ⟨rootfs, w.1, w.2⟩ = r := by
        simpa [hwalk, bind, Except.bind, pure, Except.pure] using h
      exact ⟨rfl, rfl⟩

/-! ## Whole walks -/

/-- The names that the walk of the target comes by, with the moves that are left
there. -/
inductive Comes (rootfs : Rootfs) (tree : FileTree) (target : Path) (followLast : Bool) :
    Walked → List Step → Prop where
  | root : Comes rootfs tree target followLast ([], none) target.steps
  | up {names : List Name} {missing : Option Nat} {rest : List Step}
      (h : Comes rootfs tree target followLast (names, missing) (.up :: rest)) (inside : names ≠ []) :
      Comes rootfs tree target followLast
        (names.dropLast, stillMissing missing names.dropLast) rest
  /-- To a name behind a missing one. -/
  | behind {names : List Name} {i : Nat} {name : Name} {rest : List Step}
      (h : Comes rootfs tree target followLast (names, some i) (.down name :: rest)) :
      Comes rootfs tree target followLast (names ++ [name], some i) rest
  | absent {names : List Name} {name : Name} {rest : List Step}
      (h : Comes rootfs tree target followLast (names, none) (.down name :: rest))
      (stat : tree.lstat ((rootfs.hostPath names).join ⟨name⟩) = .error (.os .noEntry)) :
      Comes rootfs tree target followLast (names ++ [name], some names.length) rest
  | link {names : List Name} {name : Name} {text : Path} {rest : List Step}
      (h : Comes rootfs tree target followLast (names, none) (.down name :: rest))
      (stat : tree.lstat ((rootfs.hostPath names).join ⟨name⟩) = .ok (.symlink text))
      (followed : followLast = true ∨ rest ≠ []) :
      Comes rootfs tree target followLast (if text.isAbsolute then [] else names, none)
        (text.steps ++ rest)
  | dir {names : List Name} {name : Name} {node : Node} {rest : List Step}
      (h : Comes rootfs tree target followLast (names, none) (.down name :: rest))
      (stat : tree.lstat ((rootfs.hostPath names).join ⟨name⟩) = .ok node)
      (kind : node.isDir = true) : Comes rootfs tree target followLast (names ++ [name], none) rest

/-- The names at which the walk of the target ends. -/
inductive Arrives (rootfs : Rootfs) (tree : FileTree) (target : Path) (followLast : Bool) :
    Walked → Prop where
  | stop {walked : Walked} (h : Comes rootfs tree target followLast walked []) :
      Arrives rootfs tree target followLast walked
  /-- At a file in the last place. -/
  | leaf {names : List Name} {name : Name} {node : Node}
      (h : Comes rootfs tree target followLast (names, none) [.down name])
      (stat : tree.lstat ((rootfs.hostPath names).join ⟨name⟩) = .ok node)
      (kind : followLast = true → node.isSymlink = false) :
      Arrives rootfs tree target followLast (names ++ [name], none)

theorem Comes.plain (h : Comes rootfs tree target followLast walked steps) :
    ∀ n, .down n ∈ steps → PlainName n := by
  induction h with
  | root => exact fun n => Step.plain_of_mem_steps
  | link h stat followed ih =>
      intro n hn
      rcases List.mem_append.1 hn with hn | hn
      · exact Step.plain_of_mem_steps hn
      · exact ih n (by simp [hn])
  | _ =>
      rename_i ih
      exact fun n hn => ih n (by simp [hn])

/-- A walk that ends with a name missing has no moves left. -/
theorem Arrives.comes {i : Nat} (h : Arrives rootfs tree target followLast (names, some i)) :
    Comes rootfs tree target followLast (names, some i) [] := by
  cases h with
  | stop h => exact h

theorem walkVia_arrives
    (hjump : ∀ names steps, Comes rootfs tree target followLast (names, none) steps →
      jump names steps = .ok w → Arrives rootfs tree target followLast w)
    (hcomes : Comes rootfs tree target followLast walked steps)
    (h : rootfs.walkVia tree target followLast jump walked steps = .ok w) :
    Arrives rootfs tree target followLast w := by
  induction steps generalizing walked with
  | nil =>
      obtain rfl : walked = w := by simpa [walkVia] using h
      exact .stop hcomes
  | cons step rest ih =>
      obtain ⟨names, missing⟩ := walked
      cases step with
      | up =>
          obtain ⟨hne, hgo⟩ := walkVia_up_ok h
          exact ih (hcomes.up hne) hgo
      | down name =>
          cases missing with
          | some i =>
              rw [walkVia] at h
              exact ih hcomes.behind h
          | none =>
              cases hstat : tree.lstat ((rootfs.hostPath names).join ⟨name⟩) with
              | error fault =>
                  obtain ⟨rfl, hgo⟩ := walkVia_error_ok hstat h
                  exact ih (hcomes.absent hstat) hgo
              | ok node =>
                  cases hnode : node.isSymlink with
                  | true =>
                      obtain ⟨text, rfl⟩ := Node.eq_symlink_of_isSymlink hnode
                      obtain ⟨hfollow, hjumped⟩ | ⟨rfl, rfl, rfl⟩ := walkVia_symlink_ok hstat h
                      · exact hjump _ _ (hcomes.link hstat hfollow) hjumped
                      · exact .leaf hcomes hstat (by simp)
                  | false =>
                      obtain ⟨hdir, hgo⟩ | ⟨rfl, rfl⟩ := walkVia_plain_ok hstat hnode h
                      · exact ih (hcomes.dir hstat hdir) hgo
                      · exact .leaf hcomes hstat fun _ => hnode

theorem walk_arrives {links : Nat}
    (hcomes : Comes rootfs tree target followLast (names, none) steps)
    (h : rootfs.walk tree target followLast links names steps = .ok w) :
    Arrives rootfs tree target followLast w := by
  induction links generalizing names steps with
  | zero => exact walkVia_arrives (fun _ _ _ hj => by simp at hj) hcomes h
  | succ links ih => exact walkVia_arrives (fun _ _ hn hj => ih hn hj) hcomes h

/-- What holds wherever a walk stands, and what holds where it ends: it holds at
the root, and every move keeps it. -/
structure WalkInvariant (rootfs : Rootfs) (tree : FileTree) (followLast : Bool)
    (stands ends : Walked → Prop) : Prop where
  root : stands ([], none)
  stop {walked : Walked} : stands walked → ends walked
  up {names : List Name} {missing : Option Nat} : stands (names, missing) →
    stands (names.dropLast, stillMissing missing names.dropLast)
  /-- A name behind a missing one. -/
  behind {names : List Name} {i : Nat} {name : Name} : stands (names, some i) → PlainName name →
    stands (names ++ [name], some i)
  absent {names : List Name} {name : Name} : stands (names, none) → PlainName name →
    tree.lstat ((rootfs.hostPath names).join ⟨name⟩) = .error (.os .noEntry) →
    stands (names ++ [name], some names.length)
  dir {names : List Name} {name : Name} {node : Node} : stands (names, none) → PlainName name →
    tree.lstat ((rootfs.hostPath names).join ⟨name⟩) = .ok node → node.isDir = true →
    stands (names ++ [name], none)
  /-- A file in the last place. -/
  leaf {names : List Name} {name : Name} {node : Node} : stands (names, none) → PlainName name →
    tree.lstat ((rootfs.hostPath names).join ⟨name⟩) = .ok node →
    (followLast = true → node.isSymlink = false) → ends (names ++ [name], none)

namespace WalkInvariant

variable {stands ends : Walked → Prop} (inv : WalkInvariant rootfs tree followLast stands ends)

include inv

theorem comes (h : Comes rootfs tree target followLast walked steps) : stands walked := by
  induction h with
  | root => exact inv.root
  | up h inside ih => exact inv.up ih
  | behind h ih => exact inv.behind ih (h.plain _ (by simp))
  | absent h stat ih => exact inv.absent ih (h.plain _ (by simp)) stat
  | link h stat followed ih =>
      split
      · exact inv.root
      · exact ih
  | dir h stat kind ih => exact inv.dir ih (h.plain _ (by simp)) stat kind

theorem arrives (h : Arrives rootfs tree target followLast walked) : ends walked := by
  cases h with
  | stop h => exact inv.stop (inv.comes h)
  | leaf h stat kind => exact inv.leaf (inv.comes h) (h.plain _ (by simp)) stat kind

/-- A resolution starts at the root and ends as the invariant says. -/
theorem resolveWith {r : ResolvedPath} (h : rootfs.resolveWith tree target followLast = .ok r) :
    r.rootfs = rootfs ∧ ends (r.names, r.firstMissing) := by
  obtain ⟨hroot, hwalk⟩ := resolveWith_eq_ok h
  exact ⟨hroot, inv.arrives (walk_arrives .root hwalk)⟩

end WalkInvariant

theorem walkInvariant_stands (hlead : tree.Leads rootfs.path top) :
    WalkInvariant rootfs tree followLast (Stands tree top) (Ends tree top followLast) where
  root := .inside (.nil hlead.isDir)
  stop h := .stands h
  up h := h.up
  behind h hname := h.down_behind hname
  absent h hname hstat := by
    obtain ⟨hfit, hfree⟩ := lstat_behind_noEntry hlead h.inside_of_none hname hstat
    exact .behind h.inside_of_none hfit hfree (by simp)
  dir h hname hstat hdir := by
    obtain ⟨hfit, hat⟩ := lstat_behind_ok hlead h.inside_of_none hname hstat
    obtain ⟨mode, entries, rfl⟩ := Node.eq_dir_of_isDir hdir
    exact .inside (h.inside_of_none.concat hfit ⟨mode, entries, hat⟩)
  leaf h hname hstat hkind := by
    obtain ⟨hfit, hat⟩ := lstat_behind_ok hlead h.inside_of_none hname hstat
    exact .leaf h.inside_of_none hfit hat hkind

/-- **Where a resolution ends.** It stands behind a missing name, in a
directory or at a file, always below the root. -/
theorem resolveWith_ends {r : ResolvedPath} (hlead : tree.Leads rootfs.path top)
    (h : rootfs.resolveWith tree target followLast = .ok r) :
    r.rootfs = rootfs ∧ Ends tree top followLast (r.names, r.firstMissing) :=
  (walkInvariant_stands hlead).resolveWith h

/-! ## What is known at the end -/

namespace Ends

theorem plain (h : Ends tree top followLast w) : ∀ n ∈ w.1, PlainName n := by
  cases h with
  | stands h =>
      cases h with
      | inside h => exact h.plain
      | behind h fit free plain =>
          exact List.forall_mem_append.2
            ⟨h.plain, List.forall_mem_cons.2 ⟨fit.toPlainName, plain⟩⟩
  | leaf h fit found kind =>
      exact List.forall_mem_append.2
        ⟨h.plain, List.forall_mem_singleton.2 fit.toPlainName⟩

/-- Nothing is at the names of a target that does not exist. -/
theorem at?_missing {i : Nat} (h : Ends tree top followLast (names, some i)) :
    tree.at? (top ++ names) = none := by
  cases h with
  | stands h => exact h.at?_missing

/-- A target that exists stands in a directory. -/
theorem passable_dropLast (h : Ends tree top followLast (names, none)) :
    tree.Passable top names.dropLast := by
  generalize hw : (names, none) = w at h
  cases h with
  | stands h =>
      cases h with
      | inside h =>
          obtain rfl : names = _ := (Prod.mk.inj hw).1
          exact h.dropLast
      | behind h fit free plain => simp at hw
  | @leaf init name node h fit found kind =>
      obtain rfl : names = init ++ [name] := (Prod.mk.inj hw).1
      rwa [List.dropLast_concat]

/-- What exists and was followed to its end is no symlink. -/
theorem lands (h : Ends tree top true (names, none)) : tree.Lands top names := by
  generalize hw : (names, none) = w at h
  cases h with
  | stands h =>
      cases h with
      | inside h =>
          obtain rfl : names = _ := (Prod.mk.inj hw).1
          exact h.lands
      | behind h fit free plain => simp at hw
  | @leaf init name node h fit found kind =>
      obtain rfl : names = init ++ [name] := (Prod.mk.inj hw).1
      refine ⟨⟨node, by rwa [← List.append_assoc], kind rfl⟩, ?_⟩
      exact List.forall_mem_append.2 ⟨h.fit, List.forall_mem_singleton.2 fit⟩

/-- No symlink is at any of the names of a target that was followed to its
end. -/
theorem not_symlink (h : Ends tree top true w) {init tail : List Name}
    (hw : w.1 = init ++ tail) : ¬ tree.IsSymlinkAt (top ++ init) := by
  cases h with
  | leaf h fit found kind =>
      exact (Ends.leaf h fit found kind).lands.not_symlink hw
  | stands h =>
      cases h with
      | inside h => exact h.lands.not_symlink hw
      | @behind above below name h fit free plain =>
          rcases List.append_eq_append_iff.1 hw with ⟨mid, rfl, hmid⟩ | ⟨mid, rfl, -⟩
          · cases mid with
            | nil => exact h.lands.not_symlink (by simp : above = above ++ [] ++ [])
            | cons first mid =>
                obtain rfl : name = first := (List.cons.inj hmid).1
                rintro ⟨text, ht⟩
                rw [← List.append_assoc, ← List.singleton_append, ← List.append_assoc,
                  Node.at?_append, free] at ht
                simp at ht
          · exact h.lands.not_symlink rfl

end Ends

end ContainerMounts.Rootfs
