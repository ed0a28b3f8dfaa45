/-
ContainerMounts.Proofs.MaterializedLinks — a destination becomes a symlink.

A bind of a symlink may be asked for as the link itself. Then the parents of
the destination are prepared, a link with the text of the source is made
there, and nothing is mounted, whatever the options are. `Links` lists the
ways in which that ends.

If something is at the destination already, it is accepted where it is a link
that is equal as a path, which compares components (`Path.same`). A link with
another text of the same components is kept as it is (`apply_keeps_link`).
That can only be if no parent was missing: where one was made, there is
nothing at the destination yet (`prepare_leaves_free`).

Main statement: `apply_links`.
-/
import ContainerMounts.Executor
import ContainerMounts.Proofs.CreatedFiles
import ContainerMounts.Proofs.SampleHost

namespace ContainerMounts

open FileTree

/-! ## Where the link is to stand -/

namespace Rootfs

variable {rootfs : Rootfs} {host : Host} {m : Machine} {target path : Path} {name : Name}

theorem ensureDir_leaves_free (hname : PlainName name) (hfree : m.tree.Free path name) :
    Contract .silent host m (ensureDir (path.join ⟨name⟩))
      fun _ m' => ∀ next, m'.tree.Free (path.join ⟨name⟩) next := by
  refine ⟨ensureDir_silent.kept, fun _ hok => ?_⟩
  rw [ensureDir_result hname hfree] at hok ⊢
  cases hmake : m.tree.makeDir (path.join ⟨name⟩) 0o755 with
  | ok tree => exact (makeDir_adds hmake).2
  | error fault => simp [hmake] at hok

theorem makeNames_leaves_free {first : Name} {rest : List Name}
    (hplain : ∀ n ∈ first :: rest, PlainName n) (hfree : m.tree.Free path first) :
    Contract .silent host m (makeNames .parentOnly path (first :: rest))
      fun _ m' => ∃ init last, first :: rest = init ++ [last]
        ∧ m'.tree.Free (path.joinNames init) last := by
  induction rest generalizing m path first with
  | nil => exact .pure ⟨[], first, rfl, hfree⟩
  | cons second rest ih =>
      have hrest : ∀ n ∈ second :: rest, PlainName n := fun n hn => hplain n (by simp [hn])
      have hmore : second :: rest = [] → False := by simp
      rw [makeNames.eq_3 _ _ _ _ hmore]
      apply Contract.andThen (ensureDir_leaves_free (hplain first (by simp)) hfree)
      intro _ m₁ _ hempty
      refine (ih hrest (hempty second)).mono fun _ m₂ _ hlast => ?_
      obtain ⟨init, last, hnames, hlastfree⟩ := hlast
      exact ⟨first :: init, last, by rw [hnames, List.cons_append], hlastfree⟩

/-- Where a name was missing, nothing is at the target once its parents are
there. -/
theorem prepare_leaves_free :
    Contract .silent host m (rootfs.prepare target .parentOnly) fun r m' => r.exists? = false →
      ∃ q last, r.hostPath = q.join ⟨last⟩ ∧ PlainName last ∧ m'.tree.Free q last := by
  refine prepare_new fun above name below _ hplain hfree => ?_
  refine (makeNames_leaves_free hplain hfree).mono fun _ m' _ hlast => ?_
  obtain ⟨init, last, hnames, hfree⟩ := hlast
  have hpath : rootfs.hostPath (above ++ name :: below)
      = ((rootfs.hostPath above).joinNames init).join ⟨last⟩ := by
    rw [hnames, hostPath, Path.joinNames_append, Path.joinNames_concat, hostPath]
  exact ⟨_, last, hpath, hplain last (by simp [hnames]), hfree⟩

/-- If something is in the way of the link, it was there before, and so were all
parents. -/
theorem prepare_occupied {m' : Machine} {r : ResolvedPath} {text : Path}
    (h : (rootfs.prepare target .parentOnly).result host m = (.ok r, m'))
    (hlink : m'.tree.makeLink text r.hostPath = .error (.os .alreadyExists)) : m' = m := by
  have hfree : Contract .silent host m (rootfs.prepare target .parentOnly) _ := prepare_leaves_free
  have hnew := hfree.returns r
  rw [h] at hnew
  cases hall : r.exists? with
  | true => exact (Prod.mk.inj (h.symm.trans (prepare_existing (prepare_ok h).1 hall))).2
  | false =>
      obtain ⟨q, last, hpath, hlast, hnothing⟩ := hnew rfl hall
      rw [hpath] at hlink
      exact absurd hlink (makeLink_ne_alreadyExists hlast hnothing)

end Rootfs

/-! ## The link -/

theorem FileTree.Adds.lstat_symlink {before after : FileTree} {made : List (Path × Stat)}
    {path text : Path} (h : before.Adds after made) (hmem : (path, .symlink text) ∈ made) :
    after.lstat path = .ok (.symlink text) := by
  obtain ⟨place, hfind, -, hstat⟩ := h.new path _ hmem
  obtain ⟨node, hat, hnode⟩ := Option.map_eq_some_iff.1 hstat
  cases node with
  | symlink stored =>
      obtain rfl : stored = text := by simpa [Node.stat] using hnode
      exact findNode_eq_ok.2 ⟨place, hfind, hat⟩
  | _ => simp [Node.stat] at hnode

/-- How an operation ends that is to leave a symlink with this text at the
target. The machine is left as it is but for the files. -/
inductive Links (m : Machine) (text : Path) (r : ResolvedPath) :
    Except Error Outcome × Machine → Prop where
  /-- The link was made, and its parents as far as they were missing. -/
  | made {tree : FileTree}
      (adds : m.tree.Adds tree (r.toMake .parentOnly ++ [(r.hostPath, .symlink text)]))
      (stored : tree.lstat r.hostPath = .ok (.symlink text)) :
      Links m text r (.ok .symlinked, { m with tree })
  /-- A link that is equal as a path was there, and nothing was done. -/
  | kept {stored : Path} (there : m.tree.lstat r.hostPath = .ok (.symlink stored))
      (same : stored.same text = true) : Links m text r (.ok .symlinked, m)
  /-- The kernel refused one of the parents, after those before it were made. -/
  | refused {tree : FileTree} {parents : List (Path × Stat)} {next : Path × Stat} {fault : Fault}
      (first : parents ++ [next] <+: r.toMake .parentOnly) (adds : m.tree.Adds tree parents)
      (refusal : tree.Refuses fault next) : Links m text r (.error (.io fault), { m with tree })
  /-- The kernel refused the link itself, and not for an equal one. -/
  | blocked {tree : FileTree} {fault : Fault} (adds : m.tree.Adds tree (r.toMake .parentOnly))
      (refusal : tree.makeLink text r.hostPath = .error fault)
      (other : fault = .os .alreadyExists → ∀ stored,
        tree.lstat r.hostPath = .ok (.symlink stored) → stored.same text = false) :
      Links m text r (.error (.mount "symlink" r.hostPath fault), { m with tree })

namespace Executor

variable {ex : Executor} {host : Host} {m : Machine} {target text : Path} {r : ResolvedPath}

theorem sameLink_iff {tree : FileTree} {dest : Path} :
    sameLink tree dest text = true
      ↔ ∃ stored, tree.lstat dest = .ok (.symlink stored) ∧ stored.same text = true := by
  unfold sameLink readLink
  cases hstat : tree.lstat dest with
  | error fault => simp [bind, Except.bind]
  | ok node => cases node <;> simp [bind, Except.bind]

theorem materializeSymlink_links (h : ex.rootfs.resolveParent m.tree target = .ok r) :
    Links m text r ((ex.materializeSymlink target text).result host m) := by
  have hmakes : Creates m (r.toMake .parentOnly) r
      ((ex.rootfs.prepare target .parentOnly).result host m) := Rootfs.prepare_makes h
  unfold materializeSymlink
  rw [Run.result_bind]
  generalize hprepare : (ex.rootfs.prepare target .parentOnly).result host m = out at hmakes
  cases hmakes with
  | refused hfirst hadds hrefusal => exact .refused hfirst hadds hrefusal
  | @all tree hadds =>
      dsimp only
      rw [Run.result_bind, Run.result_change?]
      cases hlink : tree.makeLink text r.hostPath with
      | ok linked =>
          have hall := hadds.append (makeLink_adds hlink)
          exact .made hall (hall.lstat_symlink (by simp))
      | error fault =>
          dsimp only
          rw [Run.result_bind, Run.result_tree]
          dsimp only
          split_ifs with hsame
          · obtain ⟨rfl, hsame⟩ := hsame
            obtain ⟨stored, hstat, hpath⟩ := sameLink_iff.1 hsame
            have hstill : { m with tree } = m := Rootfs.prepare_occupied hprepare hlink
            obtain rfl : tree = m.tree := congrArg Machine.tree hstill
            exact .kept hstat hpath
          · rw [Run.result_throw]
            refine .blocked hadds hlink fun hfault stored hstat => ?_
            by_contra hpath
            exact hsame ⟨hfault, sameLink_iff.2 ⟨stored, hstat, by simpa using hpath⟩⟩

/-- **A destination becomes a symlink.** Let an operation be a declared mount
whose source is a symlink of the host with this text. If the parents of its
target cannot be resolved, it fails with that error and the machine stays as
it was. Otherwise it ends as `Links` says, whatever its options and its tables
of owners ask for: the files that were there are as they were, nothing is made
but missing parents and the link with exactly this text, and no call is made
that mounts anything. -/
theorem apply_links (ex : Executor) (host : Host) (m : Machine) {op : MountOp} {text : Path}
    (hoverlay : op.overlay = none) (hsource : op.source = .symlink text) :
    match ex.rootfs.resolveParent m.tree op.target with
    | .error e => (ex.apply op).result host m = (.error e, m)
    | .ok r => Links m text r ((ex.apply op).result host m) := by
  have hrun : ex.apply op = ex.materializeSymlink op.target text := by
    rw [apply, hoverlay]
    simp only [applyMount, hsource]
  rw [hrun]
  cases hresolve : ex.rootfs.resolveParent m.tree op.target with
  | ok r => exact materializeSymlink_links hresolve
  | error e =>
      have hprepare : (ex.rootfs.prepare op.target .parentOnly).result host m = (.error e, m) := by
        have hparent : ex.rootfs.resolveWith m.tree op.target
            (decide (Placeholder.parentOnly ≠ .parentOnly)) = .error e := hresolve
        rw [Rootfs.prepare_result, hparent]
      rw [materializeSymlink, Run.result_bind, hprepare]

/-- What is to be a symlink with this text. The options ask for more than
that. -/
def linkOp (target : String) (text : Path) : MountOp :=
  { request := { destination := target, kind := .bind }, target := Path.ofString target,
    source := .symlink text,
    options := { access := .recursiveReadOnly, idmap := .ridmap,
                 propagation := some ⟨.shared, true⟩ },
    depth := 1, phase := .mount }

/-- That operation, carried out on these files. -/
def linkRun (tree : FileTree) (target : String) (text : Path) : Except Error Outcome × Machine :=
  (Sample.executor.apply (linkOp target text)).result Sample.host { tree }

/-- A link behind a missing parent, in an empty root. -/
theorem apply_links_new :
    let op := linkOp "/d/l" (Path.ofString "a//b")
    let tree := Sample.files [] []
    let run := linkRun tree "/d/l" (Path.ofString "a//b")
    op.overlay = none ∧ op.source = .symlink (Path.ofString "a//b") ∧ run.1 = .ok .symlinked
      ∧ Links { tree } (Path.ofString "a//b") ⟨Sample.root, [[0x64], [0x6C]], some 0⟩ run
      ∧ run.2.tree.readLink (Path.ofString "/r/d/l") = .ok (Path.ofString "a//b") := by
  intro op tree run
  have hparent : Sample.executor.rootfs.resolveParent tree op.target
      = .ok ⟨Sample.root, [[0x64], [0x6C]], some 0⟩ := by decide +kernel
  have hoverlay : op.overlay = none := rfl
  have hsource : op.source = .symlink (Path.ofString "a//b") := rfl
  have hlinks := apply_links Sample.executor Sample.host { tree } hoverlay hsource
  rw [hparent] at hlinks
  refine ⟨hoverlay, hsource, ?_, hlinks, ?_⟩ <;> decide +kernel

/-- **A link with another text is kept.** The link has the text `a//b`, and it is to
have the text `a/b`, which is the same path. So the operation succeeds, and the
link has the text it had. -/
theorem apply_keeps_link :
    let run := linkRun (Sample.linked (Path.ofString "a//b")) "/l" (Path.ofString "a/b")
    run.1 = .ok .symlinked
      ∧ run.2.tree.readLink (Path.ofString "/r/l") = .ok (Path.ofString "a//b")
      ∧ Path.ofString "a//b" ≠ Path.ofString "a/b" := by
  intro run
  refine ⟨?_, ?_, ?_⟩ <;> decide +kernel

end Executor

end ContainerMounts
