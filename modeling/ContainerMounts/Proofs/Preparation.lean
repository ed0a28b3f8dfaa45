/-
ContainerMounts.Proofs.Preparation — mount points are made below the root.

What `Rootfs.prepare` makes is what resolution found missing, name by
name, each in the directory made before it. So a preparation that
succeeds leaves a target that lands below the root with no symlink in it
(`prepare_contract`, `Prepared.lands`), and one that stops anywhere has
added files below the root and changed none. `pin_contract` says what a
prepared target is then addressed by.
-/
import ContainerMounts.Proofs.Contract
import ContainerMounts.Proofs.Resolution

namespace ContainerMounts

open FileTree

/-- Files may be added below `top`, and calls made as `call` says. -/
def Promise.growing (top : List Name) (call : List Moment → Moment → Prop) : Promise where
  files := FileTree.Grows top
  call := call
  refl := FileTree.Grows.refl top
  trans := FileTree.Grows.trans

/-- Files may change in any way, and no call is made. -/
def Promise.silent : Promise where
  files := fun _ _ => True
  call := fun _ _ => False
  refl := fun _ => trivial
  trans := fun _ _ => trivial

theorem Promise.Kept.log_eq {m m' : Machine} (h : Promise.silent.Kept m m') : m'.log = m.log := by
  obtain ⟨new, hlog, hnew, -⟩ := h.calls
  cases hnew with
  | nil log => simpa using hlog
  | cons hcall hrest => exact hcall.elim

namespace Rootfs

variable {rootfs : Rootfs} {host : Host} {m : Machine} {top above names : List Name}
  {call : List Moment → Moment → Prop} {name : Name}

/-! ## One name -/

theorem ensureDir_contract (hlead : m.tree.Leads rootfs.path top)
    (habove : m.tree.Passable top above) (hname : PlainName name)
    (hfree : m.tree.at? (top ++ above ++ [name]) = none) :
    Contract (.growing top call) host m (ensureDir ((rootfs.hostPath above).join ⟨name⟩))
      fun _ m' => m'.tree.Passable top (above ++ [name])
        ∧ ∀ next, m'.tree.at? (top ++ (above ++ [name]) ++ [next]) = none := by
  unfold ensureDir
  refine .bind (.change? (fun tree m' hedit htree _ => ?_) fun fault hedit _ => ?_)
  · obtain ⟨hfit, hmade⟩ := makeDir_behind_ok hlead habove.lands hname hedit
    have hbare : IsBare (.dir dirMode []) := fun _ => rfl
    have hplain : ∀ n ∈ above ++ [name], PlainName n :=
      List.forall_mem_append.2 ⟨habove.plain, List.forall_mem_singleton.2 hname⟩
    have hgrows := hmade.grows hbare hplain
    refine ⟨hgrows, fun _ => .pure ?_⟩
    rw [htree]
    refine ⟨(habove.grows hgrows).concat hfit ⟨_, _, hmade.at?_self⟩, fun next => ?_⟩
    have hbelow := hmade.at?_below [next]
    rw [hbare.at?_eq_none (by simp)] at hbelow
    rwa [← List.append_assoc top]
  · dsimp only
    split
    · rename_i hexists
      subst hexists
      obtain ⟨found, hfound⟩ := makeDir_behind_alreadyExists hlead habove.lands hname hedit
      rw [hfree] at hfound
      simp at hfound
    · exact .throw

theorem ensurePlaceholder_contract {placeholder : Placeholder}
    (hkind : placeholder ≠ .parentOnly) (hlead : m.tree.Leads rootfs.path top)
    (habove : m.tree.Passable top above) (hname : PlainName name)
    (hfree : m.tree.at? (top ++ above ++ [name]) = none) :
    Contract (.growing top call) host m
      (ensurePlaceholder placeholder ((rootfs.hostPath above).join ⟨name⟩))
      fun _ m' => m'.tree.Lands top (above ++ [name]) := by
  cases placeholder with
  | directory =>
      exact (ensureDir_contract hlead habove hname hfree).mono fun _ _ _ h => h.1.lands
  | parentOnly => exact absurd rfl hkind
  | file =>
      refine .bind (.change? (fun tree m' hedit htree _ => ?_) fun fault hedit _ => .throw)
      obtain ⟨hfit, hmade⟩ := makeFile_behind_ok hlead habove hname hfree hedit
      have hplain : ∀ n ∈ above ++ [name], PlainName n :=
        List.forall_mem_append.2 ⟨habove.plain, List.forall_mem_singleton.2 hname⟩
      refine ⟨hmade.grows (fun _ => rfl) hplain, fun _ => .pure ?_⟩
      rw [htree]
      refine ⟨⟨_, by rw [← List.append_assoc]; exact hmade.at?_self, rfl⟩, ?_⟩
      exact List.forall_mem_append.2 ⟨habove.fit, List.forall_mem_singleton.2 hfit⟩

/-! ## All names -/

/-- What a preparation is after: the target itself or, for a link, the
directory it is to stand in. -/
def Prepared (placeholder : Placeholder) (tree : FileTree) (top names : List Name) : Prop :=
  match placeholder with
  | .parentOnly => tree.Passable top names.dropLast
  | .directory | .file => tree.Lands top names

theorem prepared_of_lands {placeholder : Placeholder} {tree : FileTree}
    (hkind : placeholder ≠ .parentOnly) (h : tree.Lands top names) :
    Prepared placeholder tree top names := by
  cases placeholder with
  | parentOnly => exact absurd rfl hkind
  | _ => exact h

theorem Prepared.lands {placeholder : Placeholder} {tree : FileTree}
    (h : Prepared placeholder tree top names) (hkind : placeholder ≠ .parentOnly) :
    tree.Lands top names := by
  cases placeholder with
  | parentOnly => exact absurd rfl hkind
  | _ => exact h

theorem makeNames_contract {placeholder : Placeholder} {first : Name} {rest : List Name}
    (hlead : m.tree.Leads rootfs.path top) (habove : m.tree.Passable top above)
    (hplain : ∀ n ∈ first :: rest, PlainName n)
    (hfree : m.tree.at? (top ++ above ++ [first]) = none) :
    Contract (.growing top call) host m
      (makeNames placeholder (rootfs.hostPath above) (first :: rest))
      fun _ m' => Prepared placeholder m'.tree top (above ++ first :: rest) := by
  induction rest generalizing m above first with
  | nil =>
      have hfirst := hplain first (by simp)
      by_cases hkind : placeholder = .parentOnly
      · subst hkind
        refine .pure ?_
        simpa [Prepared] using habove
      · exact (ensurePlaceholder_contract hkind hlead habove hfirst hfree).mono
          fun _ _ _ h => prepared_of_lands hkind h
  | cons second rest ih =>
      have hfirst := hplain first (by simp)
      have hrest : ∀ n ∈ second :: rest, PlainName n := fun n hn => hplain n (by simp [hn])
      have hmore : second :: rest = [] → False := by simp
      rw [makeNames.eq_3 _ _ _ _ hmore]
      apply Contract.andThen (ensureDir_contract hlead habove hfirst hfree)
      intro _ m₁ hkept hmade
      obtain ⟨hpass, hempty⟩ := hmade
      have hgo := ih (hlead.keeps hkept.files.keeps) hpass hrest (hempty second)
      have hpath : (rootfs.hostPath above).join ⟨first⟩ = rootfs.hostPath (above ++ [first]) :=
        (Path.joinNames_concat rootfs.path above first).symm
      rw [hpath]
      simpa using hgo

theorem makeMissing_contract {placeholder : Placeholder} {resolved : ResolvedPath}
    (hlead : m.tree.Leads rootfs.path top) (hroot : resolved.rootfs = rootfs)
    (hends : Ends m.tree top (placeholder ≠ .parentOnly)
      (resolved.names, resolved.firstMissing)) :
    Contract (.growing top call) host m (makeMissing placeholder resolved)
      fun _ m' => Prepared placeholder m'.tree top resolved.names := by
  obtain ⟨rootfs', names, missing⟩ := resolved
  obtain rfl : rootfs' = rootfs := hroot
  unfold makeMissing
  cases missing with
  | none =>
      refine .pure ?_
      by_cases hkind : placeholder = .parentOnly
      · subst hkind
        exact hends.passable_dropLast
      · rw [decide_eq_true hkind] at hends
        exact prepared_of_lands hkind hends.lands
  | some i =>
      cases hends with
      | stands h =>
          cases h with
          | @behind above below name habove hfit hfree hplain =>
              have hall : ∀ n ∈ name :: below, PlainName n :=
                List.forall_mem_cons.2 ⟨hfit.toPlainName, hplain⟩
              simpa using makeNames_contract hlead habove hall hfree

/-- **What a preparation leaves.** The target is resolved in the files as
they were, and what was asked for is there. -/
theorem prepare_contract {placeholder : Placeholder} {target : Path}
    (hlead : m.tree.Leads rootfs.path top) :
    Contract (.growing top call) host m (rootfs.prepare target placeholder)
      fun r m' => rootfs.resolveWith m.tree target (placeholder ≠ .parentOnly) = .ok r
        ∧ r.rootfs = rootfs ∧ (∀ n ∈ r.names, PlainName n)
        ∧ Prepared placeholder m'.tree top r.names := by
  unfold prepare
  refine .bind (.tree fun _ => .bind (.lift fun r hr _ => ?_))
  obtain ⟨hroot, hends⟩ := resolveWith_ends hlead hr
  exact .andThen (makeMissing_contract hlead hroot hends)
    fun _ m' _ hprep => .pure ⟨hr, hroot, hends.plain, hprep⟩

/-! ## Pinning -/

/-- How a resolved path is addressed once it is pinned: as a file held open,
or by its path. -/
def Pinned (top : List Name) (resolved : ResolvedPath) (spot : Spot) : Prop :=
  spot = .held (Path.ofNames (top ++ resolved.names)) ∨ spot = .at resolved.hostPath

theorem openTarget_contract {g : Promise} :
    Contract g host m (openTarget top names) fun answer m' =>
      m'.tree = m.tree ∧ m'.log = m.log ∧ ∀ place, answer = .ok place → place = top ++ names := by
  unfold openTarget
  split
  · exact .pure ⟨rfl, rfl, fun place h => by simp at h⟩
  · refine .bind (.attempt fun refusal m₁ htree hlog _ => ?_)
    cases refusal with
    | some e => exact .pure ⟨htree, hlog, fun place h => by simp at h⟩
    | none => exact .bind (.tree fun _ => .pure ⟨htree, hlog, fun place h => openBeneath_ok h⟩)

theorem pin_contract {g : Promise} {resolved : ResolvedPath} :
    Contract g host m (rootfs.pin resolved) fun spot m' =>
      m'.tree = m.tree ∧ m'.log = m.log
        ∧ ∃ top, m.tree.openDir rootfs.path = .ok top ∧ Pinned top resolved spot := by
  unfold pin
  refine .bind (.tree fun _ => ?_)
  split
  · exact .throw
  · rename_i top hopen
    apply Contract.andThen openTarget_contract
    intro answer m₁ _ hanswer
    obtain ⟨htree, hlog, hplace⟩ := hanswer
    cases answer with
    | ok place =>
        obtain rfl := hplace place rfl
        exact .pure ⟨htree, hlog, top, hopen, .inl rfl⟩
    | error e =>
        dsimp only
        split
        · exact .pure ⟨htree, hlog, top, hopen, .inr rfl⟩
        · split
          · exact .throw
          · exact .throw

/-! ## Preparation makes files one by one, and no call -/

section Edits

variable {g : Promise} {placeholder : Placeholder} {path target : Path}
  (hmake : ∀ a b p new, IsBare new → FileTree.make a p new = .ok b → g.files a b)

include hmake

theorem ensureDir_edits : Contract g host m (ensureDir path) fun _ m' => m'.log = m.log := by
  refine .bind (.change? (fun _ _ hedit _ hlog =>
    ⟨hmake _ _ _ _ (fun _ => rfl) (make_of_makeDir hedit).2, fun _ => .pure hlog⟩)
    fun fault _ _ => ?_)
  dsimp only
  split
  · exact .pure rfl
  · exact .throw

theorem ensurePlaceholder_edits :
    Contract g host m (ensurePlaceholder placeholder path) fun _ m' => m'.log = m.log := by
  cases placeholder with
  | directory => exact ensureDir_edits hmake
  | file =>
      refine .bind (.change? (fun tree _ hedit _ hlog => ⟨?_, fun _ => .pure hlog⟩)
        fun fault _ _ => .throw)
      rcases make_of_makeFile hedit with rfl | hmade
      · exact g.refl _
      · exact hmake _ _ _ _ (fun _ => rfl) hmade
  | parentOnly => exact .pure rfl

theorem makeNames_edits :
    Contract g host m (makeNames placeholder path names) fun _ m' => m'.log = m.log := by
  induction names generalizing m path with
  | nil => exact .pure rfl
  | cons first rest ih =>
      cases rest with
      | nil => exact ensurePlaceholder_edits hmake
      | cons second rest =>
          exact .andThen (ensureDir_edits hmake) fun _ _ _ hlog =>
            ih.mono fun _ _ _ hlog' => hlog'.trans hlog

/-- What holds of every file that is made holds of a preparation, which makes no
call and resolves the target in the files that it finds. -/
theorem prepare_edits :
    Contract g host m (rootfs.prepare target placeholder)
      fun r m' => rootfs.resolveWith m.tree target (placeholder ≠ .parentOnly) = .ok r
        ∧ m'.log = m.log := by
  unfold prepare
  refine .bind (.tree fun _ => .bind (.lift fun r hr _ => ?_))
  have hmissing : Contract g host m (makeMissing placeholder r) fun _ m' => m'.log = m.log := by
    unfold makeMissing
    split
    · exact .pure rfl
    · exact makeNames_edits hmake
  exact .andThen hmissing fun _ _ _ hlog => .pure ⟨hr, hlog⟩

end Edits

theorem ensureDir_silent {path : Path} :
    Contract .silent host m (ensureDir path) fun _ _ => True :=
  (ensureDir_edits fun _ _ _ _ _ _ => trivial).mono fun _ _ _ _ => trivial

theorem makeNames_silent {placeholder : Placeholder} {path : Path} :
    Contract .silent host m (makeNames placeholder path names) fun _ _ => True :=
  (makeNames_edits fun _ _ _ _ _ _ => trivial).mono fun _ _ _ _ => trivial

theorem prepare_silent {placeholder : Placeholder} {target : Path} :
    Contract .silent host m (rootfs.prepare target placeholder)
      fun r _ => rootfs.resolveWith m.tree target (placeholder ≠ .parentOnly) = .ok r :=
  (prepare_edits fun _ _ _ _ _ _ => trivial).mono fun _ _ _ h => h.1

end Rootfs

end ContainerMounts
