/-
ContainerMounts.Proofs.CreatedFiles — what a preparation makes, to the last
file.

A preparation makes the missing names of a target one in the other: a
directory at each but the last, and there what was asked for. `Adds` says of
a tree that so many files are new, by the paths that name them, and that all
others are as they were; additions follow one another (`Adds.append`).

Each of these files is made where nothing was. For the first name the walk
of the resolution has asked (`Shown`), and behind a directory that was just
made there is nothing yet. So no call finds something in its way and keeps
it, and the whole run makes a beginning of the list, all of it unless the
kernel refused one (`Creates`). The root need not lead anywhere for that:
then the first call fails.

Main statement: `prepare_creates`.
-/
import ContainerMounts.Proofs.AcceptedPaths
import ContainerMounts.Proofs.CanonicalTargets

namespace ContainerMounts

namespace FileTree

/-! ## Files that were added -/

/-- The new files of `after`, by the paths that name them there. Every other
file is as it was. -/
structure Adds (before after : FileTree) (made : List (Path × Stat)) : Prop where
  kept : before.Keeps after
  new : ∀ path s, (path, s) ∈ made → ∃ place, after.find false path = .ok place
    ∧ before.statAt? place = none ∧ after.statAt? place = some s
  complete : ∀ place s, before.statAt? place = none → after.statAt? place = some s →
    ∃ path, (path, s) ∈ made ∧ after.find false path = .ok place

variable {tree tree' before after : FileTree} {p q : Path} {name : Name} {new : Node}
  {parent place : List Name} {mode : Nat}

theorem find_keeps {follow : Bool} (hkept : before.Keeps after)
    (h : before.find follow p = .ok place) : after.find follow p = .ok place := by
  obtain ⟨hnul, hloc⟩ := find_eq_ok.1 h
  obtain ⟨hacc, hwalk⟩ := locate_eq_ok.1 hloc
  exact find_eq_ok.2 ⟨hnul, locate_eq_ok.2 ⟨hacc, walk_keeps rfl hkept hwalk⟩⟩

namespace Adds

variable {a b c : FileTree} {xs ys : List (Path × Stat)}

theorem refl (tree : FileTree) : tree.Adds tree [] where
  kept := .refl tree
  new := by simp
  complete place s hnone hsome := by simp [hnone] at hsome

theorem append (hab : a.Adds b xs) (hbc : b.Adds c ys) : a.Adds c (xs ++ ys) where
  kept := hab.kept.trans hbc.kept
  new path s hmem := by
    rcases List.mem_append.1 hmem with hmem | hmem
    · obtain ⟨place, hfind, hnone, hsome⟩ := hab.new path s hmem
      exact ⟨place, find_keeps hbc.kept hfind, hnone, hbc.kept place s hsome⟩
    · obtain ⟨place, hfind, hnone, hsome⟩ := hbc.new path s hmem
      refine ⟨place, hfind, ?_, hsome⟩
      cases ha : a.statAt? place with
      | none => rfl
      | some old =>
          rw [hab.kept place old ha] at hnone
          simp at hnone
  complete place s hnone hsome := by
    cases hb : b.statAt? place with
    | none =>
        obtain ⟨path, hmem, hfind⟩ := hbc.complete place s hb hsome
        exact ⟨path, List.mem_append_right xs hmem, hfind⟩
    | some old =>
        obtain rfl : old = s := by simpa [hbc.kept place old hb] using hsome
        obtain ⟨path, hmem, hfind⟩ := hab.complete place old hnone hb
        exact ⟨path, List.mem_append_left ys hmem, find_keeps hbc.kept hfind⟩

end Adds

/-! ## One file -/

theorem Made.statAt? (h : before.Made after parent name new) (hnew : IsBare new)
    (place : List Name) :
    after.statAt? place
      = if place = parent ++ [name] then some new.stat else before.statAt? place := by
  rw [h.eq]
  exact statAt?_put h.isDir h.free hnew place

theorem Made.keeps (h : before.Made after parent name new) (hnew : IsBare new) :
    before.Keeps after := by
  intro place s hs
  rw [h.statAt? hnew]
  split
  · rename_i hplace
    rw [hplace, statAt?_eq_none.2 h.free] at hs
    simp at hs
  · exact hs

/-- A file that was made is found the way that led to its directory. -/
theorem Made.walk {follow : Bool} {moves : List Move} (h : before.Made after parent name new)
    (hnew : IsBare new) (hkeep : follow = true → new.isSymlink = false)
    (hwalk : FileTree.walk before { followLast := true } linkLimit [] moves = .ok parent) :
    FileTree.walk after { followLast := follow } linkLimit [] (moves ++ [.down name])
      = .ok (parent ++ [name]) := by
  have hself := h.at?_self
  have hlink : follow = true → ¬ after.IsSymlinkAt (parent ++ [name]) := by
    rintro hfollow ⟨text, htext⟩
    obtain rfl : new = .symlink text := by simpa [hself] using htext
    exact absurd (hkeep hfollow) (by simp [Node.isSymlink])
  refine walk_append rfl (by simp) (fun links => ?_) (walk_keeps rfl (h.keeps hnew) hwalk)
  rw [walk_down ((h.keeps hnew).isDirAt h.isDir) hlink, entry_eq_ok.2 ⟨h.short, hself⟩]
  rfl

theorem make_ok (h : tree.make p new = .ok tree') :
    accept p = .ok () ∧ ∃ moves name parent, p.moves = moves ++ [.down name]
      ∧ walk tree { followLast := true } linkLimit [] moves = .ok parent
      ∧ tree.Made tree' parent name new := by
  unfold make at h
  cases hacc : accept p with
  | error e => simp [hacc, bind, Except.bind] at h
  | ok _ =>
      simp only [hacc, bind, Except.bind] at h
      split at h
      · rename_i name hlast
        obtain ⟨moves, hmoves⟩ := List.getLast?_eq_some_iff.1 hlast
        rw [hmoves, List.dropLast_concat] at h
        cases hwalk : walk tree { followLast := true } linkLimit [] moves with
        | error e => simp [hwalk] at h
        | ok parent =>
            simp only [hwalk] at h
            exact ⟨rfl, moves, name, parent, hmoves, hwalk, addEntry_eq_ok.1 h⟩
      · cases hloc : tree.locate true p <;> simp [hloc] at h

/-- A file is made under a name that a directory can hold. -/
theorem make_wellNamed (hnamed : tree.WellNamed) (hnew : IsBare new)
    (h : tree.make p new = .ok tree') : tree'.WellNamed := by
  obtain ⟨-, moves, name, parent, hmoves, -, hmade⟩ := make_ok h
  intro place node hat n hn
  have hstat := hmade.statAt? hnew place
  split at hstat
  · rename_i hplace
    obtain ⟨mode, entries, hdir⟩ := hmade.isDir
    rw [hplace] at hn
    rcases List.mem_append.1 hn with hn | hn
    · exact hnamed parent _ hdir n hn
    · obtain rfl := List.mem_singleton.1 hn
      exact Move.plain_of_mem_moves (p := p) (by simp [hmoves])
  · rw [statAt?, hat, Option.map_some] at hstat
    obtain ⟨old, hold, -⟩ := Option.map_eq_some_iff.1 hstat.symm
    exact hnamed place old hold n hn

theorem make_adds (hnul : 0 ∉ p.bytes) (hnew : IsBare new) (h : tree.make p new = .ok tree') :
    tree.Adds tree' [(p, new.stat)] := by
  obtain ⟨hacc, moves, name, parent, hmoves, hwalk, hmade⟩ := make_ok h
  have hfind : tree'.find false p = .ok (parent ++ [name]) := by
    refine find_eq_ok.2 ⟨hnul, locate_eq_ok.2 ⟨hacc, ?_⟩⟩
    rw [hmoves]
    exact hmade.walk hnew (by simp) hwalk
  refine ⟨hmade.keeps hnew, ?_, ?_⟩
  · intro path s hmem
    obtain ⟨rfl, rfl⟩ : path = p ∧ s = new.stat := by simpa using hmem
    exact ⟨_, hfind, statAt?_eq_none.2 hmade.free, by simp [hmade.statAt? hnew]⟩
  · intro place s hnone hsome
    rw [hmade.statAt? hnew] at hsome
    split at hsome
    · rename_i hplace
      obtain rfl := Option.some.inj hsome
      exact ⟨p, by simp, hplace ▸ hfind⟩
    · simp [hnone] at hsome

theorem makeLink_adds {text : Path} (h : tree.makeLink text p = .ok tree') :
    tree.Adds tree' [(p, .symlink text)] := by
  have hmake := make_of_makeLink h
  unfold makeLink at h
  split at h
  · simp at h
  · rename_i hnul
    exact make_adds (by simp_all) (fun _ => rfl) hmake

/-! ## Names that are free -/

/-- Nothing has the name where the path leads. -/
def Free (tree : FileTree) (p : Path) (name : Name) : Prop :=
  ∀ parent, tree.Leads p parent → tree.at? (parent ++ [name]) = none

theorem Free.of_lstat (hname : PlainName name)
    (h : tree.lstat (q.join ⟨name⟩) = .error (.os .noEntry)) : tree.Free q name := by
  intro parent hlead
  obtain ⟨-, hfree⟩ := lstat_behind_noEntry hlead (.nil hlead.isDir) hname h
  rwa [List.append_nil] at hfree

/-- A new directory is empty. -/
theorem makeDir_adds (h : tree.makeDir p mode = .ok tree') :
    tree.Adds tree' [(p, .dir mode)] ∧ ∀ next, tree'.Free p next := by
  obtain ⟨hnul, hmake⟩ := make_of_makeDir h
  have hbare : IsBare (.dir mode []) := fun _ => rfl
  refine ⟨make_adds hnul hbare hmake, fun next parent' hlead => ?_⟩
  obtain ⟨-, moves, name, parent, hmoves, hwalk, hmade⟩ := make_ok hmake
  have hpieces : p.moves = p.pieceMoves := by
    refine Path.moves_eq_pieceMoves fun hslash => ?_
    have hlast : p.moves.getLast? = some .stay := by simp [Path.moves, hslash]
    simp [hmoves] at hlast
  have hplace : walk tree' { followLast := true } linkLimit [] (moves ++ [.down name])
      = .ok (parent ++ [name]) := hmade.walk hbare (fun _ => rfl) hwalk
  rw [← hmoves, hpieces] at hplace
  obtain rfl : parent' = parent ++ [name] := Except.ok.inj (hlead.walk.symm.trans hplace)
  rw [hmade.at?_below, hbare.at?_eq_none (by simp)]

theorem make_ne_alreadyExists (new : Node) (hname : PlainName name)
    (hnul : 0 ∉ (q.join ⟨name⟩).bytes) (hfree : tree.Free q name) :
    tree.make (q.join ⟨name⟩) new ≠ .error .alreadyExists := by
  intro h
  have hlong : Errno.nameTooLong ≠ .alreadyExists := by decide
  obtain ⟨parent, hlead⟩ := exists_leads_of_make new hname hnul
    fun e he => (Except.error.inj (h.symm.trans he)).symm
  rw [make_join hname, hlead.walk] at h
  split at h
  · simp [hlong] at h
  · obtain ⟨found, hfound⟩ := addEntry_alreadyExists h
    rw [hfree parent hlead] at hfound
    simp at hfound

theorem makeDir_ne_alreadyExists (hname : PlainName name) (hfree : tree.Free q name) :
    tree.makeDir (q.join ⟨name⟩) mode ≠ .error (.os .alreadyExists) := by
  unfold makeDir
  split
  · simp
  · rename_i hnul
    intro h
    cases hmake : tree.make (q.join ⟨name⟩) (.dir mode []) with
    | ok made => simp [hmake, Except.mapError] at h
    | error e =>
        obtain rfl : e = .alreadyExists := by simpa [hmake, Except.mapError] using h
        exact make_ne_alreadyExists _ hname (by simpa using hnul) hfree hmake

theorem makeLink_ne_alreadyExists {text : Path} (hname : PlainName name)
    (hfree : tree.Free q name) :
    tree.makeLink text (q.join ⟨name⟩) ≠ .error (.os .alreadyExists) := by
  unfold makeLink
  split
  · simp
  · rename_i hnul
    intro h
    cases hacc : accept text with
    | error e =>
        obtain rfl : e = .alreadyExists := by
          simpa [hacc, bind, Except.bind, Except.mapError] using h
        exact absurd (accept_error hacc) (by decide)
    | ok _ =>
        simp only [hacc, bind, Except.bind] at h
        cases hmake : tree.make (q.join ⟨name⟩) (.symlink text) with
        | ok made => simp [hmake, Except.mapError] at h
        | error e =>
            obtain rfl : e = .alreadyExists := by simpa [hmake, Except.mapError] using h
            exact make_ne_alreadyExists _ hname (by simp_all) hfree hmake

theorem makeFile_adds (hname : PlainName name) (hfree : tree.Free q name)
    (h : tree.makeFile (q.join ⟨name⟩) mode = .ok tree') :
    tree.Adds tree' [(q.join ⟨name⟩, .file mode [])] := by
  obtain ⟨parent, hlead⟩ := exists_leads_of_makeFile hname h
  have hfree' : tree.at? (parent ++ [] ++ [name]) = none := by
    rw [List.append_nil]
    exact hfree parent hlead
  obtain ⟨hfit, hmade⟩ := makeFile_behind_ok hlead (.nil hlead.isDir) hname hfree' h
  rw [List.append_nil] at hmade
  have hnul : 0 ∉ (q.join ⟨name⟩).bytes :=
    Path.nul_notMem_join hname.no_slash hlead.no_nul hfit.no_nul
  have hmake : tree.make (q.join ⟨name⟩) (.file mode []) = .ok tree' := by
    have hshort := (accept_eq_ok.1 (accept_of_makeFile h)).2
    rw [make_join hname, if_neg (Nat.not_lt.2 hshort), hlead.walk]
    exact addEntry_eq_ok.2 hmade
  exact make_adds hnul (fun _ => rfl) hmake

end FileTree

open FileTree

/-- What is made at the last name, for a placeholder: a directory that all may
enter, or an empty file that all may read. -/
def Placeholder.stat? : Placeholder → Option Stat
  | .directory => some (.dir 0o755)
  | .file => some (.file 0o644 [])
  | .parentOnly => none

/-- What is made at the `k`th of the names behind a path. -/
def Placeholder.madeAt? (placeholder : Placeholder) (path : Path) (names : List Name) (k : Nat) :
    Option (Path × Stat) :=
  (if k < names.length then some (.dir 0o755) else placeholder.stat?).map fun s =>
    (path.joinNames (names.take k), s)

/-- What has to be made of the target: something at each of its names from the
first missing one on. -/
def ResolvedPath.toMake (r : ResolvedPath) (placeholder : Placeholder) : List (Path × Stat) :=
  match r.firstMissing with
  | none => []
  | some i =>
      (List.range' (i + 1) (r.names.length - i)).filterMap
        (placeholder.madeAt? r.rootfs.path r.names)

/-- What has to be made is a directory at a name above the last, or what was
asked for there. -/
theorem ResolvedPath.mem_toMake {r : ResolvedPath} {placeholder : Placeholder} {path : Path}
    {s : Stat} (h : (path, s) ∈ r.toMake placeholder) :
    ∃ i k, r.firstMissing = some i ∧ i < k ∧ path = r.rootfs.hostPath (r.names.take k)
      ∧ (k < r.names.length ∧ s = .dir 0o755
        ∨ k = r.names.length ∧ placeholder.stat? = some s) := by
  unfold ResolvedPath.toMake at h
  cases hmissing : r.firstMissing with
  | none => simp [hmissing] at h
  | some i =>
      simp only [hmissing] at h
      obtain ⟨k, hk, hmade⟩ := List.mem_filterMap.1 h
      obtain ⟨hfirst, hlast⟩ : i + 1 ≤ k ∧ k < i + 1 + (r.names.length - i) := by
        simpa [List.mem_range'_1] using hk
      refine ⟨i, k, rfl, hfirst, ?_⟩
      simp only [Placeholder.madeAt?] at hmade
      split at hmade
      · rename_i hlt
        obtain ⟨rfl, rfl⟩ : r.rootfs.path.joinNames (r.names.take k) = path
            ∧ Stat.dir 0o755 = s := by simpa using hmade
        exact ⟨rfl, .inl ⟨hlt, rfl⟩⟩
      · obtain ⟨found, hstat, hpair⟩ := Option.map_eq_some_iff.1 hmade
        obtain ⟨rfl, rfl⟩ : r.rootfs.path.joinNames (r.names.take k) = path ∧ found = s := by
          simpa using hpair
        exact ⟨rfl, .inr ⟨by omega, hstat⟩⟩

/-- The kernel refuses to make a directory or an empty file of that kind at the
path. -/
def FileTree.Refuses (tree : FileTree) (fault : Fault) : Path × Stat → Prop
  | (path, .dir mode) => tree.makeDir path mode = .error fault
  | (path, .file mode _) => tree.makeFile path mode = .error fault
  | _ => False

/-- How an action ends that makes files, in this order, and does nothing
else. -/
inductive Creates {α : Type} (m : Machine) (wanted : List (Path × Stat)) (a : α) :
    Except Error α × Machine → Prop where
  /-- All of them were made. -/
  | all {tree : FileTree} (h : m.tree.Adds tree wanted) :
      Creates m wanted a (.ok a, { m with tree })
  /-- The kernel refused one, after those before it were made. -/
  | refused {tree : FileTree} {made : List (Path × Stat)} {next : Path × Stat} {fault : Fault}
      (first : made ++ [next] <+: wanted) (h : m.tree.Adds tree made)
      (refusal : tree.Refuses fault next) :
      Creates m wanted a (.error (.io fault), { m with tree })

/-- Files made after others. -/
theorem Creates.after {α : Type} {m : Machine} {tree : FileTree} {xs ys : List (Path × Stat)}
    {a : α} {out : Except Error α × Machine} (hadds : m.tree.Adds tree xs)
    (h : Creates { m with tree } ys a out) : Creates m (xs ++ ys) a out := by
  cases h with
  | all h => exact .all (hadds.append h)
  | refused first h refusal =>
      refine .refused ?_ (hadds.append h) refusal
      rw [List.append_assoc]
      exact (List.prefix_append_right_inj xs).2 first

/-- The files of an action are made, whatever is returned after it. -/
theorem Creates.returning {α β : Type} {host : Host} {m : Machine} {act : Run α} {a : α}
    {wanted : List (Path × Stat)} (h : Creates m wanted a (act.result host m)) (b : β) :
    Creates m wanted b ((act >>= fun _ => pure b).result host m) := by
  rw [Run.result_bind]
  generalize act.result host m = out at h
  cases h with
  | all h => exact .all h
  | refused first h refusal => exact .refused first h refusal

namespace Rootfs

variable {host : Host} {m : Machine} {placeholder : Placeholder} {path : Path} {name : Name}

/-! ## The missing names -/

/-- What is made of names behind a path. -/
def chain (placeholder : Placeholder) (path : Path) (names : List Name) : List (Path × Stat) :=
  (List.range' 1 names.length).filterMap (placeholder.madeAt? path names)

/-- What is made behind the first names is made behind their path. -/
theorem filterMap_madeAt? (placeholder : Placeholder) (path : Path) (xs ys : List Name) :
    (List.range' (xs.length + 1) ys.length).filterMap (placeholder.madeAt? path (xs ++ ys))
      = chain placeholder (path.joinNames xs) ys := by
  rw [← List.map_add_range', List.filterMap_map, chain]
  refine List.filterMap_congr fun k _ => ?_
  simp [Placeholder.madeAt?, List.take_length_add_append, Path.joinNames_append]

theorem chain_singleton : chain placeholder path [name]
    = (placeholder.stat?.map fun s => (path.join ⟨name⟩, s)).toList := by
  cases placeholder <;> rfl

theorem chain_cons {next : Name} {rest : List Name} :
    chain placeholder path (name :: next :: rest)
      = (path.join ⟨name⟩, .dir 0o755)
        :: chain placeholder (path.join ⟨name⟩) (next :: rest) := by
  have hfirst : placeholder.madeAt? path (name :: next :: rest) 1
      = some (path.join ⟨name⟩, .dir 0o755) := by
    simp [Placeholder.madeAt?, Path.joinNames_singleton]
  rw [chain, List.length_cons, List.range'_succ, List.filterMap_cons_some hfirst]
  exact congrArg _ (filterMap_madeAt? placeholder path [name] (next :: rest))

theorem toMake_eq_chain {r : ResolvedPath} {i : Nat} (h : r.firstMissing = some i)
    (hi : i ≤ r.names.length) :
    r.toMake placeholder
      = chain placeholder (r.rootfs.hostPath (r.names.take i)) (r.names.drop i) := by
  have hrange := filterMap_madeAt? placeholder r.rootfs.path (r.names.take i) (r.names.drop i)
  rw [List.take_append_drop, List.length_take, Nat.min_eq_left hi, List.length_drop] at hrange
  simp only [ResolvedPath.toMake, h]
  exact hrange

/-! ## Making them -/

/-- Where nothing is, an existing directory cannot be kept, so one is made. -/
theorem ensureDir_result (hname : PlainName name) (hfree : m.tree.Free path name) :
    (ensureDir (path.join ⟨name⟩)).result host m
      = match m.tree.makeDir (path.join ⟨name⟩) 0o755 with
        | .ok tree => (.ok (), { m with tree })
        | .error fault => (.error (.io fault), m) := by
  unfold ensureDir dirMode
  rw [Run.result_bind, Run.result_change?]
  cases hmake : m.tree.makeDir (path.join ⟨name⟩) 0o755 with
  | ok tree => rfl
  | error fault =>
      have hfault : fault ≠ .os .alreadyExists := by
        rintro rfl
        exact makeDir_ne_alreadyExists hname hfree hmake
      simp only [hfault, if_false]
      rfl

theorem ensurePlaceholder_creates (placeholder : Placeholder) (hname : PlainName name)
    (hfree : m.tree.Free path name) :
    Creates m (chain placeholder path [name]) ()
      ((ensurePlaceholder placeholder (path.join ⟨name⟩)).result host m) := by
  rw [chain_singleton]
  cases placeholder with
  | directory =>
      rw [ensurePlaceholder, ensureDir_result hname hfree]
      cases hmake : m.tree.makeDir (path.join ⟨name⟩) 0o755 with
      | ok tree => exact .all (makeDir_adds hmake).1
      | error fault =>
          have hrefused : m.tree.Refuses fault (path.join ⟨name⟩, .dir 0o755) := hmake
          exact .refused List.prefix_rfl (.refl m.tree) hrefused
  | file =>
      simp only [ensurePlaceholder, fileMode]
      rw [Run.result_bind, Run.result_change?]
      cases hmake : m.tree.makeFile (path.join ⟨name⟩) 0o644 with
      | ok tree => exact .all (makeFile_adds hname hfree hmake)
      | error fault =>
          have hrefused : m.tree.Refuses fault (path.join ⟨name⟩, .file 0o644 []) := hmake
          exact .refused List.prefix_rfl (.refl m.tree) hrefused
  | parentOnly => exact .all (.refl m.tree)

theorem makeNames_creates (placeholder : Placeholder) {first : Name} {rest : List Name}
    (hplain : ∀ n ∈ first :: rest, PlainName n) (hfree : m.tree.Free path first) :
    Creates m (chain placeholder path (first :: rest)) ()
      ((makeNames placeholder path (first :: rest)).result host m) := by
  induction rest generalizing m path first with
  | nil => exact ensurePlaceholder_creates placeholder (hplain first (by simp)) hfree
  | cons second rest ih =>
      have hrest : ∀ n ∈ second :: rest, PlainName n := fun n hn => hplain n (by simp [hn])
      have hmore : second :: rest = [] → False := by simp
      rw [makeNames.eq_3 _ _ _ _ hmore, Run.result_bind,
        ensureDir_result (hplain first (by simp)) hfree, chain_cons, ← List.singleton_append]
      cases hmake : m.tree.makeDir (path.join ⟨first⟩) 0o755 with
      | ok tree =>
          obtain ⟨hadds, hempty⟩ := makeDir_adds hmake
          exact .after hadds (ih hrest (hempty second))
      | error fault =>
          have hrefused : m.tree.Refuses fault (path.join ⟨first⟩, .dir 0o755) := hmake
          exact .refused (List.prefix_append _ _) (.refl m.tree) hrefused

/-- What the resolution found missing is made. -/
theorem makeMissing_creates (placeholder : Placeholder) {r : ResolvedPath} {followLast : Bool}
    (h : ShownEnd r.rootfs m.tree followLast (r.names, r.firstMissing)) :
    Creates m (r.toMake placeholder) () ((makeMissing placeholder r).result host m) := by
  obtain ⟨rootfs, names, missing⟩ := r
  unfold makeMissing
  cases missing with
  | none => exact .all (.refl m.tree)
  | some i =>
      obtain ⟨above, name, below, rfl, rfl, -, hstat⟩ := h.shown.split
      have hplain : ∀ n ∈ name :: below, PlainName n := fun n hn => h.plain n (by simp [hn])
      rw [toMake_eq_chain rfl (by simp)]
      simp only [List.take_left', List.drop_left']
      exact makeNames_creates placeholder hplain (.of_lstat (hplain name (by simp)) hstat)

section Prepare

variable {rootfs : Rootfs} {target : Path} {r : ResolvedPath}

theorem prepare_result (host : Host) (m : Machine) :
    (rootfs.prepare target placeholder).result host m
      = match rootfs.resolveWith m.tree target (placeholder ≠ .parentOnly) with
        | .error e => (.error e, m)
        | .ok r => (makeMissing placeholder r >>= fun _ => pure r).result host m := by
  unfold prepare
  rw [Run.result_bind, Run.result_tree]
  dsimp only
  rw [Run.result_bind, Run.result_lift]
  cases rootfs.resolveWith m.tree target (placeholder ≠ .parentOnly) <;> rfl

theorem prepare_makes
    (h : rootfs.resolveWith m.tree target (placeholder ≠ .parentOnly) = .ok r) :
    Creates m (r.toMake placeholder) r ((rootfs.prepare target placeholder).result host m) := by
  obtain ⟨rfl, hend⟩ := walkInvariant_shown.resolveWith h
  rw [prepare_result, h]
  exact (makeMissing_creates placeholder hend).returning r

theorem prepare_existing
    (h : rootfs.resolveWith m.tree target (placeholder ≠ .parentOnly) = .ok r)
    (hall : r.exists? = true) :
    (rootfs.prepare target placeholder).result host m = (.ok r, m) := by
  have hnone : r.firstMissing = none := by simpa [ResolvedPath.exists?] using hall
  rw [prepare_result, h]
  simp only [makeMissing, hnone]
  rfl

/-- A preparation that succeeds has made all that was missing. -/
theorem prepare_ok {m' : Machine}
    (h : (rootfs.prepare target placeholder).result host m = (.ok r, m')) :
    rootfs.resolveWith m.tree target (placeholder ≠ .parentOnly) = .ok r
      ∧ m' = { m with tree := m'.tree } ∧ m.tree.Adds m'.tree (r.toMake placeholder) := by
  cases hresolve : rootfs.resolveWith m.tree target (placeholder ≠ .parentOnly) with
  | error e =>
      rw [prepare_result, hresolve] at h
      simp at h
  | ok found =>
      have hmakes : Creates m _ found ((rootfs.prepare target placeholder).result host m) :=
        prepare_makes hresolve
      rw [h] at hmakes
      cases hmakes with
      | all hadds => exact ⟨rfl, rfl, hadds⟩

/-- What holds once the missing names are made holds after a preparation of
which some were missing. -/
theorem prepare_new {post : ResolvedPath → Machine → Prop}
    (hmake : ∀ above name below, Shown rootfs m.tree (above, none) →
      (∀ n ∈ name :: below, PlainName n) → m.tree.Free (rootfs.hostPath above) name →
      Contract .silent host m (makeNames placeholder (rootfs.hostPath above) (name :: below))
        fun _ m' => post ⟨rootfs, above ++ name :: below, some above.length⟩ m') :
    Contract .silent host m (rootfs.prepare target placeholder)
      fun r m' => r.exists? = false → post r m' := by
  unfold prepare
  refine .bind (.tree fun _ => .bind (.lift fun r hr _ => ?_))
  obtain ⟨rfl, hend⟩ := walkInvariant_shown.resolveWith hr
  have hmissing : Contract .silent host m (makeMissing placeholder r)
      fun _ m' => r.exists? = false → post r m' := by
    obtain ⟨rootfs, names, missing⟩ := r
    unfold makeMissing
    cases missing with
    | none => exact .pure fun hnew => by simp [ResolvedPath.exists?] at hnew
    | some i =>
        obtain ⟨above, name, below, rfl, rfl, habove, hstat⟩ := hend.shown.split
        have hplain : ∀ n ∈ name :: below, PlainName n := fun n hn => hend.plain n (by simp [hn])
        simp only [List.take_left', List.drop_left']
        have hfree := Free.of_lstat (hplain name (by simp)) hstat
        exact (hmake above name below habove hplain hfree).mono fun _ _ _ hpost _ => hpost
  exact .andThen hmissing fun _ _ _ hpost => .pure hpost

end Prepare

/-- **What a preparation makes.** If the target is not resolved, the machine is
left as it is. If it is, nothing but its missing names is made, in their
order: all of them if the preparation succeeds, and otherwise those before
the one that the kernel refused. Nothing is done for a target that
exists. -/
theorem prepare_creates (rootfs : Rootfs) (target : Path) (placeholder : Placeholder)
    (host : Host) (m : Machine) :
    match rootfs.resolveWith m.tree target (placeholder ≠ .parentOnly) with
    | .error e => (rootfs.prepare target placeholder).result host m = (.error e, m)
    | .ok r =>
        Creates m (r.toMake placeholder) r ((rootfs.prepare target placeholder).result host m)
          ∧ (r.exists? = true →
              (rootfs.prepare target placeholder).result host m = (.ok r, m)) := by
  cases hresolve : rootfs.resolveWith m.tree target (placeholder ≠ .parentOnly) with
  | error e => rw [prepare_result, hresolve]
  | ok r => exact ⟨prepare_makes hresolve, prepare_existing hresolve⟩

end Rootfs

end ContainerMounts
