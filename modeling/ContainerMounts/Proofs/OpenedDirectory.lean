/-
ContainerMounts.Proofs.OpenedDirectory — files behind a directory that a
path leads to.

A path that leads to a directory `top`, followed by names that lead
through directories from there (`Passable`), is looked up by its last name
alone, and every file operation of a mount setup comes down to the entry
of that name:

* `lstat_behind` and `make_behind` say what a look and a creation find;
* `Made` is a creation that succeeded, and grows the tree (`Made.grows`);
* `exists_leads_of_make` says that it was made in a directory;
* `descend_ok` is the walk that refuses symlinks;
* `openDir_of_isRealDir` opens the real path of a directory.
-/
import ContainerMounts.Proofs.Lookup

namespace ContainerMounts.FileTree

variable {tree : FileTree} {name : Name}

/-! ## Names behind an opened directory -/

/-- The names lead from `top` to a file, and no symlink is on the way or at
the end. -/
structure Lands (tree : FileTree) (top names : List Name) : Prop where
  node : ∃ node, tree.at? (top ++ names) = some node ∧ node.isSymlink = false
  fit : ∀ n ∈ names, FitName n

theorem Passable.lands {top names : List Name} (h : tree.Passable top names) :
    tree.Lands top names := by
  obtain ⟨mode, entries, hd⟩ := h.isDir
  exact ⟨⟨_, hd, rfl⟩, h.fit⟩

theorem Lands.grows {top names at' : List Name} {after : FileTree} (h : tree.Lands top names)
    (hgrows : tree.Grows at' after) : after.Lands top names := by
  obtain ⟨node, hnode, hkind⟩ := h.node
  exact ⟨hgrows.keeps.at?_not_symlink hnode hkind, h.fit⟩

section Behind

variable {p : Path} {top names : List Name}

theorem Lands.init {last : Name} (h : tree.Lands top (names ++ [last])) :
    tree.Passable top names := by
  obtain ⟨node, hnode, -⟩ := h.node
  rw [← List.append_assoc] at hnode
  exact ⟨isDirAt_of_at?_append hnode (by simp), fun n hn => h.fit n (by simp [hn])⟩

theorem Lands.not_symlink {init rest : List Name} (h : tree.Lands top names)
    (heq : names = init ++ rest) : ¬ tree.IsSymlinkAt (top ++ init) := by
  obtain ⟨node, hnode, hkind⟩ := h.node
  rintro ⟨text, ht⟩
  by_cases hne : rest = []
  · obtain rfl : names = init := by simpa [hne] using heq
    obtain rfl : node = .symlink text := by simpa [hnode] using ht
    simp [Node.isSymlink] at hkind
  · rw [heq, ← List.append_assoc] at hnode
    exact (isDirAt_of_at?_append hnode hne).not_symlink ⟨text, ht⟩

theorem Lands.of_prefix {init : List Name} (h : tree.Lands top names) (hinit : init <+: names) :
    tree.Lands top init := by
  obtain ⟨node, hnode, hkind⟩ := h.node
  obtain ⟨rest, rfl⟩ := hinit
  refine ⟨?_, fun n hn => h.fit n (by simp [hn])⟩
  by_cases hne : rest = []
  · subst hne
    exact ⟨node, by simpa using hnode, hkind⟩
  · rw [← List.append_assoc] at hnode
    obtain ⟨mode, entries, hat⟩ := isDirAt_of_at?_append hnode hne
    exact ⟨_, hat, rfl⟩

theorem moves_behind (hnames : ∀ n ∈ names, PlainName n) (hname : PlainName name) :
    ((p.joinNames names).join ⟨name⟩).moves
      = p.pieceMoves ++ (names.map .down ++ [.down name]) := by
  rw [Path.moves_join _ hname, Path.pieceMoves_joinNames hnames, List.append_assoc]

theorem accept_behind (p : Path) (hname : PlainName name) :
    accept (p.join ⟨name⟩)
      = if pathLimit < (p.join ⟨name⟩).bytes.length then .error .nameTooLong else .ok () := by
  have hlen := Path.length_le_join p hname.no_slash
  have hpos : 0 < name.length := List.length_pos_iff.2 hname.ne_nil
  have hne : (p.join ⟨name⟩).bytes.isEmpty = false := by
    rw [Bool.eq_false_iff, ne_eq, List.isEmpty_iff, ← List.length_eq_zero_iff]
    omega
  simp [accept, hne]

/-- What is looked up behind an opened directory is the entry of the last
name. -/
theorem locate_behind {follow : Bool} (hlead : tree.Leads p top)
    (hpass : tree.Passable top names) (hname : PlainName name)
    (hkeep : follow = true → ¬ tree.IsSymlinkAt (top ++ names ++ [name])) :
    tree.locate follow ((p.joinNames names).join ⟨name⟩)
      = if pathLimit < ((p.joinNames names).join ⟨name⟩).bytes.length then .error .nameTooLong
        else (tree.entry (top ++ names) name).map fun _ => top ++ names ++ [name] := by
  unfold locate
  rw [accept_behind _ hname]
  split
  · rfl
  · simp only [bind, Except.bind]
    rw [moves_behind hpass.plain hname]
    refine walk_append rfl (by simp) (fun links => ?_) hlead.walk
    rw [walk_through rfl hpass.isDir fun n hn => (hpass.fit n hn).short,
      walk_down hpass.isDir hkeep]

theorem find_behind_ok {place : List Name} (hlead : tree.Leads p top)
    (hpass : tree.Passable top names) (hname : PlainName name)
    (h : tree.find false ((p.joinNames names).join ⟨name⟩) = .ok place) :
    place = top ++ names ++ [name] := by
  unfold find at h
  split at h
  · simp at h
  · rw [locate_behind hlead hpass hname (by simp)] at h
    split at h
    · simp [Except.mapError] at h
    · cases hentry : tree.entry (top ++ names) name with
      | error e => simp [hentry, Except.map, Except.mapError] at h
      | ok node => simpa [hentry, Except.map, Except.mapError, eq_comm] using h

theorem lstat_behind (hlead : tree.Leads p top) (hpass : tree.Passable top names)
    (hname : PlainName name) :
    tree.lstat ((p.joinNames names).join ⟨name⟩)
      = if 0 ∈ name then .error .nulInName
        else if pathLimit < ((p.joinNames names).join ⟨name⟩).bytes.length then
          .error (.os .nameTooLong)
        else (tree.entry (top ++ names) name).mapError .os := by
  have hnul : ((p.joinNames names).join ⟨name⟩).bytes.contains 0 = decide (0 ∈ name) := by
    have hnames := Path.nul_notMem_joinNames hpass.no_slash hlead.no_nul
      fun n hn => (hpass.fit n hn).no_nul
    have hs : (0 : UInt8) ≠ slash := by decide
    rcases Path.join_bytes (p.joinNames names) hname.no_slash with hb | hb <;>
      simp [hb, hnames, hs]
  unfold lstat findNode find
  rw [hnul]
  by_cases hn : 0 ∈ name
  · simp [hn, bind, Except.bind]
  · have hkeep : false = true → ¬ tree.IsSymlinkAt (top ++ names ++ [name]) := by simp
    rw [locate_behind hlead hpass hname hkeep]
    simp only [hn, decide_false, Bool.false_eq_true, if_false]
    split
    · rfl
    · unfold entry
      split
      · rfl
      · cases hat : tree.at? (top ++ names ++ [name]) <;>
          simp only [Except.map, Except.mapError, bind, Except.bind, hat]

theorem lstat_behind_ok {node : Node} (hlead : tree.Leads p top)
    (hpass : tree.Passable top names) (hname : PlainName name)
    (h : tree.lstat ((p.joinNames names).join ⟨name⟩) = .ok node) :
    FitName name ∧ tree.at? (top ++ names ++ [name]) = some node := by
  rw [lstat_behind hlead hpass hname] at h
  split at h
  · simp at h
  · rename_i hnul
    split at h
    · simp at h
    · cases hentry : tree.entry (top ++ names) name with
      | error e => simp [hentry, Except.mapError] at h
      | ok found =>
          obtain rfl : found = node := by simpa [hentry, Except.mapError] using h
          obtain ⟨hshort, hat⟩ := entry_eq_ok.1 hentry
          exact ⟨⟨hname, hshort, hnul⟩, hat⟩

theorem lstat_behind_noEntry (hlead : tree.Leads p top)
    (hpass : tree.Passable top names) (hname : PlainName name)
    (h : tree.lstat ((p.joinNames names).join ⟨name⟩) = .error (.os .noEntry)) :
    FitName name ∧ tree.at? (top ++ names ++ [name]) = none := by
  rw [lstat_behind hlead hpass hname] at h
  split at h
  · simp at h
  · rename_i hnul
    split at h
    · have hne : Errno.nameTooLong ≠ Errno.noEntry := by decide
      simp [hne] at h
    · cases hentry : tree.entry (top ++ names) name with
      | ok found => simp [hentry, Except.mapError] at h
      | error e =>
          obtain rfl : e = .noEntry := by simpa [hentry, Except.mapError] using h
          obtain ⟨hshort, hat⟩ := entry_eq_noEntry.1 hentry
          exact ⟨⟨hname, hshort, hnul⟩, hat⟩

/-! ## Making files behind an opened directory -/

/-- `after` is `before` with `new` under a name that was free in the
directory at `parent`. -/
structure Made (before after : FileTree) (parent : List Name) (name : Name) (new : Node) :
    Prop where
  isDir : before.IsDirAt parent
  short : name.length ≤ nameLimit
  free : before.at? (parent ++ [name]) = none
  eq : after = before.put (parent ++ [name]) new

theorem addEntry_eq_ok {tree' : FileTree} {parent : List Name} {new : Node} :
    tree.addEntry parent name new = .ok tree' ↔ tree.Made tree' parent name new := by
  constructor
  · intro h
    unfold addEntry at h
    cases hat : tree.at? parent with
    | none => simp [hat] at h
    | some dir =>
        simp only [hat] at h
        cases dir with
        | dir mode entries =>
            simp only [Node.isDir, Bool.not_true, Bool.false_eq_true, if_false] at h
            split at h
            · simp at h
            · rename_i hlen
              cases hchild : (Node.dir mode entries).child? name with
              | some found => simp [hchild] at h
              | none =>
                  refine ⟨⟨mode, entries, hat⟩, by omega, ?_, ?_⟩
                  · rw [at?_concat hat, hchild]
                  · simpa [hchild] using h.symm
        | _ => simp [Node.isDir] at h
  · rintro ⟨⟨mode, entries, hat⟩, hshort, hfree, rfl⟩
    rw [at?_concat hat] at hfree
    simp [addEntry, hat, Node.isDir, hfree, Nat.not_lt.2 hshort]

theorem addEntry_alreadyExists {parent : List Name} {new : Node}
    (h : tree.addEntry parent name new = .error .alreadyExists) :
    ∃ found, tree.at? (parent ++ [name]) = some found := by
  unfold addEntry at h
  cases hat : tree.at? parent with
  | none =>
      have hne : Errno.noEntry ≠ Errno.alreadyExists := by decide
      simp [hat, hne] at h
  | some dir =>
      simp only [hat] at h
      split at h
      · have hne : Errno.notDirectory ≠ Errno.alreadyExists := by decide
        simp [hne] at h
      · split at h
        · have hne : Errno.nameTooLong ≠ Errno.alreadyExists := by decide
          simp [hne] at h
        · cases hchild : dir.child? name with
          | some found => exact ⟨found, by rw [at?_concat hat, hchild]⟩
          | none => simp [hchild] at h

/-- An entry is made, or is in the way of one, in a directory only. -/
theorem isDirAt_of_addEntry {parent : List Name} {new : Node}
    (h : ∀ e, tree.addEntry parent name new = .error e → e = .alreadyExists) :
    tree.IsDirAt parent := by
  unfold addEntry at h
  cases hat : tree.at? parent with
  | none => exact absurd (h .noEntry (by simp [hat])) (by decide)
  | some dir =>
      cases dir with
      | dir mode entries => exact ⟨mode, entries, hat⟩
      | _ => exact absurd (h .notDirectory (by simp [hat, Node.isDir])) (by decide)

theorem walk_lands (hlead : tree.Leads p top) (h : tree.Lands top names) :
    walk tree { followLast := true } linkLimit [] (p.pieceMoves ++ names.map .down)
      = .ok (top ++ names) := by
  rcases List.eq_nil_or_concat names with rfl | ⟨init, last, rfl⟩
  · simpa using hlead.walk
  · rw [List.concat_eq_append] at h ⊢
    obtain ⟨node, hnode, hkind⟩ := h.node
    have hpass : tree.Passable top init := h.init
    have hlast : ∀ n ∈ init, n.length ≤ nameLimit := fun n hn => (hpass.fit n hn).short
    have hentry : tree.entry (top ++ init) last = .ok node := by
      rw [← List.append_assoc] at hnode
      exact entry_eq_ok.2 ⟨(h.fit last (by simp)).short, hnode⟩
    have hkeep : true = true → ¬ tree.IsSymlinkAt (top ++ init ++ [last]) := by
      intro _
      rw [List.append_assoc]
      exact h.not_symlink (by simp : init ++ [last] = init ++ [last] ++ [])
    refine walk_append rfl (by simp) (fun links => ?_) hlead.walk
    rw [List.map_append, walk_through rfl hpass.isDir hlast, List.map_cons, List.map_nil,
      walk_down hpass.isDir hkeep, hentry]
    simp [Except.map]

/-- Names that land are found by their path. -/
theorem locate_lands (hopen : tree.openDir p = .ok top) (h : tree.Lands top names)
    (hacc : accept (p.joinNames names) = .ok ()) :
    tree.locate true (p.joinNames names) = .ok (top ++ names) := by
  by_cases hne : names = []
  · subst hne
    simpa [Path.joinNames_nil] using (openDir_eq_ok.1 hopen).2.1
  · have hplain : ∀ n ∈ names, PlainName n := fun n hn => (h.fit n hn).toPlainName
    have hwalk := walk_lands (.of_openDir hopen) h
    rw [← Path.moves_joinNames p hplain hne] at hwalk
    exact locate_eq_ok.2 ⟨hacc, hwalk⟩

/-- Making a file at a name behind a path is making an entry where the path
leads. -/
theorem make_join {q : Path} {new : Node} (hname : PlainName name) :
    tree.make (q.join ⟨name⟩) new
      = if pathLimit < (q.join ⟨name⟩).bytes.length then .error .nameTooLong
        else (walk tree { followLast := true } linkLimit [] q.pieceMoves).bind
          fun parent => tree.addEntry parent name new := by
  unfold make
  rw [accept_behind _ hname]
  split
  · rfl
  · rw [Path.moves_join q hname]
    simp only [bind, Except.bind, List.getLast?_append, List.getLast?_singleton,
      Option.some_or, List.dropLast_concat]

/-- Making a file behind an opened directory is making an entry of the last
name. -/
theorem make_behind {new : Node} (hlead : tree.Leads p top)
    (h : tree.Lands top names) (hname : PlainName name) :
    tree.make ((p.joinNames names).join ⟨name⟩) new
      = if pathLimit < ((p.joinNames names).join ⟨name⟩).bytes.length then .error .nameTooLong
        else tree.addEntry (top ++ names) name new := by
  have hplain : ∀ n ∈ names, PlainName n := fun n hn => (h.fit n hn).toPlainName
  rw [make_join hname, Path.pieceMoves_joinNames hplain, walk_lands hlead h]
  rfl

theorem make_behind_ok {new : Node} {tree' : FileTree} (hlead : tree.Leads p top)
    (h : tree.Lands top names) (hname : PlainName name)
    (hmake : tree.make ((p.joinNames names).join ⟨name⟩) new = .ok tree') :
    tree.Made tree' (top ++ names) name new := by
  rw [make_behind hlead h hname] at hmake
  split at hmake
  · simp at hmake
  · exact addEntry_eq_ok.1 hmake

theorem nul_notMem_of_join {q : Path} (hname : PlainName name) (h : 0 ∉ (q.join ⟨name⟩).bytes) :
    0 ∉ name := by
  intro hzero
  rcases Path.join_bytes q hname.no_slash with hb | hb <;> simp [hb, hzero] at h

theorem makeDir_behind_ok {mode : Nat} {tree' : FileTree} (hlead : tree.Leads p top)
    (h : tree.Lands top names) (hname : PlainName name)
    (hmake : tree.makeDir ((p.joinNames names).join ⟨name⟩) mode = .ok tree') :
    FitName name ∧ tree.Made tree' (top ++ names) name (.dir mode []) := by
  unfold makeDir at hmake
  split at hmake
  · simp at hmake
  · rename_i hnul
    cases hm : tree.make ((p.joinNames names).join ⟨name⟩) (.dir mode []) with
    | error e => simp [hm, Except.mapError] at hmake
    | ok made =>
        obtain rfl : made = tree' := by simpa [hm, Except.mapError] using hmake
        have hmade := make_behind_ok hlead h hname hm
        exact ⟨⟨hname, hmade.short, nul_notMem_of_join hname (by simpa using hnul)⟩, hmade⟩

theorem makeDir_behind_alreadyExists {mode : Nat} (hlead : tree.Leads p top)
    (h : tree.Lands top names) (hname : PlainName name)
    (hmake : tree.makeDir ((p.joinNames names).join ⟨name⟩) mode
      = .error (.os .alreadyExists)) :
    ∃ found, tree.at? (top ++ names ++ [name]) = some found := by
  unfold makeDir at hmake
  split at hmake
  · simp at hmake
  · rw [make_behind hlead h hname] at hmake
    split at hmake
    · have hne : Errno.nameTooLong ≠ Errno.alreadyExists := by decide
      simp [Except.mapError, hne] at hmake
    · cases ha : tree.addEntry (top ++ names) name (.dir mode []) with
      | ok made => simp [ha, Except.mapError] at hmake
      | error e =>
          obtain rfl : e = .alreadyExists := by simpa [ha, Except.mapError] using hmake
          exact addEntry_alreadyExists ha

theorem make_of_makeDir {q : Path} {mode : Nat} {tree' : FileTree}
    (hmake : tree.makeDir q mode = .ok tree') :
    0 ∉ q.bytes ∧ tree.make q (.dir mode []) = .ok tree' := by
  unfold makeDir at hmake
  split at hmake
  · simp at hmake
  · rename_i hnul
    refine ⟨by simpa using hnul, ?_⟩
    cases hm : tree.make q (.dir mode []) with
    | error e => simp [hm, Except.mapError] at hmake
    | ok made => simpa [hm, Except.mapError] using hmake

theorem make_of_makeFile {q : Path} {mode : Nat} {tree' : FileTree}
    (hmake : tree.makeFile q mode = .ok tree') :
    tree = tree' ∨ tree.make q (.file mode []) = .ok tree' := by
  unfold makeFile at hmake
  split at hmake
  · simp at hmake
  · split at hmake
    · split at hmake
      · simp at hmake
      · simp at hmake
      · exact .inl (Except.ok.inj hmake)
    · split at hmake
      · cases hm : tree.make q (.file mode []) with
        | error e => simp [hm, Except.mapError] at hmake
        | ok made => exact .inr (by simpa [hm, Except.mapError] using hmake)
      · simp at hmake

theorem make_of_makeLink {text q : Path} {tree' : FileTree}
    (hmake : tree.makeLink text q = .ok tree') : tree.make q (.symlink text) = .ok tree' := by
  unfold makeLink at hmake
  split at hmake
  · simp at hmake
  · cases hacc : accept text with
    | error e => simp [hacc, bind, Except.bind, Except.mapError] at hmake
    | ok _ =>
        simp only [hacc, bind, Except.bind] at hmake
        cases hm : tree.make q (.symlink text) with
        | error e => simp [hm, Except.mapError] at hmake
        | ok made => simpa [hm, Except.mapError] using hmake

theorem makeLink_behind_ok {text : Path} {tree' : FileTree} (hlead : tree.Leads p top)
    (h : tree.Lands top names) (hname : PlainName name)
    (hmake : tree.makeLink text ((p.joinNames names).join ⟨name⟩) = .ok tree') :
    tree.Made tree' (top ++ names) name (.symlink text) :=
  make_behind_ok hlead h hname (make_of_makeLink hmake)

/-- Where nothing is, an existing file cannot be kept, so one is made. -/
theorem makeFile_behind_ok {mode : Nat} {tree' : FileTree} (hlead : tree.Leads p top)
    (hpass : tree.Passable top names) (hname : PlainName name)
    (hfree : tree.at? (top ++ names ++ [name]) = none)
    (hmake : tree.makeFile ((p.joinNames names).join ⟨name⟩) mode = .ok tree') :
    FitName name ∧ tree.Made tree' (top ++ names) name (.file mode []) := by
  have hkeep : true = true → ¬ tree.IsSymlinkAt (top ++ names ++ [name]) := by
    rintro - ⟨text, ht⟩
    rw [hfree] at ht
    simp at ht
  unfold makeFile at hmake
  rw [locate_behind hlead hpass hname hkeep] at hmake
  split at hmake
  · simp at hmake
  · rename_i hnul
    split at hmake
    · rename_i place hloc
      split at hloc
      · simp at hloc
      · cases hentry : tree.entry (top ++ names) name with
        | error e => simp [hentry, Except.map] at hloc
        | ok found =>
            have hsome := (entry_eq_ok.1 hentry).2
            rw [hfree] at hsome
            simp at hsome
    · split at hmake
      · cases hm : tree.make ((p.joinNames names).join ⟨name⟩) (.file mode []) with
        | error e => simp [hm, Except.mapError] at hmake
        | ok made =>
            obtain rfl : made = tree' := by simpa [hm, Except.mapError] using hmake
            have hmade := make_behind_ok hlead hpass.lands hname hm
            exact ⟨⟨hname, hmade.short, nul_notMem_of_join hname (by simpa using hnul)⟩, hmade⟩
      · simp at hmake

/-! ## Where a file was made -/

theorem nul_notMem_of_join_left {q : Path} (hname : PlainName name)
    (h : 0 ∉ (q.join ⟨name⟩).bytes) : 0 ∉ q.bytes := by
  intro hzero
  rcases Path.join_bytes q hname.no_slash with hb | hb <;> simp [hb, hzero] at h

/-- A path that can be walked with names behind it leads to a directory. -/
theorem exists_leads {follow : Bool} {place : List Name} (names : List Name)
    (hnul : 0 ∉ p.bytes) (hne : names ≠ [])
    (h : walk tree { followLast := follow } linkLimit [] (p.pieceMoves ++ names.map .down)
      = .ok place) : ∃ top, tree.Leads p top := by
  obtain ⟨top, hwalk, hdir⟩ := walk_append_ok (by simpa using hne) h
  exact ⟨top, hnul, hwalk, hdir⟩

theorem exists_leads_of_joinNames {place : List Name} (hplain : ∀ n ∈ names, PlainName n)
    (h : tree.Leads (p.joinNames names) place) : ∃ top, tree.Leads p top := by
  by_cases hne : names = []
  · subst hne
    exact ⟨place, h⟩
  · have hwalk := h.walk
    rw [Path.pieceMoves_joinNames hplain] at hwalk
    refine exists_leads names (fun hzero => h.no_nul ?_) hne hwalk
    exact Path.mem_joinNames (fun n hn => (hplain n hn).no_slash) hzero

variable {q : Path}

theorem exists_leads_of_locate {follow : Bool} {place : List Name} (hname : PlainName name)
    (hnul : 0 ∉ (q.join ⟨name⟩).bytes) (h : tree.locate follow (q.join ⟨name⟩) = .ok place) :
    ∃ parent, tree.Leads q parent := by
  obtain ⟨-, hwalk⟩ := locate_eq_ok.1 h
  rw [Path.moves_join q hname] at hwalk
  exact exists_leads [name] (nul_notMem_of_join_left hname hnul) (by simp) hwalk

/-- Where a file was made, or was in the way of one, is a directory. -/
theorem exists_leads_of_make (new : Node) (hname : PlainName name)
    (hnul : 0 ∉ (q.join ⟨name⟩).bytes)
    (h : ∀ e, tree.make (q.join ⟨name⟩) new = .error e → e = .alreadyExists) :
    ∃ parent, tree.Leads q parent := by
  have hlong : Errno.nameTooLong ≠ .alreadyExists := by decide
  rw [make_join hname] at h
  split at h
  · exact absurd (h _ rfl) hlong
  · cases hwalk : walk tree { followLast := true } linkLimit [] q.pieceMoves with
    | error e =>
        rw [hwalk] at h
        obtain rfl := h e rfl
        exact absurd hwalk walk_ne_alreadyExists
    | ok parent =>
        rw [hwalk] at h
        refine ⟨parent, nul_notMem_of_join_left hname hnul, hwalk, ?_⟩
        exact isDirAt_of_addEntry h

theorem exists_leads_of_makeDir {mode : Nat} (hname : PlainName name)
    (h : ∀ fault, tree.makeDir (q.join ⟨name⟩) mode = .error fault → fault = .os .alreadyExists) :
    ∃ parent, tree.Leads q parent := by
  unfold makeDir at h
  split at h
  · exact absurd (h _ rfl) (by simp)
  · rename_i hnul
    refine exists_leads_of_make (.dir mode []) hname (by simpa using hnul) fun e he => ?_
    simpa [he, Except.mapError] using h

theorem exists_leads_of_makeFile {mode : Nat} {tree' : FileTree} (hname : PlainName name)
    (h : tree.makeFile (q.join ⟨name⟩) mode = .ok tree') : ∃ parent, tree.Leads q parent := by
  unfold makeFile at h
  split at h
  · simp at h
  · rename_i hnul
    have hnul' : 0 ∉ (q.join ⟨name⟩).bytes := by simpa using hnul
    cases hloc : tree.locate true (q.join ⟨name⟩) with
    | ok place => exact exists_leads_of_locate hname hnul' hloc
    | error e =>
        simp only [hloc] at h
        split at h
        · refine exists_leads_of_make (.file mode []) hname hnul' fun e he => ?_
          simp [he, Except.mapError] at h
        · simp at h

namespace Made

variable {before after : FileTree} {parent : List Name} {new : Node}

theorem at?_self (h : Made before after parent name new) :
    after.at? (parent ++ [name]) = some new := by
  obtain ⟨mode, entries, hd⟩ := h.isDir
  rw [h.eq]
  exact Node.at?_put_self hd name new

theorem at?_below (h : Made before after parent name new) (rest : List Name) :
    after.at? (parent ++ [name] ++ rest) = new.at? rest := by
  rw [h.eq, at?_put_below h.isDir]

theorem grows (h : Made before after (top ++ names) name new) (hnew : IsBare new)
    (hplain : ∀ n ∈ names ++ [name], PlainName n) : before.Grows top after := by
  rw [h.eq]
  exact grows_put h.isDir h.free hnew hplain

end Made

end Behind

/-! ## Opening without symlinks -/

theorem descend_ok {here names place : List Name} (h : tree.descend here names = .ok place) :
    place = here ++ names := by
  induction names generalizing here with
  | nil => simpa [descend] using h.symm
  | cons name rest ih =>
      simp only [descend] at h
      split at h
      · split at h
        · simp at h
        · split at h
          · simp at h
          · simp at h
          · simpa using ih h
      · simp at h
      · simp at h

theorem openBeneath_ok {top names place : List Name}
    (h : tree.openBeneath top names = .ok place) : place = top ++ names := by
  unfold openBeneath at h
  cases hacc : accept (Path.ofNames names) with
  | error e => simp [hacc, bind, Except.bind] at h
  | ok _ =>
      simp only [hacc, bind, Except.bind] at h
      exact descend_ok h

/-! ## Real paths -/

/-- The path is the real path of an existing directory. -/
def IsRealDir (tree : FileTree) (p : Path) : Prop :=
  (∃ given, tree.realPath given = .ok p) ∧ ∃ mode entries, tree.stat p = .ok (.dir mode entries)

theorem openDir_root (h : tree.IsDirAt []) : tree.openDir Path.root = .ok [] := by
  refine openDir_eq_ok.2 ⟨by decide, ?_, h⟩
  have hacc : accept Path.root = .ok () := by decide
  have hmoves : Path.root.moves = [.stay] := by decide
  have hfar : WalkRules.tooFar { followLast := true } [] .stay = false := tooFar_eq_false rfl _
  refine locate_eq_ok.2 ⟨hacc, ?_⟩
  rw [hmoves]
  exact (walkVia_stay h hfar).trans (by rw [walkVia])

theorem isDirAt_of_locate_root {place : List Name}
    (h : tree.locate true Path.root = .ok place) : tree.IsDirAt [] := by
  obtain ⟨-, hwalk⟩ := locate_eq_ok.1 h
  have hmoves : Path.root.moves = [.stay] := by decide
  rw [hmoves] at hwalk
  exact (walkVia_cons_ok hwalk).2.1

theorem find_eq_ok {p : Path} {follow : Bool} {place : List Name} :
    tree.find follow p = .ok place ↔ 0 ∉ p.bytes ∧ tree.locate follow p = .ok place := by
  unfold find
  split
  · rename_i hnul
    simp [List.contains_iff_mem.1 hnul]
  · rename_i hnul
    have hnul' : 0 ∉ p.bytes := by simpa using hnul
    cases tree.locate follow p <;> simp [Except.mapError, hnul']

theorem findNode_eq_ok {p : Path} {follow : Bool} {node : Node} :
    tree.findNode follow p = .ok node ↔
      ∃ place, tree.find follow p = .ok place ∧ tree.at? place = some node := by
  unfold findNode
  cases tree.find follow p with
  | error e => simp [bind, Except.bind]
  | ok place =>
      simp only [bind, Except.bind]
      cases hat : tree.at? place <;> simp [hat]

/-- A path that leads to a directory can be opened. -/
theorem exists_openDir {p : Path} {node : Node} (h : tree.stat p = .ok node)
    (hdir : node.isDir = true) :
    ∃ top, tree.openDir p = .ok top ∧ tree.at? top = some node := by
  obtain ⟨mode, entries, rfl⟩ := Node.eq_dir_of_isDir hdir
  obtain ⟨top, hfind, hat⟩ := findNode_eq_ok.1 h
  obtain ⟨hnul, hloc⟩ := find_eq_ok.1 hfind
  exact ⟨top, openDir_eq_ok.2 ⟨hnul, hloc, mode, entries, hat⟩, hat⟩

/-- A walk along plain names that end at no symlink goes where they say. -/
theorem locate_ofNames {top : List Name} (hacc : accept (Path.ofNames top) = .ok ())
    (hroot : tree.IsDirAt []) (h : tree.Lands [] top) :
    tree.locate true (Path.ofNames top) = .ok top :=
  locate_lands (openDir_root hroot) h hacc

theorem trace_eq_ok {p : Path} {place : List Name} :
    tree.trace p = .ok place ↔ p.bytes ≠ []
      ∧ walk tree { followLast := true, reach := some pathLimit } linkLimit [] p.moves
        = .ok place := by
  unfold trace
  split
  · rename_i hempty
    simp [List.isEmpty_iff.1 hempty]
  · rename_i hne
    simp [List.isEmpty_iff.not.1 hne]

theorem realPath_eq_ok {p real : Path} :
    tree.realPath p = .ok real ↔
      0 ∉ p.bytes ∧ ∃ place, tree.trace p = .ok place ∧ real = Path.ofNames place := by
  unfold realPath
  split
  · rename_i hnul
    simp [List.contains_iff_mem.1 hnul]
  · rename_i hnul
    have hnul' : 0 ∉ p.bytes := by simpa using hnul
    cases tree.trace p <;> simp [Except.map, Except.mapError, hnul', eq_comm]

/-- Where all links are followed there is a file that is no symlink. -/
theorem sound_of_trace {p : Path} {place : List Name} (h : tree.trace p = .ok place) :
    tree.Sound place :=
  walk_sound rfl (Sound.nil tree) (fun _ hn => Move.plain_of_mem_moves hn) (trace_eq_ok.1 h).2

/-- The path of the names that lead to a file is looked up where they say. -/
theorem locate_of_sound {top : List Name} (h : tree.Sound top) (hnul : ∀ n ∈ top, 0 ∉ n)
    (hacc : accept (Path.ofNames top) = .ok ()) (hroot : tree.IsDirAt []) :
    tree.locate true (Path.ofNames top) = .ok top := by
  rcases h.node with rfl | hnode
  · exact (openDir_eq_ok.1 (openDir_root hroot)).2.1
  · exact locate_ofNames hacc hroot ⟨hnode, fun n hn => ⟨h.plain n hn, h.short n hn, hnul n hn⟩⟩

/-- The real path of a directory is written by the names that lead to it,
and is opened there. -/
theorem openDir_of_isRealDir {p : Path} (h : tree.IsRealDir p) :
    ∃ top, p = Path.ofNames top ∧ (∀ n ∈ top, FitName n) ∧ tree.openDir p = .ok top := by
  obtain ⟨⟨given, hreal⟩, mode, entries, hstat⟩ := h
  obtain ⟨-, top, htrace, rfl⟩ := realPath_eq_ok.1 hreal
  have hsound := sound_of_trace htrace
  obtain ⟨place, hfind, hdir⟩ := findNode_eq_ok.1 hstat
  obtain ⟨hnul, hloc⟩ := find_eq_ok.1 hfind
  have hfit : ∀ n ∈ top, FitName n := fun n hn =>
    ⟨hsound.plain n hn, hsound.short n hn,
      Path.nul_notMem_of_joinNames (fun n hn => (hsound.plain n hn).no_slash) hnul n hn⟩
  refine ⟨top, rfl, hfit, openDir_eq_ok.2 ?_⟩
  have hacc : accept (Path.ofNames top) = .ok () := (locate_eq_ok.1 hloc).1
  have hroot : tree.IsDirAt [] := by
    by_cases hne : top = []
    · subst hne
      exact isDirAt_of_locate_root hloc
    · obtain ⟨node, hat, -⟩ := hsound.node.resolve_left hne
      exact isDirAt_of_at?_append (by simpa using hat) hne
  have htop := locate_of_sound hsound (fun n hn => (hfit n hn).no_nul) hacc hroot
  obtain rfl : place = top := by simpa [hloc] using htop
  exact ⟨hnul, hloc, mode, entries, hdir⟩

theorem list_eq_ok {order : ListingOrder} {p : Path} {entries : List (Name × Node)}
    (h : tree.list order p = .ok entries) :
    ∃ place mode children, tree.find true p = .ok place
      ∧ tree.at? place = some (.dir mode children)
      ∧ entries = (entryNames order children).filterMap fun name =>
          (children.lookup name).map fun node => (name, node) := by
  unfold list at h
  cases hstat : tree.stat p with
  | error e => simp [hstat, bind, Except.bind] at h
  | ok node =>
      cases node with
      | dir mode children =>
          obtain ⟨place, hfind, hat⟩ := findNode_eq_ok.1 hstat
          simp only [hstat, bind, Except.bind, Except.ok.injEq] at h
          exact ⟨place, mode, children, hfind, hat, h.symm⟩
      | _ => simp [hstat, bind, Except.bind] at h

/-- The entries of a directory of well-named files have plain names. -/
theorem list_plain {order : ListingOrder} {p : Path} {entries : List (Name × Node)}
    (hnamed : tree.WellNamed) (h : tree.list order p = .ok entries) :
    ∀ e ∈ entries, PlainName e.1 := by
  obtain ⟨place, mode, children, -, hat, rfl⟩ := list_eq_ok h
  intro e he
  obtain ⟨name, -, hname⟩ := List.mem_filterMap.1 he
  obtain ⟨child, hchild, rfl⟩ := Option.map_eq_some_iff.1 hname
  have hplace : tree.at? (place ++ [name]) = some child := by
    rw [at?_concat hat, Node.child?_dir, hchild]
  exact hnamed _ child hplace name (by simp)

end ContainerMounts.FileTree
