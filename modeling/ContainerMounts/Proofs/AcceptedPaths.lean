/-
ContainerMounts.Proofs.AcceptedPaths — the paths of targets are short enough.

The kernel refuses a path that is too long before it looks at any file, so
names that lead to a file are no use when their path is too long. A target
that was resolved was looked at under its path on the host (`Accepts.down`),
and one that was prepared was made under it (`makeNames_accepts`), so the
kernel has taken that path once. The path that the names have below the root
is the end of it, and so the kernel takes that as well
(`Path.length_ofNames_le`).
-/
import ContainerMounts.Proofs.Preparation

namespace ContainerMounts

/-! ## The path of the names -/

namespace Path

variable {p q : Path} {names : List Name}

/-- What is joined to the end of a path is joined to the path. -/
theorem joinNames_behind {before : List UInt8} (hbytes : p.bytes = before ++ q.bytes)
    (hne : q.bytes ≠ []) (h : ∀ n ∈ names, slash ∉ n) :
    (p.joinNames names).bytes = before ++ (q.joinNames names).bytes := by
  induction names generalizing p q with
  | nil => exact hbytes
  | cons name names ih =>
      have hname := h name (by simp)
      have hp : p.bytes ≠ [] := by simp [hbytes, hne]
      have hlast : p.bytes.getLast? = q.bytes.getLast? := by
        rw [hbytes, List.getLast?_append_of_ne_nil _ hne]
      have hjoin : (p.join ⟨name⟩).bytes = before ++ (q.join ⟨name⟩).bytes := by
        simp only [join, PlainName.not_absolute hname, hlast, List.isEmpty_eq_false_iff.2 hp,
          List.isEmpty_eq_false_iff.2 hne, Bool.false_or, Bool.false_eq_true, if_false]
        split <;> simp [hbytes]
      have hne' : (q.join ⟨name⟩).bytes ≠ [] := by
        rcases join_bytes q hname with hq | hq <;> simp [hq, hne]
      exact ih hjoin hne' fun n hn => h n (by simp [hn])

/-- The path of names behind a path is no shorter than that behind the root. -/
theorem length_ofNames_le (hne : p.bytes ≠ []) (h : ∀ n ∈ names, slash ∉ n) :
    (ofNames names).bytes.length ≤ (p.joinNames names).bytes.length := by
  cases names with
  | nil =>
      have hpos := List.length_pos_iff.2 hne
      simp only [ofNames, joinNames_nil, root, List.length_singleton]
      omega
  | cons name names =>
      have hname := h name (by simp)
      have hroot : (root.join ⟨name⟩).bytes = slash :: name := by
        simp [join, PlainName.not_absolute hname, root]
      obtain ⟨before, hbefore⟩ : ∃ before, (p.join ⟨name⟩).bytes
          = before ++ (root.join ⟨name⟩).bytes := by
        by_cases hlast : p.bytes.getLast? = some slash
        · obtain ⟨before, hp⟩ := List.getLast?_eq_some_iff.1 hlast
          refine ⟨before, ?_⟩
          simp [join, PlainName.not_absolute hname, hp, root]
        · refine ⟨p.bytes, ?_⟩
          rw [hroot]
          simp [join, PlainName.not_absolute hname, hlast, hne]
      have hbehind := joinNames_behind hbefore (by simp [hroot])
        fun n hn => h n (List.mem_cons_of_mem _ hn)
      rw [ofNames, joinNames_cons, joinNames_cons, hbehind, List.length_append]
      omega

end Path

/-! ## Paths that the kernel took -/

namespace FileTree

variable {tree tree' : FileTree} {p : Path} {node : Node} {mode : Nat}

theorem accept_error {p : Path} {e : Errno} (h : accept p = .error e) :
    e = .noEntry ∨ e = .nameTooLong := by
  unfold accept at h
  split at h
  · exact .inl (Except.error.inj h).symm
  · split at h
    · exact .inr (Except.error.inj h).symm
    · simp at h

theorem accept_of_findNode {follow : Bool} (h : tree.findNode follow p = .ok node) :
    accept p = .ok () := by
  obtain ⟨place, hfind, -⟩ := findNode_eq_ok.1 h
  exact (locate_eq_ok.1 (find_eq_ok.1 hfind).2).1

/-- A path at which a creation fails for nothing but what is there already was
taken. -/
theorem accept_of_make (h : ∀ e, tree.make p node = .error e → e = .alreadyExists) :
    accept p = .ok () := by
  cases hacc : accept p with
  | ok _ => rfl
  | error e =>
      obtain rfl : e = .alreadyExists := h e (by simp [make, hacc, bind, Except.bind])
      exact absurd (accept_error hacc) (by decide)

theorem accept_of_makeDir
    (h : ∀ fault, tree.makeDir p mode = .error fault → fault = .os .alreadyExists) :
    accept p = .ok () := by
  unfold makeDir at h
  split at h
  · simp at h
  · have hmake : ∀ e, tree.make p (.dir mode []) = .error e → e = .alreadyExists := by
      intro e hmake
      simpa using h (.os e) (by simp [hmake, Except.mapError])
    exact accept_of_make hmake

theorem accept_of_makeFile (h : tree.makeFile p mode = .ok tree') : accept p = .ok () := by
  unfold makeFile at h
  split at h
  · simp at h
  · cases hloc : tree.locate true p with
    | ok place => exact (locate_eq_ok.1 hloc).1
    | error e =>
        simp only [hloc] at h
        split at h
        · have hmake : ∀ e, tree.make p (.file mode []) = .error e → e = .alreadyExists := by
            intro e hmake
            simp [hmake, Except.mapError] at h
          exact accept_of_make hmake
        · simp at h

end FileTree

namespace Rootfs

open FileTree

variable {rootfs : Rootfs} {host : Host} {m : Machine} {tree : FileTree} {target : Path}
  {followLast : Bool} {top names : List Name} {r : ResolvedPath}

/-- The kernel took the path of every name that exists, of those that a walk has
come by. -/
structure Accepts (rootfs : Rootfs) (walked : Walked) : Prop where
  within : ∀ i ∈ walked.2, i ≤ walked.1.length
  accepted : ∀ init, init <+: walked.1 → (∀ i ∈ walked.2, init.length ≤ i) →
    accept (rootfs.hostPath init) = .ok ()

namespace Accepts

variable {name : Name} {node : Node} {missing : Option Nat}

theorem start (h : accept rootfs.path = .ok ()) : Accepts rootfs ([], none) := by
  refine ⟨by simp, ?_⟩
  intro init hinit _
  obtain rfl := List.prefix_nil.1 hinit
  exact h

theorem up (h : Accepts rootfs (names, missing)) :
    Accepts rootfs (names.dropLast, stillMissing missing names.dropLast) := by
  have hkept : ∀ i ∈ stillMissing missing names.dropLast,
      missing = some i ∧ i < names.dropLast.length := by
    intro i hi
    simpa [stillMissing, Option.filter_eq_some_iff] using hi
  refine ⟨fun i hi => Nat.le_of_lt (hkept i hi).2, ?_⟩
  intro init hinit hlength
  refine h.accepted init (hinit.trans (List.dropLast_prefix names)) ?_
  -- a missing name that was taken back lies behind all names that are left
  intro i hi
  by_cases hlt : i < names.dropLast.length
  · exact hlength i (Option.filter_eq_some_iff.2 ⟨hi, by simpa using hlt⟩)
  · have hle : init.length ≤ names.dropLast.length := hinit.length_le
    omega

theorem down (h : Accepts rootfs (names, none))
    (hstat : tree.lstat ((rootfs.hostPath names).join ⟨name⟩) = .ok node) :
    Accepts rootfs (names ++ [name], none) := by
  refine ⟨by simp, ?_⟩
  intro init hinit _
  rcases List.prefix_concat_iff.1 hinit with rfl | hinit
  · rw [hostPath, Path.joinNames_concat]
    exact accept_of_findNode hstat
  · exact h.accepted init hinit (by simp)

theorem down_missing (h : Accepts rootfs (names, missing)) :
    Accepts rootfs (names ++ [name], some (missing.getD names.length)) := by
  have hwithin : missing.getD names.length ≤ names.length := by
    cases missing with
    | none => simp
    | some i => exact h.within i rfl
  refine ⟨?_, ?_⟩
  · intro i hi
    obtain rfl := Option.some.inj hi
    rw [List.length_append]
    omega
  · intro init hinit hlength
    have hle := hlength _ rfl
    rcases List.prefix_concat_iff.1 hinit with rfl | hinit
    · simp only [List.length_append, List.length_singleton] at hle
      omega
    · refine h.accepted init hinit ?_
      rintro i rfl
      exact hle

end Accepts

theorem walkInvariant_accepts (hopen : tree.openDir rootfs.path = .ok top) :
    WalkInvariant rootfs tree followLast (Accepts rootfs) (Accepts rootfs) where
  root := .start (locate_eq_ok.1 (openDir_eq_ok.1 hopen).2.1).1
  stop h := h
  up h := h.up
  behind h _ := h.down_missing
  absent h _ _ := h.down_missing
  dir h _ hstat _ := h.down hstat
  leaf h _ hstat _ := h.down hstat

/-- The kernel takes the path of a target that exists. -/
theorem accept_of_resolveWith (hopen : tree.openDir rootfs.path = .ok top)
    (h : rootfs.resolveWith tree target followLast = .ok r) (hall : r.firstMissing = none) :
    accept r.hostPath = .ok () := by
  obtain ⟨rfl, hend⟩ := (walkInvariant_accepts hopen).resolveWith h
  rw [hall] at hend
  exact hend.accepted r.names List.prefix_rfl (by simp)

/-! ## Paths of what was made -/

theorem ensureDir_accepts {path : Path} :
    Contract .free host m (ensureDir path) fun _ _ => accept path = .ok () := by
  unfold ensureDir
  have hdir : (∀ fault, m.tree.makeDir path dirMode = .error fault → fault = .os .alreadyExists) →
      accept path = .ok () := accept_of_makeDir
  refine .bind (.change? (fun made m' hedit _ _ => ⟨trivial, fun _ => .pure ?_⟩)
    fun fault hedit _ => ?_)
  · exact hdir fun fault hfault => by simp [hedit] at hfault
  · dsimp only
    split
    · rename_i hexists
      refine .pure (hdir fun other hother => ?_)
      rw [hedit] at hother
      rw [← Except.error.inj hother, hexists]
    · exact .throw

theorem ensurePlaceholder_accepts {placeholder : Placeholder} {path : Path}
    (hkind : placeholder ≠ .parentOnly) :
    Contract .free host m (ensurePlaceholder placeholder path) fun _ _ => accept path = .ok () := by
  cases placeholder with
  | directory => exact ensureDir_accepts
  | file =>
      refine .bind (.change? (fun made m' hedit _ _ => ⟨trivial, fun _ => .pure ?_⟩)
        fun fault _ _ => .throw)
      exact accept_of_makeFile hedit
  | parentOnly => exact absurd rfl hkind

theorem makeNames_accepts {placeholder : Placeholder} (path : Path)
    (hkind : placeholder ≠ .parentOnly) (hne : names ≠ []) :
    Contract .free host m (makeNames placeholder path names)
      fun _ _ => accept (path.joinNames names) = .ok () := by
  induction names generalizing m path with
  | nil => exact absurd rfl hne
  | cons first rest ih =>
      cases rest with
      | nil => exact ensurePlaceholder_accepts hkind
      | cons second rest => exact .andThen ensureDir_accepts fun _ _ _ _ => ih _ (by simp)

/-- The kernel takes the path of a target that was made. -/
theorem prepare_accepts (target : Path) {placeholder : Placeholder} (hkind : placeholder ≠ .parentOnly)
    (hopen : m.tree.openDir rootfs.path = .ok top) :
    Contract .free host m (rootfs.prepare target placeholder)
      fun r _ => accept r.hostPath = .ok () := by
  unfold prepare
  refine .bind (.tree fun _ => .bind (.lift fun r hr _ => ?_))
  have hmake : Contract .free host m (makeMissing placeholder r)
      fun _ _ => accept r.hostPath = .ok () := by
    unfold makeMissing
    cases hmissing : r.firstMissing with
    | none => exact .pure (accept_of_resolveWith hopen hr hmissing)
    | some i =>
        have hne : r.names.drop i ≠ [] := by
          have hends := (resolveWith_ends (.of_openDir hopen) hr).2
          generalize hnames : r.names = names at hends
          rw [hmissing] at hends
          cases hends with
          | stands h =>
              cases h with
              | behind => simp
        have hmade : Contract .free host m _ _ :=
          makeNames_accepts (r.rootfs.hostPath (r.names.take i)) hkind hne
        rw [hostPath, ← Path.joinNames_append, List.take_append_drop] at hmade
        exact hmade
  exact .andThen hmake fun _ _ _ haccept => .pure haccept

end Rootfs

end ContainerMounts
