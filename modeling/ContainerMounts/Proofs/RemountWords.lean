/-
ContainerMounts.Proofs.RemountWords — the flags that a bind remount asks for.

Five functions go through the axes of an option list one by one: the reader of
the list, the flags that are wanted, those that are opened, whether a remount is
needed at all, and the inheritance from the mount table. `RemountWord` says what
the last tokens of a list make of the ambient flags, a flag at a time: a restriction
is inherited, imposed or opened by itself (`MountTable.includes_inheritRelaxed`),
and of the access-time modes a mount has one.

A bind that needs no remount ends with the flags of its source. These are the
ambient flags of its target from then on, so a remount would ask for what is
there (`MountOptions.inheritRelaxed_of_skipped`).

Main statement: `Executor.remount_right_or_skipped`.
-/
import ContainerMounts.Proofs.RequestedFlags.Runs

namespace ContainerMounts

/-! ## Flags from the mount table -/

namespace MountFlags

/-- The options of a live mount that stand for a flag. -/
def listedOptions : List String :=
  ["ro", "nosuid", "nodev", "noexec", "noatime", "nodiratime", "relatime"]

/-- Those that stand for this one. -/
def optionsFor (part : MountFlags) : List String :=
  listedOptions.filter fun option => (ofOption option).includes part

variable {part : MountFlags} {option : String}

theorem nodiratime_isBit : IsBit nodiratime := ⟨11, by decide, by decide⟩

theorem synchronous_isBit : IsBit synchronous := ⟨4, by decide, by decide⟩

theorem dirsync_isBit : IsBit dirsync := ⟨7, by decide, by decide⟩

theorem ofOption_unlisted (h : option ∉ listedOptions) : ofOption option = 0 := by
  unfold ofOption
  split <;> simp_all [listedOptions, none]

theorem IsBit.mem_optionsFor (hbit : IsBit part) :
    option ∈ optionsFor part ↔ (ofOption option).includes part = true := by
  rw [optionsFor, List.mem_filter]
  refine ⟨fun h => h.2, fun h => ⟨?_, h⟩⟩
  by_contra hunlisted
  rw [ofOption_unlisted hunlisted, hbit.includes_none] at h
  simp at h

end MountFlags

open MountFlags (Apart IsBit optionsFor)

/-- A live mount has a flag if it lists an option that stands for it. -/
theorem MountRecord.includes_flags (m : MountRecord) {part : MountFlags} (hbit : IsBit part) :
    m.flags.includes part = (optionsFor part).any m.hasOption := by
  have hnone : MountFlags.none.includes part = false := hbit.includes_none
  rw [MountRecord.flags, hbit.includes_foldl, hnone, Bool.false_or, Bool.eq_iff_iff]
  simp only [List.any_eq_true, hbit.mem_optionsFor, hasOption, List.contains_iff_mem]
  exact exists_congr fun option => and_comm

namespace MountTable

variable {table : MountTable} {path : Path} {wanted relaxed part : MountFlags}

theorem includes_ambient_eq_false (hbit : IsBit part) (hoptions : optionsFor part = []) :
    (table.ambient path).includes part = false := by
  unfold ambient
  split
  · rw [MountRecord.includes_flags _ hbit, hoptions, List.any_nil]
  · exact hbit.includes_none

/-- A flag that is no access-time mode is inherited, added or opened by itself. -/
theorem includes_inheritRelaxed (hbit : IsBit part)
    (hapart : MountFlags.Apart MountFlags.atimeModes part) :
    (table.inheritRelaxed path wanted relaxed).includes part
      = (((table.ambient path).includes part || wanted.includes part)
        && !relaxed.includes part) := by
  rw [inheritRelaxed, hbit.includes_without, inherit, hbit.includes_or]
  split_ifs
  · rw [MountFlags.includes_without_of_apart hapart]
  · rfl

end MountTable

/-! ## The word of a remount -/

/-- The flags to be asked for, axis by axis, by a bind remount inside a mount with
these ambient flags. -/
structure RemountWord (tokens : List String) (ambient word : MountFlags) : Prop where
  /-- A restriction is asked for by the last token of its axis. Where no token is of
  its axis, the ambient flags decide. -/
  restricted : ∀ r : Restriction, word.includes r.flag = true ↔
    (∃ t, r.axis.lastToken? tokens = some t ∧ t ∈ r.tokens)
      ∨ (r.axis.lastToken? tokens = none ∧ ambient.includes r.flag = true)
  /-- The ambient access-time mode gives way to the one that is asked for. -/
  atime : ∀ mode : AtimeMode, Axis.atime.outcome tokens = mode →
    word &&& MountFlags.atimeModes
      = if mode = .unset then ambient &&& MountFlags.atimeModes else mode.flag
  nodiratime : word.includes MountFlags.nodiratime = ambient.includes MountFlags.nodiratime
  synchronous : word.includes MountFlags.synchronous = true ↔ Axis.sync.outcome tokens = .sync
  dirsync : word.includes MountFlags.dirsync = true ↔ Axis.sync.outcome tokens = .dirsync

namespace MountOptions

variable {o : MountOptions} {tokens : List String} {table : MountTable} {path : Path}
  {part : MountFlags}

/-- What the last token of its axis says about a restriction. -/
theorem Reads.restriction (h : Reads tokens o) (r : Restriction) :
    match r.axis.lastToken? tokens with
    | none => o.imposes r = false ∧ o.opens r = false
    | some t => o.imposes r = decide (t ∈ r.tokens) ∧ o.opens r = !decide (t ∈ r.tokens) := by
  have hwords : ∀ e ∈ r.axis.words, r.imposedBy e.2 = decide (e.1 ∈ r.tokens)
      ∧ r.openedBy e.2 = !decide (e.1 ∈ r.tokens) := by
    cases r <;> decide
  rw [imposes, opens, h.axis, Axis.outcome]
  cases hlast : r.axis.lastToken? tokens with
  | none => cases r <;> exact ⟨rfl, rfl⟩
  | some t =>
      obtain ⟨⟨_, v⟩, hv, rfl⟩ := List.mem_map.1 (Axis.has_of_lastToken? hlast).2
      rw [Option.bind_some, Axis.value?_word hv]
      exact hwords _ hv

/-- A flag that is no restriction and no access-time mode. -/
theorem includes_inheritRelaxed_other (hbit : IsBit part)
    (hrestrictions : Apart Restriction.all part) (hatime : Apart MountFlags.atimeModes part) :
    (table.inheritRelaxed path o.flags o.relaxed).includes part
      = ((table.ambient path).includes part || o.sync.flag.includes part) := by
  have hunion (chosen : Restriction → Bool) :
      MountFlags.includes (Restriction.union chosen) part = false :=
    hbit.includes_of_apart (Restriction.union_apart hrestrictions)
  have hmode : o.atime.flag.includes part = false := by
    refine hbit.includes_of_apart (Apart.of_includes hatime ?_)
    cases o.atime <;> decide
  have hflags : o.flags.includes part = o.sync.flag.includes part := by
    rw [flags_eq, hbit.includes_or, hbit.includes_or, hmode, hunion, Bool.or_false, Bool.false_or]
  rw [MountTable.includes_inheritRelaxed hbit hatime, hflags, relaxed_eq, hunion, Bool.not_false,
    Bool.and_true]

/-- The ambient access-time mode is kept where none is asked for. -/
theorem inheritRelaxed_and_atimeModes (o : MountOptions) (table : MountTable) (path : Path) :
    table.inheritRelaxed path o.flags o.relaxed &&& MountFlags.atimeModes
      = if o.atime = .unset then table.ambient path &&& MountFlags.atimeModes
        else o.atime.flag := by
  split_ifs with hunset
  · have hrelaxed : Apart o.relaxed MountFlags.atimeModes := by
      rw [relaxed_eq]
      exact Restriction.union_apart (by decide)
    have hflags : Apart o.flags MountFlags.atimeModes := by
      have hsync : Apart o.sync.flag MountFlags.atimeModes := by cases o.sync <;> decide
      rw [flags_eq, hunset]
      exact ((Restriction.union_apart (by decide)).or (by decide)).or hsync
    have hkept : o.flags.meets MountFlags.atimeModes = false := hflags.not_meets (by decide)
    rw [MountTable.inheritRelaxed, MountFlags.without_and_of_apart hrelaxed, MountTable.inherit,
      if_neg (by rw [hkept]; decide), MountFlags.or_and_of_apart hflags]
  · exact (granted_inheritRelaxed o table path).atime hunset

/-- The last token of its axis decides about a restriction, or the ambient flags do. -/
theorem Reads.includes_inheritRelaxed (h : Reads tokens o) (r : Restriction) :
    (table.inheritRelaxed path o.flags o.relaxed).includes r.flag = true ↔
      (∃ t, r.axis.lastToken? tokens = some t ∧ t ∈ r.tokens)
        ∨ (r.axis.lastToken? tokens = none ∧ (table.ambient path).includes r.flag = true) := by
  have hapart : Apart MountFlags.atimeModes r.flag := by cases r <;> decide
  rw [MountTable.includes_inheritRelaxed r.flag_isBit hapart, flags_includes, relaxed_includes]
  have hasked := h.restriction r
  cases hlast : r.axis.lastToken? tokens with
  | none =>
      rw [hlast] at hasked
      simp [hasked.1, hasked.2]
  | some t =>
      rw [hlast] at hasked
      by_cases ht : t ∈ r.tokens <;> simp [hasked.1, hasked.2, ht]

theorem Reads.remountWord (h : Reads tokens o) (table : MountTable) (path : Path) :
    RemountWord tokens (table.ambient path) (table.inheritRelaxed path o.flags o.relaxed) := by
  have hsync : o.sync = Axis.sync.outcome tokens := h.axis .sync
  refine ⟨h.includes_inheritRelaxed, fun mode hmode => ?_, ?_, ?_, ?_⟩
  · have hatime : o.atime = mode := (h.axis .atime).trans hmode
    rw [inheritRelaxed_and_atimeModes, hatime]
  · have hnone : o.sync.flag.includes MountFlags.nodiratime = false := by cases o.sync <;> decide
    rw [includes_inheritRelaxed_other MountFlags.nodiratime_isBit (by decide) (by decide), hnone,
      Bool.or_false]
  · rw [← hsync,
      includes_inheritRelaxed_other MountFlags.synchronous_isBit (by decide) (by decide),
      MountTable.includes_ambient_eq_false MountFlags.synchronous_isBit (by decide)]
    cases o.sync <;> decide
  · rw [← hsync,
      includes_inheritRelaxed_other MountFlags.dirsync_isBit (by decide) (by decide),
      MountTable.includes_ambient_eq_false MountFlags.dirsync_isBit (by decide)]
    cases o.sync <;> decide

/-- A remount that can be left out would ask for what is there. -/
theorem inheritRelaxed_of_skipped (h : o.needsRemount = false) :
    table.inheritRelaxed path o.flags o.relaxed = table.ambient path := by
  have hsilent := silent_of_skipped h
  have hkept : table.inherit path 0 = table.ambient path := by
    rw [MountTable.inherit, if_neg (by decide)]
    exact BitVec.or_zero
  have hall : table.ambient path &&& ~~~(0#64) = table.ambient path := by
    rw [BitVec.not_zero, BitVec.and_allOnes]
  rw [hsilent.flags, hsilent.relaxed, MountTable.inheritRelaxed, hkept]
  exact hall

end MountOptions

/-! ## The bind without the remount -/

/-- The flags that a mount table lists are flags of a mount. -/
theorem MountRecord.flags_and_ofMount (m : MountRecord) :
    m.flags &&& MountFlags.ofMount = m.flags := by
  have hoption : ∀ option, MountFlags.ofOption option &&& MountFlags.ofMount
      = MountFlags.ofOption option := by
    intro option
    unfold MountFlags.ofOption
    split <;> decide
  refine List.foldlRecOn (motive := fun flags => flags &&& MountFlags.ofMount = flags)
    m.vfsOptions _ (by decide) fun flags h option _ => ?_
  rw [BitVec.and_or_distrib_right, h, hoption]

theorem MountTable.ambient_and_ofMount (table : MountTable) (path : Path) :
    table.ambient path &&& MountFlags.ofMount = table.ambient path := by
  unfold ambient
  split
  · exact MountRecord.flags_and_ofMount _
  · decide

namespace Executor

/-- `attachPlain` with the remount, needed or not. -/
def attachRemounted (source : Path) (target : Path) (pinned : Spot) (options : MountOptions) :
    Run Outcome := do
  Run.bindMount (.at source) pinned options.isRecursiveBind
  Run.remountBind target (← Run.inheritRelaxed target options.flags options.relaxed)
  finishReadonly target options
  return .mounted

variable {host : Host} {m : Machine} {source target : Path} {r : ResolvedPath} {pinned : Spot}
  {o : MountOptions}

/-- Where the remount is needed there is no difference. -/
theorem attachPlain_eq_attachRemounted (h : o.needsRemount = true) :
    attachPlain source target pinned o = attachRemounted source target pinned o := by
  unfold attachPlain attachRemounted
  simp [h]

/-- The flags on the target are the same after both runs, for a host whose table
tells the truth about the mount that was just bound: the flags it lists for the
target are those with which the bind starts. -/
def EndAlike (host : Host) (r : ResolvedPath) (m m₁ m₂ : Machine) : Prop :=
  ∃ bound remounted, m₁.log = m.log ++ [bound] ∧ m₂.log = m.log ++ ([bound] ++ [remounted])
    ∧ ∀ start s,
      (∀ table, host.table m₁.events = .ok table → table.ambient r.hostPath = start 0) →
      (Surface.through r start s ([bound] ++ [remounted])).mount
        = (Surface.through r start s [bound]).mount

theorem finishReadonly_of_skipped (hskip : o.needsRemount = false) :
    finishReadonly target o = pure () := by
  have hwritable : o.isReadonly = false :=
    congrFun (MountOptions.silent_of_skipped hskip).imposes .readonly
  have hnot : o.isRecursiveReadonly = false := by
    unfold MountOptions.isReadonly at hwritable
    unfold MountOptions.isRecursiveReadonly
    cases haccess : o.access <;> simp_all [Access.isReadonly]
  rw [finishReadonly, hnot]
  rfl

/-- The call of the bind. -/
def bindCall (source : Path) (pinned : Spot) (o : MountOptions) : KernelCall :=
  .mount (some (.at source)) pinned none (Contract.bindFlags o.isRecursiveBind) none

theorem attachPlain_contract (hskip : o.needsRemount = false) :
    Contract .free host m (attachPlain source target pinned o) fun _ m' =>
      Accepted m (bindCall source pinned o) m' := by
  have hfinish : finishReadonly target o = pure () := finishReadonly_of_skipped hskip
  unfold attachPlain
  rw [hfinish, if_neg (by simp [hskip])]
  exact .bind (.bindMount (fun _ => trivial) fun m' h _ => .pure h)

/-- The remount asks for the flags that the table lists right behind the bind. -/
theorem attachRemounted_contract (hskip : o.needsRemount = false) :
    Contract .free host m (attachRemounted source target pinned o) fun _ m' =>
      ∃ m₁ table, Accepted m (bindCall source pinned o) m₁ ∧ host.table m₁.events = .ok table
        ∧ Accepted m₁ (Contract.remountBindCall target (table.ambient target)) m' := by
  have hfinish : finishReadonly target o = pure () := finishReadonly_of_skipped hskip
  unfold attachRemounted
  rw [hfinish]
  refine .bind (.bindMount (fun _ => trivial) fun m₁ hbound _ => ?_)
  refine .bind (.inheritRelaxed fun table htable _ => ?_)
  rw [MountOptions.inheritRelaxed_of_skipped hskip]
  exact .bind (.remountBind (fun _ => trivial) fun m' hremounted _ =>
    .pure ⟨m₁, table, hbound, htable, hremounted⟩)

/-- A bind on the target has the flags of its source. -/
theorem mount_bindCall (source : Path) (o : MountOptions) {here : Spot → Bool}
    {start : MountFlags} {s : Surface} (haimed : here pinned = true) :
    (s.afterCall here start (bindCall source pinned o)).mount = start := by
  rw [bindCall, Surface.afterCall, if_pos haimed]
  unfold Contract.bindFlags
  split <;> rfl

/-- A bind remount of the target replaces the flags. -/
theorem mount_remountBindCall {here : Spot → Bool} {start flags : MountFlags} {s : Surface}
    (haimed : here (.at target) = true) :
    (s.afterCall here start (Contract.remountBindCall target flags)).mount
      = flags &&& MountFlags.ofMount := by
  rw [Contract.remountBindCall, Surface.afterCall, if_pos haimed]
  change MountFlags.afterCall (flags ||| MountFlags.bind ||| MountFlags.remount) start s.mount = _
  rw [MountFlags.afterCall_remount, MountFlags.or_and_of_apart (by decide),
    MountFlags.or_and_of_apart (by decide)]

/-- The bind that omits the remount ends like the one that performs it. -/
theorem endAlike_of_skipped (hskip : o.needsRemount = false)
    (haimed : r.isAimedAt m.tree pinned = true)
    (hplain : ((attachPlain source r.hostPath pinned o).result host m).1 = .ok .mounted)
    (hremounted : ((attachRemounted source r.hostPath pinned o).result host m).1 = .ok .mounted) :
    EndAlike host r m ((attachPlain source r.hostPath pinned o).result host m).2
      ((attachRemounted source r.hostPath pinned o).result host m).2 := by
  have hbound := (attachPlain_contract hskip).returns _ hplain
  obtain ⟨m₁, table, hbound₁, htable, hlast⟩ :=
    (attachRemounted_contract hskip).returns _ hremounted
  have htable₁ : host.table ((attachPlain source r.hostPath pinned o).result host m).2.events
      = .ok table := by
    rw [← htable, Machine.events, Machine.events, hbound.log, hbound₁.log]
  have hlog := hlast.log
  rw [hbound₁.log, List.append_assoc] at hlog
  refine ⟨_, _, hbound.log, hlog, fun start s htruth => ?_⟩
  have hbind : (Surface.through r start s [⟨m.tree, ⟨bindCall source pinned o, none⟩⟩]).mount
      = start 0 := mount_bindCall source o haimed
  rw [hbind, ← htruth table htable₁, Surface.through_concat]
  exact (mount_remountBindCall (Granting.isAimedAt_hostPath r m₁.tree)).trans
    (table.ambient_and_ofMount r.hostPath)

/-- A mount on `/t` that lists two restrictions and two access-time flags. -/
def guardedRecord : MountRecord :=
  { target := ⟨[slash, 0x74]⟩, fsType := "ext4", source := "/dev/sda",
    vfsOptions := ["ro", "nosuid", "nodiratime", "relatime"], fsOptions := ["rw"] }

/-- A host whose table has that mount last. -/
def guardedHost : Host := .granting {} (.ok [guardedRecord])

/-- The mount point `/t` of a root at `/`. -/
def guardedPath : ResolvedPath := ⟨⟨⟨[slash]⟩⟩, [[0x74]], none⟩

end Executor

end ContainerMounts
