/-
ContainerMounts.Proofs.Failures.Runs — no refusal of the kernel is swallowed.

Every function of a run surfaces: the filesystems of a container and the
ways around their refusals, the binds with and without an id mapping, the
overlays, and with them each operation, each list of operations and the
whole run.
-/
import ContainerMounts.Executor
import ContainerMounts.Proofs.Failures
import ContainerMounts.Proofs.Planning
import ContainerMounts.Proofs.SampleHost

namespace ContainerMounts

theorem Error.errno?_mount {operation : String} {target : Path} {fault : Fault} {e : Errno}
    (h : (Error.mount operation target fault).errno? = some e) : fault = .os e := by
  cases fault with
  | os e' => exact congrArg Fault.os (Option.some.inj h)
  | _ => simp [errno?, fault?, Fault.errno?] at h

namespace Run

/-! ## Writes to the helper process -/

/-- A call that is made again while it is interrupted leaves nothing but
interrupted calls before the last. -/
theorem result_persist (host : Host) (kind : CallKind) (call : KernelCall) (tries : Nat)
    (m : Machine) :
    ∃ refusal m' interrupted last, (persist (issue kind call) tries).result host m
        = (.ok refusal, m')
      ∧ m'.log = m.log ++ (interrupted ++ [last])
      ∧ (∀ moment ∈ interrupted, moment.event = ⟨call, some .interrupted⟩)
      ∧ last.event = ⟨call, refusal⟩ := by
  induction tries generalizing m with
  | zero => exact ⟨_, _, [], _, rfl, rfl, by simp, rfl⟩
  | succ tries ih =>
      rw [persist, result_bind]
      obtain ⟨refusal, m₁, hresult, hlog⟩ : ∃ refusal m₁, (issue kind call).result host m
          = (.ok refusal, m₁) ∧ m₁.log = m.log ++ [⟨m.tree, ⟨call, refusal⟩⟩] := ⟨_, _, rfl, rfl⟩
      rw [hresult]
      dsimp only
      by_cases hagain : refusal = some .interrupted
      · subst hagain
        obtain ⟨refusal, m', interrupted, last, hrest, hlog', hinterrupted, hlast⟩ := ih m₁
        rw [if_pos rfl]
        refine ⟨refusal, m', ⟨m.tree, ⟨call, some .interrupted⟩⟩ :: interrupted, last, hrest, ?_,
          List.forall_mem_cons.2 ⟨rfl, hinterrupted⟩, hlast⟩
        rw [hlog', hlog]
        simp
      · rw [if_neg hagain]
        exact ⟨refusal, m₁, [], _, rfl, hlog, by simp, rfl⟩

variable {β : Type} {file : MapFile} {text : String}

theorem settles_writes {interrupted : List Moment} {last : Moment}
    (hinterrupted : ∀ moment ∈ interrupted, moment.event = ⟨.write file text, some .interrupted⟩)
    (hcall : last.event.call = .write file text) (hlast : last.event.Settled []) :
    Settles (interrupted ++ [last]) := by
  induction interrupted with
  | nil => exact ⟨hlast, trivial⟩
  | cons first rest ih =>
      obtain ⟨hfirst, hrest⟩ := List.forall_mem_cons.1 hinterrupted
      have hsettled : first.event.Settled (rest ++ [last]) := by
        rw [hfirst]
        cases rest with
        | nil => exact .again hcall
        | cons second rest => exact .again (by rw [hrest second (by simp)])
      exact ⟨hsettled, ih hrest⟩

namespace Surfaces

/-- A refused write fails what it is for, unless it is the denial on a kernel
without it. -/
theorem writeMap_then {f : Option Errno → Run β} (hok : (f none).Surfaces)
    (hrefused : ∀ e, (∃ error, f (some e) = MonadExcept.throw error)
      ∨ (file = .setgroups ∧ e = .noEntry) ∧ (f (some e)).Surfaces) :
    (writeMap file text >>= f).Surfaces := by
  intro host m
  obtain ⟨refusal, m', interrupted, last, hresult, hlog, hinterrupted, hlast⟩ :=
    result_persist host file.callKind (.write file text) host.refusals.length m
  have hwrite : (writeMap file text).result host m = (.ok refusal, m') := hresult
  have hcall : last.event.call = .write file text := by rw [hlast]
  rw [result_bind, hwrite]
  cases refusal with
  | none =>
      have hsettled : last.event.Settled [] := .passed (.inl (by rw [hlast]))
      exact .behind hlog (settles_writes hinterrupted hcall hsettled) (hok host m')
  | some e =>
      rcases hrefused e with ⟨error, hthrow⟩ | ⟨⟨rfl, rfl⟩, hmore⟩
      · dsimp only
        rw [hthrow, result_throw]
        refine .failed _ hlog fun moment hmoment hmounts => ?_
        have hevent : moment.event.call = .write file text := by
          rcases List.mem_append.1 hmoment with hmoment | hmoment
          · rw [hinterrupted moment hmoment]
          · rw [List.mem_singleton.1 hmoment, hcall]
        simp [hevent, KernelCall.changesMounts] at hmounts
      · have hsettled : last.event.Settled [] := by
          rw [hlast]
          exact .undeniable text []
        exact .behind hlog (settles_writes hinterrupted hcall hsettled) (hmore host m')

theorem writeTable {mapping : IdMapping} : (Run.writeTable file mapping).Surfaces :=
  writeMap_then (pure ()) fun e => .inl ⟨mapRefused file e, rfl⟩

theorem denySetgroups : Run.denySetgroups.Surfaces := by
  refine writeMap_then (pure ()) fun e => ?_
  by_cases he : e = .noEntry
  · subst he
    exact .inr ⟨⟨rfl, rfl⟩, pure ()⟩
  · exact .inl ⟨mapRefused .setgroups e, if_neg he⟩

theorem persist {call : Run (Option Errno)} (h : call.Surfaces) (tries : Nat) :
    (Run.persist call tries).Surfaces := by
  induction tries with
  | zero => exact h
  | succ tries ih =>
      refine .bind h fun refusal => ?_
      split
      · exact ih
      · exact .pure _

theorem openNamespace :
    (do if let some e ← uninterrupted (Run.attempt .userNamespace) then
          MonadExcept.throw (Error.ofErrno e) : Run Unit).Surfaces := by
  refine .bind (.bind .read fun _ => persist .attempt _) fun refusal => ?_
  cases refusal with
  | some e => exact .throw _
  | none => exact .pure _

theorem createUserNamespace {mapping : OwnerMapping} :
    (Run.createUserNamespace mapping).Surfaces := by
  unfold Run.createUserNamespace
  refine .bind .attempt fun refusal => ?_
  cases refusal with
  | some e => exact .throw_bind _
  | none =>
      refine .bind .attempt fun refusal => ?_
      cases refusal with
      | some e => exact .throw_bind _
      | none =>
          exact .bind writeTable fun _ => .bind denySetgroups fun _ =>
            .bind writeTable fun _ => openNamespace

/-! ## Binds -/

/-- The copy of a tree is changed and attached, and each refusal ends it. -/
theorem bindIdMapped {source : Path} {target : Spot} {recursive : Bool} {mapping : OwnerMapping}
    {set clear : MountAttrs} :
    (Run.bindIdMapped source target recursive mapping set clear).Surfaces := by
  unfold Run.bindIdMapped
  refine .bind createUserNamespace fun _ host m => ?_
  obtain ⟨answer, m₁, hclone, hcloned⟩ := result_cloneTree host m source recursive
  rw [result_bind, hclone]
  cases answer with
  | error e => exact .of_answered hcloned
  | ok real =>
      refine .behind_accepted hcloned ?_
      obtain ⟨refusal, m₂, hset, hchanged⟩ := result_issue host m₁ .mountSetattr
        (.setAttrOf real (copiedFlags recursive) (idmapChange set clear))
      dsimp only
      rw [result_bind, setAttrOf, hset]
      cases refusal with
      | some e => exact .of_answered hchanged
      | none =>
          refine .behind_accepted hchanged ?_
          obtain ⟨refusal, m₃, hmove, hattached⟩ := result_attachTree host m₂ real target
          dsimp only
          rw [result_bind, hmove]
          cases refusal with
          | some e => exact .of_answered hattached
          | none => exact .behind_accepted hattached (pure () host m₃)

/-! ## Filesystems of a container -/

variable {namespaces : Namespaces} {root source target dest : Path} {flags : MountFlags}
  {data : String}

theorem tryFreshSysfs : (Run.tryFreshSysfs namespaces target flags data).Surfaces := by
  unfold Run.tryFreshSysfs
  split
  · intro host m
    obtain ⟨fault, m', hresult, hissued⟩ := result_mountCall? host m "mount"
      { source := some (sourceName "sysfs"), target := .at target, fsType := some "sysfs", flags,
        data := some data }
    rw [mountFilesystem?, result_bind, hresult]
    cases fault with
    | none => exact .behind_accepted hissued.answered_none (pure true host m')
    | some fault =>
        dsimp only [Option.map_some]
        split
        · rename_i hperm
          obtain rfl : fault = .os .perm := Error.errno?_mount hperm
          exact .behind_recovered hissued.answered_some (.sysfs target flags _) (pure false host m')
        · exact .of_issued hissued
  · exact .pure false

theorem tryFreshCgroup : (Run.tryFreshCgroup target flags data).Surfaces := by
  unfold Run.tryFreshCgroup
  intro host m
  obtain ⟨fault, m', hresult, hissued⟩ := result_mountCall? host m "mount"
    { source := some (sourceName "cgroup2"), target := .at target, fsType := some "cgroup2", flags,
      data := some data }
  rw [mountFilesystem?, result_bind, hresult]
  cases fault with
  | none =>
      have hremount : (do
          Run.remountBind target (← Run.inherit target flags)
          return true : Run Bool).Surfaces :=
        .bind .inherit fun _ => .bind .remountBind fun _ => .pure true
      exact .behind_accepted hissued.answered_none (hremount host m')
  | some fault =>
      dsimp only [Option.map_some]
      split
      · rename_i hrefused
        obtain ⟨e, rfl, he⟩ : ∃ e, fault = .os e ∧ (e = .perm ∨ e = .busy) := by
          rcases hrefused with hperm | hbusy
          · exact ⟨_, Error.errno?_mount hperm, .inl rfl⟩
          · exact ⟨_, Error.errno?_mount hbusy, .inr rfl⟩
        exact .behind_recovered hissued.answered_some (.cgroup target flags _ he)
          (pure false host m')
      · exact .of_issued hissued

theorem mountProc : (Run.mountProc target flags data).Surfaces :=
  .mountFilesystem

theorem bindHostSysfs : (Run.bindHostSysfs target flags).Surfaces := by
  refine .bind .read fun _ => .bind .bindMount fun _ => .bind .inherit fun _ =>
    .bind .remountBind fun _ => ?_
  split
  · exact .makeReadonlyRecursive
  · refine .bind .isMountPoint fun _ => ?_
    split
    · exact .makeReadonlyRecursive
    · exact .pure _

theorem mountSysfs : (Run.mountSysfs namespaces target flags data).Surfaces := by
  refine .bind tryFreshSysfs fun fresh => ?_
  split
  · exact .pure _
  · exact .bind bindHostSysfs fun _ => .pure _

theorem bindHostCgroup : (Run.bindHostCgroup target flags).Surfaces :=
  .bind .read fun _ => .bind .bindMount fun _ => .bind .inherit fun _ =>
    .bind .remountBind fun _ => .makeReadonlyRecursive

theorem bindController : (Run.bindController source dest flags).Surfaces := by
  have hbind : (do
      Run.bindMount (.at source) (.at dest) false
      Run.remountBind dest (← Run.inherit dest flags)).Surfaces :=
    .bind .bindMount fun _ => .bind .inherit fun _ => .remountBind
  refine .bind .change? fun fault => ?_
  cases fault with
  | none => exact hbind
  | some fault =>
      dsimp only
      split
      · exact .throw_bind _
      · exact hbind

theorem addController {name : Name} {node : Node} :
    (Run.addController root target flags name node).Surfaces := by
  cases node with
  | symlink text =>
      refine .bind .change? fun fault => ?_
      cases fault with
      | none => exact .pure _
      | some fault => exact .throw _
  | dir perm entries => exact bindController
  | _ => exact .pure _

theorem addControllers {entries : List (Name × Node)} :
    (Run.addControllers root target flags entries).Surfaces := by
  induction entries with
  | nil => exact .pure _
  | cons entry rest ih => exact .bind addController fun _ => ih

theorem mountSynthetic : (Run.mountSynthetic target flags).Surfaces :=
  .bind .mountFilesystem fun _ => .bind .read fun _ => .bind .ask fun _ =>
    .bind addControllers fun _ => .remount

theorem mountCgroup : (Run.mountCgroup namespaces target flags data).Surfaces := by
  refine .bind .table fun table => .bind .read fun host => ?_
  dsimp only
  split
  · refine .bind tryFreshCgroup fun fresh => ?_
    split
    · exact .pure _
    · exact .bind bindHostCgroup fun _ => .pure _
  · exact .bind bindHostCgroup fun _ => .pure _
  · exact .bind mountSynthetic fun _ => .pure _

end Surfaces

end Run

/-! ## Operations -/

namespace Executor

open Run.Surfaces

variable {ex : Executor} {op : MountOp} {target : Path} {options : MountOptions}
  {resolved : ResolvedPath} {name : String}

theorem prepare_surfaces {placeholder : Placeholder} :
    (ex.rootfs.prepare target placeholder).Surfaces :=
  .of_silent fun _ _ => Rootfs.prepare_silent.mono fun _ _ _ _ => trivial

theorem pin_surfaces : (ex.rootfs.pin resolved).Surfaces :=
  .of_silent fun _ _ => Rootfs.pin_contract.mono fun _ _ _ _ => trivial

theorem materializeSymlink_surfaces {text : Path} :
    (ex.materializeSymlink target text).Surfaces := by
  refine .bind prepare_surfaces fun resolved => .bind .change? fun fault => ?_
  cases fault with
  | none => exact .pure _
  | some fault =>
      refine .bind .tree fun tree => ?_
      split
      · exact .pure _
      · exact .throw _

theorem finishReadonly_surfaces : (finishReadonly target options).Surfaces := by
  unfold finishReadonly
  split
  · exact .makeReadonlyRecursive
  · exact .pure _

theorem attachMapped_surfaces {source : Path} {pinned : Spot} {mapping : OwnerMapping} :
    (attachMapped source target pinned options mapping).Surfaces :=
  .bind .bindIdMapped fun _ => .bind finishReadonly_surfaces fun _ => .pure _

theorem attachPlain_surfaces {source : Path} {pinned : Spot} :
    (attachPlain source target pinned options).Surfaces := by
  have hfinish : (do
      finishReadonly target options
      return Outcome.mounted).Surfaces := .bind finishReadonly_surfaces fun _ => .pure _
  refine .bind .bindMount fun _ => ?_
  dsimp only
  split
  · exact .bind .inheritRelaxed fun _ => .bind .remountBind fun _ => hfinish
  · exact hfinish

theorem bindSource_surfaces {source : Path} {kind : FileKind} :
    (ex.bindSource op source kind).Surfaces := by
  refine .bind prepare_surfaces fun resolved => .bind pin_surfaces fun pinned => ?_
  split
  · exact attachMapped_surfaces
  · exact attachPlain_surfaces

theorem mountKind_surfaces : (ex.mountKind op name resolved).Surfaces := by
  have hplain : (ex.mountPlain op name resolved).Surfaces :=
    .bind pin_surfaces fun _ => .bind .mountFilesystem fun _ => .pure _
  unfold mountKind
  cases op.request.kind with
  | proc => exact .bind .mountProc fun _ => .pure _
  | sysfs =>
      refine .bind .mountSysfs fun fresh => ?_
      split
      · exact .pure _
      · exact .pure _
  | cgroup => exact .bind .mountCgroup fun _ => .pure _
  | _ => exact hplain

theorem mountVirtual_surfaces : (ex.mountVirtual op name).Surfaces :=
  .bind prepare_surfaces fun _ => .bind mountKind_surfaces fun _ =>
    .bind finishReadonly_surfaces fun _ => .pure _

theorem protectPath_surfaces : (ex.protectPath resolved).Surfaces :=
  .bind pin_surfaces fun _ => .bind .bindMount fun _ => .bind .inherit fun _ =>
    .bind .remountBind fun _ => .pure _

theorem hidePath_surfaces : (ex.hidePath resolved).Surfaces := by
  refine .bind pin_surfaces fun pinned => .bind .inherit fun flags => .bind .ask fun node => ?_
  dsimp only
  split
  · exact .bind .mountFilesystem fun _ => .pure _
  · exact .bind .read fun _ => .bind .bindMount fun _ => .bind .inherit fun _ =>
      .bind .remountBind fun _ => .pure _

theorem overlayPath_surfaces {kind : OverlayKind} : (ex.overlayPath target kind).Surfaces := by
  refine .bind .tree fun tree => .bind .lift fun resolved => ?_
  split
  · exact .pure _
  · cases kind with
    | readonly => exact protectPath_surfaces
    | masked => exact hidePath_surfaces

theorem propagate_surfaces : (ex.propagate target options).Surfaces := by
  unfold propagate
  split
  · exact .pure _
  · exact .bind .tree fun _ => .bind .lift fun _ => .setPropagation

theorem apply_surfaces : (ex.apply op).Surfaces := by
  unfold apply
  split
  · exact overlayPath_surfaces
  · unfold applyMount
    split
    · exact materializeSymlink_surfaces
    · exact .bind bindSource_surfaces fun _ => .bind propagate_surfaces fun _ => .pure _
    · exact .bind mountVirtual_surfaces fun _ => .bind propagate_surfaces fun _ => .pure _
    · exact .throw _

/-! ## The whole run -/

theorem applyAll_surfaces {ops : List MountOp} : (ex.applyAll ops).Surfaces := by
  induction ops with
  | nil => exact .pure _
  | cons op rest ih => exact .bind apply_surfaces fun _ => .bind ih fun _ => .pure _

theorem prepareRootfs_surfaces : ex.prepareRootfs.Surfaces := by
  refine .bind .isMountPoint fun isMount => ?_
  dsimp only
  split
  · exact .bind .bindMount fun _ => .setPropagation
  · exact .setPropagation

theorem finishRootfs_surfaces : ex.finishRootfs.Surfaces := by
  unfold finishRootfs
  split
  · exact .bind .inherit fun _ => .bind .remountBind fun _ => .pure _
  · exact .pure _

theorem execute_surfaces (plan : MountPlan) : (ex.execute plan).Surfaces :=
  .bind prepareRootfs_surfaces fun _ => .bind applyAll_surfaces fun _ =>
    .bind finishRootfs_surfaces fun _ => .pure _

/-- **No refusal is swallowed.** Let a mount call of a run be refused. Either
there is a way around, or it is the last call, the files stay as they are,
and the run fails with an error of a mount operation that carries the
kernel's number. A run that succeeds leaves nothing refused but what it went
around, the denial of `setgroups` on a kernel without it, and writes that
were interrupted and made again at once. -/
theorem execute_shows_refusals (ex : Executor) (plan : MountPlan) (host : Host) (m : Machine) :
    let out := (ex.execute plan).result host m
    m.log <+: out.2.log
      ∧ (∀ before moment after e, out.2.log = m.log ++ (before ++ moment :: after) →
          moment.event.call.changesMounts = true → moment.event.refusal = some e →
          moment.event.Recovered ∨ after = [] ∧ out.2.tree = moment.tree
            ∧ ∃ error, out.1 = .error error ∧ error.errno? = some e
              ∧ ∃ operation target fault, error = .mount operation target fault)
      ∧ (∀ report before moment after, out.1 = .ok report →
          out.2.log = m.log ++ (before ++ moment :: after) → moment.event.Settled after) := by
  intro out
  have hended : Ended m out := execute_surfaces plan host m
  refine ⟨hended.log_grows, fun before moment after e hlog hmounts hrefusal => ?_,
    fun report before moment after hok hlog => ?_⟩
  · rcases hended.refusal_shows hlog hmounts hrefusal with
      hrecovered | ⟨hlast, htree, operation, target, herror⟩
    · exact .inl hrecovered
    · exact .inr ⟨hlast, htree, _, herror, rfl, operation, target, _, rfl⟩
  · exact hended.settled hok hlog

/-- A bind of `/s` on `/d` with its owners mapped. -/
def mappedRequest : MountRequest :=
  { destination := "/d", kind := .bind, source := some "/s", options := ["idmap"],
    uidMapping := some Sample.rootOnly, gidMapping := some Sample.rootOnly }

/-- The operation of that bind. -/
def mappedOp : MountOp :=
  { request := mappedRequest, target := ⟨[slash, 0x64]⟩, source := .path ⟨[slash, 0x73]⟩ .directory,
    options := { idmap := .idmap }, depth := 1, phase := .mount,
    idmap := some ⟨Sample.rootOnly, Sample.rootOnly⟩ }

/-- The bind, carried out on a host that refuses the first call of this kind. -/
def mappedRun (kind : CallKind) (e : Errno) : Except Error ExecutionReport × Machine :=
  (Sample.executor.execute ⟨[mappedOp]⟩).result (Sample.refusing kind e) { tree := Sample.sourced }

/-- An event on record has a place there. -/
theorem log_split {m : Machine} {i : Nat} {event : Event} (h : m.events[i]? = some event) :
    ∃ before moment after, m.log = [] ++ (before ++ moment :: after) ∧ moment.event = event := by
  rw [Machine.events, List.getElem?_map, Option.map_eq_some_iff] at h
  obtain ⟨moment, hmoment, hevent⟩ := h
  obtain ⟨hlt, rfl⟩ := List.getElem?_eq_some_iff.1 hmoment
  refine ⟨m.log.take i, _, m.log.drop (i + 1), ?_, hevent⟩
  rw [List.getElem_cons_drop, List.take_append_drop, List.nil_append]

theorem mappedRun_busy : (mappedRun .moveMount .busy).2.events[7]?
    = some ⟨.moveMount ⟨[slash, 0x73]⟩ (.held ⟨[slash, 0x72, slash, 0x64]⟩), some .busy⟩ := by
  decide +kernel

theorem mappedRun_interrupted :
    (mappedRun .uidMap .interrupted).1 = .ok ⟨[⟨⟨[slash, 0x64]⟩, .idMapped⟩]⟩
      ∧ (mappedRun .uidMap .interrupted).2.events[2]?
        = some ⟨.write .uidMap "0 0 1\n", some .interrupted⟩ := by
  decide +kernel

/-- The copy cannot be attached, and the run fails. The first write is
interrupted, and the run succeeds. -/
theorem execute_shows_refusals_mapped :
    (∃ before moment after, (mappedRun .moveMount .busy).2.log = [] ++ (before ++ moment :: after)
      ∧ moment.event.call.changesMounts = true ∧ moment.event.refusal = some .busy
      ∧ (moment.event.Recovered ∨ after = [] ∧ (mappedRun .moveMount .busy).2.tree = moment.tree
        ∧ ∃ error, (mappedRun .moveMount .busy).1 = .error error ∧ error.errno? = some .busy
          ∧ ∃ operation target fault, error = .mount operation target fault))
    ∧ ∃ report before moment after, (mappedRun .uidMap .interrupted).1 = .ok report
      ∧ (mappedRun .uidMap .interrupted).2.log = [] ++ (before ++ moment :: after)
      ∧ moment.event.refusal = some .interrupted ∧ moment.event.Settled after := by
  constructor
  · obtain ⟨before, moment, after, hlog, hevent⟩ := log_split mappedRun_busy
    have hmounts : moment.event.call.changesMounts = true := by rw [hevent]; rfl
    have hrefusal : moment.event.refusal = some .busy := by rw [hevent]
    unfold mappedRun at hlog ⊢
    have hshows := (execute_shows_refusals Sample.executor ⟨[mappedOp]⟩
      (Sample.refusing .moveMount .busy) { tree := Sample.sourced }).2.1
    exact ⟨before, moment, after, hlog, hmounts, hrefusal,
      hshows before moment after .busy hlog hmounts hrefusal⟩
  · obtain ⟨hok, hplace⟩ := mappedRun_interrupted
    obtain ⟨before, moment, after, hlog, hevent⟩ := log_split hplace
    have hrefusal : moment.event.refusal = some .interrupted := by rw [hevent]
    unfold mappedRun at hok hlog ⊢
    have hsettled := (execute_shows_refusals Sample.executor ⟨[mappedOp]⟩
      (Sample.refusing .uidMap .interrupted) { tree := Sample.sourced }).2.2
    exact ⟨_, before, moment, after, hok, hlog, hrefusal,
      hsettled _ before moment after hok hlog⟩

/-- A run may succeed with a refusal on record that is neither of a mount call
nor of the denial of `setgroups`. -/
theorem execute_succeeds_interrupted :
    MountPlan.build Sample.sourced { mounts := [mappedRequest] } = .ok ⟨[mappedOp]⟩
      ∧ ∃ report, (mappedRun .uidMap .interrupted).1 = .ok report
        ∧ ∃ moment ∈ (mappedRun .uidMap .interrupted).2.log, moment.event.refusal ≠ none
          ∧ ¬ moment.event.Recovered
          ∧ ∀ text, moment.event ≠ ⟨.write .setgroups text, some .noEntry⟩ := by
  obtain ⟨hok, hplace⟩ := mappedRun_interrupted
  obtain ⟨before, moment, after, hlog, hevent⟩ := log_split hplace
  refine ⟨MountPlan.build_eq_singleton rfl rfl rfl, _, hok, moment, by simp [hlog], ?_⟩
  rw [hevent]
  exact ⟨by simp, nofun, by simp⟩

end Executor

end ContainerMounts
