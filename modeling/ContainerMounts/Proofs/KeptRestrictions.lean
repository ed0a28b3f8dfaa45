/-
ContainerMounts.Proofs.KeptRestrictions — restrictions survive a remount.

A remount of a bind replaces all flags of a mount, so a remount that does
not look at the mount table drops what the enclosing mount enforces.
`Upholds` says what a bind remount does with the restrictions that the
table lists for its path at that moment: it has them all, but for those
that the operation opens explicitly, with one exception. The remount that
stands in for a recursive read-only attribute call (`Fallback`) takes the
flags of the operation as they are, so it has a listed restriction only if
the operation asks for it, or if it is read-only.

Each of the mount operations, and each of the ways to provide `proc`,
`sysfs` and the control groups, is gone through with the promise that its
bind remounts uphold. `Settled` is what an inheriting remount needs from
the call before it.
-/
import ContainerMounts.Proofs.CallContracts
import ContainerMounts.Proofs.FlagWords
import ContainerMounts.VirtualMount

namespace ContainerMounts

open MountFlags hiding none bind remount readonly recursive

/-- The path and the flags of a bind remount. -/
def KernelCall.bindRemount? : KernelCall → Option (Path × MountFlags)
  | .mount _ target _ flags _ =>
      if flags.includes bindRemount then some (target.place, flags) else none
  | _ => none

/-- The mount that encloses the path lists the restriction in the table after
these calls. -/
def Listed (host : Host) (log : List Moment) (p : Path) (flag : MountFlags) : Prop :=
  ∃ table r word, host.table (log.map (·.event)) = .ok table ∧ table.enclosing p = some r
    ∧ (word, flag) ∈ restrictions ∧ r.hasOption word = true

/-- The last call made everything at and below the path read-only, if the
kernel had the call for it. -/
def Fallback (log : List Moment) (p : Path) : Prop :=
  ∃ before tree, log = before ++ [⟨tree, Contract.readonlyCall p, some .notImplemented⟩]

/-- What becomes of a listed restriction in a bind remount with these flags.
The options of the operation open `relaxed` and ask for `own`. -/
def Upholds (host : Host) (relaxed own : MountFlags) (log : List Moment) (p : Path)
    (flags : MountFlags) : Prop :=
  ∀ flag, Listed host log p flag → relaxed.includes flag = false →
    (flags.includes flag = true ↔ (Fallback log p → own.includes flag = true))

/-- Every bind remount is as `allowed` says; all else is free. -/
def Promise.remounts (allowed : List Moment → Path → MountFlags → Prop) : Promise where
  files := fun _ _ => True
  call := fun log moment => ∀ p flags, moment.event.call.bindRemount? = some (p, flags) →
    allowed log p flags
  refl := fun _ => trivial
  trans := fun _ _ => trivial

theorem Listed.includes_inherit {host : Host} {m : Machine} {p : Path} {table : MountTable}
    {wanted flag : MountFlags} (h : Listed host m.log p flag)
    (htable : host.table m.events = .ok table) :
    (table.inherit p wanted).includes flag = true := by
  obtain ⟨table', r, word, htable', hr, hflag, hword⟩ := h
  obtain rfl : table = table' := Except.ok.inj (htable.symm.trans htable')
  exact table.inherit_includes hr hword hflag

theorem Listed.includes_inheritRelaxed {host : Host} {m : Machine} {p : Path} {table : MountTable}
    {wanted relaxed flag : MountFlags} (h : Listed host m.log p flag)
    (htable : host.table m.events = .ok table) (hrelaxed : relaxed.includes flag = false) :
    (table.inheritRelaxed p wanted relaxed).includes flag = true := by
  obtain ⟨table', r, word, htable', hr, hflag, hword⟩ := h
  obtain rfl : table = table' := Except.ok.inj (htable.symm.trans htable')
  exact table.inheritRelaxed_includes hr hword hflag hrelaxed

namespace Upholding

variable {α : Type} {allowed : List Moment → Path → MountFlags → Prop} {host : Host}
  {m m' : Machine}

/-- No attribute call was refused just before. -/
def Settled (m : Machine) : Prop := ∀ p, ¬ Fallback m.log p

theorem Settled.of_accepted {call : KernelCall} (h : Accepted m call m') : Settled m' := by
  rintro p ⟨before, tree, hlog⟩
  rw [h.log] at hlog
  have hlast := (List.append_inj' hlog rfl).2
  simp at hlast

theorem call_of_none {call : KernelCall} (h : call.bindRemount? = none) (log : List Moment)
    (tree : FileTree) (refusal : Option Errno) :
    (Promise.remounts allowed).call log ⟨tree, call, refusal⟩ := by
  intro p flags hcall
  rw [h] at hcall
  simp at hcall

theorem bindRemount?_mount {source : Option Spot} {target : Spot} {fsType data : Option String}
    {flags : MountFlags} (h : flags.includes bindRemount = false) :
    (KernelCall.mount source target fsType flags data).bindRemount? = none := by
  rw [KernelCall.bindRemount?, h]
  rfl

/-! ## Calls that are no bind remounts -/

theorem bindMount {source target : Spot} {recursive : Bool} :
    Contract (.remounts allowed) host m (Run.bindMount source target recursive)
      fun _ m' => Settled m' := by
  have hflags : includes (Contract.bindFlags recursive) bindRemount = false := by
    cases recursive <;> decide
  exact .bindMount (call_of_none (bindRemount?_mount hflags) _ _) fun _ h => .of_accepted h

theorem mountFilesystem? {source target : Spot} {fsType data : String} {flags : MountFlags}
    (h : Apart flags bindRemount) :
    Contract (.remounts allowed) host m (Run.mountFilesystem? source target fsType flags data)
      fun e m' => e = none → Settled m' := by
  refine .mountFilesystem? (call_of_none (bindRemount?_mount (not_includes_of_apart h)) _ _)
    fun fault m' hissued hnone => ?_
  obtain rfl : fault = none := by simpa using hnone
  exact .of_accepted hissued.accepted

theorem mountFilesystem {source target : Spot} {fsType data : String} {flags : MountFlags}
    (h : Apart flags bindRemount) :
    Contract (.remounts allowed) host m (Run.mountFilesystem source target fsType flags data)
      fun _ m' => Settled m' :=
  .mountFilesystem (call_of_none (bindRemount?_mount (not_includes_of_apart h)) _ _)
    fun _ h => .of_accepted h

theorem remount {target : Path} {flags : MountFlags} {data : String}
    (h : Apart flags bindRemount) :
    Contract (.remounts allowed) host m (Run.remount target flags data) fun _ _ => True :=
  .remount (call_of_none (bindRemount?_mount (not_includes_or_remount h)) _ _) fun _ _ => trivial

theorem setPropagation {target : Path} {propagation : Propagation} :
    Contract (.remounts allowed) host m (Run.setPropagation target propagation)
      fun _ _ => True :=
  .setPropagation
    (call_of_none (bindRemount?_mount (not_includes_of_apart propagation.flags_apart)) _ _)
    fun _ _ => trivial

theorem bindIdMapped {source : Path} {target : Spot} {recursive : Bool} {mapping : OwnerMapping}
    {set clear : MountAttrs} :
    Contract (.remounts allowed) host m
      (Run.bindIdMapped source target recursive mapping set clear) fun _ _ => True := by
  refine (bindIdMapped_contract.promise fun m' hkept => ?_).mono fun _ _ _ _ => trivial
  apply hkept.imp (fun _ => trivial)
  intro log moment _ hcall
  obtain ⟨tree, call, refusal⟩ := moment
  have hmapped : KernelCall.OfMappedBind source target call := hcall
  refine call_of_none ?_ log tree refusal
  cases hmapped <;> rfl

/-! ## Bind remounts -/

theorem remountBind {target : Path} {flags : MountFlags}
    (h : allowed m.log target (flags ||| MountFlags.bind ||| MountFlags.remount)) :
    Contract (.remounts allowed) host m (Run.remountBind target flags) fun _ _ => True := by
  refine .remountBind (fun refusal p flags' hcall => ?_) fun _ _ => trivial
  have hword : (Contract.remountBindCall target flags).bindRemount?
      = some (target, flags ||| MountFlags.bind ||| MountFlags.remount) :=
    if_pos includes_or_bind_or_remount
  obtain ⟨rfl, rfl⟩ : target = p ∧ _ = flags' := by
    simpa using Option.some.inj (hword.symm.trans hcall)
  exact h

variable {relaxed own : MountFlags}

/-- A remount with inherited flags, behind a call that was accepted. -/
theorem remountInherited {p : Path} {wanted : MountFlags} {table : MountTable} (h : Settled m)
    (htable : host.table m.events = .ok table) :
    Contract (.remounts (Upholds host relaxed own)) host m
      (Run.remountBind p (table.inherit p wanted)) fun _ _ => True := by
  apply remountBind
  intro flag hlisted _
  have hincludes : (table.inherit p wanted).includes flag = true :=
    hlisted.includes_inherit htable
  exact iff_of_true (includes_or_left (includes_or_left hincludes)) fun hfallback =>
    absurd hfallback (h p)

/-- The fallback of the attribute call has the flags it is given, and
read-only. -/
theorem makeReadonlyRecursive {target : Path} {flags : MountFlags}
    (hown : flags ||| MountFlags.readonly = own) :
    Contract (.remounts (Upholds host relaxed own)) host m
      (Run.makeReadonlyRecursive target flags) fun _ _ => True := by
  refine .makeReadonlyRecursive (call_of_none rfl _ _) (fun m₁ refusal htree hlog => ?_)
    (fun _ _ => trivial) fun _ _ _ _ _ => trivial
  intro p flags' hcall
  have hword : (Contract.remountBindCall target (flags ||| MountFlags.readonly)).bindRemount?
      = some (target, flags ||| MountFlags.readonly ||| MountFlags.bind ||| MountFlags.remount) :=
    if_pos includes_or_bind_or_remount
  obtain ⟨rfl, rfl⟩ : target = p ∧ _ = flags' := by
    simpa using Option.some.inj (hword.symm.trans hcall)
  intro flag hlisted _
  have hfallback : Fallback m₁.log target := ⟨m.log, m.tree, hlog⟩
  obtain ⟨_, _, word, -, -, hflag, -⟩ := hlisted
  have hbind : Apart MountFlags.bind flag := apart_restriction hflag (by decide)
  have hremount : Apart MountFlags.remount flag := apart_restriction hflag (by decide)
  rw [includes_or_of_apart hremount, includes_or_of_apart hbind, hown]
  exact ⟨fun hincludes _ => hincludes, fun h => h hfallback⟩

/-! ## proc, sysfs and the control groups -/

section Virtual

variable {target : Path} {flags : MountFlags} {data : String} {namespaces : Namespaces}

theorem tryFreshSysfs (h : Apart flags bindRemount) :
    Contract (.remounts allowed) host m (Run.tryFreshSysfs namespaces target flags data)
      fun _ _ => True := by
  unfold Run.tryFreshSysfs
  split
  · apply Contract.andThen (mountFilesystem? h)
    intro e m₁ _ _
    cases e with
    | none => exact .pure trivial
    | some e =>
        dsimp only
        split
        · exact .pure trivial
        · exact .throw
  · exact .pure trivial

theorem bindHostSysfs (hown : flags ||| MountFlags.readonly = own) :
    Contract (.remounts (Upholds host relaxed own)) host m (Run.bindHostSysfs target flags)
      fun _ _ => True := by
  have hown' : flags ||| MountFlags.readonly ||| MountFlags.readonly = own := by
    rw [BitVec.or_assoc, BitVec.or_self, hown]
  unfold Run.bindHostSysfs
  refine .bind (.read fun _ => .andThen bindMount fun _ m₁ _ hsettled => ?_)
  refine .bind (.inherit fun table htable _ => ?_)
  apply Contract.andThen (remountInherited hsettled htable)
  intro _ m₂ _ _
  split
  · exact makeReadonlyRecursive hown
  · refine .bind (.isMountPoint fun table _ _ => ?_)
    split
    · exact makeReadonlyRecursive hown'
    · exact .pure trivial

theorem mountSysfs (h : Apart flags bindRemount) (hown : flags ||| MountFlags.readonly = own) :
    Contract (.remounts (Upholds host relaxed own)) host m
      (Run.mountSysfs namespaces target flags data) fun _ _ => True := by
  unfold Run.mountSysfs
  apply Contract.andThen (tryFreshSysfs h)
  intro fresh m₁ _ _
  split
  · exact .pure trivial
  · exact .andThen (bindHostSysfs hown) fun _ _ _ _ => .pure trivial

theorem bindHostCgroup (hown : flags ||| MountFlags.readonly = own) :
    Contract (.remounts (Upholds host relaxed own)) host m (Run.bindHostCgroup target flags)
      fun _ _ => True := by
  unfold Run.bindHostCgroup
  refine .bind (.read fun _ => .andThen bindMount fun _ m₁ _ hsettled => ?_)
  refine .bind (.inherit fun table htable _ => ?_)
  exact .andThen (remountInherited hsettled htable) fun _ _ _ _ => makeReadonlyRecursive hown

theorem tryFreshCgroup (h : Apart flags bindRemount) :
    Contract (.remounts (Upholds host relaxed own)) host m
      (Run.tryFreshCgroup target flags data) fun _ _ => True := by
  unfold Run.tryFreshCgroup
  apply Contract.andThen (mountFilesystem? h)
  intro e m₁ _ hsettled
  cases e with
  | none =>
      refine .bind (.inherit fun table htable _ => ?_)
      exact .andThen (remountInherited (hsettled rfl) htable) fun _ _ _ _ => .pure trivial
  | some e =>
      dsimp only
      split
      · exact .pure trivial
      · exact .throw

theorem addController {root : Path} {name : Name} {node : Node} :
    Contract (.remounts (Upholds host relaxed own)) host m
      (Run.addController root target flags name node) fun _ _ => True := by
  cases node with
  | symlink text =>
      exact .bind (.change? (fun tree m₁ _ _ _ => ⟨trivial, fun _ => .pure trivial⟩)
        fun fault _ _ => .throw)
  | dir mode entries =>
      refine .bindController (fun _ _ => trivial) fun m₁ _ _ => ?_
      apply Contract.andThen bindMount
      intro _ m₂ _ hsettled
      exact .bind (.inherit fun table htable _ => remountInherited hsettled htable)
  | _ => exact .pure trivial

theorem mountSynthetic (h : Apart flags bindRemount) :
    Contract (.remounts (Upholds host relaxed own)) host m (Run.mountSynthetic target flags)
      fun _ _ => True := by
  unfold Run.mountSynthetic
  apply Contract.andThen (mountFilesystem h.without)
  intro _ m₁ _ _
  refine .bind (.read fun _ => .bind (.ask fun entries _ _ => ?_))
  exact .andThen (.addControllers fun _ _ _ _ => addController) fun _ _ _ _ => remount h

theorem mountCgroup (h : Apart flags bindRemount) (hown : flags ||| MountFlags.readonly = own) :
    Contract (.remounts (Upholds host relaxed own)) host m
      (Run.mountCgroup namespaces target flags data) fun _ _ => True := by
  have h' : Apart (flags ||| MountFlags.readonly) bindRemount := h.or (by decide)
  have hown' : flags ||| MountFlags.readonly ||| MountFlags.readonly = own := by
    rw [BitVec.or_assoc, BitVec.or_self, hown]
  unfold Run.mountCgroup
  refine .bind (.table fun table _ _ => .bind (.read fun _ => ?_))
  dsimp only
  split
  · apply Contract.andThen (tryFreshCgroup h')
    intro fresh m₁ _ _
    split
    · exact .pure trivial
    · exact .andThen (bindHostCgroup hown') fun _ _ _ _ => .pure trivial
  · exact .andThen (bindHostCgroup hown') fun _ _ _ _ => .pure trivial
  · exact .andThen (mountSynthetic h') fun _ _ _ _ => .pure trivial

end Virtual

end Upholding

end ContainerMounts
