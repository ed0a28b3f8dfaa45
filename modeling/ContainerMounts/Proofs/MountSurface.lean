/-
ContainerMounts.Proofs.MountSurface — what calls make of the mount on a
target.

The flags of a mount are the outcome of all calls that were aimed at it:
a new filesystem takes the flags of its call, a bind or a copied tree
those of its source, whatever they are, a remount replaces them, an
attribute call takes some away and adds others, and a change of
propagation leaves them. `Surface.through` folds a list of calls in this way.
What a source's flags are is left to a parameter, so a statement about the
fold is one about every source.
-/
import ContainerMounts.Machine
import ContainerMounts.Proofs.FlagWords
import ContainerMounts.Resolver

namespace ContainerMounts

/-! ## Flags of one mount -/

namespace MountFlags

/-- The flags that a mount has for itself; the others belong to the call or
to the filesystem. -/
def ofMount : MountFlags := readonly ||| nosuid ||| nodev ||| noexec ||| nodiratime ||| atimeModes

/-- The flags that make a call a change of propagation. -/
def propagationModes : MountFlags := shared ||| privately ||| slave ||| unbindable

/-- The flags that make a call another one than a new mount. -/
def callModes : MountFlags := remount ||| bind ||| propagationModes

/-- The flags of the mount on the target after a mount call with the flags
`call`. The kernel looks for a remount first, then for a bind, then for a
change of propagation. -/
def afterCall (call start now : MountFlags) : MountFlags :=
  if call.meets remount then call &&& ofMount
  else if call.meets bind then start
  else if call.meets propagationModes then now
  else call &&& ofMount

theorem Apart.not_meets {flags part other : MountFlags} (h : Apart flags other)
    (hpart : other.includes part = true) : flags.meets part = false := by
  have hapart : flags &&& part = 0 := by
    apply BitVec.eq_of_getLsbD_eq
    intro i _
    rw [BitVec.getLsbD_and]
    cases hi : part.getLsbD i with
    | false => simp
    | true => simp [h.getLsbD (includes_iff.1 hpart i hi)]
  rw [meets, hapart]
  rfl

theorem afterCall_fresh {call start now : MountFlags} (h : Apart call callModes) :
    call.afterCall start now = call &&& ofMount := by
  have hremount : call.meets remount = false := h.not_meets (by decide)
  have hbind : call.meets bind = false := h.not_meets (by decide)
  have hpropagation : call.meets propagationModes = false := h.not_meets (by decide)
  simp [afterCall, hremount, hbind, hpropagation]

theorem afterCall_remount {flags start now : MountFlags} :
    afterCall (flags ||| remount) start now = (flags ||| remount) &&& ofMount := by
  have hmeets : meets (flags ||| remount) remount = true := by
    have hincludes : includes (flags ||| remount) remount = true := includes_or_right (by decide)
    rw [includes, beq_iff_eq] at hincludes
    rw [meets, hincludes]
    decide
  rw [afterCall, if_pos hmeets]

theorem afterCall_propagation {p : Propagation} {start now : MountFlags} :
    p.flags.afterCall start now = now := by
  obtain ⟨mode, recursive⟩ := p
  cases mode <;> cases recursive <;> rfl

end MountFlags

namespace MountAttrs

/-- The restrictions among the attributes, in the encoding of the mount
call. -/
def restrictions (attrs : MountAttrs) : MountFlags :=
  (if MountFlags.includes attrs readonly then MountFlags.readonly else 0)
    ||| (if MountFlags.includes attrs nosuid then MountFlags.nosuid else 0)
    ||| (if MountFlags.includes attrs nodev then MountFlags.nodev else 0)
    ||| (if MountFlags.includes attrs noexec then MountFlags.noexec else 0)

/-- The access-time mode in the field. -/
def atimeMode (attrs : MountAttrs) : AtimeMode :=
  if attrs &&& atimeField = noatime then .noatime
  else if attrs &&& atimeField = strictatime then .strictatime
  else .relatime

end MountAttrs

/-- The flags of a mount after the attribute call. The access-time mode
changes only if the call clears its field. -/
def AttrChange.on (change : AttrChange) (flags : MountFlags) : MountFlags :=
  let restricted := flags.without change.clear.restrictions ||| change.set.restrictions
  if MountFlags.includes change.clear MountAttrs.atimeField then
    restricted.without MountFlags.atimeModes ||| change.set.atimeMode.flag
  else restricted

/-! ## Calls in order -/

/-- The call is aimed at the mount point itself: at its path, or at the file
there, held open. -/
def ResolvedPath.isAimedAt (r : ResolvedPath) (tree : FileTree) : Spot → Bool
  | .at p => p.same r.hostPath
  | .held real =>
      match tree.openDir r.rootfs.path with
      | .ok top => real.same (Path.ofNames (top ++ r.names))
      | .error _ => false

/-- The flags of the mount on a target, and those of the copied tree that is
not attached yet. -/
structure Surface where
  mount : MountFlags
  copy : MountFlags

namespace Surface

/-- The surface of the target after an accepted call. A bind and a copy have
the flags `start` at first. -/
def afterCall (here : Spot → Bool) (start : MountFlags) (s : Surface) : KernelCall → Surface
  | .mount _ target _ flags _ =>
      if here target then { s with mount := flags.afterCall start s.mount } else s
  | .setAttrAt path _ change =>
      if here (.at path) then { s with mount := change.on s.mount } else s
  | .openTree .. => { s with copy := start }
  | .setAttrOf _ _ change => { s with copy := change.on s.copy }
  | .moveMount _ target => if here target then { s with mount := s.copy } else s
  | .write .. | .unshare _ => s

/-- The surface after a call on record. A refused call changes nothing. -/
def after (r : ResolvedPath) (start : MountFlags) (s : Surface) (moment : Moment) : Surface :=
  if moment.event.refusal.isNone then
    s.afterCall (r.isAimedAt moment.tree) start moment.event.call
  else s

/-- The surface of the target after these calls. Call number `n` starts with
`start n`, if it is a bind or a copy. -/
def through (r : ResolvedPath) (start : Nat → MountFlags) (s : Surface) (calls : List Moment) :
    Surface :=
  calls.zipIdx.foldl (fun s e => s.after r (start e.2) e.1) s

theorem through_concat {r : ResolvedPath} {start : Nat → MountFlags} {s : Surface}
    {calls : List Moment} {moment : Moment} :
    through r start s (calls ++ [moment])
      = (through r start s calls).after r (start calls.length) moment := by
  simp [through, List.zipIdx_append]

end Surface

end ContainerMounts
