/-
ContainerMounts.IdMapping — tables that present one id as another.

A table is a list of ranges. `IdMapping.ofRanges` accepts a list if every
range is non-empty and stays in the 32-bit id space and no two ranges
share an id on either side; `IdMapping.hostId?` reads the table, and
`IdMapping.kernelText` is the table as the kernel reads it.
-/
import ContainerMounts.Error

namespace ContainerMounts

/-- A range of ids: `container + k` is presented as `host + k` for each `k`
below `size`. -/
structure IdRange where
  container : UInt32
  host : UInt32
  size : UInt32
  deriving DecidableEq, Repr

/-- A stretch of numbers from `start` up to but not including `stop`. -/
structure IdSpan where
  start : Nat
  stop : Nat

namespace IdSpan

/-- The stretches share a number. -/
def overlaps (a b : IdSpan) : Bool := a.start < b.stop && b.start < a.stop

end IdSpan

namespace IdRange

/-- The ids of the range on the container's side. -/
def containerSpan (r : IdRange) : IdSpan :=
  ⟨r.container.toNat, r.container.toNat + r.size.toNat⟩

/-- The ids of the range on the host's side. -/
def hostSpan (r : IdRange) : IdSpan := ⟨r.host.toNat, r.host.toNat + r.size.toNat⟩

/-- The number of ids there are. -/
def idSpace : Nat := UInt32.size

/-- The range runs out of the id space on one side. -/
def overflows (r : IdRange) : Bool :=
  idSpace < r.containerSpan.stop || idSpace < r.hostSpan.stop

/-- The host's id for `id`, if the range holds it. -/
def hostId? (r : IdRange) (id : UInt32) : Option UInt32 :=
  if r.container ≤ id ∧ id - r.container < r.size then some (r.host + (id - r.container))
  else none

end IdRange

/-- A table of id ranges, in the order of declaration. -/
structure IdMapping where
  ranges : List IdRange := []
  deriving DecidableEq, Repr

namespace IdMapping

/-- Why range `i` cannot stand beside the ranges declared before it, which
are numbered from `j`. -/
def conflict? (i : Nat) (r : IdRange) : Nat → List IdRange → Option String
  | _, [] => none
  | j, other :: rest =>
      if r.containerSpan.overlaps other.containerSpan then
        some s!"ranges {j} and {i} overlap on the container side"
      else if r.hostSpan.overlaps other.hostSpan then
        some s!"ranges {j} and {i} overlap on the host side"
      else conflict? i r (j + 1) rest

/-- What is wrong with the ranges that follow those of `before`, if
anything is. -/
def fault? (before : List IdRange) : List IdRange → Option String
  | [] => none
  | r :: rest =>
      let i := before.length
      if r.size = 0 then some s!"range {i} has size 0"
      else if r.overflows then some s!"range {i} exceeds the 32-bit id space"
      else
        match conflict? i r 0 before with
        | some reason => some reason
        | none => fault? (before ++ [r]) rest

/-- The table with these ranges, if they can stand together. -/
def ofRanges (ranges : List IdRange) : Except Error IdMapping :=
  match fault? [] ranges with
  | some reason => .error (.invalidIdMapping reason)
  | none => .ok ⟨ranges⟩

/-- The table with these ranges, or no table for no ranges. -/
def ofDeclared (ranges : List IdRange) : Except Error (Option IdMapping) :=
  if ranges.isEmpty then .ok none
  else some <$> ofRanges ranges

/-- The table has no ranges. -/
def isEmpty (m : IdMapping) : Bool := m.ranges.isEmpty

/-- The host's id for `id`, by the first range that holds it. -/
def hostId? (m : IdMapping) (id : UInt32) : Option UInt32 :=
  m.ranges.findSome? (·.hostId? id)

/-- A range as a line for the kernel. -/
def rangeLine (r : IdRange) : String :=
  toString r.container.toNat ++ " " ++ toString r.host.toNat ++ " " ++ toString r.size.toNat
    ++ "\n"

/-- The table for the kernel, a line for each range: first id inside, first
id outside, number of ids. -/
def kernelText (m : IdMapping) : String := String.join (m.ranges.map rangeLine)

end IdMapping

/-- The user and group tables of one id-mapped mount. -/
structure OwnerMapping where
  uid : IdMapping
  gid : IdMapping
  deriving DecidableEq, Repr

namespace OwnerMapping

/-- The tables for a mount: its own where it has them, the container's
otherwise. Both have to have a range. -/
def select (mountUid mountGid : Option IdMapping) (containerUid containerGid : IdMapping) :
    Except Error OwnerMapping :=
  let uid := mountUid.getD containerUid
  let gid := mountGid.getD containerGid
  if uid.isEmpty || gid.isEmpty then
    .error (.invalidIdMapping
      "id-mapped mount needs uid and gid mappings, from the mount or the container")
  else .ok ⟨uid, gid⟩

end OwnerMapping

end ContainerMounts
