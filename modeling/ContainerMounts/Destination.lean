/-
ContainerMounts.Destination — the destination of a mount, as written in a
configuration, brought into one form.

`Destination.normalize` reads a destination from the container's root,
relative or not, drops empty and `.` parts and lets `..` take back the
part before it. The result is `/` and the names that are left, so two
spellings of one destination become one path. A destination that takes
back more than it named is refused.
-/
import ContainerMounts.Error

namespace ContainerMounts.Destination

/-- The names left by the moves, starting from the names of a stack with
its top at the end; `none` if a move up finds the stack empty. -/
def collapse? : List Name → List Step → Option (List Name)
  | stack, [] => some stack
  | [], .up :: _ => none
  | name :: stack, .up :: rest => collapse? (name :: stack).dropLast rest
  | stack, .down name :: rest => collapse? (stack ++ [name]) rest

/-- The destination as an absolute path without `.`, `..` and repeated
separators. -/
def normalize (text : String) : Except Error Path :=
  match collapse? [] (Path.ofString text).steps with
  | some names => .ok (Path.ofNames names)
  | none => .error (.pathEscape text "`..` climbs above the container root")

end ContainerMounts.Destination
