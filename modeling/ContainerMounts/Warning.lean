/-
ContainerMounts.Warning — what a mount setup reports without failing.
-/
import ContainerMounts.FileKind

namespace ContainerMounts

/-- Something that is done differently from what was asked. -/
inductive Warning where
  /-- Words that mean nothing for a source of this kind. -/
  | narrowed (kind : FileKind) (words : List String)
  /-- The kernel cannot make the mounts below this one read-only. -/
  | topMountOnly (target : Path)
  deriving DecidableEq, Repr

namespace Warning

/-- The words as a list in the log. -/
def wordList (words : List String) : String :=
  "[" ++ ", ".intercalate (words.map fun word => "\"" ++ word ++ "\"") ++ "]"

/-- The line in the log. -/
def message : Warning → String
  | .narrowed .. =>
      "Recursive options are meaningless for special files, using single-mount forms"
  | .topMountOnly _ => "mount_setattr unavailable, only the top mount is made read-only"

/-- The values that go with the line, by name. -/
def fields : Warning → List (String × String)
  | .narrowed kind words => [("kind", kind.logName), ("dropped", wordList words)]
  | .topMountOnly target => [("target", target.display)]

end Warning

end ContainerMounts
