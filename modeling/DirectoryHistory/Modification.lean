import DirectoryHistory.Attribute
import DirectoryHistory.Octets

/-!
# Modifications

What a modify request asks of one attribute.
-/

namespace DirectoryHistory

/-- A delete without values deletes the whole attribute. -/
inductive Modification.Kind where
  | add
  | delete
  | replace
  deriving DecidableEq, Repr

structure Modification where
  attr : Attribute
  kind : Modification.Kind
  values : List Octets
  deriving DecidableEq, Repr

end DirectoryHistory
