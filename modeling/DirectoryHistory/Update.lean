import DirectoryHistory.Entry
import DirectoryHistory.Modification

/-!
# Updates

The message by which a replica tells the others of a change.
-/

namespace DirectoryHistory

/-- What changed. A rename keeps the parent unless it names a superior. -/
inductive Update.Payload where
  | add (parent : Option EntryId) (attributes : Table Attribute (List Octets))
  | modify (modifications : List Modification)
  | rename (leaf : RelativeName) (deleteOld : Bool) (superior : Option DistinguishedName)
      (superiorId : Option EntryId)
  | delete
  deriving DecidableEq

/-- A change at `stamp` of the entry that was then called `name`. -/
structure Update where
  stamp : Stamp
  name : DistinguishedName
  id : EntryId
  payload : Update.Payload
  deriving DecidableEq

namespace Update

def word (u : Update) : String :=
  match u.payload with
  | .add .. => "add"
  | .modify _ => "modify"
  | .rename .. => "moddn"
  | .delete => "delete"

end Update

end DirectoryHistory
