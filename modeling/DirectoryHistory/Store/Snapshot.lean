import DirectoryHistory.Entry.Json
import DirectoryHistory.Json.Reader
import DirectoryHistory.Json.Writer
import DirectoryHistory.Store

/-!
# Snapshots

A snapshot is the text of a store: the JSON array of its entries, by identifier.
-/

namespace DirectoryHistory.Store

/-- Why a text is no snapshot. -/
inductive SnapshotError where
  | malformed
  | nameInUse (cause : NameInUse)
  deriving DecidableEq, Repr

def SnapshotError.message : SnapshotError → String
  | .malformed => "snapshot error"
  | .nameInUse cause => cause.message

def snapshot (s : Store) : String :=
  (Json.array (s.toList.map Entry.toJson)).pretty

def entriesOfJson? (j : Json) : Option (List Entry) := do
  (← j.array?).mapM Entry.ofJson?

def ofSnapshot (text : String) : Except SnapshotError Store :=
  match (Json.parse? text).bind entriesOfJson? with
  | none => .error .malformed
  | some es => (ofEntries es).mapError .nameInUse

end DirectoryHistory.Store
