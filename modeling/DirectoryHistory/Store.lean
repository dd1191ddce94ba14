import DirectoryHistory.Entry

/-!
# The entry store

Entries by identifier, with an index from names to identifiers. Names that are the same have one
index key, so no two entries can share a name.
-/

namespace DirectoryHistory

structure Store where
  entries : Table EntryId Entry
  names : Table (List String) EntryId
  deriving DecidableEq

namespace Store

/-- The name that an entry asked for and another one holds. -/
structure NameInUse where
  name : DistinguishedName
  deriving DecidableEq, Repr

def NameInUse.message (e : NameInUse) : String :=
  "DN already in use: " ++ e.name.text

def empty : Store :=
  ⟨.empty, .empty⟩

instance : Inhabited Store := ⟨empty⟩

def toList (s : Store) : List Entry :=
  s.entries.values

def ids (s : Store) : List EntryId :=
  s.entries.keys

def size (s : Store) : Nat :=
  s.entries.size

def get? (s : Store) (id : EntryId) : Option Entry :=
  s.entries.get? id

def find? (s : Store) (name : DistinguishedName) : Option Entry :=
  (s.names.get? name.folded).bind s.entries.get?

/-- The index without the name under which the entry `e` was stored before. -/
def releaseName (s : Store) (e : Entry) : Table (List String) EntryId :=
  match s.entries.get? e.id with
  | some old => if old.name.same e.name then s.names else s.names.erase old.name.folded
  | none => s.names

/-- Stores an entry in the place of the one with its identifier. -/
def put (s : Store) (e : Entry) : Except NameInUse Store :=
  if (s.names.get? e.name.folded).any (· != e.id) then .error ⟨e.name⟩
  else .ok ⟨s.entries.insert e.id e, (s.releaseName e).insert e.name.folded e.id⟩

def remove (s : Store) (id : EntryId) : Store :=
  match s.entries.get? id with
  | some e => ⟨s.entries.erase id, s.names.erase e.name.folded⟩
  | none => s

def ofEntries (es : List Entry) : Except NameInUse Store :=
  es.foldlM put empty

end Store

end DirectoryHistory
