import DirectoryHistory.Update
import DirectoryHistory.Wire

/-!
# Updates on the wire

Fields in their order. Names and attributes travel as text, identifiers as their 32 octets.
-/

namespace DirectoryHistory

namespace Wire

def stamp (s : Stamp) : Octets :=
  number s.time.toNat ++ number s.sequence.toNat ++ number s.replica.toNat

def name (d : DistinguishedName) : Octets :=
  string d.text

def entryId (id : EntryId) : Octets :=
  id.octets

def description (a : Attribute) : Octets :=
  string a.text

def values (vs : List Octets) : Octets :=
  list bytes vs

def attributes (t : Table Attribute (List Octets)) : Octets :=
  list (fun (a, vs) => description a ++ values vs) t.toList

def kind : Modification.Kind → Octets
  | .add => number 0
  | .delete => number 1
  | .replace => number 2

def modification (m : Modification) : Octets :=
  description m.attr ++ kind m.kind ++ values m.values

def relativeName (n : RelativeName) : Octets :=
  string n.attr ++ string n.value

def payload : Update.Payload → Octets
  | .add parent t => number 0 ++ option entryId parent ++ attributes t
  | .modify mods => number 1 ++ list modification mods
  | .rename leaf deleteOld superior superiorId =>
    number 2 ++ relativeName leaf ++ bool deleteOld ++ option name superior ++
      option entryId superiorId
  | .delete => number 3

def readStamp : Reader Stamp := do
  return ⟨← readUInt64, ← readUInt32, ← readUInt16⟩

def readName : Reader DistinguishedName :=
  readVia DistinguishedName.parse

def readAttribute : Reader Attribute :=
  readVia Attribute.parse

def readEntryId : Reader EntryId := do
  match EntryId.ofOctets? (← readOctets 32) with
  | some id => return id
  | none => throw .endOfInput

def readValues : Reader (List Octets) :=
  readList readBytes

def readAttributes : Reader (Table Attribute (List Octets)) :=
  .ofList <$> readList do return (← readAttribute, ← readValues)

def readKind : Reader Modification.Kind := do
  match ← readUInt32 with
  | 0 => return .add
  | 1 => return .delete
  | 2 => return .replace
  | _ => throw .value

def readModification : Reader Modification := do
  return ⟨← readAttribute, ← readKind, ← readValues⟩

/-- Both parts are taken as they stand. -/
def readRelativeName : Reader RelativeName := do
  return ⟨← readString, ← readString⟩

def readPayload : Reader Update.Payload := do
  match ← readUInt32 with
  | 0 => return .add (← readOption readEntryId) (← readAttributes)
  | 1 => return .modify (← readList readModification)
  | 2 =>
    return .rename (← readRelativeName) (← readBool) (← readOption readName)
      (← readOption readEntryId)
  | 3 => return .delete
  | _ => throw .value

def readUpdate : Reader Update := do
  return ⟨← readStamp, ← readName, ← readEntryId, ← readPayload⟩

end Wire

namespace Update

def toOctets (u : Update) : Octets :=
  Wire.stamp u.stamp ++ Wire.name u.name ++ Wire.entryId u.id ++ Wire.payload u.payload

/-- What follows the update is left unread. -/
def ofOctets (o : Octets) : Except Wire.Flaw Update :=
  (Wire.readUpdate.run o).map (·.1)

end Update

end DirectoryHistory
