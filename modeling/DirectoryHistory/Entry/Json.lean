import DirectoryHistory.Entry
import DirectoryHistory.Json

/-!
# Entries as JSON

An entry is a record of its name, its identifier and its attributes. An attribute is read under the
key that its description is written as; of keys that name one attribute the last one counts, and its
values are kept as they stand.
-/

namespace DirectoryHistory

namespace EntryId

def toJson (id : EntryId) : Json :=
  .octetArray id.octets

def ofJson? (j : Json) : Option EntryId := do
  let items ← j.array?
  let octets ← items.mapM fun j => (j.natUpTo? 255).map UInt8.ofNat
  ofOctets? octets

end EntryId

namespace DistinguishedName

def toJson (d : DistinguishedName) : Json :=
  .str d.text

def ofJson? (j : Json) : Option DistinguishedName :=
  j.string?.bind fun s => (parse s).toOption

end DistinguishedName

namespace Attribute

def valuesToJson (vs : List Octets) : Json :=
  .array (vs.map .octetArray)

def valuesOfJson? (j : Json) : Option (List Octets) :=
  j.array?.bind fun items => items.mapM Json.octets?

def ofKey? (key : String) : Option Attribute :=
  (parse key).toOption

def tableToJson (t : Table Attribute (List Octets)) : Json :=
  .record (t.toList.map fun (a, vs) => (a.text, valuesToJson vs))

def tableOfJson? (j : Json) : Option (Table Attribute (List Octets)) := do
  let members ← j.members?
  let pairs ← members.mapM fun (key, j) => return (← ofKey? key, ← valuesOfJson? j)
  return .ofList pairs

end Attribute

namespace Entry

def fieldNames : List String :=
  ["dn", "id", "attributes"]

def toJson (e : Entry) : Json :=
  .record [("dn", e.name.toJson), ("id", e.id.toJson),
    ("attributes", Attribute.tableToJson e.attributes)]

def ofJson? (j : Json) : Option Entry := do
  match ← j.fields? fieldNames with
  | [some name, some id, some attributes] =>
    return ⟨← DistinguishedName.ofJson? name, ← EntryId.ofJson? id,
      ← Attribute.tableOfJson? attributes⟩
  | _ => failure

end Entry

end DirectoryHistory
