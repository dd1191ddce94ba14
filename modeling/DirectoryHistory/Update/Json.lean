import DirectoryHistory.Entry.Json
import DirectoryHistory.Update

/-!
# Updates as JSON
-/

namespace DirectoryHistory

namespace Stamp

def toJson (s : Stamp) : Json :=
  .record [("timestamp", .nat s.time.toNat), ("sequence", .nat s.sequence.toNat),
    ("replica_id", .nat s.replica.toNat)]

def ofJson? (j : Json) : Option Stamp := do
  match ← j.fields? ["timestamp", "sequence", "replica_id"] with
  | [some time, some sequence, some replica] =>
    let time ← time.natUpTo? (UInt64.size - 1)
    let sequence ← sequence.natUpTo? (UInt32.size - 1)
    let replica ← replica.natUpTo? (UInt16.size - 1)
    return ⟨.ofNat time, .ofNat sequence, .ofNat replica⟩
  | _ => failure

end Stamp

namespace RelativeName

def toJson (n : RelativeName) : Json :=
  .record [("attr", .str n.attr), ("value", .str n.value)]

def ofJson? (j : Json) : Option RelativeName := do
  match ← j.fields? ["attr", "value"] with
  | [some attr, some value] => return ⟨← attr.string?, ← value.string?⟩
  | _ => failure

end RelativeName

namespace Modification

def Kind.name : Kind → String
  | .add => "Add"
  | .delete => "Delete"
  | .replace => "Replace"

def Kind.ofName? (s : String) : Option Kind :=
  if s = "Add" then some .add
  else if s = "Delete" then some .delete
  else if s = "Replace" then some .replace
  else none

/-- A case without fields is its name, or an object that maps the name to null. -/
def Kind.ofJson? (j : Json) : Option Kind := do
  match ← j.case? with
  | (name, none) | (name, some .null) => ofName? name
  | _ => failure

def toJson (m : Modification) : Json :=
  .record [("attr", .str m.attr.text), ("kind", .str m.kind.name),
    ("values", Attribute.valuesToJson m.values)]

def ofJson? (j : Json) : Option Modification := do
  match ← j.fields? ["attr", "kind", "values"] with
  | [some attr, some kind, some values] =>
    return ⟨← (← attr.string?) |> Attribute.ofKey?, ← Kind.ofJson? kind,
      ← Attribute.valuesOfJson? values⟩
  | _ => failure

end Modification

namespace Update

/-- An optional field may be missing. -/
def optionalField? {α : Type} (f : Json → Option α) : Option Json → Option (Option α)
  | none => some none
  | some j => j.optional? f

def Payload.toJson : Payload → Json
  | .add parent t =>
    .record [("Add", .record [("parent_id", .ofOption EntryId.toJson parent),
      ("attributes", Attribute.tableToJson t)])]
  | .modify mods =>
    .record [("Modify", .record [("modifications", .array (mods.map Modification.toJson))])]
  | .rename leaf deleteOld superior superiorId =>
    .record [("ModifyDn", .record [("new_rdn", leaf.toJson), ("delete_old_rdn", .bool deleteOld),
      ("new_superior", .ofOption DistinguishedName.toJson superior),
      ("new_superior_id", .ofOption EntryId.toJson superiorId)])]
  | .delete => .str "Delete"

def addOfJson? (j : Json) : Option Payload := do
  match ← j.fields? ["parent_id", "attributes"] with
  | [parent, some t] =>
    return .add (← optionalField? EntryId.ofJson? parent) (← Attribute.tableOfJson? t)
  | _ => failure

def modifyOfJson? (j : Json) : Option Payload := do
  match ← j.fields? ["modifications"] with
  | [some mods] => return .modify (← (← mods.array?).mapM Modification.ofJson?)
  | _ => failure

def renameOfJson? (j : Json) : Option Payload := do
  match ← j.fields? ["new_rdn", "delete_old_rdn", "new_superior", "new_superior_id"] with
  | [some leaf, some deleteOld, superior, superiorId] =>
    return .rename (← RelativeName.ofJson? leaf) (← deleteOld.bool?)
      (← optionalField? DistinguishedName.ofJson? superior)
      (← optionalField? EntryId.ofJson? superiorId)
  | _ => failure

def Payload.ofJson? (j : Json) : Option Payload := do
  match ← j.case? with
  | ("Delete", none) | ("Delete", some .null) => return .delete
  | ("Add", some j) => addOfJson? j
  | ("Modify", some j) => modifyOfJson? j
  | ("ModifyDn", some j) => renameOfJson? j
  | _ => failure

def toJson (u : Update) : Json :=
  .record [("csn", u.stamp.toJson), ("dn", u.name.toJson), ("entry_id", u.id.toJson),
    ("payload", u.payload.toJson)]

def ofJson? (j : Json) : Option Update := do
  match ← j.fields? ["csn", "dn", "entry_id", "payload"] with
  | [some stamp, some name, some id, some payload] =>
    return ⟨← Stamp.ofJson? stamp, ← DistinguishedName.ofJson? name, ← EntryId.ofJson? id,
      ← Payload.ofJson? payload⟩
  | _ => failure

end Update

end DirectoryHistory
