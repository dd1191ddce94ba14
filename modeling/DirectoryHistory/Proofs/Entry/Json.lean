import DirectoryHistory.Entry.Json
import DirectoryHistory.Proofs.Attribute
import DirectoryHistory.Proofs.DistinguishedName
import DirectoryHistory.Proofs.Json.Layout
import DirectoryHistory.Proofs.Table

/-!
# Entries are read from JSON as they were written

The identifier, the attributes and the values of an entry come back as they were, whatever octets the
values are made of. The name is the one that its text stands for.
-/

namespace DirectoryHistory

/-- Items that are read back one by one, up to `R`, are read back in a row. -/
theorem exists_mapM_map {α β γ : Type} {R : γ → α → Prop} {write : α → β} {read : β → Option γ}
    {l : List α} (h : ∀ a ∈ l, ∃ c, read (write a) = some c ∧ R c a) :
    ∃ cs, (l.map write).mapM read = some cs ∧ List.Forall₂ R cs l := by
  induction l with
  | nil => exact ⟨[], rfl, .nil⟩
  | cons a l ih =>
    obtain ⟨c, first, related⟩ := h a (.head _)
    obtain ⟨cs, rest, others⟩ := ih fun b hb => h b (.tail _ hb)
    exact ⟨c :: cs, by simp [first, rest], .cons related others⟩

theorem mapM_map_eq_some {α β : Type} {write : α → β} {read : β → Option α} {l : List α}
    (h : ∀ a ∈ l, read (write a) = some a) : (l.map write).mapM read = some l := by
  obtain ⟨cs, all, same⟩ := exists_mapM_map (R := Eq) fun a ha => ⟨a, h a ha, rfl⟩
  rw [List.forall₂_eq_eq_eq] at same
  exact same ▸ all

namespace Json

theorem natUpTo?_nat {bound n : Nat} (h : n ≤ bound) : (nat n).natUpTo? bound = some n := by
  have read : (nat n).nat? = some n := DirectoryHistory.Text.readDigits?_decimal n
  simp [natUpTo?, read, h]

theorem mapM_natUpTo?_octets (o : Octets) :
    (o.map fun b => nat b.toNat).mapM (fun j => (j.natUpTo? 255).map UInt8.ofNat) = some o := by
  refine mapM_map_eq_some fun b _ => ?_
  rw [natUpTo?_nat (Nat.le_of_lt_succ b.toNat_lt)]
  simp

theorem members?_record (members : List (String × Json)) :
    (record members).members? = some members :=
  mapM_map_eq_some fun p _ => by simp

theorem fields?_record {names : List String} {members : List (String × Json)}
    (known : ∀ p ∈ members, p.1 ∈ names) :
    (record members).fields? names = names.mapM (single? · members) := by
  have all : members.all (fun p => names.contains p.1 || p.2.isSkippable) = true := by
    simp only [List.all_eq_true, Bool.or_eq_true, List.contains_iff_mem]
    exact fun p hp => .inl (known p hp)
  have fields : (record members).fields? names = (record members).members?.bind fun members =>
      if members.all fun p => names.contains p.1 || p.2.isSkippable then
        names.mapM (single? · members)
      else none := rfl
  rw [fields, members?_record, Option.bind_some, if_pos all]

theorem isPlain_octetArray (o : Octets) : (octetArray o).IsPlain :=
  .array (List.forall_mem_map.mpr fun b _ => .nat b.toNat)

end Json

theorem EntryId.ofJson?_toJson (id : EntryId) : ofJson? id.toJson = some id := by
  have octets := Json.mapM_natUpTo?_octets id.octets
  have made : ofOctets? id.octets = some id := dif_pos id.length_octets
  simp [ofJson?, toJson, Json.octetArray, Json.array?, octets, made]

namespace Attribute

theorem valuesOfJson?_valuesToJson (vs : List Octets) :
    valuesOfJson? (valuesToJson vs) = some vs :=
  mapM_map_eq_some fun o _ => Json.mapM_natUpTo?_octets o

theorem tableOfJson?_tableToJson {t : Table Attribute (List Octets)}
    (normal : ∀ a ∈ t.keys, a.IsNormal) : tableOfJson? (tableToJson t) = some t := by
  have pairs : (t.toList.map fun p => (p.1.text, valuesToJson p.2)).mapM
      (fun p => do return (← ofKey? p.1, ← valuesOfJson? p.2)) = some t.toList := by
    refine mapM_map_eq_some fun p hp => ?_
    have key : ofKey? p.1.text = some p.1 := by
      rw [ofKey?, (normal p.1 (List.mem_map_of_mem hp)).parse_text]
      rfl
    simp [key, valuesOfJson?_valuesToJson]
  have members : (tableToJson t).members? =
      some (t.toList.map fun p => (p.1.text, valuesToJson p.2)) := Json.members?_record _
  calc tableOfJson? (tableToJson t)
      = (tableToJson t).members?.bind fun members =>
          (members.mapM fun (p : String × Json) => do
            return (← ofKey? p.1, ← valuesOfJson? p.2)).bind fun pairs => some (.ofList pairs) := rfl
    _ = some t := by rw [members, Option.bind_some, pairs, Option.bind_some, Table.ofList_toList]

theorem isPlain_tableToJson (t : Table Attribute (List Octets)) : (tableToJson t).IsPlain := by
  refine .record (List.forall_mem_map.mpr fun p _ => .array ?_)
  exact List.forall_mem_map.mpr fun o _ => Json.isPlain_octetArray o

end Attribute

namespace Entry

/-- The same entry, but for the spelling of its name. -/
structure IsSpelling (e f : Entry) : Prop where
  name : e.name.IsSpelling f.name
  id : e.id = f.id
  attributes : e.attributes = f.attributes

variable {e : Entry}

theorem isPlain_toJson (e : Entry) : e.toJson.IsPlain := by
  refine .record ?_
  simp only [List.forall_mem_cons]
  exact ⟨.str _, Json.isPlain_octetArray _, Attribute.isPlain_tableToJson _, List.forall_mem_nil _⟩

theorem fields?_toJson (e : Entry) : e.toJson.fields? fieldNames =
    some [some e.name.toJson, some e.id.toJson, some (Attribute.tableToJson e.attributes)] := by
  have known : ∀ p ∈ [("dn", e.name.toJson), ("id", e.id.toJson),
      ("attributes", Attribute.tableToJson e.attributes)], p.1 ∈ fieldNames := by
    simp [fieldNames]
  rw [toJson, Json.fields?_record known]
  rfl

/-- An entry is read back, with the name that its text stands for. -/
theorem exists_ofJson?_toJson {d : DistinguishedName}
    (named : DistinguishedName.parse e.name.text = .ok d) (spelling : d.IsSpelling e.name)
    (normal : ∀ a ∈ e.attributes.keys, a.IsNormal) :
    ∃ f, ofJson? e.toJson = some f ∧ f.IsSpelling e := by
  have name : DistinguishedName.ofJson? e.name.toJson = some d := by
    simp [DistinguishedName.ofJson?, DistinguishedName.toJson, Json.str, Json.string?, named,
      Except.toOption]
  refine ⟨⟨d, e.id, e.attributes⟩, ?_, spelling, rfl, rfl⟩
  simp [ofJson?, fields?_toJson, name, EntryId.ofJson?_toJson, Attribute.tableOfJson?_tableToJson normal]

end Entry

end DirectoryHistory
