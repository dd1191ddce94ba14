import DirectoryHistory.Proofs.Attribute
import DirectoryHistory.Proofs.DistinguishedName
import DirectoryHistory.Proofs.Table
import DirectoryHistory.Proofs.Wire
import DirectoryHistory.Update.Wire

/-!
# Updates are read as they were written

A replica reads an update from the wire as it was sent. Names travel as text, so that the name read
is the one that the text stands for; everything else comes back as it was.
-/

namespace DirectoryHistory

namespace Update

def names (u : Update) : List DistinguishedName :=
  u.name ::
    match u.payload with
    | .rename _ _ (some superior) _ => [superior]
    | _ => []

def attributes (u : Update) : List Attribute :=
  match u.payload with
  | .add _ t => t.keys
  | .modify mods => mods.map (·.attr)
  | _ => []

/-- The same payload, but for the spelling of a superior. -/
inductive Payload.IsSpelling : Payload → Payload → Prop
  | same (p : Payload) : IsSpelling p p
  | renaming (leaf : RelativeName) (deleteOld : Bool) {superior superior' : DistinguishedName}
    (spelling : superior.IsSpelling superior') (superiorId : Option EntryId) :
    IsSpelling (.rename leaf deleteOld (some superior) superiorId)
      (.rename leaf deleteOld (some superior') superiorId)

/-- The same update, but for the spelling of its names. -/
structure IsSpelling (u v : Update) : Prop where
  stamp : u.stamp = v.stamp
  name : u.name.IsSpelling v.name
  id : u.id = v.id
  payload : u.payload.IsSpelling v.payload

end Update

namespace Wire

variable {d e : DistinguishedName} {a : Attribute}

theorem bytes_ne_nil (o : Octets) : bytes o ≠ [] := by
  rw [bytes]
  exact List.append_ne_nil_of_left_ne_nil (number_ne_nil _) _

theorem reads_stamp (s : Stamp) : Reads readStamp (stamp s) s := by
  refine Reads.of_eq ?_ (List.append_assoc ..)
  exact (reads_uInt64 s.time).bind ((reads_uInt32 s.sequence).bind
    ((reads_uInt16 s.replica).andThen (.pure s)))

theorem reads_name (h : DistinguishedName.parse d.text = .ok e) : Reads readName (name d) e :=
  reads_via h

theorem reads_description (h : a.IsNormal) : Reads readAttribute (description a) a :=
  reads_via h.parse_text

theorem reads_entryId (id : EntryId) : Reads readEntryId (entryId id) id := by
  have read : Reads (readOctets 32) id.octets id.octets := id.length_octets ▸ reads_octets id.octets
  refine read.andThen ?_
  have made : EntryId.ofOctets? id.octets = some id := dif_pos id.length_octets
  rw [made]
  exact .pure id

theorem reads_values (vs : List Octets) : Reads readValues (values vs) vs :=
  reads_list bytes_ne_nil fun o _ => reads_bytes o

theorem reads_attributes {t : Table Attribute (List Octets)} (h : ∀ a ∈ t.keys, a.IsNormal) :
    Reads readAttributes (attributes t) t := by
  refine Reads.map (reads_list ?_ ?_) t.ofList_toList
  · exact fun p => List.append_ne_nil_of_left_ne_nil (bytes_ne_nil _) _
  · intro p hp
    exact (reads_description (h p.1 (List.mem_map_of_mem hp))).bind
      ((reads_values p.2).andThen (.pure p))

theorem reads_kind (k : Modification.Kind) : Reads readKind (kind k) k := by
  cases k with
  | add => exact (reads_uInt32 0).andThen (.pure _)
  | delete => exact (reads_uInt32 1).andThen (.pure _)
  | replace => exact (reads_uInt32 2).andThen (.pure _)

theorem reads_modification {m : Modification} (h : m.attr.IsNormal) :
    Reads readModification (modification m) m := by
  refine Reads.of_eq ?_ (List.append_assoc ..)
  exact (reads_description h).bind ((reads_kind m.kind).bind
    ((reads_values m.values).andThen (.pure m)))

theorem reads_relativeName (n : RelativeName) : Reads readRelativeName (relativeName n) n :=
  (reads_string n.attr).bind ((reads_string n.value).andThen (.pure n))

theorem reads_some_entryId (id : Option EntryId) :
    Reads (readOption readEntryId) (option entryId id) id := by
  refine reads_option ?_
  cases id with
  | none => exact .none
  | some id => exact .some (reads_entryId id)

theorem reads_addition (parent : Option EntryId) {t : Table Attribute (List Octets)}
    (h : ∀ a ∈ t.keys, a.IsNormal) : Reads readPayload (payload (.add parent t)) (.add parent t) := by
  refine Reads.of_eq ?_ (List.append_assoc ..)
  exact (reads_uInt32 0).bind ((reads_some_entryId parent).bind
    ((reads_attributes h).andThen (.pure _)))

theorem reads_request {mods : List Modification} (h : ∀ m ∈ mods, m.attr.IsNormal) :
    Reads readPayload (payload (.modify mods)) (.modify mods) := by
  have nonempty : ∀ m, modification m ≠ [] := fun m =>
    List.append_ne_nil_of_left_ne_nil (List.append_ne_nil_of_left_ne_nil (bytes_ne_nil _) _) _
  have read := reads_list nonempty fun m hm => reads_modification (h m hm)
  exact (reads_uInt32 1).bind (read.andThen (.pure _))

theorem reads_renaming (leaf : RelativeName) (deleteOld : Bool)
    {superior superior' : Option DistinguishedName}
    (h : Option.Rel (fun d e => DistinguishedName.parse d.text = .ok e) superior superior')
    (superiorId : Option EntryId) :
    Reads readPayload (payload (.rename leaf deleteOld superior superiorId))
      (.rename leaf deleteOld superior' superiorId) := by
  have named : Reads (readOption readName) (option name superior) superior' := by
    refine reads_option ?_
    cases h with
    | none => exact .none
    | some h => exact .some (reads_name h)
  have layout : payload (.rename leaf deleteOld superior superiorId) = number 2 ++
      (relativeName leaf ++ (bool deleteOld ++ (option name superior ++
        option entryId superiorId))) := by
    simp only [payload, List.append_assoc]
  rw [layout]
  exact (reads_uInt32 2).bind ((reads_relativeName leaf).bind ((reads_bool deleteOld).bind
    (named.bind ((reads_some_entryId superiorId).andThen (.pure _)))))

theorem reads_deletion : Reads readPayload (payload .delete) .delete :=
  (reads_uInt32 3).andThen (.pure _)

end Wire

namespace Update

open Wire

variable {u : Update}

/-- A payload whose superior is read back from its text is read back, but for that spelling. -/
theorem exists_reads_payload
    (named : ∀ d ∈ u.names, ∃ e, DistinguishedName.parse d.text = .ok e ∧ e.IsSpelling d)
    (normal : ∀ a ∈ u.attributes, a.IsNormal) :
    ∃ p, Reads readPayload (Wire.payload u.payload) p ∧ p.IsSpelling u.payload := by
  obtain ⟨stamp, name, id, p⟩ := u
  cases p with
  | add parent t => exact ⟨_, reads_addition parent normal, .same _⟩
  | modify mods =>
    exact ⟨_, reads_request fun m hm => normal m.attr (List.mem_map_of_mem hm), .same _⟩
  | rename leaf deleteOld superior superiorId =>
    cases superior with
    | none => exact ⟨_, reads_renaming leaf deleteOld .none superiorId, .same _⟩
    | some d =>
      obtain ⟨e, parsed, spelling⟩ := named d (.tail _ (.head _))
      exact ⟨_, reads_renaming leaf deleteOld (.some parsed) superiorId,
        .renaming leaf deleteOld spelling superiorId⟩
  | delete => exact ⟨_, reads_deletion, .same _⟩

/-- An update that fits into memory is read from the octets that it is written as, if its names are
read back from their texts, up to case, and its attributes are such as are read from text. What is
read is the update, but for the spelling of its names. -/
theorem exists_ofOctets_toOctets (fits : u.toOctets.length < 2 ^ 64)
    (named : ∀ d ∈ u.names, ∃ e, DistinguishedName.parse d.text = .ok e ∧ e.IsSpelling d)
    (described : ∀ a ∈ u.attributes, ∃ s, Attribute.parse s = .ok a) :
    ∃ v, ofOctets u.toOctets = .ok v ∧ v.IsSpelling u := by
  have normal : ∀ a ∈ u.attributes, a.IsNormal := by
    intro a ha
    obtain ⟨s, parsed⟩ := described a ha
    exact Attribute.isNormal_of_parse parsed
  obtain ⟨e, parsed, name⟩ := named u.name (.head _)
  obtain ⟨p, payload, spelling⟩ := exists_reads_payload named normal
  have layout : u.toOctets = Wire.stamp u.stamp ++ (Wire.name u.name ++
      (entryId u.id ++ Wire.payload u.payload)) := by
    simp only [toOctets, List.append_assoc]
  have read : Reads readUpdate u.toOctets ⟨u.stamp, e, u.id, p⟩ := by
    rw [layout]
    exact (reads_stamp u.stamp).bind ((reads_name parsed).bind ((reads_entryId u.id).bind
      (payload.andThen (.pure _))))
  have whole := read fits []
  rw [List.append_nil] at whole
  refine ⟨⟨u.stamp, e, u.id, p⟩, ?_, rfl, name, rfl, spelling⟩
  change (readUpdate u.toOctets).map (·.1) = _
  rw [whole]
  rfl

/-- A move below another entry. The name has a comma in it, and the new leaf is such as no text
stands for. -/
theorem exists_ofOctets_toOctets_move :
    let u : Update := ⟨⟨300, 0, 1⟩, ⟨[⟨"cn", "A,b"⟩, ⟨"o", "test"⟩]⟩, .uniform 7,
      .rename ⟨"CN ", ""⟩ true (some ⟨[⟨"ou", "P"⟩, ⟨"o", "test"⟩]⟩) (some (.uniform 8))⟩
    ∃ v, ofOctets u.toOctets = .ok v ∧ v.IsSpelling u := by
  intro u
  have fits : u.toOctets.length < 2 ^ 64 := by decide +kernel
  have named : ∀ d ∈ u.names, ∃ e, DistinguishedName.parse d.text = .ok e ∧ e.IsSpelling d := by
    have texts : ∀ d ∈ u.names, DistinguishedName.parse d.text = .ok d := by decide
    exact fun d hd => ⟨d, texts d hd, DistinguishedName.folded_eq_iff.mp rfl⟩
  exact exists_ofOctets_toOctets fits named (List.forall_mem_nil _)

end Update

end DirectoryHistory
