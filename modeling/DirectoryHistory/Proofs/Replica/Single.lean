import DirectoryHistory.Proofs.Replica.Redelivery
import DirectoryHistory.Proofs.Replica.Runs

/-!
# Single-valued attributes

Requests leave a single-valued attribute with one value at most. Creations and renames do not ask the
schema: a new entry holds all that it is given and the value of its name besides, and a renamed one the
value of its new name next to what it held. Those are the operations, of clients or replayed, by which
a single-valued attribute gets two values.
-/

namespace DirectoryHistory

namespace Slot

variable {s : Slot}

theorem length_held_settleSingle_le (s : Slot) : s.settleSingle.held.length ≤ 1 := by
  rw [settleSingle]
  exact Option.length_toList_le

theorem length_held_resolve_le (few : s.held.length ≤ 1) (created : Option Stamp) (stamp : Stamp)
    (c : Change) : (s.resolve true created stamp c).slot.held.length ≤ 1 := by
  have replaced : ∀ vs, (s.replace true stamp vs).slot.held.length ≤ 1 := by
    intro vs
    simp only [replace]
    split
    · exact length_held_settleSingle_le _
    · exact few
  cases c with
  | add v =>
    simp only [resolve, if_true, addSingle]
    split
    · exact length_held_settleSingle_le _
    · exact few
  | delete v =>
    simp only [resolve, delete]
    split
    · exact few
    split
    · exact length_held_settleSingle_le _
    · exact few
  | clear => exact replaced []
  | replace vs => exact replaced vs

theorem length_held_resolveEdit_of_few (few : s.held.length ≤ 1) (created : Option Stamp) (e : Edit) :
    (s.resolveEdit true created e).held.length ≤ 1 := by
  have fold : ∀ (cs : List Change) (s : Slot), s.held.length ≤ 1 →
      (cs.foldl (fun s c => (s.resolve true created e.stamp c).slot) s).held.length ≤ 1 := by
    intro cs
    induction cs with
    | nil => exact fun _ few => few
    | cons c cs ih => exact fun s few => ih _ (length_held_resolve_le few created e.stamp c)
  exact fold e.changes s few

end Slot

theorem length_le_one_iff_of_nodup {l : List Octets} (nodup : l.Nodup) :
    l.length ≤ 1 ↔ ∀ v ∈ l, ∀ w ∈ l, v = w := by
  constructor
  · exact fun few v hv w hw => Slot.eq_of_mem_of_length_le_one few hv hw
  · intro one
    match l, nodup with
    | [], _ | [v], _ => simp
    | v :: w :: rest, nodup =>
      obtain rfl := one v (by simp) w (by simp)
      simp at nodup

namespace Entry

variable {e : Entry} {a : Attribute}

theorem nodup_distinct (vs : List Octets) : (distinct vs).Nodup := by
  have fold : ∀ (vs kept : List Octets), kept.Nodup →
      (vs.foldl (fun kept w => if kept.contains w then kept else kept ++ [w]) kept).Nodup := by
    intro vs
    induction vs with
    | nil => exact fun _ nodup => nodup
    | cons w ws ih =>
      intro kept nodup
      rw [List.foldl_cons]
      split
      · exact ih kept nodup
      · next fresh =>
        rw [← List.concat_eq_append]
        exact ih _ (nodup.concat (by simpa using fresh))
  exact fold vs [] .nil

theorem nodup_values_addValue (nodup : (e.values a).Nodup) (b : Attribute) (v : Octets) :
    ((e.addValue b v).values a).Nodup := by
  by_cases same : a = b
  · subst same
    rw [addValue]
    split
    · exact nodup
    · next fresh =>
      rw [values_setValues_self, ← List.concat_eq_append]
      exact nodup.concat (by simpa [hasValue] using fresh)
  · rwa [values_addValue_of_ne e same]

theorem nodup_values_foldl_replaceValues (given : List (Attribute × List Octets))
    (nodup : (e.values a).Nodup) :
    ((given.foldl (fun e p => e.replaceValues p.1 p.2) e).values a).Nodup := by
  induction given generalizing e with
  | nil => exact nodup
  | cons p rest ih =>
    refine ih ?_
    by_cases same : a = p.1
    · subst same
      exact (values_setValues_self e p.1 _).symm ▸ nodup_distinct p.2
    · exact (values_setValues_of_ne e same _).symm ▸ nodup

end Entry

namespace Replica

/-- A single-valued attribute of a user holds one value at most, on every stored entry. -/
def IsSingle (r : Replica) : Prop :=
  ∀ id e, r.store.get? id = some e → ∀ a, a.isHistory = false → r.schema.isSingle a = true →
    (e.values a).length ≤ 1

/-- A new entry called `name` is given the value `v` of `a`, among its attributes or by its name. -/
def IsGiven (name : DistinguishedName) (attributes : Table Attribute (List Octets)) (a : Attribute)
    (v : Octets) : Prop :=
  v ∈ (attributes.get? a).getD [] ∨ ∃ leaf, name.leaf? = some leaf ∧ leaf.Writes a v

/-- A new entry called `name` is given two values of a single-valued attribute. -/
def IsCrowded (schema : Schema) (name : DistinguishedName)
    (attributes : Table Attribute (List Octets)) : Prop :=
  ∃ a v w, a.isHistory = false ∧ schema.isSingle a = true ∧ IsGiven name attributes a v ∧
    IsGiven name attributes a w ∧ v ≠ w

/-- The attribute of the new leaf is single-valued and holds another value, and the rename drops
neither of the two. -/
def IsCrowding (schema : Schema) (e : Entry) (leaf : RelativeName) (deleteOld : Bool) : Prop :=
  (Attribute.make leaf.attr).isHistory = false ∧ schema.isSingle (.make leaf.attr) = true ∧
    ∃ w ∈ e.values (.make leaf.attr), ¬leaf.Gives (.make leaf.attr) w ∧
      ∀ old ∈ dropped? e.name leaf deleteOld, ¬old.Gives (.make leaf.attr) w ∧
        ¬old.Gives (.make leaf.attr) (.ofText leaf.value)

/-- An operation that is done and creates or renames an entry without heed to the schema. -/
inductive Crowds (r : Replica) (now : Readings) : Operation → Prop
  | created {name : DistinguishedName} {attributes : Table Attribute (List Octets)} {u : Update}
    (sent : (r.answer now (.add name attributes)).sent? = some u)
    (crowded : IsCrowded r.schema name attributes) : Crowds r now (.add name attributes)
  | renamed {name : DistinguishedName} {leaf : RelativeName} {deleteOld : Bool}
    {superior : Option DistinguishedName} {u : Update} {e : Entry}
    (sent : (r.answer now (.rename name leaf deleteOld superior)).sent? = some u)
    (found : r.find name = .ok e) (crowding : IsCrowding r.schema e leaf deleteOld) :
    Crowds r now (.rename name leaf deleteOld superior)
  | replayedCreation {u : Update} {parent : Option EntryId}
    {attributes : Table Attribute (List Octets)} {tally : Tally}
    (payload : u.payload = .add parent attributes)
    (applied : (r.replay now.storing u).1 = .ok (.applied tally))
    (crowded : IsCrowded r.schema u.name attributes) : Crowds r now (.replay u)
  | replayedRename {u : Update} {leaf : RelativeName} {deleteOld : Bool}
    {superior : Option DistinguishedName} {superiorId : Option EntryId} {e : Entry} {tally : Tally}
    (payload : u.payload = .rename leaf deleteOld superior superiorId)
    (applied : (r.replay now.storing u).1 = .ok (.applied tally)) (stored : r.store.get? u.id = some e)
    (crowding : IsCrowding r.schema e leaf deleteOld) : Crowds r now (.replay u)

variable {r r' : Replica} {now : Readings} {op : Operation} {u : Update} {t t' : Tracked} {e : Entry}
variable {schema : Schema} {a : Attribute} {name name' : DistinguishedName} {id : EntryId}
variable {attributes : Table Attribute (List Octets)} {leaf : RelativeName} {deleteOld : Bool}

theorem isSingle_of_empty (empty : r.store = .empty) : r.IsSingle := by
  intro id e stored
  rw [empty] at stored
  cases stored

theorem IsSingle.of_store (single : r.IsSingle) (store : r'.store = r.store)
    (schema : r'.schema = r.schema) : r'.IsSingle := by
  rwa [IsSingle, store, schema]

theorem length_values_newEntry_le_iff (user : a.isHistory = false) :
    ((newEntry name id attributes).values a).length ≤ 1 ↔
      ∀ v w, IsGiven name attributes a v → IsGiven name attributes a w → v = w := by
  have nodup : ((newEntry name id attributes).values a).Nodup := by
    have filled := Entry.nodup_values_foldl_replaceValues
      (attributes.filter fun a _ => !a.isHistory).toList
      (e := .make name id) (a := a) .nil
    simp only [newEntry]
    split
    · exact Entry.nodup_values_addValue filled _ _
    · exact filled
  have mem : ∀ v, v ∈ (newEntry name id attributes).values a ↔ IsGiven name attributes a v :=
    fun v => mem_values_newEntry user
  simp only [length_le_one_iff_of_nodup nodup, mem]
  exact forall_congr' fun v => forall_comm

theorem not_isCrowded_iff : ¬IsCrowded schema name attributes ↔
    ∀ a, a.isHistory = false → schema.isSingle a = true →
      ((newEntry name id attributes).values a).length ≤ 1 := by
  constructor
  · intro spare a user single
    rw [length_values_newEntry_le_iff user]
    intro v w hv hw
    by_contra apart
    exact spare ⟨a, v, w, user, single, hv, hw, apart⟩
  · rintro fits ⟨a, v, w, user, single, hv, hw, apart⟩
    exact apart ((length_values_newEntry_le_iff user).mp (fits a user single) v w hv hw)

theorem isCrowded_congr (same : name'.leaf? = name.leaf?) :
    IsCrowded schema name' attributes ↔ IsCrowded schema name attributes := by
  simp only [IsCrowded, IsGiven, same]

theorem length_values_renameEntry_le_iff (few : (e.values a).length ≤ 1)
    (target : DistinguishedName) (leaf : RelativeName) (deleteOld : Bool) :
    ((renameEntry e target leaf deleteOld).values a).length ≤ 1 ↔
      ¬(a = .make leaf.attr ∧ ∃ w ∈ e.values a, ¬leaf.Gives a w ∧
        ∀ old ∈ dropped? e.name leaf deleteOld, ¬old.Gives a w ∧ ¬old.Gives a (.ofText leaf.value)) := by
  have one : ∀ v ∈ e.values a, ∀ w ∈ e.values a, v = w :=
    fun v hv w hw => Slot.eq_of_mem_of_length_le_one few hv hw
  have nodup : ((renameEntry e target leaf deleteOld).values a).Nodup := by
    have held : (e.values a).Nodup := by
      rw [← Slot.toList_head? few]
      cases (e.values a).head? <;> simp
    rw [values_renameEntry]
    refine List.Nodup.filter _ ?_
    simp only [takeLeaf]
    split
    · exact held
    · exact Entry.nodup_values_addValue held _ _
  simp only [length_le_one_iff_of_nodup nodup, mem_values_renameEntry]
  constructor
  · rintro same ⟨rfl, w, hw, other, stays⟩
    have others : ∀ w ∈ e.values (.make leaf.attr), ¬leaf.Gives (.make leaf.attr) w :=
      fun v hv => one w hw v hv ▸ other
    have given : leaf.Gives (.make leaf.attr) (.ofText leaf.value) :=
      RelativeName.Writes.gives ⟨rfl, rfl⟩
    have taken := same w ⟨.inl hw, fun old drops => (stays old drops).1⟩ _
      ⟨.inr ⟨⟨rfl, rfl⟩, others⟩, fun old drops => (stays old drops).2⟩
    exact other (taken ▸ given)
  · intro alone
    -- A value from before and the new one do not both stay.
    have mixed : ∀ v w, v ∈ e.values a → leaf.Writes a w → (∀ x ∈ e.values a, ¬leaf.Gives a x) →
        (∀ old ∈ dropped? e.name leaf deleteOld, ¬old.Gives a v) →
        (∀ old ∈ dropped? e.name leaf deleteOld, ¬old.Gives a w) → False := by
      rintro v w hv ⟨rfl, rfl⟩ others stays stays'
      exact alone ⟨rfl, v, hv, others v hv, fun old drops => ⟨stays old drops, stays' old drops⟩⟩
    rintro v ⟨hv | ⟨written, others⟩, stays⟩ w ⟨hw | ⟨written', others'⟩, stays'⟩
    · exact one v hv w hw
    · exact (mixed v w hv written' others' stays stays').elim
    · exact (mixed w v hw written others stays' stays).elim
    · exact written.2.trans written'.2.symm

theorem not_isCrowding_iff (few : ∀ a, a.isHistory = false → schema.isSingle a = true →
      (e.values a).length ≤ 1) (target : DistinguishedName) :
    ¬IsCrowding schema e leaf deleteOld ↔ ∀ a, a.isHistory = false → schema.isSingle a = true →
      ((renameEntry e target leaf deleteOld).values a).length ≤ 1 := by
  constructor
  · intro spare a user single
    rw [length_values_renameEntry_le_iff (few a user single)]
    rintro ⟨rfl, crowding⟩
    exact spare ⟨user, single, crowding⟩
  · rintro fits ⟨user, single, crowding⟩
    exact (length_values_renameEntry_le_iff (few _ user single) target leaf deleteOld).mp
      (fits _ user single) ⟨rfl, crowding⟩

theorem length_values_of_applyRequest (few : (e.values a).length ≤ 1) (single : schema.isSingle a = true)
    (read : Tracked.ofEntry e = .ok t) {mods : List Modification} {stamp : Stamp}
    {abandon : Nat → Bool} {ending : Ending} {tally : Tally}
    (taken : t.applyRequest schema mods stamp abandon = .ok (ending, tally, t')) :
    (t'.entry.values a).length ≤ 1 := by
  obtain ⟨-, n, rfl⟩ := Tracked.exists_take_of_applyRequest taken
  have slot : (((requestSteps mods).take n).foldl (Tracked.step schema stamp) t).slot a = _ :=
    Tracked.slot_foldl_step _ t a
  rw [single] at slot
  have held : (t.slot a).held.length ≤ 1 := by
    rw [← Tracked.entry_of_ofEntry read] at few
    exact few
  exact (congrArg (List.length ∘ Slot.held) slot).trans_le
    (Slot.length_held_resolveEdit_of_few held _ _)

theorem IsSingle.persist_iff {now : UInt64} (single : r.IsSingle) {clock : Clock}
    (written : ({ r with clock } : Replica).persist now t = .ok r') :
    r'.IsSingle ↔ ∀ a, a.isHistory = false → r.schema.isSingle a = true →
      (t.entry.values a).length ≤ 1 := by
  rw [IsSingle, schema_of_persist written, forall_stored_iff_of_persist single written]
  refine forall₂_congr fun a user => ?_
  rw [Tracked.values_store user]

theorem IsSingle.perform_of_writes (single : r.IsSingle) (fits : ∀ t, Writes r now op t → ∀ a,
      a.isHistory = false → r.schema.isSingle a = true → (t.entry.values a).length ≤ 1) :
    (r.perform now op).IsSingle := by
  intro id e stored a user one
  rw [schema_perform] at one
  rcases get?_perform stored with before | ⟨t, writes, -, rfl⟩
  · exact single id e before a user one
  · rw [Tracked.values_store user]
    exact fits t writes a user one

theorem IsSingle.add_iff (single : r.IsSingle) (now : Readings) (name : DistinguishedName)
    (attributes : Table Attribute (List Octets)) :
    (r.perform now (.add name attributes)).IsSingle ↔ ¬Crowds r now (.add name attributes) := by
  cases sent : (r.answer now (.add name attributes)).sent? with
  | none =>
    refine iff_of_true (single.of_store (store_perform_of_silent rfl sent) (schema_perform ..)) ?_
    rintro ⟨sent', -⟩
    cases sent.symm.trans sent'
  | some u =>
    cases sends_of_sent sent with
    | add stamped place free written =>
      rw [single.persist_iff written, ← not_isCrowded_iff]
      exact not_congr ⟨.created sent, fun | .created _ crowded => crowded⟩

theorem IsSingle.rename_iff (single : r.IsSingle) (now : Readings) (name : DistinguishedName)
    (leaf : RelativeName) (deleteOld : Bool) (superior : Option DistinguishedName) :
    (r.perform now (.rename name leaf deleteOld superior)).IsSingle ↔
      ¬Crowds r now (.rename name leaf deleteOld superior) := by
  cases sent : (r.answer now (.rename name leaf deleteOld superior)).sent? with
  | none =>
    refine iff_of_true (single.of_store (store_perform_of_silent rfl sent) (schema_perform ..)) ?_
    rintro (_ | ⟨sent', -⟩)
    cases sent.symm.trans sent'
  | some u =>
    cases sends_of_sent sent with
    | rename stamped above found named free read written =>
      obtain ⟨id, stored⟩ := of_find_eq_ok found
      rw [single.persist_iff written, ← not_isCrowding_iff (single id _ stored)]
      refine not_congr ⟨.renamed sent found, ?_⟩
      rintro (_ | ⟨-, found', crowding⟩)
      exact Except.ok.inj (found.symm.trans found') ▸ crowding

/-- A replayed update keeps single values if it is not applied, and otherwise exactly if what it writes
does not crowd an attribute. -/
theorem IsSingle.replay_iff (single : r.IsSingle) {Crowding : Prop}
    (crowds : Crowds r now (.replay u) ↔
      (∃ tally, (r.replay now.storing u).1 = .ok (.applied tally)) ∧ Crowding)
    (writes : ∀ tally, (r.replay now.storing u).1 = .ok (.applied tally) →
      ((r.replay now.storing u).2.IsSingle ↔ ¬Crowding)) :
    (r.perform now (.replay u)).IsSingle ↔ ¬Crowds r now (.replay u) := by
  rw [crowds]
  by_cases applied : ∃ tally, (r.replay now.storing u).1 = .ok (.applied tally)
  · rw [and_iff_right applied]
    obtain ⟨tally, applied⟩ := applied
    exact writes tally applied
  · refine iff_of_true (single.of_store ?_ (schema_perform ..)) fun h => applied h.1
    exact store_replay_of_not_applied (not_exists.mp applied)

theorem IsSingle.replay_add_iff (single : r.IsSingle) (now : Readings) {parent : Option EntryId}
    (payload : u.payload = .add parent attributes) :
    (r.perform now (.replay u)).IsSingle ↔ ¬Crowds r now (.replay u) := by
  have crowds : Crowds r now (.replay u) ↔ (∃ tally, (r.replay now.storing u).1 = .ok (.applied tally)) ∧
      IsCrowded r.schema u.name attributes := by
    constructor
    · rintro (_ | _ | ⟨payload', applied, crowded⟩ | ⟨payload'⟩)
      · cases payload.symm.trans payload'
        exact ⟨⟨_, applied⟩, crowded⟩
      · cases payload.symm.trans payload'
    · rintro ⟨⟨tally, applied⟩, crowded⟩
      exact .replayedCreation payload applied crowded
  refine single.replay_iff crowds fun tally applied => ?_
  obtain ⟨name', leaf, written⟩ := of_replay_add_eq_applied payload applied
  rw [single.persist_iff written, ← not_isCrowded_iff, isCrowded_congr leaf]

theorem IsSingle.replay_rename_iff (single : r.IsSingle) (now : Readings)
    {superior : Option DistinguishedName} {superiorId : Option EntryId}
    (payload : u.payload = .rename leaf deleteOld superior superiorId) :
    (r.perform now (.replay u)).IsSingle ↔ ¬Crowds r now (.replay u) := by
  have crowds : Crowds r now (.replay u) ↔ (∃ tally, (r.replay now.storing u).1 = .ok (.applied tally)) ∧
      ∃ e, r.store.get? u.id = some e ∧ IsCrowding r.schema e leaf deleteOld := by
    constructor
    · rintro (_ | _ | ⟨payload'⟩ | ⟨payload', applied, stored, crowding⟩)
      · cases payload.symm.trans payload'
      · cases payload.symm.trans payload'
        exact ⟨⟨_, applied⟩, _, stored, crowding⟩
    · rintro ⟨⟨tally, applied⟩, e, stored, crowding⟩
      exact .replayedRename payload applied stored crowding
  refine single.replay_iff crowds fun tally applied => ?_
  obtain ⟨e, h, target, stored, read, written⟩ := of_replay_rename_eq_applied payload applied
  rw [single.persist_iff written, ← not_isCrowding_iff (single _ e stored)]
  simp [stored]

/-- An operation keeps single values exactly if it crowds no attribute. -/
theorem IsSingle.perform_iff (single : r.IsSingle) (now : Readings) (op : Operation) :
    (r.perform now op).IsSingle ↔ ¬Crowds r now op := by
  cases op with
  | add name attributes => exact single.add_iff now name attributes
  | modify name mods abandon =>
    refine iff_of_true (single.perform_of_writes ?_) nofun
    rintro t ⟨⟩ a user one
    next found taken =>
    obtain ⟨e, found, read⟩ := of_findTracked_eq_ok found
    obtain ⟨id, stored⟩ := of_find_eq_ok found
    exact length_values_of_applyRequest (single id e stored a user one) one read taken
  | rename name leaf deleteOld superior => exact single.rename_iff now name leaf deleteOld superior
  | delete name => exact iff_of_true (single.perform_of_writes nofun) nofun
  | replay u =>
    cases payload : u.payload with
    | add parent attributes => exact single.replay_add_iff now payload
    | modify mods =>
      refine iff_of_true (single.perform_of_writes ?_) ?_
      · rintro t writes a user one
        cases writes with
        | replayAdd payload' => cases payload.symm.trans payload'
        | replayModify payload' stored read taken =>
          exact length_values_of_applyRequest (single _ _ stored a user one) one read taken
        | replayRename payload' => cases payload.symm.trans payload'
      · rintro (_ | _ | ⟨payload'⟩ | ⟨payload'⟩) <;> cases payload.symm.trans payload'
    | rename leaf deleteOld superior superiorId => exact single.replay_rename_iff now payload
    | delete =>
      refine iff_of_true (single.perform_of_writes ?_) ?_
      · rintro t (_ | _ | _ | ⟨payload'⟩ | ⟨payload'⟩ | ⟨payload'⟩) <;> cases payload.symm.trans payload'
      · rintro (_ | _ | ⟨payload'⟩ | ⟨payload'⟩) <;> cases payload.symm.trans payload'

variable {run : List (Readings × Operation)}

/-- Along a run from an empty store, all single-valued attributes hold one value at most if and only if
no operation creates or renames an entry without heed to the schema. -/
theorem isSingle_along_iff (empty : r.store = .empty) :
    (∀ before, before <+: run → (r.performAll before).IsSingle) ↔
      ∀ before now op, before ++ [(now, op)] <+: run → ¬Crowds (r.performAll before) now op :=
  forall_prefix_iff (fun r now op => ¬Crowds r now op) (isSingle_of_empty empty)
    fun _ now op _ single => single.perform_iff now op

/-- A replayed rename gives the entry a second value of the attribute that names it now. -/
theorem isSingle_along_iff_renamed :
    let base : DistinguishedName := ⟨[⟨"o", "test"⟩]⟩
    let member := base.child ⟨"cn", "a"⟩
    let run : List (Readings × Operation) :=
      [(10, .replay ⟨⟨1, 0, 2⟩, base, .uniform 0, .add none .empty⟩),
        (20, .replay ⟨⟨2, 0, 2⟩, member, .uniform 1,
          .add (some (.uniform 0)) (Table.empty.insert ⟨"uid", []⟩ [[98]])⟩)]
    let rename : Update := ⟨⟨3, 0, 2⟩, member, .uniform 1, .rename ⟨"uid", "w"⟩ true none none⟩
    ¬∀ before, before <+: run ++ [(30, .replay rename)] →
      ((make 1 base ⟨["uid"]⟩ none .empty).performAll before).IsSingle := by
  intro base member run rename single
  let r := (make 1 base ⟨["uid"]⟩ none .empty).performAll run
  have applied : (r.replay 30 rename).1 = .ok (.applied .zero) := by decide +kernel
  have held : (r.store.get? (.uniform 1)).map (fun e => (e.name, e.values ⟨"uid", []⟩)) =
      some (member, [[98]]) := by decide +kernel
  obtain ⟨e, stored, looks⟩ := Option.map_eq_some_iff.mp held
  obtain ⟨named, values⟩ := Prod.mk.inj looks
  refine (isSingle_along_iff rfl).mp single run 30 (.replay rename) List.prefix_rfl
    (.replayedRename rfl applied stored ⟨by decide, by decide, [98], ?_, by decide, ?_⟩)
  · exact values.symm ▸ List.mem_singleton_self _
  · rw [named]
    decide

/-- An entry may be created with two values of a single-valued attribute. -/
theorem isSingle_of_performAll_created : ¬∀ (r : Replica) (run : List (Readings × Operation))
    (id : EntryId) (e : Entry) (a : Attribute), r.store = .empty →
    (r.performAll run).store.get? id = some e → r.schema.isSingle a = true →
    (e.values a).length ≤ 1 := by
  intro single
  let base : DistinguishedName := ⟨[⟨"o", "test"⟩]⟩
  let r := (make 1 base ⟨["uid"]⟩ none .empty).performAll
    [(10, .add base (Table.empty.insert ⟨"uid", []⟩ [[97], [98]]))]
  have held : (r.store.find? base).map (fun e => (e.values ⟨"uid", []⟩).length) = some 2 := by
    decide +kernel
  obtain ⟨e, found, two⟩ := Option.map_eq_some_iff.mp held
  obtain ⟨id, stored⟩ := Store.get?_of_find? found
  have few := single _ _ id e ⟨"uid", []⟩ rfl stored (by decide)
  omega

end Replica

end DirectoryHistory
