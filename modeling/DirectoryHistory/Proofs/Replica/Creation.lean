import DirectoryHistory.Proofs.Replica.Holding

/-!
# Creating an entry

A replica that creates an entry, or replays its creation, holds it without any changes. The values
of its attributes are the same everywhere: a replayed creation may put the entry below a parent that
is called otherwise, but the component that names the entry is that of the update.
-/

namespace DirectoryHistory

theorem Entry.attributes_setValues_congr {e f : Entry} (h : e.attributes = f.attributes)
    (a : Attribute) (vs : List Octets) :
    (e.setValues a vs).attributes = (f.setValues a vs).attributes := by
  simp only [setValues, h]

theorem Entry.values_congr {e f : Entry} (h : e.attributes = f.attributes) :
    e.values = f.values := by
  funext a
  simp only [values, h]

theorem Entry.attributes_addValue_congr {e f : Entry} (h : e.attributes = f.attributes)
    (a : Attribute) (v : Octets) : (e.addValue a v).attributes = (f.addValue a v).attributes := by
  have held : e.hasValue a v = f.hasValue a v := by
    rw [hasValue, hasValue, values_congr h]
  rw [addValue, addValue, held, values_congr h]
  split
  · exact h
  · exact attributes_setValues_congr h a _

theorem Entry.mem_values_addValue {e : Entry} {a b : Attribute} {v w : Octets} :
    w ∈ (e.addValue a v).values b ↔ w ∈ e.values b ∨ b = a ∧ w = v := by
  by_cases hb : b = a
  · subst hb
    simp only [addValue, hasValue, List.contains_iff_mem]
    split
    · next held =>
      simp only [true_and, iff_self_or]
      rintro rfl
      exact held
    · simp
  · have other : (e.addValue a v).values b = e.values b := by
      simp only [addValue]
      split
      · rfl
      · exact values_setValues_of_ne e hb _
    simp [other, hb]

theorem Entry.mem_values_userAttributes {e : Entry} {a : Attribute} (user : a.isHistory = false)
    {v : Octets} : v ∈ (e.userAttributes.get? a).getD [] ↔ v ∈ e.values a := by
  have same : e.userAttributes.get? a = e.attributes.get? a := by
    rw [userAttributes, Table.get?_filter]
    cases e.attributes.get? a <;> simp [user]
  rw [same]
  rfl

theorem Entry.mem_values_foldl_replaceValues {l : List (Attribute × List Octets)}
    (ascending : l.Pairwise fun p q => compare p.1 q.1 = .lt) (e : Entry) {a : Attribute}
    (fresh : e.values a = []) {v : Octets} :
    v ∈ (l.foldl (fun e p => e.replaceValues p.1 p.2) e).values a ↔
      v ∈ (Table.lookup a l).getD [] := by
  -- Once the attribute was given its values, the rest leaves them alone.
  have rest : ∀ (l : List (Attribute × List Octets)) (e : Entry), (∀ p ∈ l, p.1 ≠ a) →
      (l.foldl (fun e p => e.replaceValues p.1 p.2) e).values a = e.values a := by
    intro l
    induction l with
    | nil => exact fun _ _ => rfl
    | cons p l ih =>
      intro e others
      rw [List.foldl_cons, ih _ fun q hq => others q (.tail _ hq)]
      exact values_setValues_of_ne e (others p (.head _)).symm _
  induction l generalizing e with
  | nil => simp [fresh, Table.lookup]
  | cons p l ih =>
    obtain ⟨first, tail⟩ := List.pairwise_cons.mp ascending
    by_cases hp : p.1 = a
    · have others : ∀ q ∈ l, q.1 ≠ a := by
        intro q hq same
        have before := first q hq
        simp [hp, same] at before
      rw [List.foldl_cons, rest l _ others]
      simp [Table.lookup, hp, replaceValues, mem_distinct]
    · have hc : compare a p.1 ≠ .eq := fun hc => hp (Std.LawfulEqOrd.eq_of_compare hc).symm
      have unset : (e.replaceValues p.1 p.2).values a = [] :=
        (values_setValues_of_ne e (Ne.symm hp) _).trans fresh
      rw [List.foldl_cons, Table.lookup, if_neg hc]
      exact ih tail _ unset

namespace Replica

/-- A new entry has the values that it was given and the one that its name gives it. -/
theorem mem_values_newEntry {name : DistinguishedName} {id : EntryId}
    {attributes : Table Attribute (List Octets)} {a : Attribute} (user : a.isHistory = false)
    {v : Octets} : v ∈ (newEntry name id attributes).values a ↔
      v ∈ (attributes.get? a).getD [] ∨
        ∃ leaf, name.leaf? = some leaf ∧ a = .make leaf.attr ∧ v = Octets.ofText leaf.value := by
  have given : (attributes.filter fun a _ => !a.isHistory).get? a = attributes.get? a := by
    rw [Table.get?_filter]
    cases attributes.get? a <;> simp [user]
  have filled := Entry.mem_values_foldl_replaceValues
    (attributes.filter fun a _ => !a.isHistory).ascending (.make name id) (a := a) rfl (v := v)
  rw [← Table.get?, given] at filled
  simp only [newEntry]
  split
  · next leaf hl => simp [Entry.mem_values_addValue, filled, hl]
  · next hl => simp [filled, hl]

theorem newEntry_eq (name : DistinguishedName) (id : EntryId)
    (attributes : Table Attribute (List Octets)) : newEntry name id attributes =
      { Entry.make name id with attributes := (newEntry name id attributes).attributes } := by
  have fold : ∀ (l : List (Attribute × List Octets)) (e : Entry), ∃ filled,
      l.foldl (fun e p => e.replaceValues p.1 p.2) e = { e with attributes := filled } := by
    intro l
    induction l with
    | nil => exact fun e => ⟨e.attributes, rfl⟩
    | cons p rest ih => exact fun e => ih (e.replaceValues p.1 p.2)
  obtain ⟨filled, given⟩ := fold (attributes.filter fun a _ => !a.isHistory).toList (.make name id)
  simp only [newEntry, given]
  split
  · simp only [Entry.addValue]
    split <;> rfl
  · rfl

theorem id_newEntry (name : DistinguishedName) (id : EntryId)
    (attributes : Table Attribute (List Octets)) : (newEntry name id attributes).id = id := by
  rw [newEntry_eq]
  rfl

theorem name_newEntry (name : DistinguishedName) (id : EntryId)
    (attributes : Table Attribute (List Octets)) : (newEntry name id attributes).name = name := by
  rw [newEntry_eq]
  rfl

/-- The attributes of a new entry depend on its name only as far as its leaf goes. -/
theorem attributes_newEntry_congr {name name' : DistinguishedName} (leaf : name.leaf? = name'.leaf?)
    (id id' : EntryId) (attributes : Table Attribute (List Octets)) :
    (newEntry name id attributes).attributes = (newEntry name' id' attributes).attributes := by
  have fold : ∀ (l : List (Attribute × List Octets)) (e f : Entry), e.attributes = f.attributes →
      (l.foldl (fun e p => e.replaceValues p.1 p.2) e).attributes =
        (l.foldl (fun e p => e.replaceValues p.1 p.2) f).attributes := by
    intro l
    induction l with
    | nil => exact fun _ _ h => h
    | cons p rest ih => exact fun e f h => ih _ _ (Entry.attributes_setValues_congr h p.1 _)
  have given := fold (attributes.filter fun a _ => !a.isHistory).toList
    (Entry.make name id) (Entry.make name' id') rfl
  simp only [newEntry, leaf]
  split
  · exact Entry.attributes_addValue_congr given _ _
  · exact given

variable {r r' : Replica} {now : Readings} {name : DistinguishedName} {id : EntryId}
variable {attributes : Table Attribute (List Octets)} {stamp : Stamp}

theorem holds_of_create {now : UInt64} (unlimited : r.retention = none)
    (h : r.create now name id attributes stamp = .ok r') :
    r' = { r with store := r'.store } ∧ ∃ t, r'.Holds id t ∧
      t.Agrees ⟨newEntry name id attributes, .ofCreation stamp⟩ := by
  have held := holds_of_persist unlimited (History.isOrdered_ofCreation stamp)
    (History.isReadable_ofCreation stamp) h
  rwa [id_newEntry] at held

theorem follows_newEntry (schema : Schema) (stamp : Stamp) (few : ∀ a, a.isHistory = false →
      schema.isSingle a = true → ((newEntry name id attributes).values a).length ≤ 1) :
    Tracked.Follows schema stamp (newEntry name id attributes).values
      ⟨newEntry name id attributes, .ofCreation stamp⟩ [] where
  created := rfl
  ordered := History.isOrdered_ofCreation stamp
  readable := History.isReadable_ofCreation stamp
  slots a user := Slot.follows_start
    (s := Tracked.slot ⟨newEntry name id attributes, .ofCreation stamp⟩ a) rfl (few a user)

theorem exists_of_add_eq_ok {u : Update} (h : r.add now name attributes = (.ok u, r')) :
    ∃ parent, r.parentOf name = .ok parent ∧ r.store.find? name = none ∧
      u = ⟨(r.clock.tick now.issuing).stamp, name, u.id, .add parent attributes⟩ ∧
      (r.tick now.issuing).create now.storing name u.id attributes u.stamp = .ok r' := by
  simp only [add] at h
  split at h
  · simp at h
  split at h
  · simp at h
  next parent place =>
  split at h
  · simp at h
  next free =>
  split at h
  · simp at h
  next created =>
  simp only [Prod.mk.injEq, Except.ok.injEq] at h
  obtain ⟨rfl, rfl⟩ := h
  exact ⟨parent, place, Option.not_isSome_iff_eq_none.mp free, rfl, created⟩

theorem of_add_eq_ok {u : Update} (h : r.add now name attributes = (.ok u, r')) :
    ∃ parent, u = ⟨(r.clock.tick now.issuing).stamp, name, u.id, .add parent attributes⟩ ∧
      (r.tick now.issuing).create now.storing name u.id attributes u.stamp = .ok r' := by
  obtain ⟨parent, -, -, told, created⟩ := exists_of_add_eq_ok h
  exact ⟨parent, told, created⟩

/-- A new entry is the base or goes below a stored one. -/
theorem placed_of_parentOf_eq_ok {parent : Option EntryId} (place : r.parentOf name = .ok parent) :
    name.same r.base = true ∨ name.isBelow r.base = true ∧
      ∃ p, r.store.find? (name.parent?.getD .root) = some p := by
  simp only [parentOf] at place
  split at place
  · next same => exact .inl same
  split at place
  · next below =>
    split at place
    · next p found => exact .inr ⟨below, p, found⟩
    · cases place
  · cases place

theorem placed_of_add_eq_ok {u : Update} (h : r.add now name attributes = (.ok u, r')) :
    r.store.find? name = none ∧ (name.same r.base = true ∨ name.isBelow r.base = true ∧
      ∃ p, r.store.find? (name.parent?.getD .root) = some p) := by
  obtain ⟨parent, place, free, -, -⟩ := exists_of_add_eq_ok h
  exact ⟨free, placed_of_parentOf_eq_ok place⟩

theorem leaf?_of_addedName {parent : Option EntryId} {name' : DistinguishedName}
    (h : r.addedName name parent = .ok name') : name'.leaf? = name.leaf? := by
  simp only [addedName] at h
  split at h
  · split at h
    · next leaf hl =>
      cases h
      rw [hl]
      rfl
    · cases h
      rfl
  · cases hp : r.parentOf name with
    | error e => simp [hp, Except.map] at h
    | ok p =>
      simp only [hp, Except.map, Except.ok.injEq] at h
      rw [h]

/-- A creation that is applied creates the entry under a name with the leaf of the update. -/
theorem of_replay_add_eq_applied {now : UInt64} {u : Update} {parent : Option EntryId} {tally : Tally}
    (payload : u.payload = .add parent attributes)
    (h : (r.replay now u).1 = .ok (.applied tally)) :
    ∃ name', name'.leaf? = u.name.leaf? ∧
      (r.witness u.stamp).create now name' u.id attributes u.stamp = .ok (r.replay now u).2 := by
  simp only [replay, replayWitnessed, payload, replayAdd] at h ⊢
  split at h
  · simp at h
  · next outcome r' replayed =>
    split at replayed
    · cases replayed
      simp at h
    · split at replayed
      · cases replayed
      · next name' added =>
        split at replayed
        · cases replayed
          simp at h
        · cases hc : (r.witness u.stamp).create now name' u.id attributes u.stamp with
          | error e => simp [hc, Except.map] at replayed
          | ok r'' =>
            simp only [hc, Except.map, Except.ok.injEq, Prod.mk.injEq] at replayed
            obtain ⟨-, rfl⟩ := replayed
            exact ⟨name', leaf?_of_addedName added, hc⟩

end Replica

end DirectoryHistory
