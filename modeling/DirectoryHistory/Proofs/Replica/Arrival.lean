import DirectoryHistory.Proofs.Replica.Creation
import DirectoryHistory.Proofs.Store.Index

/-!
# Creations that arrive

A replica takes in the creation of an entry that it does not hold if the entry has a place there and
its name is free. An entry that it holds, a name that is taken and a parent that is missing all leave
the store alone, and so does every other update about an entry that is not held.
-/

namespace DirectoryHistory.Replica

variable {r : Replica} {now : UInt64} {u : Update} {parent : Option EntryId} {e : Entry}
variable {attributes : Table Attribute (List Octets)} {name : DistinguishedName}

/-- The replica has a place for the entry that the update creates, and its name there is free. -/
def CanCreate (r : Replica) (u : Update) : Prop :=
  ∃ parent attributes name, u.payload = .add parent attributes ∧
    r.addedName u.name parent = .ok name ∧ r.store.find? name = none

theorem create_eq_ok (indexed : r.store.IsIndexed) (free : r.store.find? name = none)
    (now : UInt64) (id : EntryId) (attributes : Table Attribute (List Octets)) (stamp : Stamp) :
    ∃ r', r.create now name id attributes stamp = .ok r' ∧
      r.store.put (Tracked.store ⟨newEntry name id attributes, .ofCreation stamp⟩ now r.retention) =
        .ok r'.store := by
  have unlisted : r.store.names.get? name.folded = none := by
    cases listed : r.store.names.get? name.folded with
    | none => rfl
    | some id' =>
      obtain ⟨f, stored, named⟩ := indexed.stored _ id' listed
      exact absurd named (indexed.find?_eq_none_iff.mp free id' f stored)
  let t : Tracked := ⟨newEntry name id attributes, .ofCreation stamp⟩
  have called : (t.store now r.retention).name = name := name_newEntry name id attributes
  obtain ⟨s, put⟩ := Store.put_eq_ok (s := r.store) (e := t.store now r.retention) (by
    intro id' listed
    rw [called, unlisted] at listed
    cases listed)
  exact ⟨{ r with store := s }, by simp only [create, persist, t, put], put⟩

theorem replay_add_of_stored (payload : u.payload = .add parent attributes)
    (stored : r.store.get? u.id = some e) (now : UInt64) :
    r.replay now u = (.ok (.ignored .duplicate), r.witness u.stamp) := by
  have stored : (r.witness u.stamp).store.get? u.id = some e := stored
  simp [replay, replayWitnessed, payload, replayAdd, stored]

theorem replay_add_of_unplaced (payload : u.payload = .add parent attributes)
    (absent : r.store.get? u.id = none) {cause : Failure}
    (unplaced : r.addedName u.name parent = .error cause) (now : UInt64) :
    r.replay now u = (.error cause, r.witness u.stamp) := by
  have absent : (r.witness u.stamp).store.get? u.id = none := absent
  have unplaced : (r.witness u.stamp).addedName u.name parent = .error cause := unplaced
  simp [replay, replayWitnessed, payload, replayAdd, absent, unplaced]

theorem replay_add_of_taken (payload : u.payload = .add parent attributes)
    (absent : r.store.get? u.id = none) (named : r.addedName u.name parent = .ok name)
    (taken : r.store.find? name = some e) (now : UInt64) :
    r.replay now u = (.ok (.ignored .namingConflict), r.witness u.stamp) := by
  have absent : (r.witness u.stamp).store.get? u.id = none := absent
  have named : (r.witness u.stamp).addedName u.name parent = .ok name := named
  have taken : (r.witness u.stamp).store.find? name = some e := taken
  simp [replay, replayWitnessed, payload, replayAdd, absent, named, taken]

theorem replay_add_of_free (indexed : r.store.IsIndexed)
    (payload : u.payload = .add parent attributes) (absent : r.store.get? u.id = none)
    (named : r.addedName u.name parent = .ok name) (free : r.store.find? name = none)
    (now : UInt64) : ∃ r', r.replay now u = (.ok (.applied .zero), r') ∧ r.store.put
      (Tracked.store ⟨newEntry name u.id attributes, .ofCreation u.stamp⟩ now r.retention) =
        .ok r'.store := by
  have absent : (r.witness u.stamp).store.get? u.id = none := absent
  have named : (r.witness u.stamp).addedName u.name parent = .ok name := named
  have free : (r.witness u.stamp).store.find? name = none := free
  have indexed : (r.witness u.stamp).store.IsIndexed := indexed
  obtain ⟨r', created, put⟩ := create_eq_ok indexed free now u.id attributes u.stamp
  exact ⟨r', by simp [replay, replayWitnessed, payload, replayAdd, absent, named, free, created,
    Except.map], put⟩

/-- Only a creation can do something about an entry that is not held. -/
theorem replay_of_absent_of_ne_add (absent : r.store.get? u.id = none)
    (other : ∀ parent attributes, u.payload ≠ .add parent attributes) (now : UInt64) :
    r.replay now u = (.ok (.ignored .noSuchEntry), r.witness u.stamp) := by
  have absent : (r.witness u.stamp).store.get? u.id = none := absent
  cases payload : u.payload with
  | add parent attributes => exact absurd payload (other parent attributes)
  | modify mods => simp [replay, replayWitnessed, payload, replayModify, absent]
  | rename leaf deleteOld superior superiorId =>
    simp [replay, replayWitnessed, payload, replayRename, absent]
  | delete => simp [replay, replayWitnessed, payload, replayDelete, absent]

/-- An update about an entry that is not held creates it where the replica can, and otherwise leaves
the store alone. -/
theorem replay_of_absent (indexed : r.store.IsIndexed) (absent : r.store.get? u.id = none)
    (now : UInt64) : (r.CanCreate u ∧ (r.replay now u).1 = .ok (.applied .zero) ∧
        ∃ e, (r.replay now u).2.store.get? u.id = some e) ∨
      ¬r.CanCreate u ∧ (r.replay now u).2.store = r.store := by
  by_cases creation : ∃ parent attributes, u.payload = .add parent attributes
  · obtain ⟨parent, attributes, payload⟩ := creation
    have only : r.CanCreate u → ∃ name, r.addedName u.name parent = .ok name ∧
        r.store.find? name = none := by
      rintro ⟨parent', attributes', name, payload', named, free⟩
      cases payload.symm.trans payload'
      exact ⟨name, named, free⟩
    cases named : r.addedName u.name parent with
    | error cause =>
      refine .inr ⟨fun can => ?_, by rw [replay_add_of_unplaced payload absent named]; rfl⟩
      obtain ⟨name, named', -⟩ := only can
      cases named.symm.trans named'
    | ok name =>
      cases found : r.store.find? name with
      | some f =>
        refine .inr ⟨fun can => ?_, by rw [replay_add_of_taken payload absent named found]; rfl⟩
        obtain ⟨name', named', free⟩ := only can
        cases named.symm.trans named'
        cases found.symm.trans free
      | none =>
        obtain ⟨r', replayed, put⟩ := replay_add_of_free indexed payload absent named found now
        have own : u.id = (newEntry name u.id attributes).id := (id_newEntry ..).symm
        refine .inl ⟨⟨parent, attributes, name, payload, named, found⟩, by rw [replayed], ?_⟩
        rw [replayed, Store.get?_put put]
        exact ⟨_, if_pos own⟩
  · have other : ∀ parent attributes, u.payload ≠ .add parent attributes :=
      fun parent attributes payload => creation ⟨parent, attributes, payload⟩
    refine .inr ⟨?_, by rw [replay_of_absent_of_ne_add absent other]; rfl⟩
    rintro ⟨parent, attributes, -, payload, -⟩
    exact other parent attributes payload

end DirectoryHistory.Replica
