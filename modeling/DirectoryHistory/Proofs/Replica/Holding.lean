import DirectoryHistory.Proofs.Tracked.Storing
import DirectoryHistory.Replica.Replay

/-!
# Replicas that hold an entry

A replica holds an entry when it is stored under its identifier and listed under its name, and its
history can be read. Writing the entry back under its name always succeeds, so a valid request to
it succeeds, be it local or replayed.
-/

namespace DirectoryHistory

namespace Store

variable {s s' : Store} {e : Entry}

theorem put_eq_ok (h : ∀ id, s.names.get? e.name.folded = some id → id = e.id) :
    ∃ s', s.put e = .ok s' := by
  refine ⟨_, if_neg ?_⟩
  rw [Option.any_eq_true]
  rintro ⟨id, hid, hne⟩
  exact absurd (h id hid) (by simpa using hne)

theorem get?_put (h : s.put e = .ok s') (id : EntryId) :
    s'.get? id = if id = e.id then some e else s.get? id := by
  simp only [put] at h
  split at h
  · cases h
  · cases h
    split
    · next same => exact same ▸ Table.get?_insert_self _ _ _
    · next other => exact Table.get?_insert_of_ne _ other _

theorem names_get?_put (h : s.put e = .ok s') :
    s'.names.get? e.name.folded = some e.id := by
  simp only [put] at h
  split at h
  · cases h
  · cases h
    exact Table.get?_insert_self _ _ _

end Store

namespace Replica

/-- The entry is stored under its identifier and listed under its name, with its history in it. -/
structure Holds (r : Replica) (id : EntryId) (t : Tracked) : Prop where
  identified : t.entry.id = id
  stored : r.store.get? id = some t.entry
  named : r.store.names.get? t.entry.name.folded = some id
  read : Tracked.ofEntry t.entry = .ok t

variable {r r' : Replica} {id : EntryId} {t u : Tracked} {now : UInt64}

theorem Holds.of_store_eq (h : r.Holds id t) (store : r'.store = r.store) : r'.Holds id t where
  identified := h.identified
  stored := store ▸ h.stored
  named := store ▸ h.named
  read := h.read

theorem Holds.eq_of_read (h : r.Holds id t) {e : Entry} (stored : r.store.get? id = some e)
    (read : Tracked.ofEntry e = .ok u) : t.entry = e ∧ t = u := by
  obtain rfl : t.entry = e := Option.some.inj (h.stored.symm.trans stored)
  exact ⟨rfl, Except.ok.inj (h.read.symm.trans read)⟩

theorem Holds.find? (h : r.Holds id t) {name : DistinguishedName}
    (same : name.same t.entry.name = true) : r.store.find? name = some t.entry := by
  have folded : name.folded = t.entry.name.folded := by
    simpa [DistinguishedName.same] using same
  have stored := h.stored
  rw [Store.get?] at stored
  simp [Store.find?, folded, h.named, stored]

/-- Writing an entry stores it with its history and leaves all but the store as it is. -/
theorem of_persist_eq_ok (h : r.persist now t = .ok r') :
    r.store.put (t.store now r.retention) = .ok r'.store ∧ r' = { r with store := r'.store } := by
  simp only [persist] at h
  split at h
  · cases h
  · next put =>
    cases h
    exact ⟨put, rfl⟩

theorem get?_of_persist {clock : Clock}
    (written : ({ r with clock } : Replica).persist now t = .ok r') :
    r'.base = r.base ∧ r'.store.get? t.entry.id = some (t.store now r.retention) ∧
      ∀ id, id ≠ t.entry.id → r'.store.get? id = r.store.get? id := by
  obtain ⟨put, only⟩ := of_persist_eq_ok written
  refine ⟨by rw [only], (Store.get?_put put _).trans (if_pos rfl), fun id other => ?_⟩
  exact (Store.get?_put put id).trans (if_neg other)

/-- What all stored entries have in common, they have after a write exactly if the written one has. -/
theorem forall_stored_iff_of_persist {clock : Clock} {P : Entry → Prop}
    (all : ∀ id e, r.store.get? id = some e → P e)
    (written : ({ r with clock } : Replica).persist now t = .ok r') :
    (∀ id e, r'.store.get? id = some e → P e) ↔ P (t.store now r.retention) := by
  obtain ⟨-, stored, others⟩ := get?_of_persist written
  constructor
  · exact fun after => after _ _ stored
  · intro fits id e he
    by_cases own : id = t.entry.id
    · subst own
      exact Option.some.inj (stored.symm.trans he) ▸ fits
    · exact all id e ((others id own).symm.trans he)

theorem schema_of_persist {clock : Clock}
    (written : ({ r with clock } : Replica).persist now t = .ok r') : r'.schema = r.schema := by
  rw [(of_persist_eq_ok written).2]

theorem holds_of_persist (unlimited : r.retention = none) (ordered : t.history.IsOrdered)
    (readable : t.history.IsReadable) (h : r.persist now t = .ok r') :
    r' = { r with store := r'.store } ∧ ∃ u, r'.Holds t.entry.id u ∧ u.Agrees t := by
  obtain ⟨u, read, entry, agrees⟩ := Tracked.ofEntry_store ordered readable now
  obtain ⟨put, only⟩ := of_persist_eq_ok h
  rw [unlimited] at put
  have id : (t.store now none).id = t.entry.id := rfl
  have stored := Store.get?_put put t.entry.id
  have named := Store.names_get?_put put
  rw [if_pos id.symm] at stored
  rw [id] at named
  exact ⟨only, u, ⟨agrees.id, entry ▸ stored, entry ▸ named, entry ▸ read⟩, agrees⟩

/-- An entry is always written back under its name. -/
theorem Holds.persist_eq_ok (h : r.Holds id t) (same : u.entry.id = id)
    (name : u.entry.name = t.entry.name) (now : UInt64) : ∃ r', r.persist now u = .ok r' := by
  have free : ∀ other, r.store.names.get? (u.store now r.retention).name.folded = some other →
      other = (u.store now r.retention).id := by
    intro other ho
    have stored : (u.store now r.retention).name = t.entry.name := name
    rw [stored, h.named] at ho
    exact (Option.some.inj ho).symm.trans same.symm
  obtain ⟨store, put⟩ := Store.put_eq_ok free
  exact ⟨{ r with store }, by simp only [persist, put]⟩

theorem Holds.afterRequest (h : r.Holds id t) (unlimited : r.retention = none) {q : Request}
    (ordered : (t.afterRequest r.schema q).history.IsOrdered)
    (readable : (t.afterRequest r.schema q).history.IsReadable) (now : UInt64) :
    ∃ r', r.persist now (t.afterRequest r.schema q) = .ok r' ∧
      r' = { r with store := r'.store } ∧
      ∃ u, r'.Holds id u ∧ u.Agrees (t.afterRequest r.schema q) := by
  have same : (t.afterRequest r.schema q).entry.id = id :=
    (Tracked.id_foldl_step _ t).trans h.identified
  have name : (t.afterRequest r.schema q).entry.name = t.entry.name :=
    Tracked.name_foldl_step _ t
  obtain ⟨r', written⟩ := h.persist_eq_ok same name now
  obtain ⟨store, held⟩ := holds_of_persist unlimited ordered readable written
  exact ⟨r', written, store, same ▸ held⟩

variable {created : Stamp} {initial : Attribute → List Octets} {requests : List Request}

/-- A valid local request succeeds and is told of by the update that it yields. -/
theorem Holds.modify (h : r.Holds id t) (unlimited : r.retention = none)
    (follows : t.Follows r.schema created initial requests) {name : DistinguishedName}
    (same : name.same t.entry.name = true) {mods : List Modification}
    (valid : validateAll r.schema mods = .ok ()) (plain : ∀ m ∈ mods, m.attr.IsPlain)
    (now : Readings) (newer : created < (r.clock.tick now.issuing).stamp)
    (compatible : ∀ q ∈ requests, q.stamp = (r.clock.tick now.issuing).stamp →
      q = ⟨(r.clock.tick now.issuing).stamp, mods⟩) :
    ∃ r' u, r.modify now name mods (fun _ => false) =
        (.ok ⟨(r.clock.tick now.issuing).stamp, name, id, .modify mods⟩, r') ∧
      r' = { r with clock := r.clock.tick now.issuing, store := r'.store } ∧ r'.Holds id u ∧
      u.Follows r.schema created initial (⟨(r.clock.tick now.issuing).stamp, mods⟩ :: requests) := by
  let q : Request := ⟨(r.clock.tick now.issuing).stamp, mods⟩
  have after := follows.afterRequest (r := q) valid plain newer compatible
  have ticked : (r.tick now.issuing).Holds id t := h.of_store_eq rfl
  obtain ⟨tally, applied⟩ := Tracked.applyRequest_eq (r := q) valid t
  obtain ⟨r', written, store, u, held, agrees⟩ :=
    ticked.afterRequest unlimited after.ordered after.readable now.storing
  refine ⟨r', u, ?_, store, held, after.of_agrees agrees⟩
  have found : r.findTracked name = .ok t := by
    simp [findTracked, find, h.find? same, h.read, Except.mapError]
  have applied' : t.applyRequest (r.tick now.issuing).schema mods (r.tick now.issuing).clock.stamp
      (fun _ => false) = .ok (.completed, tally, t.afterRequest (r.tick now.issuing).schema q) := applied
  simp only [Replica.modify, found, applied', written, h.identified]
  rfl

theorem Holds.replay_modify (h : r.Holds id t) (unlimited : r.retention = none)
    (follows : t.Follows r.schema created initial requests) {u : Update} {mods : List Modification}
    (own : u.id = id) (payload : u.payload = .modify mods)
    (valid : validateAll r.schema mods = .ok ()) (plain : ∀ m ∈ mods, m.attr.IsPlain)
    (now : UInt64) (newer : created < u.stamp)
    (compatible : ∀ q ∈ requests, q.stamp = u.stamp → q = ⟨u.stamp, mods⟩) :
    ∃ r' tally t', r.replay now u = (.ok (.applied tally), r') ∧
      r' = { r with clock := r.clock.witness u.stamp, store := r'.store } ∧ r'.Holds id t' ∧
      t'.Follows r.schema created initial (⟨u.stamp, mods⟩ :: requests) := by
  let q : Request := ⟨u.stamp, mods⟩
  have after := follows.afterRequest (r := q) valid plain newer compatible
  have witnessed : (r.witness u.stamp).Holds id t := h.of_store_eq rfl
  obtain ⟨tally, applied⟩ := Tracked.applyRequest_eq (r := q) valid t
  obtain ⟨r', written, store, t', held, agrees⟩ :=
    witnessed.afterRequest unlimited after.ordered after.readable now
  refine ⟨r', tally, t', ?_, store, held, after.of_agrees agrees⟩
  have applied' : t.applyRequest (r.witness u.stamp).schema mods u.stamp (fun _ => false) =
      .ok (.completed, tally, t.afterRequest (r.witness u.stamp).schema q) := applied
  have stored : (r.witness u.stamp).store.get? u.id = some t.entry := own ▸ witnessed.stored
  simp only [replay, replayWitnessed, payload, replayModify, stored, h.read, applied', written,
    Except.map]

/-- The creation of an entry that is there already changes nothing but the clock. -/
theorem Holds.replay_add (h : r.Holds id t) {u : Update} {parent : Option EntryId}
    {attributes : Table Attribute (List Octets)} (own : u.id = id)
    (payload : u.payload = .add parent attributes) (now : UInt64) :
    r.replay now u = (.ok (.ignored .duplicate), r.witness u.stamp) := by
  have stored : (r.witness u.stamp).store.get? u.id = some t.entry := own ▸ h.stored
  simp [replay, replayWitnessed, payload, replayAdd, stored]

end Replica

end DirectoryHistory
