import DirectoryHistory.Proofs.Replica.Deletion
import DirectoryHistory.Proofs.Replica.Taking
import DirectoryHistory.Proofs.Slot.Twice

/-!
# Updates that come again at once

An update that comes once more finds what it has done. A new entry is there already, a deleted one is
gone and a rename is no newer than the recorded one, so nothing happens. A request is taken again, and
leaves the entry as it is exactly if it has left all attributes at rest.
-/

namespace DirectoryHistory

/-- The second entry is the first one, but for the order of values. -/
structure Entry.IsLike (e f : Entry) : Prop where
  id : f.id = e.id
  name : f.name = e.name
  values : ∀ a v, v ∈ f.values a ↔ v ∈ e.values a
  history : f.historyValues = e.historyValues

/-- The second store holds the entries of the first one, but for the order of values. -/
def Store.IsLike (s s' : Store) : Prop :=
  ∀ id, Option.Rel Entry.IsLike (s.get? id) (s'.get? id)

theorem Entry.IsLike.refl (e : Entry) : e.IsLike e :=
  ⟨rfl, rfl, fun _ _ => Iff.rfl, rfl⟩

theorem Store.IsLike.refl (s : Store) : s.IsLike s := by
  intro id
  cases s.get? id with
  | none => exact .none
  | some e => exact .some (.refl e)

theorem Store.isLike_put_iff {s s' : Store} {e f : Entry} (stored : s.get? f.id = some e)
    (put : s.put f = .ok s') : s.IsLike s' ↔ e.IsLike f := by
  have after := get?_put put
  constructor
  · intro alike
    have both := alike f.id
    rw [after, if_pos rfl, stored] at both
    cases both with
    | some alike => exact alike
  · intro alike id
    rw [after]
    split
    · next same => exact same ▸ stored.symm ▸ .some alike
    · exact IsLike.refl s id

namespace Tracked

variable {t : Tracked} {schema : Schema} {q : Request}

/-- What is stored of an entry after a valid request is like the entry before exactly if all slots are
the same. -/
theorem isLike_store_afterRequest_iff (ordered : t.history.IsOrdered)
    (readable : t.history.IsReadable) (written : t.entry.historyValues = t.history.encode)
    (sound : q.IsSound schema) (now : UInt64) :
    t.entry.IsLike ((t.afterRequest schema q).store now none) ↔
      ∀ a, (t.slot a).SameAs ((t.afterRequest schema q).slot a) := by
  have ordered' : (t.afterRequest schema q).history.IsOrdered :=
    isOrdered_foldl_step ordered schema q.stamp _
  have readable' : (t.afterRequest schema q).history.IsReadable :=
    isReadable_foldl_step readable schema q.stamp sound.slots
  have written' : ((t.afterRequest schema q).store now none).historyValues =
      (t.afterRequest schema q).history.encode := historyValues_store ordered' readable' now none
  have others : ∀ {a : Attribute}, a ≠ .history →
      ((t.afterRequest schema q).store now none).values a = (t.afterRequest schema q).entry.values a :=
    fun other => Entry.values_setValues_of_ne _ other _
  have own : (t.afterRequest schema q).slot .history = t.slot .history :=
    slot_afterRequest_of_forall_ne schema (ne_of_mem_requestSteps sound.valid (by decide)) t
  constructor
  · intro alike a
    have agrees := History.agrees_of_encode_eq ordered' readable' ordered readable
      (written'.symm.trans (alike.history.trans written))
    by_cases other : a = .history
    · rw [other, own]
      exact ⟨rfl, fun _ => Iff.rfl⟩
    · refine ⟨agrees.timelines a, fun v => ?_⟩
      have values := alike.values a v
      rwa [others other] at values
  · intro same
    have agrees : (t.afterRequest schema q).history.Agrees t.history :=
      ⟨fun a => (same a).timeline, created_foldl_step _ t, renamed_foldl_step _ t⟩
    have history :
        ((t.afterRequest schema q).store now none).historyValues = t.entry.historyValues := by
      rw [written', written, agrees.encode_eq]
    refine ⟨id_foldl_step _ t, name_foldl_step _ t, fun a v => ?_, history⟩
    by_cases other : a = .history
    · rw [other]
      exact iff_of_eq (congrArg (v ∈ ·) history)
    · rw [others other]
      exact (same a).held v

theorem atRest_of_forall_ne {a : Attribute} {single : Bool}
    (others : ∀ p ∈ requestSteps q.modifications, p.1 ≠ a) : (t.slot a).AtRest single (q.edit a) := by
  rintro - v x - ⟨c, hc, -⟩
  rw [changes_edit_of_forall_ne others] at hc
  cases hc

end Tracked

namespace Replica

/-- The update would leave its entry as it is if it came again: only a request may not, and it has to
have left the attributes of the entry at rest. -/
def IsAtRest (r : Replica) (u : Update) : Prop :=
  match u.payload with
  | .modify mods => validateAll r.schema mods = .ok () → ∀ e t, r.store.get? u.id = some e →
      Tracked.ofEntry e = .ok t → ∀ a,
        (t.slot a).AtRest (r.schema.isSingle a) (Request.edit a ⟨u.stamp, mods⟩)
  | _ => True

variable {r r' : Replica} {now now' : UInt64} {u : Update} {id : EntryId} {t : Tracked}

theorem store_persist_congr (unlimited : r.retention = none) (clock : Clock) (now now' : UInt64)
    (t : Tracked) : (({ r with clock } : Replica).persist now' t).map (·.store) =
      (r.persist now t).map (·.store) := by
  have same : t.store now' r.retention = t.store now r.retention := by
    rw [unlimited]
    rfl
  simp only [persist, same]
  cases r.store.put (t.store now r.retention) <;> rfl

theorem store_replayWitnessed_congr (unlimited : r.retention = none) (clock : Clock)
    (now now' : UInt64) (u : Update) :
    (({ r with clock } : Replica).replayWitnessed now' u).map (·.2.store) =
      (r.replayWitnessed now u).map (·.2.store) := by
  have written : ∀ (t : Tracked) (o : Outcome),
      ((({ r with clock } : Replica).persist now' t).map (o, ·)).map (·.2.store) =
        ((r.persist now t).map (o, ·)).map (·.2.store) := by
    intro t o
    have same := store_persist_congr unlimited clock now now' t
    cases left : ({ r with clock } : Replica).persist now' t <;>
      cases right : r.persist now t <;> simp_all [Except.map]
  have named : ∀ name parent,
      ({ r with clock } : Replica).addedName name parent = r.addedName name parent := fun _ _ => rfl
  have above : ∀ e superior superiorId, ({ r with clock } : Replica).renameParent? e superior
      superiorId = r.renameParent? e superior superiorId := fun _ _ _ => rfl
  have taken : ∀ e target, ({ r with clock } : Replica).isTaken e target = r.isTaken e target :=
    fun _ _ => rfl
  -- The branches ask for nothing but the entries.
  cases payload : u.payload with
  | add parent attributes =>
    simp only [replayWitnessed, payload, replayAdd, named, create]
    split
    · rfl
    split
    · rfl
    split
    · rfl
    · exact written _ _
  | modify mods =>
    simp only [replayWitnessed, payload, replayModify]
    split
    · rfl
    split
    · rfl
    split
    · rfl
    · exact written _ _
  | rename leaf deleteOld superior superiorId =>
    simp only [replayWitnessed, payload, replayRename, above, taken]
    split
    · rfl
    split
    · rfl
    split
    · split
      · rfl
      split
      · rfl
      · exact written _ _
    · rfl
  | delete =>
    simp only [replayWitnessed, payload, replayDelete]
    cases r.store.get? u.id <;> rfl

/-- What becomes of the store by an update does not depend on the clocks. -/
theorem store_replay_congr (unlimited : r.retention = none) (clock : Clock) (now now' : UInt64)
    (u : Update) : (({ r with clock } : Replica).replay now' u).2.store =
      (r.replay now u).2.store := by
  have same := store_replayWitnessed_congr (r := r.witness u.stamp) unlimited
    (clock.witness u.stamp) now now' u
  have moved : ({ r with clock } : Replica).witness u.stamp =
      { r.witness u.stamp with clock := clock.witness u.stamp } := rfl
  rw [replay, replay, moved]
  cases left : ({ r.witness u.stamp with clock := clock.witness u.stamp } : Replica).replayWitnessed
      now' u <;> cases right : (r.witness u.stamp).replayWitnessed now u <;> simp_all [Except.map]

theorem store_replay_again_of_kept (unlimited : r.retention = none)
    (kept : (r.replay now u).2.store = r.store) (now' : UInt64) :
    ((r.replay now u).2.replay now' u).2.store = (r.replay now u).2.store := by
  have only : (r.replay now u).2 = { r with clock := (r.replay now u).2.clock } := by
    have all : (r.replay now u).2 = { r with
        clock := (r.replay now u).2.clock, store := (r.replay now u).2.store } :=
      r.perform_eq (.still now) (.replay u)
    rwa [kept] at all
  exact (congrArg (fun r => (replay r now' u).2.store) only).trans
    (store_replay_congr unlimited _ now now' u)

theorem store_replay_add_again (unlimited : r.retention = none) {parent : Option EntryId}
    {attributes : Table Attribute (List Octets)} (payload : u.payload = .add parent attributes)
    (now now' : UInt64) :
    ((r.replay now u).2.replay now' u).2.store = (r.replay now u).2.store := by
  by_cases applied : ∃ tally, (r.replay now u).1 = .ok (.applied tally)
  · obtain ⟨tally, applied⟩ := applied
    obtain ⟨name, -, written⟩ := of_replay_add_eq_applied payload applied
    obtain ⟨-, there, -⟩ := get?_of_persist (r := r.witness u.stamp) written
    rw [id_newEntry] at there
    rw [replay_add_of_stored payload there]
    rfl
  · exact store_replay_again_of_kept unlimited
      (store_replay_of_not_applied (not_exists.mp applied)) now'

theorem store_replay_delete_again (payload : u.payload = .delete) (now now' : UInt64) :
    ((r.replay now u).2.replay now' u).2.store = (r.replay now u).2.store := by
  have gone : (r.replay now u).2.store.get? u.id = none := by
    have stored : (r.witness u.stamp).store.get? u.id = r.store.get? u.id := rfl
    simp only [replay, replayWitnessed, payload, replayDelete]
    cases found : (r.witness u.stamp).store.get? u.id with
    | none => exact found
    | some e => simp [Store.get?_remove]
  generalize (r.replay now u).2 = r' at gone ⊢
  have gone : (r'.witness u.stamp).store.get? u.id = none := gone
  simp only [replay, replayWitnessed, payload, replayDelete, gone]
  rfl

theorem of_replay_rename_eq_applied {leaf : RelativeName} {deleteOld : Bool}
    {superior : Option DistinguishedName} {superiorId : Option EntryId} {tally : Tally}
    (payload : u.payload = .rename leaf deleteOld superior superiorId)
    (applied : (r.replay now u).1 = .ok (.applied tally)) :
    ∃ e h target, r.store.get? u.id = some e ∧ History.ofEntry e = .ok h ∧
      (r.witness u.stamp).persist now
        ⟨renameEntry e target leaf deleteOld, h.rename u.stamp⟩ = .ok (r.replay now u).2 := by
  have stored : (r.witness u.stamp).store.get? u.id = r.store.get? u.id := rfl
  simp only [replay, replayWitnessed, payload, replayRename, stored] at applied ⊢
  cases found : r.store.get? u.id with
  | none => simp [found] at applied
  | some e =>
    cases read : History.ofEntry e with
    | error cause => simp [found, read] at applied
    | ok h =>
      by_cases admitted : h.admitsRename u.stamp = true
      swap
      · simp [found, read, admitted] at applied
      cases goal : (r.witness u.stamp).renameParent? e superior superiorId with
      | none => simp [found, read, admitted, goal] at applied
      | some parent =>
        by_cases taken : (r.witness u.stamp).isTaken e (parent.child leaf) = true
        · simp [found, read, admitted, goal, taken] at applied
        cases written : (r.witness u.stamp).persist now
            ⟨renameEntry e (parent.child leaf) leaf deleteOld, h.rename u.stamp⟩ with
        | error cause => simp [found, read, admitted, goal, taken, written, Except.map] at applied
        | ok r' =>
          refine ⟨e, h, parent.child leaf, rfl, read, ?_⟩
          simp [read, admitted, goal, taken, written, Except.map]

/-- A rename is no newer than the recorded one. -/
theorem store_replay_rename_again (readable : r.IsReadable) (unlimited : r.retention = none)
    {leaf : RelativeName} {deleteOld : Bool} {superior : Option DistinguishedName}
    {superiorId : Option EntryId} (indexed : r.store.IsIndexed)
    (payload : u.payload = .rename leaf deleteOld superior superiorId) (now now' : UInt64) :
    ((r.replay now u).2.replay now' u).2.store = (r.replay now u).2.store := by
  by_cases applied : ∃ tally, (r.replay now u).1 = .ok (.applied tally)
  swap
  · exact store_replay_again_of_kept unlimited
      (store_replay_of_not_applied (not_exists.mp applied)) now'
  obtain ⟨tally, applied⟩ := applied
  obtain ⟨e, h, target, stored, read, written⟩ := of_replay_rename_eq_applied payload applied
  obtain ⟨h', carries⟩ := readable u.id e stored
  obtain ⟨ordered, readable'⟩ := wellFormed_of_rename carries read u.stamp
  obtain ⟨-, t, held, agrees⟩ :=
    holds_of_persist (r := r.witness u.stamp) unlimited ordered readable' written
  have own : (renameEntry e target leaf deleteOld).id = u.id :=
    (id_renameEntry ..).trans (indexed.keyed u.id e stored)
  rw [own] at held
  have stale : t.history.admitsRename u.stamp = false := by
    rw [Bool.eq_false_iff, Ne, History.admitsRename_iff, agrees.history.renamed,
      History.renamed_rename]
    split
    · simp
    · next older => exact fun newer => older (History.admitsRename_iff.mpr newer)
  have read' := Tracked.history_of_ofEntry held.read
  generalize (r.replay now u).2 = r' at held ⊢
  rw [replay_rename_of_stale payload held.stored read' stale now']
  rfl

theorem sameAs_slot_iff {schema : Schema} {q : Request} {t' : Tracked} {a : Attribute}
    (agrees : t'.Agrees (t.afterRequest schema q)) (ordered : t.history.IsOrdered)
    (valid : validateAll schema q.modifications = .ok ()) :
    (t'.slot a).SameAs ((t'.afterRequest schema q).slot a) ↔
      (t'.slot a).AtRest (schema.isSingle a) (q.edit a) := by
  have taken : ∀ t : Tracked, (t.afterRequest schema q).slot a =
      (t.slot a).resolveEdit (schema.isSingle a) t.history.created (q.edit a) :=
    fun t => Tracked.slot_foldl_step _ t a
  by_cases user : a.isHistory = false
  · have created : t'.history.created = t.history.created :=
      agrees.history.created.trans (Tracked.created_foldl_step _ t)
    rw [taken t', created, agrees.slot user, taken t]
    exact Slot.sameAs_resolveEdit_iff (ordered a) _ _ _
  · have others := Tracked.ne_of_mem_requestSteps valid fun ok => user (user_of_checkTarget ok)
    rw [Tracked.slot_afterRequest_of_forall_ne schema others]
    exact iff_of_true ⟨rfl, fun _ => Iff.rfl⟩ (Tracked.atRest_of_forall_ne others)

theorem Holds.put_of_takes {q : Request} (held : r.Holds id t) (unlimited : r.retention = none)
    (takes : Takes r id q r') :
    ∃ now, r.store.put ((t.afterRequest r.schema q).store now none) = .ok r'.store := by
  obtain ⟨now, clock, written⟩ := held.persist_of_takes takes
  have put := (of_persist_eq_ok written).1
  rw [show ({ r with clock } : Replica).retention = none from unlimited] at put
  exact ⟨now, put⟩

theorem Holds.written_of_takes {q : Request} (held : r.Holds id t) (unlimited : r.retention = none)
    (ordered : t.history.IsOrdered) (readable : t.history.IsReadable) (sound : q.IsSound r.schema)
    (takes : Takes r id q r') :
    r'.schema = r.schema ∧ r'.retention = none ∧ ∃ t', r'.Holds id t' ∧
      t'.Agrees (t.afterRequest r.schema q) ∧ t'.entry.historyValues = t'.history.encode := by
  obtain ⟨now, put⟩ := held.put_of_takes unlimited takes
  obtain ⟨_, clock, written⟩ := held.persist_of_takes takes
  have ordered' : (t.afterRequest r.schema q).history.IsOrdered :=
    Tracked.isOrdered_foldl_step ordered r.schema q.stamp _
  have readable' : (t.afterRequest r.schema q).history.IsReadable :=
    Tracked.isReadable_foldl_step readable r.schema q.stamp sound.slots
  obtain ⟨only, t', held', agrees⟩ :=
    holds_of_persist (r := { r with clock }) unlimited ordered' readable' written
  have own : (t.afterRequest r.schema q).entry.id = id :=
    (Tracked.id_foldl_step _ t).trans held.identified
  rw [own] at held'
  have entry : t'.entry = (t.afterRequest r.schema q).store now none :=
    Option.some.inj (held'.stored.symm.trans ((Store.get?_put put id).trans (if_pos own.symm)))
  refine ⟨by rw [only], by rw [only]; exact unlimited, t', held', agrees, ?_⟩
  rw [entry, Tracked.historyValues_store ordered' readable', agrees.history.encode_eq]
  rfl

/-- A sound request leaves the store alone exactly if it leaves alone the slots of its entry. -/
theorem Holds.isLike_replay_update_iff {q : Request} (held : r.Holds id t)
    (unlimited : r.retention = none) (ordered : t.history.IsOrdered)
    (readable : t.history.IsReadable) (written : t.entry.historyValues = t.history.encode)
    (sound : q.IsSound r.schema) (now : UInt64) (name : DistinguishedName) :
    r.store.IsLike (r.replay now (q.update name id)).2.store ↔
      ∀ a, (t.slot a).SameAs ((t.afterRequest r.schema q).slot a) := by
  obtain ⟨tally, r', replayed, takes⟩ := held.replay_update sound.valid now name
  obtain ⟨now', put⟩ := held.put_of_takes unlimited takes
  have own : ((t.afterRequest r.schema q).store now' none).id = id :=
    (Tracked.id_foldl_step _ t).trans held.identified
  rw [replayed, Store.isLike_put_iff (own.symm ▸ held.stored) put,
    Tracked.isLike_store_afterRequest_iff ordered readable written sound now']

theorem Holds.isLike_replay_update_again_iff {q : Request} (held : r.Holds id t)
    (unlimited : r.retention = none) (ordered : t.history.IsOrdered)
    (readable : t.history.IsReadable) (sound : q.IsSound r.schema) (now now' : UInt64)
    (name : DistinguishedName) : let r' := (r.replay now (q.update name id)).2
    r'.store.IsLike (r'.replay now' (q.update name id)).2.store ↔
      r'.IsAtRest (q.update name id) := by
  intro r'
  obtain ⟨tally, r₁, replayed, takes⟩ := held.replay_update sound.valid now name
  obtain rfl : r' = r₁ := congrArg Prod.snd replayed
  obtain ⟨schema, unlimited', t', held', agrees, written⟩ :=
    held.written_of_takes unlimited ordered readable sound takes
  have ordered' : t'.history.IsOrdered :=
    agrees.history.isOrdered (Tracked.isOrdered_foldl_step ordered r.schema q.stamp _)
  have readable' : t'.history.IsReadable :=
    agrees.history.isReadable (Tracked.isReadable_foldl_step readable r.schema q.stamp sound.slots)
  have slots : (∀ a, (t'.slot a).SameAs ((t'.afterRequest r.schema q).slot a)) ↔
      ∀ a, (t'.slot a).AtRest (r.schema.isSingle a) (q.edit a) :=
    forall_congr' fun a => sameAs_slot_iff agrees ordered sound.valid
  rw [held'.isLike_replay_update_iff unlimited' ordered' readable' written (schema ▸ sound) now' name,
    schema, slots]
  constructor
  · intro rest _ e u stored read a
    obtain ⟨-, rfl⟩ := held'.eq_of_read stored read
    exact schema.symm ▸ rest a
  · intro rest a
    exact schema ▸ rest (schema.symm ▸ sound.valid) t'.entry t' held'.stored held'.read a

/-- A request that comes again leaves the store alone exactly if its entry is at rest. -/
theorem isLike_replay_modify_again_iff (indexed : r.store.IsIndexed) (readable : r.IsReadable)
    (unlimited : r.retention = none) {mods : List Modification} (payload : u.payload = .modify mods)
    (plain : ∀ m ∈ mods, m.attr.IsPlain) (now now' : UInt64) :
    (r.replay now u).2.store.IsLike ((r.replay now u).2.replay now' u).2.store ↔
      (r.replay now u).2.IsAtRest u := by
  have stored' : (r.witness u.stamp).store.get? u.id = r.store.get? u.id := rfl
  cases stored : r.store.get? u.id with
  | none =>
    have kept : (r.replay now u).2 = r.witness u.stamp := by
      simp [replay, replayWitnessed, payload, replayModify, stored', stored]
    have same := store_replay_again_of_kept unlimited (congrArg (·.store) kept) now'
    refine iff_of_true (same ▸ .refl _) ?_
    rw [kept, IsAtRest, payload]
    intro _ e t there
    cases stored.symm.trans there
  | some e =>
    obtain ⟨h, carries⟩ := readable u.id e stored
    obtain ⟨g, read, agrees⟩ := carries.read
    have read' : Tracked.ofEntry e = .ok ⟨e, g⟩ := by
      rw [Tracked.ofEntry, read]
      rfl
    cases valid : validateAll r.schema mods with
    | error cause =>
      have kept : (r.replay now u).2 = r.witness u.stamp := by
        have invalid : validateAll (r.witness u.stamp).schema mods = .error cause := valid
        simp [replay, replayWitnessed, payload, replayModify, stored', stored, read',
          Tracked.applyRequest, invalid]
      have same := store_replay_again_of_kept unlimited (congrArg (·.store) kept) now'
      refine iff_of_true (same ▸ .refl _) ?_
      rw [kept, IsAtRest, payload]
      intro ok
      cases (show validateAll r.schema mods = .ok () from ok).symm.trans valid
    | ok _ =>
      have held : r.Holds u.id ⟨e, g⟩ :=
        ⟨indexed.keyed u.id e stored, stored, indexed.listed u.id e stored, read'⟩
      obtain ⟨stamp, name, id, _⟩ := u
      obtain rfl := payload
      exact held.isLike_replay_update_again_iff (q := ⟨stamp, mods⟩) unlimited
        (agrees.isOrdered carries.ordered) (agrees.isReadable carries.readable)
        (Request.isSound_of_plain valid plain) now now' name

/-- Whatever a replica has been through since its store was empty, an update that comes again at once
leaves the store as it is exactly if it has left its entry at rest. -/
theorem isLike_replay_again_iff {run : List (Readings × Operation)} (empty : r.store = .empty)
    (unlimited : r.retention = none) (plain : ∀ p ∈ run, ∀ a ∈ p.2.modified, a.IsPlain)
    (plain' : ∀ a ∈ (Operation.replay u).modified, a.IsPlain) (now now' : UInt64) :
    let once := ((r.performAll run).replay now u).2
    once.store.IsLike (once.replay now' u).2.store ↔ once.IsAtRest u := by
  intro once
  have indexed : (r.performAll run).store.IsIndexed :=
    .performAll (by rw [empty]; exact Store.isIndexed_empty) run
  have readable : (r.performAll run).IsReadable := (isReadable_of_empty empty).performAll plain
  have unlimited : (r.performAll run).retention = none :=
    (retention_performAll r run).trans unlimited
  cases payload : u.payload with
  | modify mods =>
    refine isLike_replay_modify_again_iff indexed readable unlimited payload (fun m hm => ?_) now now'
    refine plain' m.attr ?_
    rw [Operation.modified, payload]
    exact List.mem_map_of_mem hm
  | add parent attributes =>
    have same := store_replay_add_again unlimited payload now now'
    exact iff_of_true (same ▸ .refl _) (by rw [IsAtRest, payload]; trivial)
  | rename leaf deleteOld superior superiorId =>
    have same := store_replay_rename_again readable unlimited indexed payload now now'
    exact iff_of_true (same ▸ .refl _) (by rw [IsAtRest, payload]; trivial)
  | delete =>
    have same := store_replay_delete_again (r := r.performAll run) payload now now'
    exact iff_of_true (same ▸ .refl _) (by rw [IsAtRest, payload]; trivial)

/-- A late request adds a value, takes it back and overwrites the attribute. It leaves two marks that a
newer reset overrides, and leaves them again. -/
theorem isLike_replay_again_iff_late :
    let name : DistinguishedName := ⟨[⟨"o", "test"⟩]⟩
    let mail : Attribute := ⟨"mail", []⟩
    let run : List (Readings × Operation) :=
      [(1, .replay ⟨⟨1, 0, 9⟩, name, .uniform 0, .add none .empty⟩),
        (2, .replay ⟨⟨10, 0, 9⟩, name, .uniform 0, .modify [⟨mail, .delete, []⟩]⟩)]
    let q : Request := ⟨⟨5, 0, 8⟩, [⟨mail, .add, [.ofText "b"]⟩, ⟨mail, .delete, [.ofText "b"]⟩,
      ⟨mail, .replace, [.ofText "w"]⟩]⟩
    let u := q.update name (.uniform 0)
    let r := make 1 name ⟨[]⟩ none .empty
    let once := ((r.performAll run).replay 5 u).2
    once.store.IsLike (once.replay 6 u).2.store := by
  intro name mail run q u r
  let left : Slot := ⟨[], some ⟨10, 0, 9⟩,
    [⟨.ofText "b", .deleted, ⟨5, 0, 8⟩⟩, ⟨.ofText "w", .added, ⟨5, 0, 8⟩⟩]⟩
  have slot : (((r.performAll run).replay 5 u).2.store.get? u.id).bind
      (fun e => (Tracked.ofEntry e).toOption.map (·.slot mail)) = some left := by decide +kernel
  have rest : ((r.performAll run).replay 5 u).2.IsAtRest u := by
    generalize ((r.performAll run).replay 5 u).2 = once at slot ⊢
    intro _ e t stored read a
    by_cases own : a = mail
    · rw [stored, Option.bind_some, read] at slot
      rw [own, show t.slot mail = left from Option.some.inj slot]
      intro _ v x mark contradicts
      have words : ∀ m ∈ left.timeline.marks, (q.edit mail).Contradicts m.value m.sense →
          (q.edit mail).lastWord m.value = some m.sense := by decide
      refine ⟨words _ (Timeline.mem_of_mark? mark) contradicts, ?_⟩
      split
      · exact fun _ => Iff.rfl
      · exact List.not_mem_nil
    · have steps : ∀ p ∈ requestSteps q.modifications, p.1 = mail := by decide
      exact Tracked.atRest_of_forall_ne fun p hp same => own (same.symm.trans (steps p hp))
  exact (@isLike_replay_again_iff r u run rfl rfl (by decide) (by decide) 5 6).mpr rest

/-- No mark records the value that a rename has given to a single-valued attribute. The late request
marks it, and the entry loses it when the request comes again. -/
theorem isLike_replay_again_lost : ¬∀ (r : Replica) (run : List (Readings × Operation)) (u : Update)
    (now now' : UInt64), r.store = .empty → r.retention = none →
    (∀ p ∈ run, ∀ a ∈ p.2.modified, a.IsPlain) → (∀ a ∈ (Operation.replay u).modified, a.IsPlain) →
    let once := ((r.performAll run).replay now u).2
    once.store.IsLike (once.replay now' u).2.store := by
  intro alike
  let base : DistinguishedName := ⟨[⟨"o", "test"⟩]⟩
  let name : DistinguishedName := base.child ⟨"cn", "a"⟩
  let uid : Attribute := ⟨"uid", []⟩
  let run : List (Readings × Operation) :=
    [(1, .replay ⟨⟨1, 0, 9⟩, base, .uniform 0, .add none .empty⟩),
      (2, .replay ⟨⟨2, 0, 9⟩, name, .uniform 1, .add (some (.uniform 0)) .empty⟩),
      (3, .replay ⟨⟨10, 0, 9⟩, name, .uniform 1, .modify [⟨uid, .delete, []⟩]⟩),
      (4, .replay ⟨⟨11, 0, 9⟩, name, .uniform 1, .rename ⟨"uid", "w"⟩ false none none⟩)]
  let q : Request := ⟨⟨5, 0, 8⟩, [⟨uid, .add, [.ofText "b"]⟩, ⟨uid, .delete, [.ofText "b"]⟩,
    ⟨uid, .replace, [.ofText "w"]⟩]⟩
  let u := q.update name (.uniform 1)
  let r := make 1 base ⟨["uid"]⟩ none .empty
  let left : Slot := ⟨[.ofText "w"], some ⟨10, 0, 9⟩,
    [⟨.ofText "b", .deleted, ⟨5, 0, 8⟩⟩, ⟨.ofText "w", .added, ⟨5, 0, 8⟩⟩]⟩
  have plain : ∀ m ∈ q.modifications, m.attr.IsPlain := by decide
  obtain ⟨slot, schema⟩ : (((r.performAll run).replay 5 u).2.store.get? u.id).bind
      (fun e => (Tracked.ofEntry e).toOption.map (·.slot uid)) = some left ∧
      ((r.performAll run).replay 5 u).2.schema = ⟨["uid"]⟩ := by decide +kernel
  have rest : ((r.performAll run).replay 5 u).2.IsAtRest u :=
    (isLike_replay_modify_again_iff (Store.isIndexed_empty.performAll run)
      ((isReadable_of_empty rfl).performAll (by decide)) (retention_performAll r run) rfl plain 5 6).mp
      (alike r run u 5 6 rfl rfl (by decide) (by decide))
  generalize ((r.performAll run).replay 5 u).2 = once at slot schema rest
  obtain ⟨e, stored, slot⟩ := Option.bind_eq_some_iff.mp slot
  cases read : Tracked.ofEntry e with
  | error cause =>
    rw [read] at slot
    cases slot
  | ok t =>
    rw [read] at slot
    have settled := rest (by rw [schema]; decide) e t stored read uid
    rw [show t.slot uid = left from Option.some.inj slot, schema] at settled
    -- Looked up, the slot would be empty: the reset is newer than both marks.
    have kept := (settled (by decide) (.ofText "b") .deleted (by decide) (by decide)).2
    rw [if_pos (by decide)] at kept
    exact absurd ((kept (.ofText "w")).mpr (by decide)) (by decide)

end Replica

end DirectoryHistory
