import DirectoryHistory.Proofs.Replica.Creation
import DirectoryHistory.Proofs.Replica.Readable
import DirectoryHistory.Proofs.Store.Index
import DirectoryHistory.Proofs.Tracked.Committed

/-!
# Requests that a replica takes

A request that succeeds, be it local or replayed, writes the entry after the request and nothing
else. Entries that agree take a request alike, so what a run of updates leaves of an entry depends on
what the entry says and not on how often it was stored and read.
-/

namespace DirectoryHistory

/-- The request is valid and speaks of attributes that can be told apart in a history. -/
structure Request.IsSound (schema : Schema) (q : Request) : Prop where
  valid : validateAll schema q.modifications = .ok ()
  slots : ∀ p ∈ requestSteps q.modifications, p.1.IsSlot

def Request.update (name : DistinguishedName) (id : EntryId) (q : Request) : Update :=
  ⟨q.stamp, name, id, .modify q.modifications⟩

variable {schema : Schema} {q : Request} {a : Attribute}

theorem Request.eq_of_update_eq {q' : Request} {name : DistinguishedName} {id id' : EntryId}
    (h : q.update name id = q'.update name id') : q = q' := by
  obtain ⟨stamp, mods⟩ := q
  cases h
  rfl

theorem Request.isSound_of_plain (valid : validateAll schema q.modifications = .ok ())
    (plain : ∀ m ∈ q.modifications, m.attr.IsPlain) : q.IsSound schema :=
  ⟨valid, Tracked.isSlot_of_validateAll valid plain⟩

theorem user_of_checkTarget (h : checkTarget a = .ok ()) : a.isHistory = false :=
  (checkTarget_eq_ok_iff.mp h).2.1

/-- The history can be written and read back, and requests may name the attributes in it. -/
structure History.IsSound (h : History) : Prop where
  ordered : h.IsOrdered
  readable : h.IsReadable
  targeted : ∀ a, h.timeline a ≠ .empty → checkTarget a = .ok ()

namespace History

theorem isSound_ofCreation (s : Stamp) : (ofCreation s).IsSound where
  ordered := isOrdered_ofCreation s
  readable := isReadable_ofCreation s
  targeted _ touched := absurd rfl touched

theorem IsSound.of_agrees {g h : History} (sound : h.IsSound) (agrees : g.Agrees h) :
    g.IsSound where
  ordered := agrees.isOrdered sound.ordered
  readable := agrees.isReadable sound.readable
  targeted a touched := sound.targeted a (agrees.timelines a ▸ touched)

theorem IsSound.rename {h : History} (sound : h.IsSound) (s : Stamp) : (h.rename s).IsSound where
  ordered a := by
    rw [timeline_rename]
    exact sound.ordered a
  readable a := by
    rw [timeline_rename]
    exact sound.readable a
  targeted a := by
    rw [timeline_rename]
    exact sound.targeted a

end History

namespace Tracked

variable {t u : Tracked}

theorem Agrees.trans {w : Tracked} (h : t.Agrees u) (h' : u.Agrees w) : t.Agrees w where
  id := h.id.trans h'.id
  name := h.name.trans h'.name
  values a user := (h.values a user).trans (h'.values a user)
  history := h.history.trans h'.history

theorem changes_edit_of_forall_ne (others : ∀ p ∈ requestSteps q.modifications, p.1 ≠ a) :
    (q.edit a).changes = [] := by
  rw [Request.edit, changesTo, List.map_eq_nil_iff, List.filter_eq_nil_iff]
  simpa using others

theorem slot_afterRequest_of_forall_ne (schema : Schema)
    (others : ∀ p ∈ requestSteps q.modifications, p.1 ≠ a)
    (t : Tracked) : (t.afterRequest schema q).slot a = t.slot a := by
  rw [afterRequest, slot_foldl_step, ← Request.edit, Slot.resolveEdit, changes_edit_of_forall_ne others]
  rfl

theorem ne_of_mem_requestSteps (valid : validateAll schema q.modifications = .ok ())
    (untargeted : checkTarget a ≠ .ok ()) : ∀ p ∈ requestSteps q.modifications, p.1 ≠ a := by
  rintro p hp rfl
  exact untargeted (accepts_of_validateAll valid p hp).1

theorem Agrees.afterRequest (h : t.Agrees u)
    (valid : validateAll schema q.modifications = .ok ()) :
    (t.afterRequest schema q).Agrees (u.afterRequest schema q) := by
  have slots : ∀ a, a.isHistory = false →
      (t.afterRequest schema q).slot a = (u.afterRequest schema q).slot a := by
    intro a user
    simp only [Tracked.afterRequest, slot_foldl_step, h.slot user, h.history.created]
  refine ⟨?_, ?_, fun a user => congrArg Slot.held (slots a user), fun a => ?_, ?_, ?_⟩
  · simp only [Tracked.afterRequest, id_foldl_step, h.id]
  · simp only [Tracked.afterRequest, name_foldl_step, h.name]
  · by_cases target : checkTarget a = .ok ()
    · exact congrArg Slot.timeline (slots a (user_of_checkTarget target))
    · have others := ne_of_mem_requestSteps valid target
      have left := congrArg Slot.timeline (slot_afterRequest_of_forall_ne schema others t)
      have right := congrArg Slot.timeline (slot_afterRequest_of_forall_ne schema others u)
      exact left.trans ((h.history.timelines a).trans right.symm)
  · simp only [Tracked.afterRequest, created_foldl_step, h.history.created]
  · simp only [Tracked.afterRequest, renamed_foldl_step, h.history.renamed]

theorem Agrees.foldl_afterRequest {qs : List Request} (h : t.Agrees u)
    (valid : ∀ q ∈ qs, validateAll schema q.modifications = .ok ()) :
    (qs.foldl (Tracked.afterRequest schema) t).Agrees (qs.foldl (Tracked.afterRequest schema) u) := by
  induction qs generalizing t u with
  | nil => exact h
  | cons q rest ih =>
    exact ih (h.afterRequest (valid q (.head _))) fun q hq => valid q (.tail _ hq)

theorem entry_of_ofEntry {e : Entry} (h : ofEntry e = .ok t) : t.entry = e := by
  cases read : History.ofEntry e <;> simp [ofEntry, read, Except.map] at h
  exact h ▸ rfl

theorem history_of_ofEntry {e : Entry} (h : ofEntry e = .ok t) :
    History.ofEntry e = .ok t.history := by
  cases read : History.ofEntry e <;> simp [ofEntry, read, Except.map] at h
  exact h ▸ rfl

/-- A request that is not rejected is valid and, as nobody abandons it, takes all its steps. -/
theorem of_applyRequest_eq_ok {mods : List Modification} {stamp : Stamp} {ending : Ending}
    {tally : Tally} {t' : Tracked}
    (h : t.applyRequest schema mods stamp (fun _ => false) = .ok (ending, tally, t')) :
    validateAll schema mods = .ok () ∧ t' = t.afterRequest schema ⟨stamp, mods⟩ := by
  have valid := (exists_take_of_applyRequest h).1
  obtain ⟨tally', applied⟩ := applyRequest_eq (r := ⟨stamp, mods⟩) valid t
  rw [h] at applied
  cases applied
  exact ⟨valid, rfl⟩

theorem isSound_afterRequest (sound : t.history.IsSound) (hq : q.IsSound schema) :
    (t.afterRequest schema q).history.IsSound where
  ordered := isOrdered_foldl_step sound.ordered schema q.stamp _
  readable := isReadable_foldl_step sound.readable schema q.stamp hq.slots
  targeted a touched := by
    by_contra untargeted
    have others := ne_of_mem_requestSteps hq.valid untargeted
    have same := congrArg Slot.timeline (slot_afterRequest_of_forall_ne schema others t)
    refine untargeted (sound.targeted a ?_)
    rw [timeline_slot, timeline_slot] at same
    exact same ▸ touched

theorem isSound_foldl_afterRequest {qs : List Request} (sound : t.history.IsSound)
    (each : ∀ q ∈ qs, q.IsSound schema) :
    (qs.foldl (afterRequest schema) t).history.IsSound := by
  induction qs generalizing t with
  | nil => exact sound
  | cons q rest ih =>
    exact ih (isSound_afterRequest sound (each q (.head _))) fun q hq => each q (.tail _ hq)

end Tracked

namespace Replica

/-- At most the clock and the entry `id` differ. -/
structure Alters (id : EntryId) (r r' : Replica) : Prop where
  only : r' = { r with clock := r'.clock, store := r'.store }
  others : ∀ id', id' ≠ id → r'.store.get? id' = r.store.get? id'
  indexed : r.store.IsIndexed → r'.store.IsIndexed
  readable : r.IsReadable → r'.IsReadable

variable {r r' r'' : Replica} {id : EntryId} {t : Tracked} {now : UInt64} {u : Update}
variable {mods : List Modification} {name : DistinguishedName}

theorem Alters.refl (id : EntryId) (r : Replica) : Alters id r r :=
  ⟨rfl, fun _ _ => rfl, fun h => h, fun h => h⟩

theorem Alters.trans (h : Alters id r r') (h' : Alters id r' r'') : Alters id r r'' where
  only := by
    rw [h'.only, h.only]
  others id' other := (h'.others id' other).trans (h.others id' other)
  indexed indexed := h'.indexed (h.indexed indexed)
  readable readable := h'.readable (h.readable readable)

theorem Alters.schema_eq (h : Alters id r r') : r'.schema = r.schema := by
  rw [h.only]

theorem Alters.base_eq (h : Alters id r r') : r'.base = r.base := by
  rw [h.only]

theorem Alters.retention_eq (h : Alters id r r') : r'.retention = r.retention := by
  rw [h.only]

theorem alters_of_persist {clock : Clock} (own : t.entry.id = id) (ordered : t.history.IsOrdered)
    (readable : t.history.IsReadable)
    (h : ({ r with clock } : Replica).persist now t = .ok r') : Alters id r r' := by
  obtain ⟨put, only⟩ := of_persist_eq_ok h
  refine ⟨by rw [only], fun id' other => ?_, fun indexed => indexed.put put,
    fun before id' e stored => ?_⟩
  · have apart : id' ≠ (t.store now r.retention).id := own.symm ▸ other
    exact (Store.get?_put put id').trans (if_neg apart)
  · rw [Store.get?_put put] at stored
    split at stored
    · obtain rfl := Option.some.inj stored
      exact ⟨_, Tracked.carries_store ordered readable now r.retention⟩
    · exact before id' e stored

/-- The second replica is the first one after the entry `id` took a valid request. -/
def Takes (r : Replica) (id : EntryId) (q : Request) (r' : Replica) : Prop :=
  ∃ now clock e t, r.store.get? id = some e ∧ Tracked.ofEntry e = .ok t ∧
    validateAll r.schema q.modifications = .ok () ∧
    ({ r with clock } : Replica).persist now (t.afterRequest r.schema q) = .ok r'

/-- What a modify request sends is a request that the entry has taken as a whole. -/
theorem persist_of_sent {now : Readings} {abandon : Nat → Bool}
    (h : sent? (r.modify now name mods abandon).1 = some u) :
    ∃ (q : Request) (t : Tracked) (ending : Ending) (tally : Tally), r.findTracked name = .ok t ∧
      u = q.update name t.entry.id ∧ q.stamp = (r.clock.tick now.issuing).stamp ∧
      t.applyRequest r.schema mods q.stamp abandon =
        .ok (ending, tally, t.afterRequest r.schema q) ∧
      validateAll r.schema q.modifications = .ok () ∧
      (r.tick now.issuing).persist now.storing (t.afterRequest r.schema q) =
        .ok (r.modify now name mods abandon).2 := by
  cases found : r.findTracked name with
  | error e =>
    simp only [modify, found, sent?_of_not_isAbandoned (isAbandoned_of_findTracked found)] at h
    cases h
  | ok t =>
    cases taken : t.applyRequest (r.tick now.issuing).schema mods (r.tick now.issuing).clock.stamp
        abandon with
    | error cause =>
      simp only [modify, found, taken] at h
      cases h
    | ok result =>
      obtain ⟨ending, tally, t'⟩ := result
      cases written : (r.tick now.issuing).persist now.storing t' with
      | error e =>
        have silent := sent?_of_not_isAbandoned (isAbandoned_of_persist written)
        cases ending with
        | completed => simp [modify, found, taken, written, silent] at h
        | abandoned =>
          simp only [modify, found, taken, written] at h
          split at h
          · cases h
          · simp [silent] at h
      | ok r' =>
        cases ending with
        | completed =>
          obtain ⟨valid, rfl⟩ := Tracked.of_applyRequest_eq_completed taken
          simp only [modify, found, taken, written] at h ⊢
          obtain rfl := Option.some.inj h
          exact ⟨⟨_, mods⟩, t, _, _, rfl, rfl, rfl, taken, valid, written⟩
        | abandoned =>
          obtain ⟨valid, rfl⟩ := Tracked.of_applyRequest_eq_abandoned taken
          simp only [modify, found, taken, written] at h ⊢
          split at h
          · cases h
          · next some =>
            rw [if_neg some]
            obtain rfl := Option.some.inj h
            exact ⟨⟨_, committedPrefix mods tally.total⟩, t, _, _, rfl, rfl, rfl, taken, valid,
              written⟩

theorem takes_of_sent {now : Readings} {abandon : Nat → Bool}
    (h : sent? (r.modify now name mods abandon).1 = some u) :
    ∃ q : Request, u = q.update name u.id ∧ q.stamp = (r.clock.tick now.issuing).stamp ∧
      (r.store.IsIndexed → Takes r u.id q (r.modify now name mods abandon).2) := by
  obtain ⟨q, t, -, -, found, rfl, stamp, -, valid, written⟩ := persist_of_sent h
  refine ⟨q, rfl, stamp, fun indexed => ?_⟩
  obtain ⟨e, found', read⟩ := of_findTracked_eq_ok found
  obtain ⟨id, stored⟩ := of_find_eq_ok found'
  have own : r.store.get? t.entry.id = some e := by
    rw [Tracked.entry_of_ofEntry read, indexed.keyed id e stored]
    exact stored
  exact ⟨now.storing, _, e, t, own, read, valid, written⟩

theorem takes_of_replay {tally : Tally} (payload : u.payload = .modify mods)
    (h : r.replay now u = (.ok (.applied tally), r')) : Takes r u.id ⟨u.stamp, mods⟩ r' := by
  simp only [replay, replayWitnessed, payload, replayModify] at h
  split at h
  · simp at h
  next outcome r'' replayed =>
  simp only [Prod.mk.injEq, Except.ok.injEq] at h
  obtain ⟨rfl, rfl⟩ := h
  split at replayed
  · cases replayed
  next e stored =>
  split at replayed
  · cases replayed
  next t read =>
  split at replayed
  · cases replayed
  next ending tally' t' taken =>
  obtain ⟨valid, rfl⟩ := Tracked.of_applyRequest_eq_ok taken
  cases written : (r.witness u.stamp).persist now (t.afterRequest r.schema ⟨u.stamp, mods⟩) with
  | error e =>
    rw [show (r.witness u.stamp).schema = r.schema from rfl, written] at replayed
    cases replayed
  | ok s =>
    rw [show (r.witness u.stamp).schema = r.schema from rfl, written] at replayed
    cases replayed
    exact ⟨now, _, e, t, stored, read, valid, written⟩

theorem Takes.valid (h : Takes r id q r') : validateAll r.schema q.modifications = .ok () := by
  obtain ⟨-, -, -, -, -, -, valid, -⟩ := h
  exact valid

theorem Holds.persist_of_takes (h : r.Holds id t) (takes : Takes r id q r') :
    ∃ now clock, ({ r with clock } : Replica).persist now (t.afterRequest r.schema q) = .ok r' := by
  obtain ⟨now, clock, e, t', stored, read, -, written⟩ := takes
  obtain ⟨rfl, rfl⟩ := h.eq_of_read stored read
  exact ⟨now, clock, written⟩

theorem Holds.of_takes (h : r.Holds id t) (unlimited : r.retention = none)
    (sound : t.history.IsSound) (hq : q.IsSound r.schema) (takes : Takes r id q r') :
    Alters id r r' ∧ ∃ t', r'.Holds id t' ∧ t'.Agrees (t.afterRequest r.schema q) := by
  obtain ⟨now, clock, written⟩ := h.persist_of_takes takes
  have own : (t.afterRequest r.schema q).entry.id = id :=
    (Tracked.id_foldl_step _ t).trans h.identified
  have after := Tracked.isSound_afterRequest sound hq
  refine ⟨alters_of_persist own after.ordered after.readable written, ?_⟩
  obtain ⟨-, t', held, agrees⟩ := holds_of_persist (r := { r with clock }) unlimited after.ordered
    after.readable written
  exact ⟨t', own ▸ held, agrees⟩

theorem Holds.replay_update (h : r.Holds id t)
    (valid : validateAll r.schema q.modifications = .ok ()) (now : UInt64)
    (name : DistinguishedName) :
    ∃ tally r', r.replay now (q.update name id) = (.ok (.applied tally), r') ∧
      Takes r id q r' := by
  have witnessed : (r.witness q.stamp).Holds id t := h.of_store_eq rfl
  obtain ⟨tally, applied⟩ := Tracked.applyRequest_eq valid t
  obtain ⟨r', written⟩ := witnessed.persist_eq_ok (u := t.afterRequest r.schema q)
    ((Tracked.id_foldl_step _ t).trans h.identified) (Tracked.name_foldl_step _ t) now
  have replayed : r.replay now (q.update name id) = (.ok (.applied tally), r') := by
    have applied : t.applyRequest (r.witness q.stamp).schema q.modifications q.stamp
        (fun _ => false) = _ := applied
    have stored : (r.witness q.stamp).store.get? id = some t.entry := h.stored
    simp only [replay, replayWitnessed, Request.update, replayModify, stored, h.read, applied,
      written, Except.map]
  exact ⟨tally, r', replayed, takes_of_replay rfl replayed⟩

/-- The first replica applies the updates one after the other and becomes the second. -/
inductive AppliesAll (now : UInt64) : Replica → List Update → Replica → Prop
  | nil (r : Replica) : AppliesAll now r [] r
  | cons {r r' r'' : Replica} {u : Update} {rest : List Update} {tally : Tally}
    (first : r.replay now u = (.ok (.applied tally), r')) (others : AppliesAll now r' rest r'') :
    AppliesAll now r (u :: rest) r''

theorem AppliesAll.append {us vs : List Update} (h : AppliesAll now r us r')
    (h' : AppliesAll now r' vs r'') : AppliesAll now r (us ++ vs) r'' := by
  induction h with
  | nil => exact h'
  | cons first _ ih => exact .cons first (ih h')

/-- A held entry takes the updates about sound requests one after the other. -/
theorem Holds.appliesAll {qs : List Request} (h : r.Holds id t) (unlimited : r.retention = none)
    (sound : t.history.IsSound) (each : ∀ q ∈ qs, q.IsSound r.schema) (now : UInt64)
    (name : DistinguishedName) :
    ∃ r' t', AppliesAll now r (qs.map (Request.update name id)) r' ∧ Alters id r r' ∧
      r'.Holds id t' ∧ t'.Agrees (qs.foldl (Tracked.afterRequest r.schema) t) := by
  induction qs generalizing r t with
  | nil => exact ⟨r, t, .nil r, .refl id r, h, ⟨rfl, rfl, fun _ _ => rfl, ⟨fun _ => rfl, rfl, rfl⟩⟩⟩
  | cons q rest ih =>
    have first := each q (.head _)
    obtain ⟨tally, r', replayed, takes⟩ := h.replay_update first.valid now name
    obtain ⟨alters, t', held, agrees⟩ := h.of_takes unlimited sound first takes
    have after := (Tracked.isSound_afterRequest sound first).of_agrees agrees.history
    obtain ⟨r'', t'', applies, alters', held', agrees'⟩ := ih held
      (alters.retention_eq.trans unlimited) after
      fun q hq => alters.schema_eq ▸ each q (.tail _ hq)
    rw [alters.schema_eq] at agrees'
    refine ⟨r'', t'', .cons replayed applies, alters.trans alters', held', agrees'.trans ?_⟩
    exact agrees.foldl_afterRequest fun q hq => (each q (.tail _ hq)).valid

end Replica

end DirectoryHistory
