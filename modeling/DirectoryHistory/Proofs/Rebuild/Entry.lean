import DirectoryHistory.Proofs.Rebuild.Acceptance
import DirectoryHistory.Proofs.Rebuild.Anomalies

/-!
# Rebuilding one entry

The creation that is rebuilt carries the values of today under the stamp of the real one. The
requests that the history stands for are taken on top of them. That gives the timelines back, and
with them the values: what a timeline asserts is held by both entries, and a value without a mark
was there from the start and still is.
-/

namespace DirectoryHistory

/-- The entries have one identifier, one name up to case, the same values of user attributes and the
same history. -/
structure Entry.Mirrors (f e : Entry) : Prop where
  id : f.id = e.id
  name : f.name.same e.name = true
  values : ∀ a, a.isHistory = false → ∀ v, v ∈ f.values a ↔ v ∈ e.values a
  history : f.historyValues = e.historyValues

variable {schema : Schema} {a : Attribute} {h : History} {q : Request} {qs run : List Request}
variable {t u : Tracked} {c : Stamp}

namespace Rebuilt

theorem exists_stamp_eq (reflects : ∀ a, (h.timeline a).Reflects (qs.map (Request.edit a)))
    (hq : q ∈ requests h) : ∃ p ∈ qs, p.stamp = q.stamp := by
  obtain ⟨a, reset | ⟨m, hm, stamp⟩⟩ := stamp_of_mem_requests hq
  · obtain ⟨e, he, -, stamp⟩ := (reflects a).resets.1 _ reset
    obtain ⟨p, hp, rfl⟩ := List.mem_map.mp he
    exact ⟨p, hp, stamp⟩
  · have mark := (reflects a).ordered.mark?_eq_some_iff.mpr ⟨hm, rfl⟩
    obtain ⟨e, he, -, stamp'⟩ := (reflects a).exists_edit mark
    obtain ⟨p, hp, rfl⟩ := List.mem_map.mp he
    exact ⟨p, hp, stamp'.trans stamp⟩

theorem newer_of_reflects (reflects : ∀ a, (h.timeline a).Reflects (qs.map (Request.edit a)))
    (newer : ∀ q ∈ qs, c < q.stamp) : ∀ q ∈ requests h, c < q.stamp := by
  intro q hq
  obtain ⟨p, hp, stamp⟩ := exists_stamp_eq reflects hq
  exact stamp ▸ newer p hp

/-- An untouched entry gets the timelines of the history from its requests, in any order. -/
theorem timeline_foldl_afterRequest_eq (perm : run.Perm (requests h)) (ordered : h.IsOrdered)
    (fresh : u.history.IsFresh) (newer : ∀ q ∈ requests h, ∀ c ∈ u.history.created, c < q.stamp)
    (a : Attribute) :
    (run.foldl (Tracked.afterRequest schema) u).history.timeline a = h.timeline a := by
  rw [Tracked.timeline_foldl_afterRequest (fun q hq => newer q (perm.mem_iff.mp hq)), fresh.1 a]
  exact (covers_of_perm perm a).foldl_mergeEdit (ordered a)

/-- An untouched entry that has the values of `t`, and perhaps some that `t` started with, has the
values of `t` again after the requests that the history of `t` stands for. -/
theorem mem_values_foldl_afterRequest_iff {initial : List Octets}
    (perm : run.Perm (requests t.history)) (ordered : t.history.IsOrdered)
    (read : (t.slot a).ReadsBack (schema.isSingle a) initial)
    (few : schema.isSingle a = true → initial.length ≤ 1) (fresh : u.history.IsFresh)
    (newer : ∀ q ∈ requests t.history, ∀ c ∈ u.history.created, c < q.stamp)
    (whole : t.entry.values a ⊆ u.entry.values a)
    (only : ∀ v ∈ u.entry.values a, v ∈ t.entry.values a ∨ v ∈ initial) (v : Octets) :
    v ∈ (run.foldl (Tracked.afterRequest schema) u).entry.values a ↔ v ∈ t.entry.values a := by
  have untouched : (u.slot a).timeline = .empty := fresh.1 a
  have newer' : ∀ e ∈ run.map (Request.edit a), ∀ c ∈ u.history.created, c < e.stamp := by
    rw [List.forall_mem_map]
    exact fun q hq => newer q (perm.mem_iff.mp hq)
  have started := (Slot.started_start (schema.isSingle a) untouched).foldl_resolveEdit
    (untouched ▸ Timeline.ordered_empty) newer'
  rw [← Tracked.slot_foldl_afterRequest] at started
  exact started.mem_held_iff read (ordered a) few
    (timeline_foldl_afterRequest_eq perm ordered fresh newer a) whole only v

/-- The requests that a sound history stands for are sound, unless a reset is crowded. -/
theorem isSound_of_mem_requests (sound : h.IsSound) (uncrowded : IsUncrowded schema h)
    (hq : q ∈ requests h) : q.IsSound schema where
  valid := (validateAll_requests_iff sound.targeted).mpr uncrowded q hq
  slots p hp := by
    obtain ⟨m, hm, hp⟩ := List.mem_flatMap.mp hp
    obtain ⟨-, -, rfl⟩ := List.mem_map.mp hp
    rw [(mem_requests.mp hq).2, List.mem_map] at hm
    obtain ⟨part, hpart, rfl⟩ := hm
    have member := mem_modifications_of_mem (List.mem_filter.mp hpart).1
    refine sound.readable _ fun nothing => ?_
    rw [nothing] at member
    cases member

theorem anomaliesOf_eq_nil (sound : t.history.IsSound) (created : t.history.created.isSome = true)
    (faithful : ∀ a, a.isHistory = false → (t.slot a).IsFaithful (schema.isSingle a)) :
    anomaliesOf schema t.entry t.history = [] := by
  rw [List.eq_nil_iff_forall_not_mem]
  intro x hx
  obtain ⟨a, -, touched, contradicted⟩ := exists_of_mem_anomaliesOf sound.ordered created hx
  exact contradicted (faithful a (user_of_checkTarget (sound.targeted a touched)))

end Rebuilt

/-- The entry was created at `c` with the values `initial` and not renamed since, and its values can
be read back from its history. -/
structure Tracked.IsRebuildable (schema : Schema) (c : Stamp) (initial : Attribute → List Octets)
    (t : Tracked) : Prop where
  created : t.history.created = some c
  renamed : t.history.renamed = none
  sound : t.history.IsSound
  read : ∀ a, a.isHistory = false → (t.slot a).ReadsBack (schema.isSingle a) (initial a)
  few : ∀ a, a.isHistory = false → schema.isSingle a = true → (initial a).length ≤ 1
  leafed : ∀ leaf, t.entry.name.leaf? = some leaf → (Attribute.make leaf.attr).isHistory = false →
    Octets.ofText leaf.value ∈ initial (.make leaf.attr)
  newer : ∀ q ∈ Rebuilt.requests t.history, c < q.stamp
  uncrowded : Rebuilt.IsUncrowded schema t.history

variable {initial : Attribute → List Octets}

theorem Tracked.IsRebuildable.anomalies_eq_nil (h : t.IsRebuildable schema c initial)
    (parent : Option EntryId) :
    (Rebuilt.ofHistory schema t.entry parent t.history).anomalies = [] := by
  apply Rebuilt.anomaliesOf_eq_nil h.sound
  · rw [h.created]
    rfl
  · exact fun a user => (h.read a user).isFaithful (h.sound.ordered a)

/-- The new entry called `name` that a rebuilt creation makes: it has the values of today. -/
def Tracked.recreated (t : Tracked) (name : DistinguishedName) (c : Stamp) : Tracked :=
  ⟨Replica.newEntry name t.entry.id t.entry.userAttributes, .ofCreation c⟩

variable {name : DistinguishedName}

theorem Tracked.IsRebuildable.newer_recreated (h : t.IsRebuildable schema c initial) :
    ∀ q ∈ Rebuilt.requests t.history, ∀ s ∈ (t.recreated name c).history.created, s < q.stamp := by
  intro q hq s hs
  obtain rfl := Option.some.inj hs
  exact h.newer q hq

/-- The requests that are rebuilt give the new entry the history that they are rebuilt from. -/
theorem Tracked.IsRebuildable.agrees_foldl_afterRequest (h : t.IsRebuildable schema c initial)
    (perm : run.Perm (Rebuilt.requests t.history)) :
    (run.foldl (Tracked.afterRequest schema) (t.recreated name c)).history.Agrees t.history where
  timelines := Rebuilt.timeline_foldl_afterRequest_eq perm h.sound.ordered
    (History.isFresh_ofCreation c) h.newer_recreated
  created := (Tracked.created_foldl_afterRequest _ _ _).trans h.created.symm
  renamed := (Tracked.renamed_foldl_afterRequest _ _ _).trans h.renamed.symm

/-- The requests that are rebuilt give the new entry the values that it was made from. -/
theorem Tracked.IsRebuildable.mem_values_foldl_afterRequest_iff
    (h : t.IsRebuildable schema c initial) (perm : run.Perm (Rebuilt.requests t.history))
    (leafed : name.leaf? = t.entry.name.leaf?) (user : a.isHistory = false) (v : Octets) :
    v ∈ (run.foldl (Tracked.afterRequest schema) (t.recreated name c)).entry.values a ↔
      v ∈ t.entry.values a := by
  have started : ∀ w, w ∈ (t.recreated name c).entry.values a ↔ w ∈ t.entry.values a ∨
      ∃ leaf, name.leaf? = some leaf ∧ a = .make leaf.attr ∧ w = Octets.ofText leaf.value := by
    intro w
    rw [recreated, Replica.mem_values_newEntry user, Entry.mem_values_userAttributes user]
  refine Rebuilt.mem_values_foldl_afterRequest_iff perm h.sound.ordered (h.read a user) (h.few a user)
    (History.isFresh_ofCreation c) h.newer_recreated (fun w hw => (started w).mpr (.inl hw))
    (fun w hw => ?_) v
  rcases (started w).mp hw with hw | ⟨leaf, hl, rfl, rfl⟩
  · exact .inl hw
  · exact .inr (h.leafed leaf (leafed ▸ hl) user)

namespace Replica

def newEntry? (u : Update) : Option Entry :=
  match u.payload with
  | .add _ attributes => some (newEntry u.name u.id attributes)
  | _ => none

/-- New entries have one value at most of a single-valued attribute. -/
def AreModest (schema : Schema) (us : List Update) : Prop :=
  ∀ u ∈ us, ∀ e ∈ newEntry? u, ∀ p ∈ e.attributes.toList,
    schema.isSingle p.1 = true → p.2.length ≤ 1

instance (schema : Schema) : DecidablePred (AreModest schema) := fun us =>
  inferInstanceAs (Decidable (∀ u ∈ us, ∀ e ∈ newEntry? u, ∀ p ∈ e.attributes.toList,
    schema.isSingle p.1 = true → p.2.length ≤ 1))

theorem AreModest.length_values_le {us : List Update} (modest : AreModest schema us) {u : Update}
    (hu : u ∈ us) {e : Entry} (he : newEntry? u = some e) (single : schema.isSingle a = true) :
    (e.values a).length ≤ 1 := by
  rw [Entry.values]
  cases hv : e.attributes.get? a with
  | none => simp
  | some vs => exact modest u hu e he (a, vs) (Table.mem_toList_iff.mpr hv) single

/-- An entry that was created and modified can be rebuilt. -/
theorem IsMade.isRebuildable {id : EntryId} {u : Update} {later earlier : List Update}
    {attributes : Table Attribute (List Octets)} (made : IsMade schema id u attributes later t)
    (fair : AreFair (later ++ u :: earlier)) (once : AreOnce schema (later ++ u :: earlier))
    (modest : AreModest schema (later ++ u :: earlier)) :
    t.IsRebuildable schema u.stamp (newEntry t.entry.name id attributes).values := by
  have valid : ∀ q ∈ requestsTo id later, validateAll schema q.modifications = .ok () :=
    fun q hq => (made.each q hq).valid
  have distinct := fair.of_append.nodup_requestsTo id
  have few : ∀ a, schema.isSingle a = true →
      ((newEntry t.entry.name id attributes).values a).length ≤ 1 := by
    intro a single
    obtain ⟨parent, creation⟩ := made.creation
    refine modest.length_values_le (u := u) (by simp) ?_ single
    rw [creation]
    rfl
  have takes : Tracked.CanTake schema ⟨newEntry t.entry.name id attributes, .ofCreation u.stamp⟩
      (requestsTo id later) := by
    refine ⟨History.isFresh_ofCreation u.stamp, valid, distinct, fun q hq s hs => ?_⟩
    obtain rfl := Option.some.inj hs
    exact made.newer fair q hq
  constructor
  · exact made.created_eq
  · exact made.renamed_eq
  · exact made.sound
  · intro a user
    rw [made.agrees.slot user]
    exact (takes.follows (fun _ hq => hq) (few a)).readsBack
  · exact fun a _ => few a
  · intro leaf hl user
    exact (mem_values_newEntry user).mpr (.inr ⟨leaf, hl, rfl, rfl⟩)
  · exact Rebuilt.newer_of_reflects (made.reflects fair) (made.newer fair)
  · intro a s single reset
    refine (made.reflects fair a).length_resetValues_le reset valid (fun q hq => ?_) distinct single
    obtain ⟨v, hv, -, request⟩ := mem_requestsTo.mp hq
    exact once v (List.mem_append_left _ hv) q request

variable {r r' : Replica} {id : EntryId} {now : UInt64} {name : DistinguishedName}
variable {parent : Option EntryId}

theorem Holds.historyValues_eq (held : r.Holds id t) (readable : r.IsReadable) :
    t.entry.historyValues = t.history.encode := by
  obtain ⟨h, carries⟩ := readable id t.entry held.stored
  obtain ⟨g, read, agrees⟩ := carries.read
  obtain rfl : t.history = g := Except.ok.inj (held.ofEntry_eq.symm.trans read)
  rw [carries.written, agrees.encode_eq]

/-- The first replica applies the updates one after the other and becomes the second one, which holds
the entry as `t` tells. -/
structure Makes (now : UInt64) (id : EntryId) (r : Replica) (us : List Update) (r' : Replica)
    (t : Tracked) : Prop where
  applied : AppliesAll now r us r'
  alters : Alters id r r'
  sound : t.history.IsSound
  held : ∃ t', r'.Holds id t' ∧ t'.Agrees t

theorem exists_makes_of_creation {u : Update} {attributes : Table Attribute (List Octets)}
    (payload : u.payload = .add parent attributes) (fresh : r.store.get? u.id = none)
    (named : (r.witness u.stamp).addedName u.name parent = .ok name)
    (free : r.store.find? name = none) (indexed : r.store.IsIndexed)
    (unlimited : r.retention = none) (now : UInt64) :
    ∃ r', Makes now u.id r [u] r' ⟨newEntry name u.id attributes, .ofCreation u.stamp⟩ := by
  let new : Tracked := ⟨newEntry name u.id attributes, .ofCreation u.stamp⟩
  have unlisted : ∀ id, r.store.names.get? (new.store now r.retention).name.folded = some id →
      id = (new.store now r.retention).id := by
    intro id listed
    obtain ⟨e, stored, same⟩ := indexed.stored _ id listed
    have called : (new.store now r.retention).name = name := name_newEntry _ _ _
    exact absurd (same.trans (congrArg _ called)) (indexed.find?_eq_none_iff.mp free id e stored)
  obtain ⟨store, put⟩ := Store.put_eq_ok unlisted
  have created : (r.witness u.stamp).create now name u.id attributes u.stamp =
      .ok { r.witness u.stamp with store } := by
    have put : (r.witness u.stamp).store.put (new.store now (r.witness u.stamp).retention) =
      .ok store := put
    simp only [create, persist, new] at put ⊢
    rw [put]
  have replayed : r.replay now u =
      (.ok (.applied .zero), { r.witness u.stamp with store }) := by
    have fresh : (r.witness u.stamp).store.get? u.id = none := fresh
    have free : (r.witness u.stamp).store.find? name = none := free
    simp only [replay, replayWitnessed, payload, replayAdd, fresh, named, free, created,
      Option.isSome_none, Bool.false_eq_true, if_false, Except.map]
  obtain ⟨-, t, held, agrees⟩ :=
    holds_of_create (r := r.witness u.stamp) unlimited created
  refine ⟨_, .cons replayed (.nil _), ?_, History.isSound_ofCreation _, t, held, agrees⟩
  exact alters_of_persist (id_newEntry _ _ _) (History.isOrdered_ofCreation _)
    (History.isReadable_ofCreation _) created

theorem Makes.exists_take {us : List Update} (h : Makes now id r us r' t) (unlimited : r.retention = none)
    (each : ∀ q ∈ qs, q.IsSound r.schema) (name : DistinguishedName) :
    ∃ r'', Makes now id r (us ++ qs.map (Request.update name id)) r''
      (qs.foldl (Tracked.afterRequest r.schema) t) := by
  obtain ⟨t', held, agrees⟩ := h.held
  have schema : r'.schema = r.schema := h.alters.schema_eq
  obtain ⟨r'', t'', applied, alters, held', agrees'⟩ :=
    held.appliesAll (h.alters.retention_eq.trans unlimited) (h.sound.of_agrees agrees.history)
      (schema ▸ each) now name
  rw [schema] at agrees'
  exact ⟨r'', h.applied.append applied, h.alters.trans alters,
    Tracked.isSound_foldl_afterRequest h.sound each, t'', held',
    agrees'.trans (agrees.foldl_afterRequest fun q hq => (each q hq).valid)⟩

/-- Replaying what is rebuilt of an entry makes a copy of it, where there is room for one. -/
theorem Holds.appliesAll_rebuild (held : r.Holds id t) (readable : r.IsReadable)
    (rebuildable : t.IsRebuildable r.schema c initial) (alike : r'.schema = r.schema)
    (unlimited : r'.retention = none) (indexed : r'.store.IsIndexed) (readable' : r'.IsReadable)
    (fresh : r'.store.get? id = none)
    (named : (r'.witness c).addedName t.entry.name parent = .ok name)
    (same : name.same t.entry.name = true) (free : r'.store.find? name = none) (now : UInt64) :
    ∃ r'' t', AppliesAll now r' (Rebuilt.ofHistory r.schema t.entry parent t.history).updates r'' ∧
      Alters id r' r'' ∧ r''.Holds id t' ∧ t'.entry.Mirrors t.entry := by
  have own := held.identified
  subst own
  obtain ⟨run, perm, updates⟩ : ∃ run : List Request, run.Perm (Rebuilt.requests t.history) ∧
      (Rebuilt.ofHistory r.schema t.entry parent t.history).updates =
        Rebuilt.creationUpdate t.entry parent c ::
          run.map (Request.update t.entry.name t.entry.id) :=
    Rebuilt.exists_updates_eq rebuildable.created rebuildable.renamed rebuildable.newer
  have each : ∀ q ∈ run, q.IsSound r'.schema := by
    intro q hq
    rw [alike]
    exact Rebuilt.isSound_of_mem_requests rebuildable.sound rebuildable.uncrowded
      (perm.mem_iff.mp hq)
  obtain ⟨r₁, created⟩ := exists_makes_of_creation
    (u := Rebuilt.creationUpdate t.entry parent c) rfl fresh named free indexed unlimited now
  obtain ⟨r₂, taken⟩ := created.exists_take unlimited each t.entry.name
  obtain ⟨t₂, held₂, agrees⟩ := taken.held
  rw [alike] at agrees
  have history : t₂.history.Agrees t.history :=
    agrees.history.trans (rebuildable.agrees_foldl_afterRequest perm)
  refine ⟨r₂, t₂, updates ▸ taken.applied, taken.alters, held₂, held₂.identified, ?_, ?_, ?_⟩
  · rw [agrees.name, Tracked.name_foldl_afterRequest, name_newEntry]
    exact same
  · intro a user v
    rw [agrees.values a user]
    exact rebuildable.mem_values_foldl_afterRequest_iff perm (leaf?_of_addedName named) user v
  · have readable₂ := taken.alters.readable readable'
    rw [held₂.historyValues_eq readable₂, held.historyValues_eq readable, history.encode_eq]

end Replica

end DirectoryHistory
