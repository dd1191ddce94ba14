import DirectoryHistory.Proofs.Rebuild.Updates
import DirectoryHistory.Proofs.Replica.Growth

/-!
# Acceptance of rebuilt requests

A rebuilt request is rejected only if a single-valued attribute was last reset to several values at
once: a request that replaces its value and then adds another one leaves both in the history as one
reset. Requests that modify a single-valued attribute once at most do not.
-/

namespace DirectoryHistory

/-- The request modifies every single-valued attribute once at most. -/
def Request.IsOnce (schema : Schema) (q : Request) : Prop :=
  ((q.modifications.map (·.attr)).filter schema.isSingle).Nodup

instance (schema : Schema) : DecidablePred (Request.IsOnce schema) := fun _ =>
  inferInstanceAs (Decidable (List.Nodup _))

variable {schema : Schema} {q : Request} {a : Attribute} {v w : Octets}

theorem Request.IsOnce.length_le (once : q.IsOnce schema) (single : schema.isSingle a = true) :
    (q.modifications.filter (·.attr = a)).length ≤ 1 := by
  have few := List.nodup_iff_count_le_one.mp once a
  rw [List.count_filter single, List.count, List.countP_map, List.countP_eq_length_filter] at few
  refine le_of_eq_of_le (congrArg List.length (List.filter_congr fun m _ => ?_)) few
  rw [Function.comp_apply, Bool.beq_eq_decide_eq]

theorem Modification.eq_of_outcome_added {m : Modification} (valid : m.validate schema = .ok ())
    (single : schema.isSingle m.attr = true) {c d : Change} (hc : c ∈ m.changes)
    (hd : d ∈ m.changes) (hv : c.outcome v = some .added) (hw : d.outcome w = some .added) :
    v = w := by
  have few := fun gives => (validate_eq_ok_iff.mp valid).few gives single
  simp only [changes] at hc hd
  cases kind : m.kind with
  | add =>
    simp only [kind, List.mem_map] at hc hd
    obtain ⟨x, hx, rfl⟩ := hc
    obtain ⟨y, hy, rfl⟩ := hd
    obtain rfl : x = v := by simpa [Change.outcome] using hv
    obtain rfl : y = w := by simpa [Change.outcome] using hw
    exact Slot.eq_of_mem_of_length_le_one (few (by simp [kind])) hx hy
  | replace =>
    simp only [kind, List.mem_singleton] at hc hd
    subst hc hd
    have added : ∀ {x}, (Change.replace m.values).outcome x = some .added → x ∈ m.values := by
      intro x hx
      by_contra absent
      simp [Change.outcome, absent] at hx
    exact Slot.eq_of_mem_of_length_le_one (few (by simp [kind])) (added hv) (added hw)
  | delete =>
    simp only [kind] at hc
    split at hc
    · obtain rfl := List.mem_singleton.mp hc
      simp [Change.outcome] at hv
    · obtain ⟨x, -, rfl⟩ := List.mem_map.mp hc
      simp [Change.outcome] at hv

/-- A valid request that modifies a single-valued attribute once gives it one value at most. -/
theorem Request.eq_of_outcome_added (valid : validateAll schema q.modifications = .ok ())
    (once : q.IsOnce schema) (single : schema.isSingle a = true)
    (hv : (q.edit a).outcome v = some .added) (hw : (q.edit a).outcome w = some .added) :
    v = w := by
  obtain ⟨c, hc, added⟩ := Edit.exists_of_outcomeOf_eq_some hv
  obtain ⟨d, hd, added'⟩ := Edit.exists_of_outcomeOf_eq_some hw
  rw [changes_edit, List.mem_flatMap] at hc hd
  obtain ⟨m, hm, hc⟩ := hc
  obtain ⟨n, hn, hd⟩ := hd
  obtain rfl : m = n := Slot.eq_of_mem_of_length_le_one (once.length_le single) hm hn
  obtain ⟨member, own⟩ := List.mem_filter.mp hm
  obtain rfl : m.attr = a := by simpa using own
  exact Modification.eq_of_outcome_added (validateAll_eq_ok_iff.mp valid m member) single hc hd
    added added'

namespace Replica

/-- The updates have stamps of their own, and those about an entry are newer than its creation. -/
structure AreFair (us : List Update) : Prop where
  distinct : (us.map (·.stamp)).Nodup
  newer : ∀ c ∈ us, ∀ u ∈ us, u.id = c.id → c.isCreation = true → u.request?.isSome = true →
    c.stamp < u.stamp

instance : DecidablePred AreFair := fun us =>
  decidable_of_iff ((us.map (·.stamp)).Nodup ∧ ∀ c ∈ us, ∀ u ∈ us, u.id = c.id →
    c.isCreation = true → u.request?.isSome = true → c.stamp < u.stamp)
    ⟨fun h => ⟨h.1, h.2⟩, fun h => ⟨h.distinct, h.newer⟩⟩

/-- No request among the updates modifies a single-valued attribute twice. -/
def AreOnce (schema : Schema) (us : List Update) : Prop :=
  ∀ u ∈ us, ∀ q ∈ u.request?, q.IsOnce schema

instance (schema : Schema) : DecidablePred (AreOnce schema) := fun us =>
  inferInstanceAs (Decidable (∀ u ∈ us, ∀ q ∈ u.request?, q.IsOnce schema))

variable {r₀ r : Replica} {us later earlier : List Update} {id : EntryId} {t : Tracked} {c : Update}
variable {attributes : Table Attribute (List Octets)} {e : Entry}

theorem AreFair.nodup_requestsTo (fair : AreFair us) (id : EntryId) :
    ((requestsTo id us).map (·.stamp)).Nodup := by
  have distinct := List.pairwise_map.mp ((us.reverse_perm.map (·.stamp)).nodup_iff.mpr fair.distinct)
  refine List.pairwise_map.mpr ((distinct.filter _).filterMap _ fun u v different q hq q' hq' => ?_)
  rwa [Update.stamp_of_request? hq, Update.stamp_of_request? hq']

theorem AreFair.of_append (fair : AreFair (later ++ c :: earlier)) : AreFair later where
  distinct := by
    have distinct := fair.distinct
    rw [List.map_append] at distinct
    exact (List.nodup_append.mp distinct).1
  newer c hc u hu := fair.newer c (List.mem_append_left _ hc) u (List.mem_append_left _ hu)

theorem IsMade.newer (made : IsMade schema id c attributes later t)
    (fair : AreFair (later ++ c :: earlier)) : ∀ q ∈ requestsTo id later, c.stamp < q.stamp := by
  intro q hq
  obtain ⟨u, hu, own, request⟩ := mem_requestsTo.mp hq
  obtain ⟨parent, creation⟩ := made.creation
  rw [Update.stamp_of_request? request]
  refine fair.newer c (by simp) u (List.mem_append_left _ hu) ?_ ?_ ?_
  · rw [own, creation]
  · rw [creation]
    rfl
  · rw [request]
    rfl

theorem IsMade.reflects (made : IsMade schema id c attributes later t)
    (fair : AreFair (later ++ c :: earlier)) (a : Attribute) :
    (t.history.timeline a).Reflects ((requestsTo id later).map (Request.edit a)) := by
  have newer : ∀ q ∈ requestsTo id later, ∀ s ∈ (History.ofCreation c.stamp).created, s < q.stamp := by
    rintro q hq s hs
    obtain rfl := Option.some.inj hs
    exact made.newer fair q hq
  rw [made.agrees.history.timelines a, Tracked.timeline_foldl_afterRequest newer]
  apply Timeline.reflects_foldl_mergeEdit
  rw [List.map_map]
  exact fair.of_append.nodup_requestsTo id

end Replica

theorem Timeline.Ordered.nodup_resetValues {t : Timeline} (ht : t.Ordered) (s : Stamp) :
    (Rebuilt.resetValues t s).Nodup := by
  have ascending := List.Pairwise.filter (fun m => m.stamp == s && m.sense == .added) ht.ascending
  refine List.pairwise_map.mpr ((List.Pairwise.and_mem.mp ascending).imp fun {m n} h same => ?_)
  obtain ⟨hm, hn, before⟩ := h
  obtain rfl := ht.distinct m (List.mem_filter.mp hm).1 n (List.mem_filter.mp hn).1 same
  rw [Mark.not_precedes_self] at before
  cases before

/-- A reset by requests that modify a single-valued attribute once leaves it one value at most. -/
theorem Timeline.Reflects.length_resetValues_le {t : Timeline} {qs : List Request} {s : Stamp}
    (h : t.Reflects (qs.map (Request.edit a))) (reset : t.lastReset = some s)
    (valid : ∀ q ∈ qs, validateAll schema q.modifications = .ok ())
    (once : ∀ q ∈ qs, q.IsOnce schema) (distinct : (qs.map (·.stamp)).Nodup)
    (single : schema.isSingle a = true) : (Rebuilt.resetValues t s).length ≤ 1 := by
  have made : ∀ {v}, v ∈ Rebuilt.resetValues t s →
      ∃ q ∈ qs, q.stamp = s ∧ (q.edit a).outcome v = some .added := by
    intro v hv
    have mark := h.ordered.mark?_eq_some_iff.mpr ⟨Rebuilt.mem_resetValues.mp hv, rfl⟩
    obtain ⟨e, he, named, stamp⟩ := h.exists_edit mark
    have counts : t.overrides s = false := by
      rw [Bool.eq_false_iff, Ne, Timeline.overrides_iff]
      rintro ⟨r, hr, newer⟩
      obtain rfl := Option.some.inj (reset.symm.trans hr)
      exact lt_irrefl _ newer
    have outcome := h.outcomes v _ mark e he stamp named (.inl counts)
    obtain ⟨q, hq, rfl⟩ := List.mem_map.mp he
    exact ⟨q, hq, stamp, outcome⟩
  by_contra many
  obtain ⟨v, w, rest, values⟩ : ∃ v w rest, Rebuilt.resetValues t s = v :: w :: rest := by
    match hl : Rebuilt.resetValues t s with
    | [] | [_] => simp [hl] at many
    | v :: w :: rest => exact ⟨v, w, rest, rfl⟩
  obtain ⟨q, hq, stamp, added⟩ := made (v := v) (by simp [values])
  obtain ⟨q', hq', stamp', added'⟩ := made (v := w) (by simp [values])
  obtain rfl := Request.eq_of_stamp_eq distinct hq hq' (stamp.trans stamp'.symm)
  have nodup := h.ordered.nodup_resetValues s
  rw [values, Request.eq_of_outcome_added (valid q hq) (once q hq) single added added'] at nodup
  simp at nodup

namespace Replica

variable {r₀ r : Replica} {us : List Update} {id : EntryId} {t : Tracked} {e : Entry}

theorem persist_ne_rejected (r : Replica) (now : UInt64) (t : Tracked) (cause : Rejection) :
    r.persist now t ≠ .error (.rejected cause) := by
  simp only [persist]
  split <;> simp

theorem replay_update_ne_rejected (valid : validateAll r.schema q.modifications = .ok ())
    (now : UInt64) (name : DistinguishedName) (id : EntryId) (cause : Rejection) :
    (r.replay now (q.update name id)).1 ≠ .error (.rejected cause) := by
  simp only [replay, replayWitnessed, Request.update, replayModify]
  cases stored : (r.witness q.stamp).store.get? id with
  | none => simp
  | some e =>
    cases read : Tracked.ofEntry e with
    | error cause => simp [read]
    | ok t =>
      obtain ⟨tally, applied⟩ := Tracked.applyRequest_eq valid t
      have applied : t.applyRequest (r.witness q.stamp).schema q.modifications q.stamp
        (fun _ => false) = _ := applied
      have written := (r.witness q.stamp).persist_ne_rejected now (t.afterRequest r.schema q) cause
      simp only [read, applied]
      cases done : (r.witness q.stamp).persist now (t.afterRequest r.schema q) with
      | error e =>
        rw [done] at written
        simpa [Except.map] using written
      | ok s => simp [Except.map]

theorem Holds.replay_update_eq_rejected {cause : Rejection} (h : r.Holds id t)
    (invalid : validateAll r.schema q.modifications = .error cause) (now : UInt64)
    (name : DistinguishedName) :
    (r.replay now (q.update name id)).1 = .error (.rejected cause) := by
  have stored : (r.witness q.stamp).store.get? id = some t.entry := h.stored
  have rejected : t.applyRequest (r.witness q.stamp).schema q.modifications q.stamp
      (fun _ => false) = .error cause := by
    rw [Tracked.applyRequest, show (r.witness q.stamp).schema = r.schema from rfl, invalid]
  simp only [replay, replayWitnessed, Request.update, replayModify, stored, h.read, rejected]

/-- No replica with the given schema rejects a modify request among the updates. -/
def AreAcceptable (schema : Schema) (us : List Update) : Prop :=
  ∀ u ∈ us, ∀ mods, u.payload = .modify mods → ∀ r : Replica, r.schema = schema →
    ∀ now cause, (r.replay now u).1 ≠ .error (.rejected cause)

/-- What is rebuilt of a held entry is acceptable unless a reset is crowded. -/
theorem Holds.areAcceptable_iff (held : r.Holds id t) (sound : t.history.IsSound)
    (parent : Option EntryId) :
    AreAcceptable r.schema (Rebuilt.ofHistory r.schema t.entry parent t.history).updates ↔
      Rebuilt.IsUncrowded r.schema t.history := by
  rw [← Rebuilt.validateAll_requests_iff sound.targeted]
  constructor
  · intro acceptable q hq
    cases checked : validateAll r.schema q.modifications with
    | ok => rfl
    | error cause =>
      have rebuilt : q.update t.entry.name t.entry.id ∈
          (Rebuilt.ofHistory r.schema t.entry parent t.history).updates :=
        Rebuilt.mem_updates.mpr (.inr (.inl ⟨q, hq, rfl⟩))
      have rejected := held.replay_update_eq_rejected checked 0 t.entry.name
      rw [← held.identified] at rejected
      exact absurd rejected (acceptable _ rebuilt q.modifications rfl r rfl 0 cause)
  · intro valid u hu mods payload r' alike now cause
    rcases Rebuilt.mem_updates.mp hu with ⟨c, -, rfl⟩ | ⟨q, hq, rfl⟩ | ⟨s, leaf, -, -, rfl⟩
    · cases payload
    · exact replay_update_ne_rejected (alike ▸ valid q hq) now _ _ cause
    · cases payload

/-- What is rebuilt of an entry that was created and modified is acceptable if and only if no
single-valued attribute was last reset to several values at once, and so it is if no request modified
a single-valued attribute twice. -/
theorem areAcceptable_rebuild (grows : Grows r₀ us r) (empty : r₀.store = .empty)
    (unlimited : r₀.retention = none) (plain : ArePlain us) (stored : r.store.get? id = some e) :
    ∃ h rebuilt, History.ofEntry e = .ok h ∧ r.rebuild e.name = .ok rebuilt ∧
      (AreAcceptable r.schema rebuilt.updates ↔ Rebuilt.IsUncrowded r.schema h) ∧
      (AreFair us → AreOnce r.schema us → AreAcceptable r.schema rebuilt.updates) := by
  obtain ⟨t, held, later, c, earlier, attributes, rfl, made⟩ :=
    (grows.isGrown empty unlimited plain).made id e stored
  obtain rfl : t.entry = e := Option.some.inj (held.stored.symm.trans stored)
  have acceptable := held.areAcceptable_iff made.sound (r.storedParent? t.entry.name)
  refine ⟨t.history, _, held.ofEntry_eq, held.rebuild_eq, acceptable, fun fair once => ?_⟩
  refine acceptable.mpr fun a s single reset => ?_
  refine (made.reflects fair a).length_resetValues_le reset (fun q hq => (made.each q hq).valid)
    (fun q hq => ?_) (fair.of_append.nodup_requestsTo id) single
  obtain ⟨u, hu, -, request⟩ := mem_requestsTo.mp hq
  exact once u (List.mem_append_left _ hu) q request

namespace Staff

def name : DistinguishedName :=
  ⟨[⟨"o", "test"⟩]⟩

/-- The digest of the name and the stamp of the creation. -/
def rootId : EntryId :=
  ⟨[112, 10, 107, 182, 5, 114, 150, 238, 94, 145, 51, 165, 174, 96, 71, 2, 123, 7, 58, 71, 33, 122,
    1, 56, 86, 53, 218, 82, 60, 77, 210, 6], rfl⟩

def creation : Update :=
  ⟨⟨10, 0, 1⟩, name, rootId, .add none .empty⟩

def empty : Replica :=
  make 1 name ⟨["uid"]⟩ none .empty

def created : Replica :=
  ((empty.tick 10).create 10 name rootId .empty creation.stamp).toOption.getD empty

theorem add_eq : empty.add 10 name .empty = (.ok creation, created) := by
  decide +kernel

def change (mods : List Modification) : Update :=
  ⟨⟨20, 0, 1⟩, name, rootId, .modify mods⟩

def changed (mods : List Modification) : Replica :=
  (created.modify 20 name mods fun _ => false).2

/-- A request that replaces the value of one attribute and adds one to another. -/
def once : List Modification :=
  [⟨⟨"uid", []⟩, .replace, [[1]]⟩, ⟨⟨"mail", []⟩, .add, [[2]]⟩]

/-- A request that replaces the value of a single-valued attribute and adds another one. -/
def twice : List Modification :=
  [⟨⟨"uid", []⟩, .replace, [[1]]⟩, ⟨⟨"uid", []⟩, .add, [[2]]⟩]

end Staff

open Staff in
/-- The request to two attributes is rebuilt as one that is acceptable. -/
theorem areAcceptable_rebuild_once : ∃ e rebuilt,
    (changed once).store.get? rootId = some e ∧ (changed once).rebuild e.name = .ok rebuilt ∧
      AreAcceptable (changed once).schema rebuilt.updates := by
  obtain ⟨done, held, each⟩ :
      (created.modify 20 name once fun _ => false).1 = .ok (change once) ∧
      ((changed once).store.get? rootId).isSome = true ∧
      AreOnce (changed once).schema [change once, creation] := by
    decide +kernel
  obtain ⟨e, stored⟩ := Option.isSome_iff_exists.mp held
  have grows : Grows empty [change once, creation] (changed once) :=
    (Grows.start.add add_eq).modify (congrArg sent? done)
  obtain ⟨h, rebuilt, -, rebuild, -, acceptable⟩ :=
    areAcceptable_rebuild grows rfl rfl (by decide) stored
  exact ⟨e, rebuilt, stored, rebuild, acceptable (by decide) each⟩

open Staff in
/-- Both values of the single-valued attribute are rebuilt as one replacement, which is rejected. -/
theorem areAcceptable_rebuild_twice : ¬∀ (r₀ r : Replica) (us : List Update) (id : EntryId)
    (e : Entry), Grows r₀ us r → r₀.store = .empty → r₀.retention = none → ArePlain us →
    AreFair us → r.store.get? id = some e →
    ∃ rebuilt, r.rebuild e.name = .ok rebuilt ∧ AreAcceptable r.schema rebuilt.updates := by
  intro accepts
  let merged := change [⟨⟨"uid", []⟩, .replace, [[1], [2]]⟩]
  obtain ⟨done, held, crowded, rejected⟩ :
      (created.modify 20 name twice fun _ => false).1 = .ok (change twice) ∧
      ((changed twice).store.get? rootId).isSome = true ∧
      (((changed twice).store.get? rootId).bind fun e =>
        ((changed twice).rebuild e.name).toOption.map fun b => decide (merged ∈ b.updates)) =
          some true ∧
      ((changed twice).replay 0 merged).1 = .error (.rejected ⟨⟨"uid", []⟩, .manyValues⟩) := by
    decide +kernel
  obtain ⟨e, stored⟩ := Option.isSome_iff_exists.mp held
  have grows : Grows empty [change twice, creation] (changed twice) :=
    (Grows.start.add add_eq).modify (congrArg sent? done)
  obtain ⟨rebuilt, rebuild, acceptable⟩ :=
    accepts _ _ _ _ e grows rfl rfl (by decide) (by decide) stored
  rw [stored, Option.bind_some, rebuild] at crowded
  have member : merged ∈ rebuilt.updates := by simpa [Except.toOption] using crowded
  exact acceptable merged member _ rfl (changed twice) rfl 0 _ rejected

end Replica

end DirectoryHistory
