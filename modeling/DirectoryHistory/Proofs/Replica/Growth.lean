import DirectoryHistory.Proofs.Replica.Taking
import DirectoryHistory.Proofs.Topology

/-!
# Growing replicas

A replica grows when entries are created and modified and nothing is renamed, deleted, abandoned or
purged. Every entry of a replica that has grown from an empty one was made by its creation and the
requests to it since, in the order in which the replica took them, and no entry loses its parent.
-/

namespace DirectoryHistory

def Update.isCreation (u : Update) : Bool :=
  match u.payload with
  | .add .. => true
  | _ => false

namespace Replica

/-- The replica `r₀` has grown into another one by the updates listed, the newest first. A request that
was abandoned counts with what it has done, and what moves the clock alone goes by unnoticed. -/
inductive Grows (r₀ : Replica) : List Update → Replica → Prop
  | start : Grows r₀ [] r₀
  | wait {us : List Update} {r : Replica} (h : Grows r₀ us r) (clock : Clock) :
    Grows r₀ us { r with clock }
  | add {us : List Update} {r r' : Replica} {now : Readings} {name : DistinguishedName}
      {attributes : Table Attribute (List Octets)} {u : Update} (h : Grows r₀ us r)
      (done : r.add now name attributes = (.ok u, r')) : Grows r₀ (u :: us) r'
  | modify {us : List Update} {r : Replica} {now : Readings} {name : DistinguishedName}
      {mods : List Modification} {abandon : Nat → Bool} {u : Update} (h : Grows r₀ us r)
      (sent : sent? (r.modify now name mods abandon).1 = some u) :
    Grows r₀ (u :: us) (r.modify now name mods abandon).2
  | replay {us : List Update} {r r' : Replica} {now : UInt64} {mods : List Modification}
      {u : Update} {tally : Tally} (h : Grows r₀ us r) (payload : u.payload = .modify mods)
      (done : r.replay now u = (.ok (.applied tally), r')) : Grows r₀ (u :: us) r'

/-- The requests to one entry, the oldest first, among updates that are listed the other way. -/
def requestsTo (id : EntryId) (us : List Update) : List Request :=
  (us.reverse.filter (·.id = id)).filterMap Update.request?

/-- The entry was created by `c` and has taken the `later` requests to it since. -/
structure IsMade (schema : Schema) (id : EntryId) (c : Update)
    (attributes : Table Attribute (List Octets)) (later : List Update) (t : Tracked) : Prop where
  creation : ∃ parent, c = ⟨c.stamp, t.entry.name, id, .add parent attributes⟩
  agrees : t.Agrees ((requestsTo id later).foldl (Tracked.afterRequest schema)
    ⟨newEntry t.entry.name id attributes, .ofCreation c.stamp⟩)
  each : ∀ q ∈ requestsTo id later, q.IsSound schema

/-- Every entry was made by updates among `us`. -/
structure IsGrown (r₀ : Replica) (us : List Update) (r : Replica) : Prop where
  only : r = { r₀ with clock := r.clock, store := r.store }
  indexed : r.store.IsIndexed
  readable : r.IsReadable
  made : ∀ id e, r.store.get? id = some e → ∃ t, r.Holds id t ∧ ∃ later c earlier attributes,
    us = later ++ c :: earlier ∧ IsMade r.schema id c attributes later t

/-- The requests among the updates speak of plain attributes. -/
def ArePlain (us : List Update) : Prop :=
  ∀ u ∈ us, ∀ q ∈ u.request?, ∀ m ∈ q.modifications, m.attr.IsPlain

instance : DecidablePred ArePlain := fun us =>
  inferInstanceAs (Decidable (∀ u ∈ us, ∀ q ∈ u.request?, ∀ m ∈ q.modifications, m.attr.IsPlain))

variable {r₀ r r' : Replica} {us later : List Update} {id id' : EntryId} {t t' : Tracked}
variable {u c : Update} {q : Request} {schema : Schema} {name : DistinguishedName}
variable {attributes : Table Attribute (List Octets)} {now : Readings}

theorem requestsTo_cons (id : EntryId) (u : Update) (us : List Update) : requestsTo id (u :: us) =
    requestsTo id us ++ if u.id = id then u.request?.toList else [] := by
  by_cases own : u.id = id <;>
    cases hq : u.request? <;> simp [requestsTo, List.filter_append, own, hq]

theorem mem_requestsTo : q ∈ requestsTo id us ↔ ∃ u ∈ us, u.id = id ∧ u.request? = some q := by
  simp [requestsTo, and_assoc]

theorem IsMade.sound (h : IsMade schema id c attributes later t) : t.history.IsSound :=
  (Tracked.isSound_foldl_afterRequest (History.isSound_ofCreation c.stamp) h.each).of_agrees h.agrees.history

theorem IsMade.created_eq (h : IsMade schema id c attributes later t) :
    t.history.created = some c.stamp :=
  h.agrees.history.created.trans (Tracked.created_foldl_afterRequest _ _ _)

theorem IsMade.renamed_eq (h : IsMade schema id c attributes later t) : t.history.renamed = none :=
  h.agrees.history.renamed.trans (Tracked.renamed_foldl_afterRequest _ _ _)

theorem IsMade.take (h : IsMade schema id c attributes later t) (own : u.id = id)
    (hu : u.request? = some q) (hq : q.IsSound schema)
    (agrees : t'.Agrees (t.afterRequest schema q)) :
    IsMade schema id c attributes (u :: later) t' := by
  have requests : requestsTo id (u :: later) = requestsTo id later ++ [q] := by
    rw [requestsTo_cons, if_pos own, hu]
    rfl
  have name : t'.entry.name = t.entry.name := agrees.name.trans (Tracked.name_foldl_step _ t)
  refine ⟨name ▸ h.creation, ?_, ?_⟩
  · rw [requests, List.foldl_append, name]
    exact agrees.trans (h.agrees.afterRequest hq.valid)
  · rw [requests, List.forall_mem_append, List.forall_mem_singleton]
    exact ⟨h.each, hq⟩

theorem IsMade.skip (h : IsMade schema id c attributes later t) (other : u.id ≠ id) :
    IsMade schema id c attributes (u :: later) t := by
  have requests : requestsTo id (u :: later) = requestsTo id later := by
    rw [requestsTo_cons, if_neg other, List.append_nil]
  exact ⟨h.creation, requests ▸ h.agrees, requests ▸ h.each⟩

theorem Holds.of_alters (h : r.Holds id t) (alters : Alters id' r r') (other : id ≠ id')
    (indexed : r.store.IsIndexed) : r'.Holds id t := by
  have stored := (alters.others id other).trans h.stored
  exact ⟨h.identified, stored, (alters.indexed indexed).listed id _ stored, h.read⟩

theorem IsGrown.made_of_alters (h : IsGrown r₀ us r) (alters : Alters u.id r r') (other : id ≠ u.id)
    {e : Entry} (stored : r'.store.get? id = some e) : ∃ t, r'.Holds id t ∧
      ∃ later c earlier attributes, u :: us = later ++ c :: earlier ∧
        IsMade r'.schema id c attributes later t := by
  obtain ⟨t, held, later, c, earlier, attributes, rfl, made⟩ :=
    h.made id e ((alters.others id other).symm.trans stored)
  exact ⟨t, held.of_alters alters other h.indexed, u :: later, c, earlier, attributes, rfl,
    alters.schema_eq ▸ made.skip other.symm⟩

theorem IsGrown.only_of_alters (h : IsGrown r₀ us r) (alters : Alters id r r') :
    r' = { r₀ with clock := r'.clock, store := r'.store } := by
  rw [alters.only, h.only]

theorem IsGrown.take (h : IsGrown r₀ us r) (unlimited : r₀.retention = none)
    (hu : u.request? = some q) (plain : ∀ m ∈ q.modifications, m.attr.IsPlain)
    (takes : Takes r u.id q r') : IsGrown r₀ (u :: us) r' := by
  have stored : ∃ e, r.store.get? u.id = some e := by
    obtain ⟨-, -, e, -, stored, -⟩ := takes
    exact ⟨e, stored⟩
  obtain ⟨e, stored⟩ := stored
  have sound := Request.isSound_of_plain takes.valid plain
  obtain ⟨t, held, later, c, earlier, attributes, rfl, made⟩ := h.made u.id e stored
  have limits : r.retention = none := by
    rw [h.only]
    exact unlimited
  obtain ⟨alters, t', held', agrees⟩ := held.of_takes limits made.sound sound takes
  refine ⟨h.only_of_alters alters, alters.indexed h.indexed, alters.readable h.readable,
    fun id e stored => ?_⟩
  by_cases own : id = u.id
  · subst own
    exact ⟨t', held', u :: later, c, earlier, attributes, rfl,
      alters.schema_eq ▸ made.take rfl hu sound agrees⟩
  · exact h.made_of_alters alters own stored

theorem alters_of_add (h : r.add now name attributes = (.ok u, r')) : Alters u.id r r' := by
  obtain ⟨-, -, created⟩ := of_add_eq_ok h
  exact alters_of_persist (id_newEntry _ _ _) (History.isOrdered_ofCreation _)
    (History.isReadable_ofCreation _) created

theorem IsGrown.add (h : IsGrown r₀ us r) (unlimited : r₀.retention = none)
    (done : r.add now name attributes = (.ok u, r')) : IsGrown r₀ (u :: us) r' := by
  have alters := alters_of_add done
  obtain ⟨parent, update, created⟩ := of_add_eq_ok done
  refine ⟨h.only_of_alters alters, alters.indexed h.indexed, alters.readable h.readable,
    fun id e stored => ?_⟩
  by_cases own : id = u.id
  · subst own
    have limits : (r.tick now.issuing).retention = none := by
      rw [show (r.tick now.issuing).retention = r.retention from rfl, h.only]
      exact unlimited
    obtain ⟨-, t, held, agrees⟩ := holds_of_create limits created
    have called : t.entry.name = name := agrees.name.trans (name_newEntry _ _ _)
    have stamp : u.stamp = (r.clock.tick now.issuing).stamp := congrArg Update.stamp update
    refine ⟨t, held, [], u, us, attributes, rfl, ⟨parent, ?_⟩, ?_, nofun⟩
    · rw [called, stamp]
      exact update
    · rw [called]
      exact agrees
  · exact h.made_of_alters alters own stored

/-- A replica that has grown from an empty one holds entries that were made by the updates. -/
theorem Grows.isGrown (h : Grows r₀ us r) (empty : r₀.store = .empty)
    (unlimited : r₀.retention = none) (plain : ArePlain us) : IsGrown r₀ us r := by
  induction h with
  | start =>
    refine ⟨rfl, empty ▸ Store.isIndexed_empty, isReadable_of_empty empty, fun id e stored => ?_⟩
    rw [empty] at stored
    cases stored
  | wait h clock ih =>
    have grown := ih plain
    refine ⟨?_, grown.indexed, grown.readable, fun id e stored => ?_⟩
    · rw [grown.only]
    · obtain ⟨t, held, made⟩ := grown.made id e stored
      exact ⟨t, held.of_store_eq rfl, made⟩
  | add h done ih => exact (ih fun u hu => plain u (.tail _ hu)).add unlimited done
  | @modify us r now name mods abandon u h sent ih =>
    have grown := ih fun u hu => plain u (.tail _ hu)
    obtain ⟨q, update, -, takes⟩ := takes_of_sent sent
    have request : u.request? = some q := by
      rw [update]
      rfl
    exact grown.take unlimited request (plain u (.head _) _ request) (takes grown.indexed)
  | @replay us r r' now mods u tally h payload done ih =>
    have grown := ih fun u hu => plain u (.tail _ hu)
    have request : u.request? = some ⟨u.stamp, mods⟩ := by
      simp only [Update.request?, payload]
    exact grown.take unlimited request (plain u (.head _) _ request)
      (takes_of_replay payload done)

/-- Every entry is called like the base or lies below a stored one. -/
def IsRooted (r : Replica) : Prop :=
  ∀ id e, r.store.get? id = some e → e.name.same r.base = true ∨
    e.name.isBelow r.base = true ∧ ∃ id' p, r.store.get? id' = some p ∧
      p.name.folded = (e.name.parent?.getD .root).folded

/-- The creations are of entries with identifiers of their own, as they are unless two digests
coincide. -/
def CreateApart (us : List Update) : Prop :=
  ((us.filter (·.isCreation)).map (·.id)).Nodup

instance : DecidablePred CreateApart := fun _ =>
  inferInstanceAs (Decidable (List.Nodup _))

theorem CreateApart.tail (apart : CreateApart (u :: us)) : CreateApart us := by
  simp only [CreateApart, List.filter_cons] at apart
  split at apart
  · exact (List.nodup_cons.mp apart).2
  · exact apart

theorem IsGrown.fresh (h : IsGrown r₀ us r) (apart : CreateApart (u :: us))
    (creation : u.isCreation = true) : r.store.get? u.id = none := by
  by_contra stored
  obtain ⟨e, stored⟩ := Option.ne_none_iff_exists'.mp stored
  obtain ⟨t, -, later, c, earlier, attributes, rfl, made⟩ := h.made u.id e stored
  obtain ⟨parent, hc⟩ := made.creation
  simp only [CreateApart, List.filter_cons, creation, if_true, List.map_cons,
    List.nodup_cons] at apart
  refine apart.1 (List.mem_map.mpr ⟨c, List.mem_filter.mpr ⟨by simp, ?_⟩, ?_⟩)
  · rw [hc]
    rfl
  · rw [hc]

theorem IsRooted.of_kept (rooted : r.IsRooted) (base : r'.base = r.base)
    (kept : ∀ id e, r.store.get? id = some e →
      ∃ e', r'.store.get? id = some e' ∧ e'.name = e.name)
    (stored : ∀ id e', r'.store.get? id = some e' →
      (∃ e, r.store.get? id = some e ∧ e'.name = e.name) ∨ e'.name.same r.base = true ∨
        e'.name.isBelow r.base = true ∧ ∃ id' p, r.store.get? id' = some p ∧
          p.name.folded = (e'.name.parent?.getD .root).folded) : r'.IsRooted := by
  intro id e' he'
  have place : e'.name.same r.base = true ∨ e'.name.isBelow r.base = true ∧ ∃ id' p,
      r.store.get? id' = some p ∧ p.name.folded = (e'.name.parent?.getD .root).folded := by
    rcases stored id e' he' with ⟨e, he, name⟩ | place
    · rw [name]
      exact rooted id e he
    · exact place
  rw [base]
  rcases place with same | ⟨below, id', p, hp, named⟩
  · exact .inl same
  · obtain ⟨p', hp', name⟩ := kept id' p hp
    exact .inr ⟨below, id', p', hp', name ▸ named⟩

theorem IsGrown.isRooted_take (h : IsGrown r₀ us r) (unlimited : r₀.retention = none)
    (plain : ∀ m ∈ q.modifications, m.attr.IsPlain) (takes : Takes r id q r')
    (rooted : r.IsRooted) : r'.IsRooted := by
  have stored : ∃ e, r.store.get? id = some e := by
    obtain ⟨-, -, e, -, stored, -⟩ := takes
    exact ⟨e, stored⟩
  obtain ⟨e, stored⟩ := stored
  obtain ⟨t, held, later, c, earlier, attributes, -, made⟩ := h.made id e stored
  have limits : r.retention = none := by
    rw [h.only]
    exact unlimited
  obtain ⟨alters, t', held', agrees⟩ := held.of_takes limits made.sound
    (Request.isSound_of_plain takes.valid plain) takes
  have name : t'.entry.name = t.entry.name := agrees.name.trans (Tracked.name_foldl_step _ t)
  refine rooted.of_kept alters.base_eq (fun id' f hf => ?_) fun id' f hf => .inl ?_
  · by_cases own : id' = id
    · subst own
      obtain rfl : t.entry = f := Option.some.inj (held.stored.symm.trans hf)
      exact ⟨t'.entry, held'.stored, name⟩
    · exact ⟨f, (alters.others id' own).trans hf, rfl⟩
  · by_cases own : id' = id
    · subst own
      obtain rfl : t'.entry = f := Option.some.inj (held'.stored.symm.trans hf)
      exact ⟨t.entry, held.stored, name⟩
    · exact ⟨f, (alters.others id' own).symm.trans hf, rfl⟩

theorem IsGrown.isRooted_add (h : IsGrown r₀ us r) (unlimited : r₀.retention = none)
    (done : r.add now name attributes = (.ok u, r')) (fresh : r.store.get? u.id = none)
    (rooted : r.IsRooted) : r'.IsRooted := by
  have alters := alters_of_add done
  obtain ⟨-, -, created⟩ := of_add_eq_ok done
  obtain ⟨-, place⟩ := placed_of_add_eq_ok done
  have limits : (r.tick now.issuing).retention = none := by
    rw [show (r.tick now.issuing).retention = r.retention from rfl, h.only]
    exact unlimited
  obtain ⟨-, t, held, agrees⟩ := holds_of_create limits created
  have called : t.entry.name = name := agrees.name.trans (name_newEntry _ _ _)
  refine rooted.of_kept alters.base_eq (fun id f hf => ⟨f, ?_, rfl⟩) fun id f hf => ?_
  · rw [alters.others id, hf]
    rintro rfl
    rw [fresh] at hf
    cases hf
  · by_cases own : id = u.id
    · subst own
      obtain rfl : t.entry = f := Option.some.inj (held.stored.symm.trans hf)
      rw [called]
      refine .inr (place.imp_right fun ⟨below, p, found⟩ => ⟨below, ?_⟩)
      obtain ⟨stored, named⟩ := h.indexed.find?_eq_some_iff.mp found
      exact ⟨p.id, p, stored, named⟩
    · exact .inl ⟨f, (alters.others id own).symm.trans hf, rfl⟩

/-- No entry of a growing replica loses its parent. -/
theorem Grows.isRooted (h : Grows r₀ us r) (empty : r₀.store = .empty)
    (unlimited : r₀.retention = none) (plain : ArePlain us) (apart : CreateApart us) :
    r.IsRooted := by
  induction h with
  | start =>
    intro id e stored
    rw [empty] at stored
    cases stored
  | wait h clock ih => exact ih plain apart
  | @add us r r' now name attributes u h done ih =>
    have plain : ArePlain us := fun u hu => plain u (.tail _ hu)
    have grown := h.isGrown empty unlimited plain
    obtain ⟨parent, update, -⟩ := of_add_eq_ok done
    have creation : u.isCreation = true := by
      rw [update]
      rfl
    exact grown.isRooted_add unlimited done (grown.fresh apart creation) (ih plain apart.tail)
  | @modify us r now name mods abandon u h sent ih =>
    have grown := h.isGrown empty unlimited fun u hu => plain u (.tail _ hu)
    obtain ⟨q, update, -, takes⟩ := takes_of_sent sent
    have request : u.request? = some q := by
      rw [update]
      rfl
    exact grown.isRooted_take unlimited (plain u (.head _) _ request) (takes grown.indexed)
      (ih (fun u hu => plain u (.tail _ hu)) apart.tail)
  | @replay us r r' now mods u tally h payload done ih =>
    have grown := h.isGrown empty unlimited fun u hu => plain u (.tail _ hu)
    have request : u.request? = some ⟨u.stamp, mods⟩ := by
      simp only [Update.request?, payload]
    exact grown.isRooted_take unlimited (plain u (.head _) _ request)
      (takes_of_replay payload done) (ih (fun u hu => plain u (.tail _ hu)) apart.tail)

end Replica

end DirectoryHistory
