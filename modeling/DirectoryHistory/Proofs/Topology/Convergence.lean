import DirectoryHistory.Proofs.Replica.Creation
import DirectoryHistory.Proofs.Topology

/-!
# Convergence of a topology

The clocks keep the stamps of updates apart and put them above the creation. So every replica holds
what the requests that it took make of the entry, and replicas which took the same updates hold the
same values.
-/

namespace DirectoryHistory.Topology

/-- What a replica with the updates `taken` knows of the entry. -/
structure Knows (schema : Schema) (creation : Update) (initial : Attribute → List Octets)
    (r : Replica) (taken : List Update) : Prop where
  created : creation ∈ taken
  follows : ∃ t, r.Holds creation.id t ∧
    t.Follows schema creation.stamp initial (taken.filterMap Update.request?)

/-- The update is the creation or tells of a valid request that is newer. -/
def IsSendable (schema : Schema) (creation u : Update) : Prop :=
  u = creation ∨ ∃ mods, u.payload = .modify mods ∧ u.id = creation.id ∧
    creation.stamp < u.stamp ∧ validateAll schema mods = .ok () ∧ ∀ m ∈ mods, m.attr.IsPlain

/-- The updates that were sent, next to the clocks of the replicas. -/
structure Traffic {ι : Type} (schema : Schema) (creation : Update) (clocks : ι → Clock)
    (sent : List Update) : Prop where
  apart : Function.Injective fun i => (clocks i).replica
  created : creation ∈ sent
  sendable : ∀ u ∈ sent, IsSendable schema creation u
  origins : ∀ u ∈ sent, ∃ i, (clocks i).replica = u.stamp.replica ∧ (clocks i).Covers u.stamp
  distinct : (sent.map (·.stamp)).Nodup

/-- One replica with the updates that it has taken, next to those that were sent. -/
structure Keeps (schema : Schema) (creation : Update) (initial : Attribute → List Octets)
    (sent : List Update) (r : Replica) (taken : List Update) : Prop where
  alike : r.schema = schema
  unlimited : r.retention = none
  sent : ∀ u ∈ taken, u ∈ sent
  covered : ∀ u ∈ taken, r.clock.Covers u.stamp
  knows : taken = [] ∨ Knows schema creation initial r taken

structure Invariant {ι : Type} (schema : Schema) (creation : Update)
    (initial : Attribute → List Octets) (T : Topology ι) : Prop where
  creates : ∃ parent attributes, creation.payload = .add parent attributes ∧
    initial = (Replica.newEntry creation.name creation.id attributes).values ∧
    ∀ a, a.isHistory = false → schema.isSingle a = true → (initial a).length ≤ 1
  traffic : Traffic schema creation (fun i => (T.replicas i).clock) T.sent
  each : ∀ i, Keeps schema creation initial T.sent (T.replicas i) (T.taken i)

section

variable {ι : Type} {schema : Schema} {creation : Update} {initial : Attribute → List Octets}
variable {clocks clocks' : ι → Clock} {sent sent' taken : List Update} {r r' : Replica}
variable {u : Update} {T : Topology ι}

theorem of_request?_eq_some {q : Request} (h : u.request? = some q) :
    u.payload = .modify q.modifications ∧ q.stamp = u.stamp := by
  simp only [Update.request?] at h
  split at h
  · next mods payload =>
    cases h
    exact ⟨payload, rfl⟩
  · cases h

theorem Traffic.advance (h : Traffic schema creation clocks sent)
    (moved : ∀ i, (clocks i).Advances (clocks' i)) : Traffic schema creation clocks' sent where
  apart := by
    intro i j hij
    simp only [(moved i).replica, (moved j).replica] at hij
    exact h.apart hij
  created := h.created
  sendable := h.sendable
  origins v hv := by
    obtain ⟨i, own, covers⟩ := h.origins v hv
    exact ⟨i, (moved i).replica.trans own, (moved i).covers _ covers⟩
  distinct := h.distinct

theorem Traffic.send (h : Traffic schema creation clocks sent)
    (sendable : IsSendable schema creation u)
    (origin : ∃ i, (clocks i).replica = u.stamp.replica ∧ (clocks i).Covers u.stamp)
    (new : ∀ v ∈ sent, v.stamp ≠ u.stamp) : Traffic schema creation clocks (sent ++ [u]) where
  apart := h.apart
  created := List.mem_append_left _ h.created
  sendable := List.forall_mem_append.mpr ⟨h.sendable, List.forall_mem_singleton.mpr sendable⟩
  origins := List.forall_mem_append.mpr ⟨h.origins, List.forall_mem_singleton.mpr origin⟩
  distinct := by
    rw [List.map_append, List.map_singleton, ← List.concat_eq_append]
    refine h.distinct.concat fun old => ?_
    obtain ⟨v, hv, stamps⟩ := List.mem_map.mp old
    exact new v hv stamps

theorem Traffic.eq_of_stamp_eq (h : Traffic schema creation clocks sent) {v : Update}
    (hu : u ∈ sent) (hv : v ∈ sent) (stamps : u.stamp = v.stamp) : u = v :=
  List.inj_on_of_nodup_map h.distinct hu hv stamps

theorem Traffic.nodup_requests (h : Traffic schema creation clocks sent) :
    ((sent.filterMap Update.request?).map (·.stamp)).Nodup := by
  have distinct := List.pairwise_map.mp h.distinct
  refine List.pairwise_map.mpr (distinct.filterMap _ fun u v different q hq q' hq' => ?_)
  rwa [(of_request?_eq_some hq).2, (of_request?_eq_some hq').2]

theorem Traffic.stamp_ne (h : Traffic schema creation clocks sent) {i : ι} {s : Stamp}
    (own : (clocks i).replica = s.replica) (above : ∀ t, (clocks i).Covers t → t < s) :
    ∀ v ∈ sent, v.stamp ≠ s := by
  intro v hv stamps
  obtain ⟨j, issuer, covers⟩ := h.origins v hv
  obtain rfl : j = i := h.apart (by simp only [issuer, stamps, own])
  exact lt_irrefl _ (stamps ▸ above _ covers)

theorem Keeps.grow (h : Keeps schema creation initial sent r taken)
    (grown : ∀ v ∈ sent, v ∈ sent') : Keeps schema creation initial sent' r taken where
  alike := h.alike
  unlimited := h.unlimited
  sent v hv := grown v (h.sent v hv)
  covered := h.covered
  knows := h.knows

/-- A replica takes an update, which moves its clock and may change its store. -/
theorem Keeps.take (h : Keeps schema creation initial sent r taken) {clock : Clock}
    (moved : r' = { r with clock, store := r'.store }) (advances : r.clock.Advances clock)
    (member : u ∈ sent) (seen : clock.Covers u.stamp)
    (knows : Knows schema creation initial r' (taken ++ [u])) :
    Keeps schema creation initial sent r' (taken ++ [u]) where
  alike := by
    rw [moved]
    exact h.alike
  unlimited := by
    rw [moved]
    exact h.unlimited
  sent := List.forall_mem_append.mpr ⟨h.sent, List.forall_mem_singleton.mpr member⟩
  covered := by
    rw [moved]
    exact List.forall_mem_append.mpr ⟨fun v hv => advances.covers _ (h.covered v hv),
      List.forall_mem_singleton.mpr seen⟩
  knows := .inr knows

theorem Keeps.eq_of_stamp_eq (h : Keeps schema creation initial sent r taken)
    (traffic : Traffic schema creation clocks sent) (member : u ∈ sent)
    {mods : List Modification} (payload : u.payload = .modify mods) :
    ∀ q ∈ taken.filterMap Update.request?, q.stamp = u.stamp → q = ⟨u.stamp, mods⟩ := by
  intro q hq stamps
  obtain ⟨v, hv, hvq⟩ := List.mem_filterMap.mp hq
  obtain ⟨modify, stamp⟩ := of_request?_eq_some hvq
  obtain rfl := traffic.eq_of_stamp_eq (h.sent v hv) member (stamp.symm.trans stamps)
  obtain ⟨qs, qmods⟩ := q
  rw [payload] at modify
  cases modify
  rw [← stamps]

theorem Keeps.stamp_ne (h : Keeps schema creation initial sent r taken) {s : Stamp}
    (above : ∀ t, r.clock.Covers t → t < s) :
    ∀ q ∈ taken.filterMap Update.request?, q.stamp ≠ s := by
  intro q hq stamps
  obtain ⟨v, hv, hvq⟩ := List.mem_filterMap.mp hq
  have lt := above _ (h.covered v hv)
  rw [← (of_request?_eq_some hvq).2, stamps] at lt
  exact lt_irrefl _ lt

theorem Knows.take {t : Tracked} (h : Knows schema creation initial r taken)
    (held : r'.Holds creation.id t) (follows : t.Follows schema creation.stamp initial
      (u.request?.toList ++ taken.filterMap Update.request?)) :
    Knows schema creation initial r' (taken ++ [u]) where
  created := List.mem_append_left _ h.created
  follows := by
    refine ⟨t, held, follows.congr fun q => ?_⟩
    cases hq : u.request? <;> simp [List.filterMap_append, hq, or_comm]

variable [DecidableEq ι]

/-- One replica takes an update while the others stay as they are. -/
theorem Invariant.take (h : T.Invariant schema creation initial) {i : ι} (clock : Clock)
    (moved : r = { T.replicas i with clock, store := r.store })
    (advances : (T.replicas i).clock.Advances clock) (grown : ∀ v ∈ T.sent, v ∈ sent)
    (traffic : ∀ clocks : ι → Clock, Traffic schema creation clocks T.sent → clocks i = clock →
      Traffic schema creation clocks sent)
    (member : u ∈ sent) (seen : clock.Covers u.stamp)
    (knows : Knows schema creation initial r (T.taken i ++ [u])) :
    Invariant schema creation initial
      ⟨Function.update T.replicas i r, sent, Function.update T.taken i (T.taken i ++ [u])⟩ where
  creates := h.creates
  traffic := by
    refine traffic _ (h.traffic.advance fun j => ?_) (by simp [congrArg Replica.clock moved])
    rcases eq_or_ne j i with rfl | hj
    · simp only [Function.update_self]
      rw [moved]
      exact advances
    · simp only [Function.update_of_ne hj]
      exact Clock.advances_refl _
  each j := by
    rcases eq_or_ne j i with rfl | hj
    · simp only [Function.update_self]
      exact ((h.each j).grow grown).take moved advances member seen knows
    · simp only [Function.update_of_ne hj]
      exact (h.each j).grow grown

/-- A request that may come is applied, and its update is sent. -/
theorem Invariant.request (h : T.Invariant schema creation initial) {i : ι} {now : Readings}
    {name : DistinguishedName} {mods : List Modification}
    (admits : T.Admits creation (.request i now name mods)) :
    (T.perform (.request i now name mods)).Invariant schema creation initial ∧
      (T.perform (.request i now name mods)).sent = T.sent ++
        [⟨((T.replicas i).clock.tick now.issuing).stamp, name, creation.id, .modify mods⟩] := by
  obtain ⟨created, ⟨e, stored, same⟩, valid, plain, going⟩ := admits
  have keeps := h.each i
  have knows := keeps.knows.resolve_left (List.ne_nil_of_mem created)
  obtain ⟨t, held, follows⟩ := knows.follows
  obtain rfl : e = t.entry := Option.some.inj (stored.symm.trans held.stored)
  have above : ∀ s, (T.replicas i).clock.Covers s → s < ((T.replicas i).clock.tick now.issuing).stamp :=
    fun s hs => hs.lt_stamp_tick going now.issuing
  have newer := above _ (keeps.covered _ created)
  rw [← keeps.alike] at follows
  obtain ⟨r', u, modified, moved, held', follows'⟩ := held.modify keeps.unlimited follows same
    valid plain now newer fun q hq stamps => absurd stamps (keeps.stamp_ne above q hq)
  rw [keeps.alike] at follows' valid
  have new := h.traffic.stamp_ne (Clock.replica_tick _ now.issuing).symm above
  simp only [perform, modified]
  refine ⟨h.take _ moved (Clock.advances_tick going now.issuing) (fun v => List.mem_append_left _) ?_
    (List.mem_append_right _ (.head _)) (Clock.covers_stamp _) (knows.take held' follows'), trivial⟩
  intro clocks traffic own
  refine traffic.send (.inr ⟨mods, rfl, rfl, newer, valid, plain⟩) ⟨i, ?_, ?_⟩ new
  · rw [own]
    rfl
  · rw [own]
    exact Clock.covers_stamp _

theorem Invariant.deliver (h : T.Invariant schema creation initial) {i : ι} {now : UInt64}
    {u : Update} (admits : T.Admits creation (.deliver i now u)) :
    (T.perform (.deliver i now u)).Invariant schema creation initial := by
  obtain ⟨sent, admits⟩ := admits
  have keeps := h.each i
  have step : ∀ r', ((T.replicas i).replay now u).2 = r' →
      r' = { T.replicas i with clock := (T.replicas i).clock.witness u.stamp, store := r'.store } →
      Knows schema creation initial r' (T.taken i ++ [u]) →
      (T.perform (.deliver i now u)).Invariant schema creation initial := by
    rintro r' rfl moved knows
    exact h.take _ moved (Clock.advances_witness _ _) (fun _ hv => hv) (fun _ traffic _ => traffic)
      sent (Clock.covers_witness _ _) knows
  obtain ⟨parent, attributes, payload, rfl, few⟩ := h.creates
  by_cases created : creation ∈ T.taken i
  · have knows := keeps.knows.resolve_left (List.ne_nil_of_mem created)
    obtain ⟨t, held, follows⟩ := knows.follows
    rcases h.traffic.sendable u sent with rfl | ⟨mods, modify, own, newer, valid, plain⟩
    · refine step _ (congrArg Prod.snd (held.replay_add rfl payload now)) rfl ?_
      refine knows.take (held.of_store_eq rfl) ?_
      simpa [Update.request?, payload] using follows
    · rw [← keeps.alike] at follows valid
      obtain ⟨r', tally, t', replayed, moved, held', follows'⟩ := held.replay_modify
        keeps.unlimited follows own modify valid plain now newer
        (keeps.eq_of_stamp_eq h.traffic sent modify)
      refine step r' (congrArg Prod.snd replayed) moved (knows.take held' ?_)
      simpa [Update.request?, modify, keeps.alike] using follows'
  · obtain ⟨rfl, tally, applied⟩ := admits.resolve_left created
    have first : T.taken i = [] := keeps.knows.resolve_right fun knows => created knows.created
    obtain ⟨name, leaf, create⟩ := Replica.of_replay_add_eq_applied payload applied
    have same := Replica.attributes_newEntry_congr leaf u.id u.id attributes
    have unlimited : ((T.replicas i).witness u.stamp).retention = none := keeps.unlimited
    obtain ⟨moved, t, held, agrees⟩ := Replica.holds_of_create unlimited create
    refine step _ rfl moved ⟨by simp, t, held, ?_⟩
    rw [← Entry.values_congr same] at few ⊢
    have follows := (Replica.follows_newEntry schema u.stamp few).of_agrees agrees
    simpa [first, Update.request?, payload] using follows

theorem Invariant.run (h : T.Invariant schema creation initial) {events : List (Event ι)}
    (admits : T.AdmitsAll creation events) :
    (T.run events).Invariant schema creation initial := by
  induction events generalizing T with
  | nil => exact h
  | cons event rest ih =>
    obtain ⟨first, rest⟩ := admits
    refine ih ?_ rest
    cases event with
    | request i now name mods => exact (h.request first).1
    | deliver i now u => exact h.deliver first

theorem Invariant.modifications_run (h : T.Invariant schema creation initial)
    {events : List (Event ι)} (admits : T.AdmitsAll creation events) :
    (T.run events).requests.map (·.modifications) =
      T.requests.map (·.modifications) ++ events.filterMap Event.modifications? := by
  induction events generalizing T with
  | nil => simp [Topology.run]
  | cons event rest ih =>
    obtain ⟨first, rest⟩ := admits
    rw [Topology.run, List.foldl_cons, ← Topology.run]
    cases event with
    | request i now name mods =>
      obtain ⟨after, sent⟩ := h.request first
      rw [ih after rest, requests, sent]
      simp [requests, Update.request?, Event.modifications?]
    | deliver i now u =>
      rw [ih (h.deliver first) rest, List.filterMap_cons_none rfl]
      rfl

variable {replicas : ι → Replica} {origin : ι} {now : Readings} {name : DistinguishedName}
variable {attributes : Table Attribute (List Octets)}

theorem knows_of_add {r₀ : Replica} (unlimited : r₀.retention = none)
    (created : r₀.add now name attributes = (.ok creation, r))
    (few : ∀ e, r.store.get? creation.id = some e → ∀ a, a.isHistory = false →
      schema.isSingle a = true → (e.values a).length ≤ 1) :
    (∀ a, a.isHistory = false → schema.isSingle a = true →
        ((Replica.newEntry creation.name creation.id attributes).values a).length ≤ 1) ∧
      Knows schema creation (Replica.newEntry creation.name creation.id attributes).values r
        [creation] := by
  obtain ⟨parent, update, create⟩ := Replica.of_add_eq_ok created
  have limits : (r₀.tick now.issuing).retention = none := unlimited
  obtain ⟨-, t, held, agrees⟩ := Replica.holds_of_create limits create
  have called : creation.name = name := by rw [update]
  rw [← called] at agrees
  have few' : ∀ a, a.isHistory = false → schema.isSingle a = true →
      ((Replica.newEntry creation.name creation.id attributes).values a).length ≤ 1 := by
    intro a user single
    rw [← agrees.values a user]
    exact few t.entry held.stored a user single
  have follows := (Replica.follows_newEntry schema creation.stamp few').of_agrees agrees
  have silent : creation.request? = none := by rw [update, Update.request?]
  exact ⟨few', by simp, t, held, by simpa [silent] using follows⟩

/-- The invariant holds once the entry was created. -/
theorem invariant_start (apart : Function.Injective fun i => (replicas i).clock.replica)
    (alike : ∀ i, (replicas i).schema = schema) (unlimited : ∀ i, (replicas i).retention = none)
    (created : (replicas origin).add now name attributes = (.ok creation, r))
    (few : ∀ e, r.store.get? creation.id = some e → ∀ a, a.isHistory = false →
      schema.isSingle a = true → (e.values a).length ≤ 1) :
    (start replicas origin creation r).Invariant schema creation
      (Replica.newEntry creation.name creation.id attributes).values := by
  obtain ⟨few', knows⟩ := knows_of_add (unlimited origin) created few
  obtain ⟨parent, update, create⟩ := Replica.of_add_eq_ok created
  have limits : ((replicas origin).tick now.issuing).retention = none := unlimited origin
  obtain ⟨moved, -⟩ := Replica.holds_of_create limits create
  have add : creation.payload = .add parent attributes := by rw [update]
  have issued : creation.stamp = r.clock.stamp := by
    rw [moved, update]
    rfl
  have own : ∀ j, (Function.update replicas origin r j).clock.replica =
      (replicas j).clock.replica := by
    intro j
    rcases eq_or_ne j origin with rfl | hj
    · rw [Function.update_self, moved]
      exact Clock.replica_tick _ _
    · rw [Function.update_of_ne hj]
  refine ⟨⟨parent, attributes, add, rfl, few'⟩, ?_, fun j => ?_⟩
  · refine ⟨fun j k hjk => ?_, .head _, List.forall_mem_singleton.mpr (.inl rfl),
      List.forall_mem_singleton.mpr ⟨origin, ?_, ?_⟩, List.nodup_singleton _⟩
    · simp only [start, own] at hjk
      exact apart hjk
    · simp [start, issued, Clock.stamp]
    · simpa [start, issued] using Clock.covers_stamp r.clock
  · rcases eq_or_ne j origin with rfl | hj
    · simp only [start, Function.update_self]
      refine ⟨?_, ?_, fun u hu => hu, List.forall_mem_singleton.mpr ?_, .inr knows⟩
      · rw [moved]
        exact alike j
      · rw [moved]
        exact unlimited j
      · rw [issued]
        exact Clock.covers_stamp _
    · simp only [start, Function.update_of_ne hj]
      exact ⟨alike j, unlimited j, List.forall_mem_nil _, List.forall_mem_nil _, .inl rfl⟩

/-- No request is refused, and replicas that took all updates hold the same values of every user
attribute. Of a multi-valued one these are what the requests leave when each of them is executed
once in the order of their stamps. -/
theorem mem_values_iff_of_taken (apart : Function.Injective fun i => (replicas i).clock.replica)
    (alike : ∀ i, (replicas i).schema = schema) (unlimited : ∀ i, (replicas i).retention = none)
    (created : (replicas origin).add now name attributes = (.ok creation, r))
    (few : ∀ e, r.store.get? creation.id = some e → ∀ a, a.isHistory = false →
      schema.isSingle a = true → (e.values a).length ≤ 1)
    {events : List (Event ι)}
    (admits : (start replicas origin creation r).AdmitsAll creation events)
    (reached : (start replicas origin creation r).run events = T)
    (all : ∀ i, ∀ u ∈ T.sent, u ∈ T.taken i) :
    T.requests.map (·.modifications) = events.filterMap Event.modifications? ∧
    ∀ i j, ∃ e f, (T.replicas i).store.get? creation.id = some e ∧
      (T.replicas j).store.get? creation.id = some f ∧
      ∀ a, a.isHistory = false → (∀ v, v ∈ e.values a ↔ v ∈ f.values a) ∧
        (schema.isSingle a = false → (e.values a).toFinset = Request.executeAll a T.requests
          ((Replica.newEntry name creation.id attributes).values a).toFinset) := by
  have first := invariant_start apart alike unlimited created few
  have h := first.run admits
  have made := first.modifications_run admits
  obtain ⟨parent, update, -⟩ := Replica.of_add_eq_ok created
  have called : creation.name = name := by rw [update]
  have silent : creation.request? = none := by rw [update, Update.request?]
  rw [reached] at h made
  rw [called] at h
  refine ⟨by simpa [requests, start, silent] using made, fun i j => ?_⟩
  have knows : ∀ k, Knows schema creation _ (T.replicas k) (T.taken k) := fun k =>
    (h.each k).knows.resolve_left (List.ne_nil_of_mem (all k creation h.traffic.created))
  have same : ∀ k q, q ∈ (T.taken k).filterMap Update.request? ↔ q ∈ T.requests := by
    intro k q
    have updates : ∀ u, u ∈ T.taken k ↔ u ∈ T.sent := fun u => ⟨(h.each k).sent u, all k u⟩
    simp only [requests, List.mem_filterMap, updates]
  obtain ⟨t, held, follows⟩ := (knows i).follows
  obtain ⟨u, held', follows'⟩ := (knows j).follows
  refine ⟨t.entry, u.entry, held.stored, held'.stored, fun a user => ⟨fun v => ?_, fun multi => ?_⟩⟩
  · have alike := follows'.congr fun q => (same j q).trans (same i q).symm
    exact (follows.slots a user).mem_held_iff (alike.slots a user) v
  · have slot := follows.slots a user
    rw [multi] at slot
    exact Request.toFinset_held_of_follows a slot h.traffic.nodup_requests (same i)

end

namespace TwoWriters

def name : DistinguishedName :=
  ⟨[⟨"uid", "a"⟩]⟩

def pair (i : Fin 2) : Replica :=
  .make (if i = 0 then 1 else 2) name .standard none .empty

def creation : Update :=
  ⟨⟨5, 0, 1⟩, name, .generate name ⟨5, 0, 1⟩, .add none .empty⟩

def creator : Replica :=
  ((pair 0).add 5 name .empty).2

def change (v : UInt8) : List Modification :=
  [⟨⟨"displayname", []⟩, .replace, [[v]]⟩]

/-- Both replicas change a single-valued attribute before they hear of each other, with wall clocks
that went back. -/
def events : List (Event (Fin 2)) :=
  [.request 0 4 name (change 1), .deliver 1 0 creation, .request 1 3 name (change 2),
    .deliver 0 9 ⟨⟨5, 1, 2⟩, name, creation.id, .modify (change 2)⟩,
    .deliver 1 9 ⟨⟨5, 1, 1⟩, name, creation.id, .modify (change 1)⟩]

end TwoWriters

open TwoWriters in
/-- Both replicas end up with the same value. -/
theorem mem_values_iff_of_taken_two_writers :
    ∃ e f, (((start pair 0 creation creator).run events).replicas 0).store.get? creation.id =
        some e ∧
      (((start pair 0 creation creator).run events).replicas 1).store.get? creation.id = some f ∧
      ∀ a, a.isHistory = false → ∀ v, v ∈ e.values a ↔ v ∈ f.values a := by
  have add : (pair 0).add 5 name .empty = (.ok creation, creator) := rfl
  have apart : Function.Injective fun i => (pair i).clock.replica := by
    rw [Function.Injective]
    decide
  have alike : ∀ i, (pair i).schema = .standard := fun _ => rfl
  have few : ∀ e, creator.store.get? creation.id = some e →
      ∀ a, a.isHistory = false → Schema.standard.isSingle a = true → (e.values a).length ≤ 1 := by
    intro e stored a user _
    obtain ⟨-, -, create⟩ := Replica.of_add_eq_ok add
    obtain ⟨-, t, held, agrees⟩ := Replica.holds_of_create rfl create
    obtain rfl : e = t.entry := Option.some.inj (stored.symm.trans held.stored)
    rw [agrees.values a user]
    change ((Table.lookup a [(⟨"uid", []⟩, [[97]])]).getD []).length ≤ 1
    simp only [Table.lookup]
    split <;> simp
  obtain ⟨admits, all⟩ : (start pair 0 creation creator).AdmitsAll creation events ∧
      ∀ i, ∀ u ∈ ((start pair 0 creation creator).run events).sent,
        u ∈ ((start pair 0 creation creator).run events).taken i := by
    decide +kernel
  obtain ⟨-, agree⟩ := mem_values_iff_of_taken apart alike (fun _ => rfl) add few admits rfl all
  obtain ⟨e, f, first, second, values⟩ := agree 0 1
  exact ⟨e, f, first, second, fun a user => (values a user).1⟩

end DirectoryHistory.Topology
