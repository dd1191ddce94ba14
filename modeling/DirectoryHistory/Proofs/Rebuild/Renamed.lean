import DirectoryHistory.Proofs.Rebuild.Renaming
import DirectoryHistory.Proofs.Rebuild.Tree
import DirectoryHistory.Proofs.Replica.Course

/-!
# Rebuilding an entry that was renamed

What is rebuilt of an entry that was renamed once is applied by every replica that has room for it,
and makes an entry of the same name. It has the same values of an attribute unless the rename stands
against what the history says of them, and such an attribute has an anomaly if it is multi-valued.
-/

namespace DirectoryHistory.Replica

variable {r r' r'' : Replica} {p : Renaming} {e : Entry} {now : Readings} {id : EntryId}
variable {t : Tracked} {s : Stamp} {u : Update} {qs : List Request} {name : DistinguishedName}

/-- The second replica became of the first one. It holds the entry as `t` tells, and its clock runs
ahead of `s`. -/
structure Keeps (r r' : Replica) (id : EntryId) (t : Tracked) (s : Stamp) : Prop where
  only : r' = { r with clock := r'.clock, store := r'.store }
  indexed : r'.store.IsIndexed
  held : ∃ u, r'.Holds id u ∧ u.Agrees t
  sound : t.history.IsSound
  covers : r'.clock.Covers s

theorem Keeps.schema_eq (h : r.Keeps r' id t s) : r'.schema = r.schema := by
  rw [h.only]

theorem Keeps.retention_eq (h : r.Keeps r' id t s) : r'.retention = r.retention := by
  rw [h.only]

theorem keeps_of_add {attributes : Table Attribute (List Octets)} (indexed : r.store.IsIndexed)
    (unlimited : r.retention = none) (done : r.add now name attributes = (.ok u, r')) :
    r.Keeps r' u.id ⟨newEntry name u.id attributes, .ofCreation u.stamp⟩ u.stamp := by
  obtain ⟨parent, update, created⟩ := of_add_eq_ok done
  obtain ⟨-, held⟩ := holds_of_create (r := r.tick now.issuing) unlimited created
  have alters : Alters u.id r r' := alters_of_persist (t := ⟨newEntry name u.id attributes, _⟩)
    (id_newEntry _ _ _) (History.isOrdered_ofCreation _) (History.isReadable_ofCreation _) created
  refine ⟨alters.only, alters.indexed indexed, held, History.isSound_ofCreation _, ?_⟩
  have clock : r'.clock = r.clock.tick now.issuing := clock_persist created
  rw [clock, update]
  exact Clock.covers_stamp _

/-- The requests of a course are sound, and their stamps lie between what was covered before and what
is covered afterwards. -/
theorem Keeps.course (h : r.Keeps r' id t s) (unlimited : r.retention = none)
    (course : Course id r' qs r'') (plain : ∀ q ∈ qs, ∀ m ∈ q.modifications, m.attr.IsPlain) :
    r.Keeps r'' id (qs.foldl (Tracked.afterRequest r.schema) t) s ∧
      (∀ q ∈ qs, q.IsSound r.schema) ∧ (∀ q ∈ qs, s < q.stamp ∧ r''.clock.Covers q.stamp) ∧
      qs.Pairwise (·.stamp < ·.stamp) := by
  obtain ⟨t', held, agrees⟩ := h.held
  obtain ⟨covered, each, ascending⟩ := course.covers h.covers
  obtain ⟨only, indexed, valid, t'', held', agrees'⟩ := course.holds held h.indexed
    (h.retention_eq.trans unlimited) (h.sound.of_agrees agrees.history) plain
  rw [h.schema_eq] at valid agrees'
  refine ⟨⟨?_, indexed, ⟨t'', held', ?_⟩, ?_, covered⟩, valid, each, ascending⟩
  · rw [only, h.only]
  · exact agrees'.trans (agrees.foldl_afterRequest fun q hq => (valid q hq).valid)
  · exact Tracked.isSound_foldl_afterRequest h.sound valid

theorem Keeps.rename {leaf : RelativeName} {deleteOld : Bool} {superior : Option DistinguishedName}
    (h : r.Keeps r' id t s) (unlimited : r.retention = none) (going : ¬r'.clock.IsExhausted)
    (done : r'.rename now name leaf deleteOld superior = (.ok u, r'')) (own : u.id = id) :
    (∀ s, r'.clock.Covers s → s < u.stamp) ∧ ∃ target, target.leaf? = some leaf ∧
      r.Keeps r'' id (t.rename target leaf deleteOld u.stamp) u.stamp := by
  obtain ⟨t', held, agrees⟩ := h.held
  obtain ⟨stamp, alters, target, leafed, t'', held', agrees'⟩ := held.of_rename h.indexed
    (h.retention_eq.trans unlimited) (h.sound.of_agrees agrees.history) done own
  refine ⟨fun s covered => ?_, target, leafed, ?_, alters.indexed h.indexed, ⟨t'', held', ?_⟩,
    h.sound.rename u.stamp, ?_⟩
  · rw [stamp]
    exact covered.lt_stamp_tick going now.issuing
  · rw [alters.only, h.only]
  · exact agrees'.trans (agrees.rename target leaf deleteOld u.stamp)
  · rw [clock_of_rename_eq_ok done, stamp]
    exact Clock.covers_stamp _

/-- The second replica is the first one after it created an entry, took requests to it, renamed it and
took more requests; whatever else it did left the entry alone. -/
inductive RenamedOnce (r : Replica) : Renaming → Replica → Prop
  | intro {r₁ r₂ r₃ r₄ : Replica} {now now' : Readings} {name name' : DistinguishedName}
      {attributes : Table Attribute (List Octets)} {u v : Update} {before after : List Request}
      {leaf : RelativeName} {deleteOld : Bool} {superior : Option DistinguishedName}
      (created : r.add now name attributes = (.ok u, r₁)) (first : Course u.id r₁ before r₂)
      (going : ¬r₂.clock.IsExhausted)
      (renamed : r₂.rename now' name' leaf deleteOld superior = (.ok v, r₃)) (own : v.id = u.id)
      (second : Course u.id r₃ after r₄) :
    RenamedOnce r ⟨newEntry name u.id attributes, before, leaf, deleteOld, after⟩ r₄

theorem RenamedOnce.exists_keeps (h : r.RenamedOnce p r') (indexed : r.store.IsIndexed)
    (unlimited : r.retention = none)
    (plain : ∀ q ∈ p.requests, ∀ m ∈ q.modifications, m.attr.IsPlain) : ∃ c s name,
      p.IsTimely c s ∧ name.leaf? = some p.leaf ∧ (∀ q ∈ p.requests, q.IsSound r.schema) ∧
      r.Keeps r' p.entry.id (p.outcome r.schema c s name) s := by
  cases h with
  | @intro r₁ r₂ r₃ _ now now' name name' attributes u v before after leaf deleteOld superior
      created first going renamed own second =>
    obtain ⟨plain, plain'⟩ := List.forall_mem_append.mp plain
    obtain ⟨keeps, valid, stamps, ascending⟩ :=
      (keeps_of_add indexed unlimited created).course unlimited first plain
    obtain ⟨newer, target, leafed, keeps'⟩ := keeps.rename unlimited going renamed own
    obtain ⟨keeps'', valid', stamps', ascending'⟩ := keeps'.course unlimited second plain'
    have order : u.stamp < v.stamp := newer u.stamp keeps.covers
    have earlier : ∀ q ∈ before, q.stamp < v.stamp := fun q hq => newer q.stamp (stamps q hq).2
    have later : ∀ q ∈ after, v.stamp < q.stamp := fun q hq => (stamps' q hq).1
    refine ⟨u.stamp, v.stamp, target, ⟨order, ?_, earlier, later, ?_⟩, leafed,
      List.forall_mem_append.mpr ⟨valid, valid'⟩, ?_⟩
    · exact List.forall_mem_append.mpr
        ⟨fun q hq => (stamps q hq).1, fun q hq => order.trans (later q hq)⟩
    · exact List.pairwise_append.mpr
        ⟨ascending, ascending', fun q hq q' hq' => (earlier q hq).trans (later q' hq')⟩
    · rw [id_newEntry]
      exact keeps''

/-- The second replica holds the parent of the entry and has room for a copy of the entry. -/
structure HasRoom (r : Replica) (e : Entry) (r' : Replica) : Prop where
  schema : r'.schema = r.schema
  base : r'.base = r.base
  unlimited : r'.retention = none
  indexed : r'.store.IsIndexed
  fresh : r'.store.get? e.id = none
  free : r'.store.find? e.name = none
  parent : e.name.same r.base = true ∨ ∃ above p p', e.name.parent? = some above ∧
    r.store.find? above = some p ∧ r'.store.get? p.id = some p' ∧ p'.name.same above = true

theorem exists_eq_child {leaf : RelativeName} (named : name.leaf? = some leaf) :
    ∃ above, name.parent? = some above ∧ name = above.child leaf := by
  obtain ⟨parts⟩ := name
  cases parts with
  | nil => cases named
  | cons first rest =>
    cases named
    exact ⟨⟨rest⟩, rfl, rfl⟩

/-- The copy goes below the copy of the parent, and a rename leads it there again. -/
theorem HasRoom.exists_parent {leaf : RelativeName} (room : r.HasRoom e r')
    (named : e.name.leaf? = some leaf) : ∃ above, (above.child leaf).same e.name = true ∧
      (∀ s, (r'.witness s).addedName e.name (r.storedParent? e.name) = .ok (above.child leaf)) ∧
      ∀ r'' f, Alters e.id r' r'' → ∀ s,
        (r''.witness s).renameParent? f e.name.parent? (r.storedParent? e.name) = some above := by
  obtain ⟨above, parent, child⟩ := exists_eq_child named
  by_cases same : e.name.same r.base = true
  · have orphan : r.storedParent? e.name = none := by
      rw [storedParent?, if_pos same]
    refine ⟨above, ?_, fun s => ?_, fun r'' f _ s => ?_⟩
    · rw [child]
      exact DistinguishedName.same_iff.mpr rfl
    · have base : e.name.same (r'.witness s).base = true := room.base.symm ▸ same
      rw [orphan, addedName, Option.bind_none, parentOf, if_pos base, ← child]
      rfl
    · rw [orphan, renameParent?, Option.bind_none, parent]
      rfl
  · obtain ⟨above', p, p', parent', found, stored, alike⟩ := room.parent.resolve_left same
    obtain rfl : above = above' := Option.some.inj (parent.symm.trans parent')
    have known : r.storedParent? e.name = some p.id := by
      rw [storedParent?, if_neg same, parent, Option.bind_some, found, Option.map_some]
    refine ⟨p'.name, ?_, fun s => ?_, fun r'' f alters s => ?_⟩
    · rw [DistinguishedName.same_iff] at alike ⊢
      rw [child]
      simp only [DistinguishedName.folded, DistinguishedName.child, List.flatMap_cons] at alike ⊢
      rw [alike]
    · have stored : (r'.witness s).store.get? p.id = some p' := stored
      simp only [addedName, known, Option.bind_some, stored, named]
    · have other : p.id ≠ e.id := by
        intro own
        rw [own, room.fresh] at stored
        cases stored
      have stored : (r''.witness s).store.get? p.id = some p' :=
        (alters.others p.id other).trans stored
      simp only [renameParent?, known, Option.bind_some, stored]

variable {us : List Update} {reading : UInt64}

theorem Makes.exists_rename {leaf : RelativeName} {deleteOld : Bool}
    {superior : Option DistinguishedName} {superiorId : Option EntryId} {above : DistinguishedName}
    (h : Makes reading id r us r' t) (unlimited : r.retention = none) (first : t.history.renamed = none)
    (payload : u.payload = .rename leaf deleteOld superior superiorId) (own : u.id = id)
    (led : ∀ f, (r'.witness u.stamp).renameParent? f superior superiorId = some above)
    (called : t.entry.name = above.child leaf) :
    ∃ r'', Makes reading id r (us ++ [u]) r''
      (t.rename (above.child leaf) leaf deleteOld u.stamp) := by
  obtain ⟨t', held, agrees⟩ := h.held
  obtain ⟨r'', t'', renamed, alters, held', agrees'⟩ :=
    held.replay_rename (h.alters.retention_eq.trans unlimited) (h.sound.of_agrees agrees.history)
      (agrees.history.renamed.trans first) payload own (led t'.entry)
      (agrees.name.trans called).symm reading
  rw [agrees.name, called] at agrees'
  exact ⟨r'', h.applied.append (.cons renamed (.nil r'')), h.alters.trans alters, h.sound.rename _,
    t'', held', agrees'.trans (agrees.rename _ _ _ _)⟩

/-- The entry that the replica holds is the outcome of the course. -/
structure HoldsOutcome (r : Replica) (p : Renaming) (c s : Stamp) (t : Tracked) : Prop where
  held : r.Holds p.entry.id t
  agrees : t.Agrees (p.outcome r.schema c s t.entry.name)
  sound : t.history.IsSound
  timely : p.IsTimely c s
  leaf : t.entry.name.leaf? = some p.leaf
  uncrowded : Rebuilt.IsUncrowded r.schema t.history

variable {c : Stamp}

theorem HoldsOutcome.reflects (h : r.HoldsOutcome p c s t) (a : Attribute) :
    (t.history.timeline a).Reflects (p.requests.map (Request.edit a)) := by
  rw [h.agrees.history.timelines a]
  exact h.timely.reflects r.schema _ a

/-- The updates that are rebuilt tell of a course of their own, with the stamps of the first one. -/
theorem HoldsOutcome.exists_updates (h : r.HoldsOutcome p c s t) (parent : Option EntryId)
    (copied : DistinguishedName) (named : copied.leaf? = some p.leaf) : ∃ before after,
      (Rebuilt.ofHistory r.schema t.entry parent t.history).updates =
        Rebuilt.creationUpdate t.entry parent c ::
          (before.map (Request.update t.entry.name t.entry.id) ++
            Rebuilt.renameUpdate t.entry parent s p.leaf ::
              after.map (Request.update t.entry.name t.entry.id)) ∧
      (∀ q ∈ before ++ after, q.IsSound r.schema) ∧
      let p' : Renaming :=
        ⟨newEntry copied t.entry.id t.entry.userAttributes, before, p.leaf, true, after⟩
      p'.IsTimely c s ∧ p.IsRebuilt p' r.schema c s t.entry.name := by
  have stamped : ∀ q ∈ Rebuilt.requests t.history, ∃ q' ∈ p.requests, q'.stamp = q.stamp :=
    fun q hq => Rebuilt.exists_stamp_eq h.reflects hq
  have newer : ∀ q ∈ Rebuilt.requests t.history, c < q.stamp :=
    Rebuilt.newer_of_reflects h.reflects h.timely.newer
  have apart : ∀ q ∈ Rebuilt.requests t.history, q.stamp ≠ s := by
    intro q hq
    obtain ⟨q', hq', stamp⟩ := stamped q hq
    rw [← stamp]
    rcases List.mem_append.mp hq' with hq' | hq'
    · exact (h.timely.earlier q' hq').ne
    · exact (h.timely.later q' hq').ne'
  have created : t.history.created = some c :=
    h.agrees.history.created.trans (p.created_outcome _ _ _ _)
  have renamed : t.history.renamed = some s :=
    h.agrees.history.renamed.trans (p.renamed_outcome _ _ _ _)
  obtain ⟨before, after, perm, ascending, earlier, later, updates⟩ :=
    Rebuilt.exists_updates_eq_of_renamed created renamed h.leaf newer h.timely.order apart
  refine ⟨before, after, updates, fun q hq => ?_, ?_, ?_⟩
  · exact Rebuilt.isSound_of_mem_requests h.sound h.uncrowded (perm.mem_iff.mp hq)
  · exact ⟨h.timely.order, fun q hq => newer q (perm.mem_iff.mp hq), earlier, later, ascending⟩
  · refine ⟨rfl, ?_, fun a => ?_, fun a user v => ?_⟩
    · have same : p.leaf.same p.leaf = true := beq_self_eq_true _
      simp [Renaming.dropped, dropped?, name_newEntry, named, same]
    · rw [← h.agrees.history.timelines a]
      exact Rebuilt.covers_of_perm perm a
    · rw [← h.agrees.values a user, mem_values_newEntry user, Entry.mem_values_userAttributes user,
        named]
      refine or_congr Iff.rfl ⟨?_, fun written => ⟨p.leaf, rfl, written⟩⟩
      rintro ⟨leaf, hl, written⟩
      obtain rfl := Option.some.inj hl
      exact written

/-- The updates are applied one after the other and make the outcome of the course that they tell. -/
theorem HoldsOutcome.appliesAll (h : r.HoldsOutcome p c s t) (room : r.HasRoom t.entry r')
    (now : UInt64) : ∃ p' copied r'' t', copied.same t.entry.name = true ∧ p'.IsTimely c s ∧
      p.IsRebuilt p' r.schema c s t.entry.name ∧
      AppliesAll now r' (Rebuilt.ofHistory r.schema t.entry (r.storedParent? t.entry.name)
        t.history).updates r'' ∧
      r''.Holds p.entry.id t' ∧ t'.Agrees (p'.outcome r.schema c s copied) := by
  have own := h.held.identified
  obtain ⟨above, same, added, led⟩ := room.exists_parent h.leaf
  obtain ⟨before, after, updates, each, timely, rebuilt⟩ :=
    h.exists_updates (r.storedParent? t.entry.name) (above.child p.leaf) rfl
  obtain ⟨each, each'⟩ := List.forall_mem_append.mp (room.schema ▸ each)
  have free : r'.store.find? (above.child p.leaf) = none := by
    have free := room.indexed.find?_eq_none_iff.mp room.free
    rw [← DistinguishedName.same_iff.mp same] at free
    exact room.indexed.find?_eq_none_iff.mpr free
  obtain ⟨r₁, created⟩ := exists_makes_of_creation
    (u := Rebuilt.creationUpdate t.entry (r.storedParent? t.entry.name) c) rfl room.fresh (added c)
    free room.indexed room.unlimited now
  obtain ⟨r₂, first⟩ := created.exists_take room.unlimited each t.entry.name
  obtain ⟨r₃, renamed⟩ := first.exists_rename
    (u := Rebuilt.renameUpdate t.entry (r.storedParent? t.entry.name) s p.leaf) room.unlimited
    (Tracked.renamed_foldl_afterRequest _ _ _) rfl rfl (fun f => led r₂ f first.alters s)
    ((Tracked.name_foldl_afterRequest _ _ _).trans (name_newEntry _ _ _))
  obtain ⟨r₄, second⟩ := renamed.exists_take room.unlimited each' t.entry.name
  obtain ⟨t', held, agrees⟩ := second.held
  refine ⟨_, above.child p.leaf, r₄, t', same, timely, rebuilt, ?_, own ▸ held, ?_⟩
  · have applied := second.applied
    rw [List.append_assoc, List.append_assoc] at applied
    rw [updates]
    exact applied
  · rw [← room.schema]
    exact agrees

variable {a : Attribute} {x : Anomaly}

theorem HoldsOutcome.isSome_created (h : r.HoldsOutcome p c s t) :
    t.history.created.isSome = true := by
  rw [h.agrees.history.created, p.created_outcome]
  rfl

theorem HoldsOutcome.touches_of_mem_anomaliesOf (h : r.HoldsOutcome p c s t) (apart : p.IsApart)
    (hx : x ∈ Rebuilt.anomaliesOf r.schema t.entry t.history) :
    ∃ a, x.attr? = some a ∧ p.Touches a ∧ ¬p.Spares r.schema a := by
  obtain ⟨a, about, touched, contradicted⟩ :=
    Rebuilt.exists_of_mem_anomaliesOf h.sound.ordered h.isSome_created hx
  have user := user_of_checkTarget (h.sound.targeted a touched)
  refine ⟨a, about, Classical.not_imp.mp fun spared => contradicted ?_⟩
  have faithful := Renaming.isFaithful_of_spares h.timely apart spared t.entry.name
  rwa [← h.agrees.slot user] at faithful

/-- A multi-valued attribute whose values stand in one case has no anomaly if and only if every value
that the rename went against was revisited. -/
theorem HoldsOutcome.forall_attr?_ne_iff (h : r.HoldsOutcome p c s t) (apart : p.IsApart)
    (multi : r.schema.isSingle a = false) (exact : p.IsExact a) :
    (∀ x ∈ Rebuilt.anomaliesOf r.schema t.entry t.history, x.attr? ≠ some a) ↔
      ∀ v, p.Contradicts a v → p.Revisits a v := by
  rw [← Renaming.isFaithful_iff h.timely apart exact multi t.entry.name,
    Rebuilt.forall_attr?_ne_iff h.sound.ordered h.isSome_created multi]
  by_cases touched : t.history.timeline a = .empty
  · have same : ((p.outcome r.schema c s t.entry.name).slot a).timeline = .empty :=
      (h.agrees.history.timelines a).symm.trans touched
    exact iff_of_true (Slot.isFaithful_of_unmarked false (congrArg Timeline.marks touched))
      (Slot.isFaithful_of_unmarked false (congrArg Timeline.marks same))
  · have user := user_of_checkTarget (h.sound.targeted a touched)
    exact iff_of_eq (congrArg (Slot.IsFaithful false) (h.agrees.slot user))

theorem RenamedOnce.exists_holdsOutcome (h : r.RenamedOnce p r') (indexed : r.store.IsIndexed)
    (unlimited : r.retention = none)
    (plain : ∀ q ∈ p.requests, ∀ m ∈ q.modifications, m.attr.IsPlain)
    (once : ∀ q ∈ p.requests, q.IsOnce r.schema) :
    r'.schema = r.schema ∧ ∃ c s t, r'.HoldsOutcome p c s t := by
  obtain ⟨c, s, name, timely, leafed, each, keeps⟩ := h.exists_keeps indexed unlimited plain
  obtain ⟨t, held, agrees⟩ := keeps.held
  have called : t.entry.name = name := agrees.name.trans (p.name_outcome _ _ _ _)
  subst called
  have uncrowded : Rebuilt.IsUncrowded r.schema t.history := by
    intro a s single reset
    rw [agrees.history.timelines a] at reset ⊢
    exact (timely.reflects r.schema _ a).length_resetValues_le reset (fun q hq => (each q hq).valid)
      once (List.pairwise_map.mpr (timely.ascending.imp fun before => before.ne)) single
  rw [← keeps.schema_eq] at agrees uncrowded
  exact ⟨keeps.schema_eq, c, s, t, held, agrees,
    keeps.sound.of_agrees (keeps.schema_eq ▸ agrees.history), timely, leafed, uncrowded⟩

/-- What is rebuilt of an entry that was renamed once is applied where there is room for it, and makes
an entry of the same name. An attribute has an anomaly only if the rename touched it and was not
spared it; of a multi-valued one whose values stand in one case, there is none exactly if every value
that the rename went against was revisited. All other attributes have the same values again. -/
theorem appliesAll_rebuild_of_renamedOnce (h : r.RenamedOnce p r') (indexed : r.store.IsIndexed)
    (unlimited : r.retention = none)
    (plain : ∀ q ∈ p.requests, ∀ m ∈ q.modifications, m.attr.IsPlain)
    (once : ∀ q ∈ p.requests, q.IsOnce r.schema) (tidy : p.leaf.IsTidy)
    (tidy' : ∀ old ∈ p.entry.name.leaf?, old.IsTidy) :
    ∃ e rebuilt, r'.store.get? p.entry.id = some e ∧ r'.rebuild e.name = .ok rebuilt ∧
      (∀ x ∈ rebuilt.anomalies, ∃ a, x.attr? = some a ∧ p.Touches a ∧ ¬p.Spares r.schema a) ∧
      (∀ a, r.schema.isSingle a = false → p.IsExact a →
        ((∀ x ∈ rebuilt.anomalies, x.attr? ≠ some a) ↔ ∀ v, p.Contradicts a v → p.Revisits a v)) ∧
      ∀ copy now, r'.HasRoom e copy → ∃ copy' f, AppliesAll now copy rebuilt.updates copy' ∧
        copy'.store.get? p.entry.id = some f ∧ f.id = e.id ∧ f.name.same e.name = true ∧
        ∀ a, a.isHistory = false → (p.Touches a → p.Spares r.schema a) →
          ∀ v, v ∈ f.values a ↔ v ∈ e.values a := by
  obtain ⟨schema, c, s, t, outcome⟩ := h.exists_holdsOutcome indexed unlimited plain once
  rw [← schema]
  have apart := Renaming.isApart_of_isTidy tidy tidy'
  refine ⟨t.entry, _, outcome.held.stored, outcome.held.rebuild_eq,
    fun x hx => outcome.touches_of_mem_anomaliesOf apart hx,
    fun a multi exact => outcome.forall_attr?_ne_iff apart multi exact, fun copy now room => ?_⟩
  obtain ⟨p', copied, copy', t', same, timely', rebuilt, applied, held', agrees'⟩ :=
    outcome.appliesAll room now
  refine ⟨copy', t'.entry, applied, held'.stored, ?_, ?_, fun a user spared v => ?_⟩
  · rw [held'.identified, outcome.held.identified]
  · rw [agrees'.name, p'.name_outcome]
    exact same
  · rw [agrees'.values a user, outcome.agrees.values a user]
    exact rebuilt.mem_outcome_iff outcome.timely timely' apart user spared copied v

namespace Staff

def aliased : List Modification :=
  [⟨⟨"cn", []⟩, .add, [[97]]⟩]

/-- The replica after a request that adds the value in the name of the entry. -/
def known : Replica :=
  (joined.modify 30 member aliased fun _ => false).2

def leaf : RelativeName :=
  ⟨"cn", "b"⟩

/-- The replica after a rename that drops that value. -/
def moved : Replica :=
  (known.rename 40 member leaf true none).2

/-- A request that gives the entry the value in its new name and no other. -/
def mending : List Modification :=
  [⟨⟨"cn", []⟩, .replace, [[98]]⟩]

def mended : Replica :=
  (moved.modify 50 (Staff.name.child leaf) mending fun _ => false).2

def course (after : List Request) : Renaming :=
  ⟨newEntry member memberId given, [⟨⟨30, 0, 1⟩, aliased⟩], leaf, true, after⟩

theorem indexed_created : created.store.IsIndexed :=
  (keeps_of_add Store.isIndexed_empty rfl add_eq).indexed

theorem renamedOnce_of_course {after : List Request} {r : Replica}
    (second : Course memberId moved after r) : created.RenamedOnce (course after) r := by
  obtain ⟨going, sent, going', done⟩ : ¬joined.clock.IsExhausted ∧
      sent? (joined.modify 30 member aliased fun _ => false).1 =
        some (Request.update member memberId ⟨⟨30, 0, 1⟩, aliased⟩) ∧
      ¬known.clock.IsExhausted ∧
      (known.rename 40 member leaf true none).1 =
        .ok ⟨⟨40, 0, 1⟩, member, memberId, .rename leaf true none none⟩ := by
    decide +kernel
  exact .intro join_eq (.modify .stay going sent) going' (Prod.ext done rfl) rfl second

theorem renamedOnce_mended : created.RenamedOnce (course [⟨⟨50, 0, 1⟩, mending⟩]) mended := by
  obtain ⟨going, sent⟩ : ¬moved.clock.IsExhausted ∧
      sent? (moved.modify 50 (Staff.name.child leaf) mending fun _ => false).1 =
        some (Request.update (Staff.name.child leaf) memberId ⟨⟨50, 0, 1⟩, mending⟩) := by
    decide +kernel
  exact renamedOnce_of_course (.modify .stay going sent)

theorem spares_mended {a : Attribute} (touched : (course [⟨⟨50, 0, 1⟩, mending⟩]).Touches a) :
    (course [⟨⟨50, 0, 1⟩, mending⟩]).Spares created.schema a := by
  obtain rfl : a = ⟨"cn", []⟩ := by
    rcases touched with rfl | ⟨old, drops, rfl⟩
    · decide +kernel
    · have drops : some old = some ⟨"cn", "a"⟩ := by
        rw [← drops]
        decide +kernel
      cases drops
      decide +kernel
  refine ⟨Renaming.isExact_of_forall (by decide +kernel) (by decide +kernel), ?_, ?_⟩
  · intro multi v contradicted
    exact ⟨_, .head _, .inr (by decide +kernel)⟩
  · decide +kernel

theorem hasRoom_mended {e : Entry} (stored : mended.store.get? memberId = some e) :
    mended.HasRoom e created := by
  obtain ⟨told, alike, fresh, free, above⟩ :
      (mended.store.get? memberId).map (fun e => (e.id, e.name)) =
        some (memberId, Staff.name.child leaf) ∧
      (created.schema = mended.schema ∧ created.base = mended.base) ∧
      created.store.get? memberId = none ∧ created.store.find? (Staff.name.child leaf) = none ∧
      ((mended.store.find? Staff.name).bind fun p =>
        (created.store.get? p.id).map (·.name.same Staff.name)) = some true := by
    decide +kernel
  simp only [stored, Option.map_some, Option.some.injEq, Prod.mk.injEq] at told
  obtain ⟨p, found, above⟩ := Option.bind_eq_some_iff.mp above
  obtain ⟨p', stored', same⟩ := Option.map_eq_some_iff.mp above
  refine ⟨alike.1, alike.2, rfl, indexed_created, told.1 ▸ fresh, told.2 ▸ free, .inr ?_⟩
  exact ⟨Staff.name, p, p', told.2 ▸ rfl, found, stored', same⟩

end Staff

open Staff in
/-- The entry is renamed, all values of the attribute in its name are replaced, and the copy is the same
as the entry. -/
theorem appliesAll_rebuild_mended : ∃ e rebuilt copy' f,
    mended.store.get? memberId = some e ∧ mended.rebuild e.name = .ok rebuilt ∧
    rebuilt.anomalies = [] ∧ AppliesAll 0 created rebuilt.updates copy' ∧
    copy'.store.get? memberId = some f ∧ f.id = e.id ∧ f.name.same e.name = true ∧
    ∀ a, a.isHistory = false → ∀ v, v ∈ f.values a ↔ v ∈ e.values a := by
  obtain ⟨e, rebuilt, stored, rebuild, anomalies, -, copies⟩ :=
    appliesAll_rebuild_of_renamedOnce renamedOnce_mended indexed_created rfl (by decide +kernel)
      (by decide +kernel) (by decide +kernel) (by decide +kernel)
  obtain ⟨copy', f, applied, stored', id, name, values⟩ := copies created 0 (hasRoom_mended stored)
  refine ⟨e, rebuilt, copy', f, stored, rebuild, ?_, applied, stored', id, name,
    fun a user => values a user spares_mended⟩
  rw [List.eq_nil_iff_forall_not_mem]
  intro x hx
  obtain ⟨a, -, touched, unspared⟩ := anomalies x hx
  exact unspared (spares_mended touched)

open Staff in
/-- Without the last request the rename drops a value that was added, and there is an anomaly. -/
theorem appliesAll_rebuild_moved : ¬∀ (r r' : Replica) (p : Renaming), r.RenamedOnce p r' →
    r.store.IsIndexed → r.retention = none →
    (∀ q ∈ p.requests, ∀ m ∈ q.modifications, m.attr.IsPlain) →
    (∀ q ∈ p.requests, q.IsOnce r.schema) → p.leaf.IsTidy →
    (∀ old ∈ p.entry.name.leaf?, old.IsTidy) →
    ∃ e rebuilt, r'.store.get? p.entry.id = some e ∧ r'.rebuild e.name = .ok rebuilt ∧
      rebuilt.anomalies = [] ∧ ∀ copy now, r'.HasRoom e copy → ∃ copy' f,
        AppliesAll now copy rebuilt.updates copy' ∧ copy'.store.get? p.entry.id = some f ∧
        f.id = e.id ∧ f.name.same e.name = true ∧
        ∀ a, a.isHistory = false → ∀ v, v ∈ f.values a ↔ v ∈ e.values a := by
  intro copies
  obtain ⟨e, rebuilt, stored, rebuild, silent, -⟩ := copies _ _ _ (renamedOnce_of_course .stay)
    indexed_created rfl (by decide +kernel) (by decide +kernel) (by decide +kernel)
    (by decide +kernel)
  have missing : ((moved.store.get? memberId).bind fun e =>
      (moved.rebuild e.name).toOption.map (·.anomalies)) =
        some [.addedMissing ⟨"cn", []⟩ [97] ⟨30, 0, 1⟩] := by
    decide +kernel
  have stored : moved.store.get? memberId = some e := stored
  rw [stored, Option.bind_some, rebuild] at missing
  simp [Except.toOption, silent] at missing

end DirectoryHistory.Replica
