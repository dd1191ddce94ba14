import DirectoryHistory.Proofs.Rebuild.Entry
import DirectoryHistory.Proofs.Replica.Renaming
import DirectoryHistory.Proofs.Text.Case
import DirectoryHistory.Proofs.Tracked.Histories

/-!
# Entries that were renamed once

What becomes of an entry that is created, takes requests, is renamed and takes more requests. What is
rebuilt of it is another such course: the entry starts with the values of today and its new name, and
is renamed to that name. Both courses leave the same timelines. They leave the same values of an
attribute that the rename did not touch, and of one that it touched unless the rename went against
the requests before it and none after it said otherwise.
-/

namespace DirectoryHistory

/-- What happened to an entry that was renamed once: the entry as it was created, the requests before
and after the rename, the oldest first, and the leaf that the rename brought. -/
structure Renaming where
  entry : Entry
  before : List Request
  leaf : RelativeName
  deleteOld : Bool
  after : List Request

namespace Renaming

def dropped (p : Renaming) : Option RelativeName :=
  Replica.dropped? p.entry.name p.leaf p.deleteOld

def requests (p : Renaming) : List Request :=
  p.before ++ p.after

/-- The timeline that the rename finds. -/
def told (p : Renaming) (a : Attribute) : Timeline :=
  (p.before.map (Request.edit a)).foldl Timeline.mergeEdit .empty

/-- The values that the rename alone leaves. -/
def values (p : Renaming) (a : Attribute) : List Octets :=
  (Replica.renameEntry p.entry p.entry.name p.leaf p.deleteOld).values a

/-- Whether the rename may change the values of `a`. -/
def Touches (p : Renaming) (a : Attribute) : Prop :=
  a = .make p.leaf.attr ∨ ∃ old ∈ p.dropped, a = .make old.attr

/-- The rename drops a value that the requests before it leave, or brings one back that they leave
deleted. -/
def Contradicts (p : Renaming) (a : Attribute) (v : Octets) : Prop :=
  (p.told a).IsContradicted p.leaf p.dropped a v

/-- A request after the rename speaks of the value, or of the attribute as a whole. -/
def Revisits (p : Renaming) (a : Attribute) (v : Octets) : Prop :=
  ∃ q ∈ p.after, (q.edit a).names v = true ∨ (q.edit a).resets = true

/-- No value of the new leaf was ever given in another case than the leaf writes it. -/
structure IsExact (p : Renaming) (a : Attribute) : Prop where
  given : ∀ v ∈ p.entry.values a, p.leaf.Gives a v → p.leaf.Writes a v
  named : ∀ q ∈ p.requests, ∀ v, (q.edit a).names v = true → p.leaf.Gives a v → p.leaf.Writes a v

theorem isExact_of_forall {p : Renaming} {a : Attribute}
    (given : ∀ v ∈ p.entry.values a, p.leaf.Gives a v → p.leaf.Writes a v)
    (asked : ∀ q ∈ p.requests, ∀ m ∈ q.modifications, ∀ v ∈ m.values,
      p.leaf.Gives a v → p.leaf.Writes a v) : p.IsExact a where
  given := given
  named q hq v named := by
    obtain ⟨m, hm, -, hv⟩ := Request.exists_modification_of_names named
    exact asked q hq m hm v hv

/-- The rename leaves nothing of `a` behind that the requests do not tell. A single-valued attribute
may not be changed before the rename, and afterwards only if the rename left it one value at most. -/
structure Spares (p : Renaming) (schema : Schema) (a : Attribute) : Prop where
  exact : p.IsExact a
  multi : schema.isSingle a = false → ∀ v, p.Contradicts a v → p.Revisits a v
  single : schema.isSingle a = true → (∀ q ∈ p.before, (q.edit a).changes = []) ∧
    ((∀ q ∈ p.after, (q.edit a).changes = []) ∨ (p.values a).length ≤ 1)

/-- The entry as the rename finds it. -/
def made (p : Renaming) (schema : Schema) (c : Stamp) : Tracked :=
  p.before.foldl (Tracked.afterRequest schema) ⟨p.entry, .ofCreation c⟩

/-- The entry that was created at `c` right after the rename at `r`. -/
def renamed (p : Renaming) (schema : Schema) (c r : Stamp) (name : DistinguishedName) : Tracked :=
  (p.made schema c).rename name p.leaf p.deleteOld r

def outcome (p : Renaming) (schema : Schema) (c r : Stamp) (name : DistinguishedName) : Tracked :=
  p.after.foldl (Tracked.afterRequest schema) (p.renamed schema c r name)

/-- The stamps come in the order of what they belong to. -/
structure IsTimely (p : Renaming) (c r : Stamp) : Prop where
  order : c < r
  newer : ∀ q ∈ p.requests, c < q.stamp
  earlier : ∀ q ∈ p.before, q.stamp < r
  later : ∀ q ∈ p.after, r < q.stamp
  ascending : p.requests.Pairwise (·.stamp < ·.stamp)

variable {p p' : Renaming} {schema : Schema} {c r : Stamp} {name name' : DistinguishedName}
variable {a : Attribute} {v : Octets}

theorem created_outcome (p : Renaming) (schema : Schema) (c r : Stamp) (name : DistinguishedName) :
    (p.outcome schema c r name).history.created = some c := by
  rw [outcome, Tracked.created_foldl_afterRequest, renamed, Tracked.rename, History.created_rename,
    made, Tracked.created_foldl_afterRequest]
  rfl

theorem renamed_outcome (p : Renaming) (schema : Schema) (c r : Stamp) (name : DistinguishedName) :
    (p.outcome schema c r name).history.renamed = some r := by
  rw [outcome, Tracked.renamed_foldl_afterRequest, renamed, Tracked.rename, History.renamed_rename,
    made, Tracked.renamed_foldl_afterRequest]
  rfl

theorem name_outcome (p : Renaming) (schema : Schema) (c r : Stamp) (name : DistinguishedName) :
    (p.outcome schema c r name).entry.name = name := by
  rw [outcome, Tracked.name_foldl_afterRequest, renamed, Tracked.rename, Replica.name_renameEntry]

theorem name_made (p : Renaming) (schema : Schema) (c : Stamp) :
    (p.made schema c).entry.name = p.entry.name :=
  Tracked.name_foldl_afterRequest schema p.before _

theorem IsTimely.newer_before (timely : p.IsTimely c r) : ∀ q ∈ p.before, c < q.stamp :=
  fun q hq => timely.newer q (List.mem_append_left _ hq)

theorem IsTimely.newer_after (timely : p.IsTimely c r) : ∀ q ∈ p.after, c < q.stamp :=
  fun q hq => timely.newer q (List.mem_append_right _ hq)

theorem IsTimely.timeline_made (timely : p.IsTimely c r) (schema : Schema) (a : Attribute) :
    (p.made schema c).history.timeline a = p.told a := by
  refine Tracked.timeline_foldl_afterRequest (fun q hq s hs => ?_) a
  obtain rfl := Option.some.inj hs
  exact timely.newer_before q hq

theorem IsTimely.timeline_renamed (timely : p.IsTimely c r) (schema : Schema)
    (name : DistinguishedName) (a : Attribute) :
    (p.renamed schema c r name).history.timeline a = p.told a := by
  rw [renamed, Tracked.rename, History.timeline_rename, timely.timeline_made]

theorem IsTimely.newer_of_renamed (timely : p.IsTimely c r) : ∀ q ∈ p.after,
    ∀ s ∈ (p.renamed schema c r name).history.created, s < q.stamp := by
  intro q hq s hs
  rw [renamed, Tracked.rename, History.created_rename, made, Tracked.created_foldl_afterRequest] at hs
  obtain rfl := Option.some.inj hs
  exact timely.newer_after q hq

theorem IsTimely.timeline_outcome (timely : p.IsTimely c r) (schema : Schema)
    (name : DistinguishedName) (a : Attribute) : (p.outcome schema c r name).history.timeline a =
      (p.requests.map (Request.edit a)).foldl Timeline.mergeEdit .empty := by
  rw [outcome, Tracked.timeline_foldl_afterRequest timely.newer_of_renamed, timely.timeline_renamed,
    told, requests, List.map_append, List.foldl_append]

theorem reflects_edits {qs : List Request} (ascending : qs.Pairwise (·.stamp < ·.stamp))
    (a : Attribute) : ((qs.map (Request.edit a)).foldl Timeline.mergeEdit .empty).Reflects
      (qs.map (Request.edit a)) := by
  apply Timeline.reflects_foldl_mergeEdit
  rw [List.map_map]
  exact List.pairwise_map.mpr (ascending.imp fun before => before.ne)

theorem IsTimely.reflects_told (timely : p.IsTimely c r) (a : Attribute) :
    (p.told a).Reflects (p.before.map (Request.edit a)) :=
  reflects_edits (List.pairwise_append.mp timely.ascending).1 a

theorem IsTimely.reflects (timely : p.IsTimely c r) (schema : Schema) (name : DistinguishedName)
    (a : Attribute) : ((p.outcome schema c r name).history.timeline a).Reflects
      (p.requests.map (Request.edit a)) := by
  rw [timely.timeline_outcome]
  exact reflects_edits timely.ascending a

theorem IsTimely.concerns_iff (timely : p.IsTimely c r) :
    ((p.outcome schema c r name).history.timeline a).concerns r v = true ↔ p.Revisits a v := by
  rw [(timely.reflects schema name a).concerns_iff]
  constructor
  · rintro ⟨e, he, newer, concerned⟩
    obtain ⟨q, hq, rfl⟩ := List.mem_map.mp he
    refine ⟨q, (List.mem_append.mp hq).resolve_left fun hq => ?_, concerned⟩
    exact (timely.earlier q hq).not_gt newer
  · rintro ⟨q, hq, concerned⟩
    exact ⟨_, List.mem_map_of_mem (List.mem_append_right _ hq), timely.later q hq, concerned⟩

def start (p : Renaming) (a : Attribute) : Slot :=
  ⟨p.entry.values a, .empty⟩

theorem slot_made (p : Renaming) (schema : Schema) (c : Stamp) (a : Attribute) :
    (p.made schema c).slot a = (p.before.map (Request.edit a)).foldl
      (Slot.resolveEdit (schema.isSingle a) (some c)) (p.start a) :=
  Tracked.slot_foldl_afterRequest p.before _ a

theorem isRenamed_slot (p : Renaming) (schema : Schema) (c r : Stamp) (name : DistinguishedName)
    (a : Attribute) : Slot.IsRenamed p.leaf p.dropped a ((p.made schema c).slot a)
      ((p.renamed schema c r name).slot a) := by
  rw [dropped, ← p.name_made schema c]
  exact Tracked.isRenamed_slot _ _ _ _ _ _

theorem slot_outcome (p : Renaming) (schema : Schema) (c r : Stamp) (name : DistinguishedName)
    (a : Attribute) : (p.outcome schema c r name).slot a = (p.after.map (Request.edit a)).foldl
      (Slot.resolveEdit (schema.isSingle a) (some c)) ((p.renamed schema c r name).slot a) := by
  have created : (p.renamed schema c r name).history.created = some c := by
    rw [renamed, Tracked.rename, History.created_rename, made, Tracked.created_foldl_afterRequest]
    rfl
  rw [outcome, Tracked.slot_foldl_afterRequest, created]

theorem newer_edits {qs : List Request} (newer : ∀ q ∈ qs, c < q.stamp) (a : Attribute) :
    ∀ e ∈ qs.map (Request.edit a), ∀ s ∈ some c, s < e.stamp := by
  rw [List.forall_mem_map]
  intro q hq s hs
  obtain rfl := Option.some.inj hs
  exact newer q hq

theorem ordered_start (p : Renaming) (a : Attribute) : (p.start a).timeline.Ordered :=
  Timeline.ordered_empty

theorem timeline_slot_renamed (timely : p.IsTimely c r) (schema : Schema) (name : DistinguishedName)
    (a : Attribute) : ((p.renamed schema c r name).slot a).timeline = p.told a :=
  timely.timeline_renamed schema name a

/-- An attribute that the rename leaves alone has taken all requests in a row. -/
theorem slot_outcome_of_not_touches (untouched : ¬p.Touches a) (schema : Schema) (c r : Stamp)
    (name : DistinguishedName) : (p.outcome schema c r name).slot a =
      (p.requests.map (Request.edit a)).foldl
        (Slot.resolveEdit (schema.isSingle a) (some c)) (p.start a) := by
  have renamed := p.isRenamed_slot schema c r name a
  have held := renamed.untouched (fun own => untouched (.inl own))
    fun old drops own => untouched (.inr ⟨old, drops, own⟩)
  have same : (p.renamed schema c r name).slot a = (p.made schema c).slot a :=
    congrArg₂ Slot.mk held renamed.timeline
  rw [slot_outcome, same, slot_made, requests, List.map_append, List.foldl_append]

theorem started_of_not_touches (timely : p.IsTimely c r) (untouched : ¬p.Touches a)
    (schema : Schema) (name : DistinguishedName) : ((p.outcome schema c r name).slot a).Started
      (schema.isSingle a) (p.entry.values a) := by
  rw [slot_outcome_of_not_touches untouched]
  exact (Slot.started_start (s := p.start a) _ rfl).foldl_resolveEdit (p.ordered_start a)
    (newer_edits timely.newer a)

theorem evolves_made (timely : p.IsTimely c r) (multi : schema.isSingle a = false) :
    (p.start a).Evolves c ((p.made schema c).slot a) := by
  rw [slot_made, multi]
  have calm : ∀ v, (p.start a).timeline.concerns c v = false := fun _ => rfl
  refine (Slot.evolves_self calm).foldl_resolveEdit (p.ordered_start a)
    (List.forall_mem_map.mpr timely.newer_before) (newer_edits timely.newer_before a)
    (fun _ _ => rfl) (List.pairwise_map.mpr (List.pairwise_append.mp timely.ascending).1)

theorem evolves_outcome (timely : p.IsTimely c r) (multi : schema.isSingle a = false)
    (name : DistinguishedName) : ((p.renamed schema c r name).slot a).Evolves r
      ((p.outcome schema c r name).slot a) := by
  have timeline := timeline_slot_renamed timely schema name a
  have told := timely.reflects_told a
  rw [slot_outcome, multi]
  have calm : ∀ v, ((p.renamed schema c r name).slot a).timeline.concerns r v = false := by
    intro v
    rw [timeline, Bool.eq_false_iff, Ne, told.concerns_iff]
    rintro ⟨e, he, newer, -⟩
    obtain ⟨q, hq, rfl⟩ := List.mem_map.mp he
    exact (timely.earlier q hq).not_gt newer
  refine (Slot.evolves_self calm).foldl_resolveEdit (timeline ▸ told.ordered)
    (List.forall_mem_map.mpr timely.later) (newer_edits timely.newer_after a)
    (List.forall_mem_map.mpr fun q hq => ?_)
    (List.pairwise_map.mpr (List.pairwise_append.mp timely.ascending).2.1)
  rw [timeline, Bool.eq_false_iff, Ne, Timeline.overrides_iff]
  rintro ⟨s, hs, newer⟩
  obtain ⟨e, he, -, rfl⟩ := told.resets.1 s hs
  obtain ⟨p', hp', rfl⟩ := List.mem_map.mp he
  exact ((timely.earlier p' hp').trans (timely.later q hq)).not_gt newer

theorem IsExact.writes_of_asserts {t : Timeline} {qs : List Request} (exact : p.IsExact a)
    (reflects : t.Reflects (qs.map (Request.edit a))) (among : ∀ q ∈ qs, q ∈ p.requests)
    (asserted : t.asserts v = true) (given : p.leaf.Gives a v) : p.leaf.Writes a v := by
  obtain ⟨m, hm, -⟩ := Timeline.asserts_iff.mp asserted
  obtain ⟨e, he, named, -⟩ := reflects.exists_edit hm
  obtain ⟨q, hq, rfl⟩ := List.mem_map.mp he
  exact exact.named q (among q hq) v named given

theorem isOutcome (timely : p.IsTimely c r) (exact : p.IsExact a) (multi : schema.isSingle a = false)
    (name : DistinguishedName) : Slot.IsOutcome c r p.leaf p.dropped a (p.told a) (p.start a)
      ((p.outcome schema c r name).slot a) := by
  have before := evolves_made timely multi
  have timeline : ((p.made schema c).slot a).timeline = p.told a := timely.timeline_made schema a
  rw [← timeline]
  refine (p.isRenamed_slot schema c r name a).isOutcome before (evolves_outcome timely multi name) ?_
  intro w hw given
  by_cases concerned : ((p.made schema c).slot a).timeline.concerns c w = true
  · have asserted := (before.settled w concerned).mp hw
    rw [timeline] at asserted
    exact exact.writes_of_asserts (timely.reflects_told a)
      (fun q hq => List.mem_append_left _ hq) asserted given
  · rw [Bool.not_eq_true] at concerned
    exact exact.given w ((before.kept w concerned).2.2.mp hw) given

theorem IsExact.writes_of_outcome (timely : p.IsTimely c r) (exact : p.IsExact a)
    (multi : schema.isSingle a = false) (hv : v ∈ (p.outcome schema c r name).entry.values a)
    (given : p.leaf.Gives a v) : p.leaf.Writes a v := by
  have outcome := isOutcome timely exact multi name
  have asserted : ((p.outcome schema c r name).history.timeline a).asserts v = true →
      p.leaf.Writes a v :=
    fun asserted => exact.writes_of_asserts (timely.reflects schema name a) (fun _ hq => hq)
      asserted given
  by_cases concerned : ((p.outcome schema c r name).slot a).timeline.concerns r v = true
  · exact asserted ((outcome.recent v concerned).mp hv)
  rw [Bool.not_eq_true] at concerned
  by_cases concerned' : ((p.outcome schema c r name).slot a).timeline.concerns c v = true
  · exact ((outcome.early v concerned concerned').mp hv).1.elim asserted id
  · rw [Bool.not_eq_true] at concerned'
    exact ((outcome.initial v concerned concerned').mp hv).1.elim
      (fun hv => exact.given v hv given) id

/-- The new leaf is not dropped at once. -/
def IsApart (p : Renaming) : Prop :=
  ∀ a v, p.leaf.Writes a v → ∀ old ∈ p.dropped, ¬old.Gives a v

theorem isApart_of_isTidy (tidy : p.leaf.IsTidy) (tidy' : ∀ old ∈ p.entry.name.leaf?, old.IsTidy) :
    p.IsApart :=
  fun _ _ written => Replica.not_gives_dropped tidy tidy' p.deleteOld written.gives

/-- The values of a multi-valued attribute are faithful to its timeline if and only if every value
that the rename went against was revisited. -/
theorem isFaithful_iff (timely : p.IsTimely c r) (apart : p.IsApart) (exact : p.IsExact a)
    (multi : schema.isSingle a = false) (name : DistinguishedName) :
    ((p.outcome schema c r name).slot a).IsFaithful false ↔
      ∀ v, p.Contradicts a v → p.Revisits a v := by
  have reflects := timely.reflects schema name a
  rw [(isOutcome timely exact multi name).isFaithful_iff reflects.ordered ?_ (apart a)]
  · exact forall_congr' fun v => imp_congr_right fun _ => timely.concerns_iff
  · intro m hm
    obtain ⟨e, he, -, stamp⟩ := reflects.exists_edit (reflects.ordered.mark?_eq_some_iff.mpr ⟨hm, rfl⟩)
    obtain ⟨q, hq, rfl⟩ := List.mem_map.mp he
    exact stamp ▸ timely.newer q hq

/-- An attribute that was not changed before the rename starts anew with what the rename leaves. -/
theorem slot_renamed_of_silent (silent : ∀ q ∈ p.before, (q.edit a).changes = []) (schema : Schema)
    (c r : Stamp) (name : DistinguishedName) :
    (p.renamed schema c r name).slot a = ⟨p.values a, .empty⟩ := by
  have made : (p.made schema c).slot a = p.start a := by
    rw [slot_made]
    exact Slot.foldl_resolveEdit_of_silent (List.forall_mem_map.mpr silent) _
  have held : ((p.renamed schema c r name).slot a).held = p.values a :=
    Replica.values_renameEntry_congr (p.name_made schema c) (congrArg Slot.held made) _ _ _ _
  have timeline : ((p.renamed schema c r name).slot a).timeline = .empty :=
    (p.isRenamed_slot schema c r name a).timeline.trans (congrArg Slot.timeline made)
  exact congrArg₂ Slot.mk held timeline

theorem outcome_of_silent (silent : ∀ q ∈ p.requests, (q.edit a).changes = []) (schema : Schema)
    (c r : Stamp) (name : DistinguishedName) :
    (p.outcome schema c r name).entry.values a = p.values a := by
  obtain ⟨before, after⟩ := List.forall_mem_append.mp silent
  have outcome : (p.outcome schema c r name).slot a = ⟨p.values a, .empty⟩ := by
    rw [slot_outcome, slot_renamed_of_silent before]
    exact Slot.foldl_resolveEdit_of_silent (List.forall_mem_map.mpr after) _
  exact congrArg Slot.held outcome

theorem started_of_silent (timely : p.IsTimely c r)
    (silent : ∀ q ∈ p.before, (q.edit a).changes = []) (schema : Schema) (name : DistinguishedName) :
    ((p.outcome schema c r name).slot a).Started (schema.isSingle a) (p.values a) := by
  rw [slot_outcome, slot_renamed_of_silent silent]
  exact (Slot.started_start (s := ⟨p.values a, .empty⟩) _ rfl).foldl_resolveEdit
    Timeline.ordered_empty (newer_edits timely.newer_after a)

theorem mem_values_iff (exact : p.IsExact a) : v ∈ p.values a ↔
    (v ∈ p.entry.values a ∨ p.leaf.Writes a v) ∧ ∀ old ∈ p.dropped, ¬old.Gives a v :=
  (Tracked.isRenamed_slot ⟨p.entry, .ofCreation ⟨0, 0, 0⟩⟩ p.entry.name p.leaf p.deleteOld
    ⟨0, 0, 0⟩ a).mem_held_iff_of_exact exact.given v

/-- The values are faithful to the timeline where the rename was spared. -/
theorem isFaithful_of_spares (timely : p.IsTimely c r) (apart : p.IsApart)
    (spared : p.Touches a → p.Spares schema a) (name : DistinguishedName) :
    ((p.outcome schema c r name).slot a).IsFaithful (schema.isSingle a) := by
  have ordered := (timely.reflects schema name a).ordered
  by_cases touched : p.Touches a
  · have spared := spared touched
    cases single : schema.isSingle a with
    | false => exact (isFaithful_iff timely apart spared.exact single name).mpr (spared.multi single)
    | true =>
      have started := started_of_silent timely (spared.single single).1 schema name
      rw [single] at started
      exact started.isFaithful ordered
  · exact (started_of_not_touches timely touched schema name).isFaithful ordered

/-- The second course is rebuilt from the outcome of the first one: the entry starts with the values
of that outcome and its name, and takes the requests that its history stands for. -/
structure IsRebuilt (p p' : Renaming) (schema : Schema) (c r : Stamp) (name : DistinguishedName) :
    Prop where
  leaf : p'.leaf = p.leaf
  dropped : p'.dropped = none
  covers : ∀ a, Rebuilt.Covers a ((p.outcome schema c r name).history.timeline a)
    (p'.requests.map (Request.edit a))
  initial : ∀ a, a.isHistory = false → ∀ v, v ∈ p'.entry.values a ↔
    v ∈ (p.outcome schema c r name).entry.values a ∨ p.leaf.Writes a v

theorem IsRebuilt.timeline_eq (h : p.IsRebuilt p' schema c r name) (timely : p.IsTimely c r)
    (timely' : p'.IsTimely c r) (name' : DistinguishedName) (a : Attribute) :
    (p'.outcome schema c r name').history.timeline a =
      (p.outcome schema c r name).history.timeline a := by
  rw [timely'.timeline_outcome]
  exact (h.covers a).foldl_mergeEdit (timely.reflects schema name a).ordered

theorem IsRebuilt.isExact (h : p.IsRebuilt p' schema c r name) (timely : p.IsTimely c r)
    (user : a.isHistory = false) (exact : p.IsExact a) (multi : schema.isSingle a = false) :
    p'.IsExact a := by
  constructor
  · intro v hv given
    rw [h.leaf] at given ⊢
    rcases (h.initial a user v).mp hv with hv | written
    · exact exact.writes_of_outcome timely multi hv given
    · exact written
  · intro q hq v named given
    rw [h.leaf] at given ⊢
    obtain ⟨m, hm, rfl, -⟩ := ((h.covers a).names_iff (List.mem_map_of_mem hq)).mp named
    have reflects := timely.reflects schema name a
    obtain ⟨e, he, named, -⟩ := reflects.exists_edit (reflects.ordered.mark?_eq_some_iff.mpr ⟨hm, rfl⟩)
    obtain ⟨q', hq', rfl⟩ := List.mem_map.mp he
    exact exact.named q' hq' _ named given

theorem IsRebuilt.exists_request (h : p.IsRebuilt p' schema c r name) (timely : p.IsTimely c r)
    {q : Request} (hq : q ∈ p'.requests) (changed : (q.edit a).changes ≠ []) :
    ∃ q' ∈ p.requests, q'.stamp = q.stamp ∧ (q'.edit a).changes ≠ [] := by
  have reflects := timely.reflects schema name a
  have member : q.edit a ∈ p'.requests.map (Request.edit a) := List.mem_map_of_mem hq
  have concerned : (∃ v, (q.edit a).names v = true) ∨ (q.edit a).resets = true := by
    by_contra nothing
    rw [not_or, not_exists, Bool.not_eq_true] at nothing
    exact changed (Edit.changes_eq_nil (fun v => Bool.eq_false_iff.mpr (nothing.1 v)) nothing.2)
  rcases concerned with ⟨v, named⟩ | resets
  · obtain ⟨m, hm, -, stamp⟩ := ((h.covers a).names_iff member).mp named
    obtain ⟨e, he, named, same⟩ := reflects.exists_edit
      (reflects.ordered.mark?_eq_some_iff.mpr ⟨hm, rfl⟩)
    obtain ⟨q', hq', rfl⟩ := List.mem_map.mp he
    refine ⟨q', hq', same.trans stamp, fun nothing => ?_⟩
    simp [Edit.names, nothing] at named
  · have reset := ((h.covers a).resets_iff member).mp resets
    obtain ⟨e, he, resets, same⟩ := reflects.resets.1 _ reset
    obtain ⟨q', hq', rfl⟩ := List.mem_map.mp he
    refine ⟨q', hq', same, fun nothing => ?_⟩
    simp [Edit.resets, nothing] at resets

theorem IsRebuilt.silent_before (h : p.IsRebuilt p' schema c r name) (timely : p.IsTimely c r)
    (timely' : p'.IsTimely c r) (silent : ∀ q ∈ p.before, (q.edit a).changes = []) :
    ∀ q ∈ p'.before, (q.edit a).changes = [] := by
  intro q hq
  by_contra changed
  obtain ⟨q', hq', stamp, changed'⟩ :=
    h.exists_request timely (List.mem_append_left _ hq) changed
  rcases List.mem_append.mp hq' with hq' | hq'
  · exact changed' (silent q' hq')
  · exact ((timely'.earlier q hq).trans (timely.later q' hq')).ne stamp.symm

/-- Once the leaf is written in the values, the rename to it changes nothing. -/
theorem IsRebuilt.mem_values_iff (h : p.IsRebuilt p' schema c r name) (user : a.isHistory = false) :
    v ∈ p'.values a ↔ v ∈ p'.entry.values a := by
  have renamed := Tracked.isRenamed_slot ⟨p'.entry, .ofCreation c⟩ p'.entry.name p'.leaf p'.deleteOld
    r a
  rw [show Replica.dropped? p'.entry.name p'.leaf p'.deleteOld = none from h.dropped] at renamed
  have mem : v ∈ p'.values a ↔ (v ∈ p'.entry.values a ∨ p'.leaf.Writes a v ∧
      ∀ w ∈ p'.entry.values a, ¬p'.leaf.Gives a w) ∧ ∀ old ∈ none, ¬RelativeName.Gives old a v :=
    renamed.mem_held_iff v
  rw [mem, h.leaf]
  constructor
  · rintro ⟨hv | ⟨written, -⟩, -⟩
    · exact hv
    · exact (h.initial a user v).mpr (.inr written)
  · intro hv
    exact ⟨.inl hv, nofun⟩

theorem IsRebuilt.mem_outcome_iff_of_silent (h : p.IsRebuilt p' schema c r name)
    (timely : p.IsTimely c r) (apart : p.IsApart) (user : a.isHistory = false) (exact : p.IsExact a)
    (silent : ∀ q ∈ p.requests, (q.edit a).changes = []) (name' : DistinguishedName) (v : Octets) :
    v ∈ (p'.outcome schema c r name').entry.values a ↔
      v ∈ (p.outcome schema c r name).entry.values a := by
  have silent' : ∀ q ∈ p'.requests, (q.edit a).changes = [] := by
    intro q hq
    by_contra changed
    obtain ⟨q', hq', -, changed'⟩ := h.exists_request timely hq changed
    exact changed' (silent q' hq')
  rw [outcome_of_silent silent', h.mem_values_iff user, h.initial a user, outcome_of_silent silent,
    or_iff_left_iff_imp]
  intro written
  exact (Renaming.mem_values_iff exact).mpr ⟨.inr written, apart a v written⟩

/-- A single-valued attribute that was not changed before the rename has the same values again if the
rename left it one at most. -/
theorem IsRebuilt.mem_outcome_iff_of_few (h : p.IsRebuilt p' schema c r name)
    (timely : p.IsTimely c r) (timely' : p'.IsTimely c r) (apart : p.IsApart)
    (user : a.isHistory = false) (exact : p.IsExact a)
    (silent : ∀ q ∈ p.before, (q.edit a).changes = []) (few : (p.values a).length ≤ 1)
    (name' : DistinguishedName) (v : Octets) :
    v ∈ (p'.outcome schema c r name').entry.values a ↔
      v ∈ (p.outcome schema c r name).entry.values a := by
  have started := started_of_silent timely' (h.silent_before timely timely' silent) schema name'
  have follows : ((p.outcome schema c r name).slot a).Follows (schema.isSingle a) (p.values a)
      (p.after.map (Request.edit a)) := by
    rw [slot_outcome, slot_renamed_of_silent silent]
    have start : (⟨p.values a, .empty⟩ : Slot).Follows (schema.isSingle a) (p.values a) [] :=
      Slot.follows_start (s := ⟨p.values a, .empty⟩) rfl fun _ => few
    refine start.foldl_resolveEdit _ (newer_edits timely.newer_after a) ?_
    rw [List.nil_append, List.forall_mem_map]
    intro q hq
    rw [List.forall_mem_map]
    intro q' hq' stamp
    have distinct : (p.after.map (·.stamp)).Nodup := List.pairwise_map.mpr
      ((List.pairwise_append.mp timely.ascending).2.1.imp fun before => before.ne)
    rw [Request.eq_of_stamp_eq distinct hq' hq stamp]
  refine started.mem_held_iff follows.readsBack follows.reflects.ordered (fun _ => few)
    (h.timeline_eq timely timely' name' a) (fun w hw => ?_) (fun w hw => ?_) v
  · exact (h.mem_values_iff user).mpr ((h.initial a user w).mpr (.inl hw))
  · rcases (h.initial a user w).mp ((h.mem_values_iff user).mp hw) with hw | written
    · exact .inl hw
    · exact .inr ((Renaming.mem_values_iff exact).mpr ⟨.inr written, apart a w written⟩)

/-- The rebuilt course leaves the same values of every attribute that the rename did not touch or that
it was spared. -/
theorem IsRebuilt.mem_outcome_iff (h : p.IsRebuilt p' schema c r name) (timely : p.IsTimely c r)
    (timely' : p'.IsTimely c r) (apart : p.IsApart) (user : a.isHistory = false)
    (spared : p.Touches a → p.Spares schema a) (name' : DistinguishedName) (v : Octets) :
    v ∈ (p'.outcome schema c r name').entry.values a ↔
      v ∈ (p.outcome schema c r name).entry.values a := by
  have same := h.timeline_eq timely timely' name' a
  by_cases touched : p.Touches a
  · have spared := spared touched
    cases single : schema.isSingle a with
    | true =>
      obtain ⟨silent, still | few⟩ := spared.single single
      · exact h.mem_outcome_iff_of_silent timely apart user spared.exact
          (List.forall_mem_append.mpr ⟨silent, still⟩) name' v
      · exact h.mem_outcome_iff_of_few timely timely' apart user spared.exact silent few name' v
    | false =>
      have outcome' := isOutcome timely' (h.isExact timely user spared.exact single) single name'
      rw [h.dropped, h.leaf] at outcome'
      exact (isOutcome timely spared.exact single name).mem_held_iff outcome' same (h.initial a user)
        (apart a) ((isFaithful_iff timely apart spared.exact single name).mpr (spared.multi single)) v
  · have untouched' : ¬p'.Touches a := by
      rintro (own | ⟨old, drops, -⟩)
      · exact touched (.inl (h.leaf ▸ own))
      · rw [h.dropped] at drops
        cases drops
    refine (started_of_not_touches timely' untouched' schema name').mem_held_iff_of_started
      (started_of_not_touches timely touched schema name) (timely.reflects schema name a).ordered
      same (fun w => ?_) v
    rw [h.initial a user w]
    exact or_iff_left fun written => touched (.inl written.1)

end Renaming

end DirectoryHistory
