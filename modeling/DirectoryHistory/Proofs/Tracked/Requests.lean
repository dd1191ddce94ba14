import DirectoryHistory.Proofs.Tracked.Steps
import DirectoryHistory.Proofs.Sort
import Mathlib.Data.Finset.Lattice.Lemmas

/-!
# Runs of requests

Requests are applied to an entry that was created and not changed since, in any order and as often
as they come. A multi-valued attribute then holds what the requests leave when they are executed one
after the other in the order of their stamps. A single-valued attribute never holds more than one
value, and which one does not depend on the order.
-/

namespace DirectoryHistory

namespace Modification

/-- The values of its attribute after the modification, with the plain meaning of directory
requests. -/
def execute (vs : Finset Octets) (m : Modification) : Finset Octets :=
  match m.kind with
  | .add => vs ∪ m.values.toFinset
  | .delete => if m.values = [] then ∅ else vs \ m.values.toFinset
  | .replace => m.values.toFinset

theorem foldl_perform_changes (m : Modification) (vs : Finset Octets) :
    m.changes.foldl Change.perform vs = m.execute vs := by
  have adds : ∀ (ws : List Octets) (vs : Finset Octets),
      (ws.map Change.add).foldl Change.perform vs = vs ∪ ws.toFinset := by
    intro ws
    induction ws with
    | nil => simp
    | cons w ws ih =>
      intro vs
      rw [List.map_cons, List.foldl_cons, ih, Change.perform, List.toFinset_cons,
        Finset.insert_union, Finset.union_insert]
  have deletes : ∀ (ws : List Octets) (vs : Finset Octets),
      (ws.map Change.delete).foldl Change.perform vs = vs \ ws.toFinset := by
    intro ws
    induction ws with
    | nil => simp
    | cons w ws ih =>
      intro vs
      rw [List.map_cons, List.foldl_cons, ih, Change.perform, List.toFinset_cons,
        Finset.sdiff_insert, Finset.erase_sdiff_comm]
  obtain ⟨a, kind, ws⟩ := m
  cases kind with
  | add => exact adds ws vs
  | delete =>
    by_cases h : ws = []
    · simp [changes, execute, h, Change.perform]
    · simp only [changes, execute, h, if_false]
      exact deletes ws vs
  | replace => rfl

end Modification

/-- A modify request with its stamp. -/
structure Request where
  stamp : Stamp
  modifications : List Modification
  deriving DecidableEq, Repr

namespace Request

variable (a : Attribute)

/-- What the request does to `a`. -/
def edit (r : Request) : Edit :=
  ⟨r.stamp, Tracked.changesTo a (requestSteps r.modifications)⟩

/-- The values of `a` after those modifications of the request that concern it. -/
def execute (vs : Finset Octets) (r : Request) : Finset Octets :=
  (r.modifications.filter (·.attr = a)).foldl Modification.execute vs

/-- The values of `a` after all requests were executed one by one, the oldest first. -/
def executeAll (requests : List Request) (vs : Finset Octets) : Finset Octets :=
  (sortBy (fun r s => r.stamp ≤ s.stamp) requests).foldl (execute a) vs

theorem changes_edit (r : Request) :
    (r.edit a).changes = (r.modifications.filter (·.attr = a)).flatMap (·.changes) := by
  have fold : ∀ mods : List Modification, Tracked.changesTo a (requestSteps mods) =
      (mods.filter (·.attr = a)).flatMap (·.changes) := by
    intro mods
    induction mods with
    | nil => rfl
    | cons m rest ih =>
      have split : Tracked.changesTo a (requestSteps (m :: rest)) =
          (if m.attr = a then m.changes else []) ++ Tracked.changesTo a (requestSteps rest) := by
        by_cases h : m.attr = a <;>
          simp [Tracked.changesTo, requestSteps, List.filter_map, Function.comp_def, h]
      by_cases h : m.attr = a <;> simp [split, ih, h]
  exact fold r.modifications

theorem foldl_perform_edit (r : Request) (vs : Finset Octets) :
    (r.edit a).changes.foldl Change.perform vs = r.execute a vs := by
  rw [changes_edit, List.foldl_flatMap]
  simp only [Modification.foldl_perform_changes, execute]

theorem foldl_flatMap_edit (requests : List Request) (vs : Finset Octets) :
    ((requests.map (edit a)).flatMap (·.changes)).foldl Change.perform vs =
      requests.foldl (execute a) vs := by
  induction requests generalizing vs with
  | nil => rfl
  | cons r rest ih =>
    rw [List.map_cons, List.flatMap_cons, List.foldl_append, foldl_perform_edit, ih]
    rfl

theorem eq_of_stamp_eq {requests : List Request} (distinct : (requests.map (·.stamp)).Nodup)
    {r s : Request} (hr : r ∈ requests) (hs : s ∈ requests) (h : r.stamp = s.stamp) : r = s :=
  List.inj_on_of_nodup_map distinct hr hs h

theorem pairwise_sortBy_stamp {requests : List Request}
    (distinct : (requests.map (·.stamp)).Nodup) :
    (sortBy (fun r s => r.stamp ≤ s.stamp) requests).Pairwise (·.stamp < ·.stamp) := by
  have sorted : (sortBy (fun r s : Request => r.stamp ≤ s.stamp) requests).Pairwise
      fun r s => decide (r.stamp ≤ s.stamp) = true :=
    pairwise_sortBy (fun r s => by simpa using le_total r.stamp s.stamp)
      (fun r s u => by simpa using le_trans) requests
  have nodup : (sortBy (fun r s : Request => r.stamp ≤ s.stamp) requests).Pairwise
      fun r s => r.stamp ≠ s.stamp :=
    List.pairwise_map.mp (((sortBy_perm _ requests).map _).nodup_iff.mpr distinct)
  refine (sorted.and nodup).imp fun {r s} h => ?_
  exact lt_of_le_of_ne (by simpa using h.1) h.2

/-- A multi-valued slot that follows what the requests do to `a` holds what they leave when they are
executed in the order of their stamps. -/
theorem toFinset_held_of_follows {s : Slot} {initial : List Octets} {run requests : List Request}
    (h : s.Follows false initial (run.map (edit a))) (distinct : (requests.map (·.stamp)).Nodup)
    (same : ∀ r, r ∈ run ↔ r ∈ requests) :
    s.held.toFinset = executeAll a requests initial.toFinset := by
  let sorted := sortBy (fun r s => r.stamp ≤ s.stamp) requests
  have mem : ∀ e, e ∈ run.map (edit a) ↔ e ∈ sorted.map (edit a) := by
    intro e
    simp only [List.mem_map, same, sorted, (sortBy_perm _ requests).mem_iff]
  have ascending : (sorted.map (edit a)).Pairwise (·.stamp < ·.stamp) :=
    List.pairwise_map.mpr (pairwise_sortBy_stamp distinct)
  ext v
  rw [List.mem_toFinset, executeAll, ← foldl_flatMap_edit]
  exact (h.congr mem).mem_held_iff_perform ascending v

end Request

namespace History

/-- Whether the history holds nothing, or the creation of the entry and nothing else. -/
def IsFresh (h : History) : Prop :=
  (∀ a, h.timeline a = .empty) ∧ h.renamed = none

theorem isFresh_ofCreation (s : Stamp) : (ofCreation s).IsFresh :=
  ⟨fun _ => rfl, rfl⟩

end History

namespace Tracked

/-- The entry after a request whose steps are not rejected. -/
def afterRequest (schema : Schema) (t : Tracked) (r : Request) : Tracked :=
  (requestSteps r.modifications).foldl (step schema r.stamp) t

theorem slot_afterRequest (schema : Schema) (q : Request) (t : Tracked) (a : Attribute) :
    (t.afterRequest schema q).slot a =
      (t.slot a).resolveEdit (schema.isSingle a) t.history.created (q.edit a) :=
  slot_foldl_step _ t a

/-- Applies requests one after the other, none of them abandoned. -/
def applyAll (schema : Schema) (t : Tracked) : List Request → Except Rejection Tracked
  | [] => .ok t
  | r :: rest =>
    match t.applyRequest schema r.modifications r.stamp fun _ => false with
    | .error e => .error e
    | .ok (_, _, t) => applyAll schema t rest

variable {schema : Schema} {t : Tracked} {a : Attribute} {r : Request} {run : List Request}

theorem applyRequest_of_valid (valid : validateAll schema r.modifications = .ok ())
    (abandon : Nat → Bool) (t : Tracked) :
    ∃ ending tally, ∃ n ≤ (requestSteps r.modifications).length,
      t.applyRequest schema r.modifications r.stamp abandon = .ok (ending, tally,
        ((requestSteps r.modifications).take n).foldl (step schema r.stamp) t) ∧
      tally.total = n ∧ (ending = .completed → n = (requestSteps r.modifications).length) ∧
      ((∀ k, abandon k = false) → ending = .completed) := by
  obtain ⟨ending, tally, n, hn, result, total, completed⟩ :=
    applySteps_of_accepts (accepts_of_validateAll valid) r.stamp abandon .zero t
  refine ⟨ending, tally, n, hn, ?_, by simpa [Tally.zero, Tally.total] using total, completed⟩
  rw [applyRequest, valid]
  exact result

/-- What is left of a request that was not rejected are its first steps. -/
theorem exists_take_of_applyRequest {mods : List Modification} {stamp : Stamp}
    {abandon : Nat → Bool} {ending : Ending} {tally : Tally} {t' : Tracked}
    (h : t.applyRequest schema mods stamp abandon = .ok (ending, tally, t')) :
    validateAll schema mods = .ok () ∧
      ∃ n, t' = ((requestSteps mods).take n).foldl (step schema stamp) t := by
  cases valid : validateAll schema mods with
  | error e => simp [applyRequest, valid] at h
  | ok =>
    obtain ⟨_, _, n, -, result, -⟩ :=
      applyRequest_of_valid (r := ⟨stamp, mods⟩) valid abandon t
    rw [h] at result
    cases result
    exact ⟨rfl, n, rfl⟩

theorem applyRequest_eq (valid : validateAll schema r.modifications = .ok ()) (t : Tracked) :
    ∃ tally, t.applyRequest schema r.modifications r.stamp (fun _ => false) =
      .ok (.completed, tally, t.afterRequest schema r) := by
  obtain ⟨ending, tally, n, -, result, -, completed, never⟩ :=
    applyRequest_of_valid valid (fun _ => false) t
  obtain rfl := never fun _ => rfl
  rw [completed rfl, List.take_length] at result
  exact ⟨tally, result⟩

theorem applyAll_eq (valid : ∀ r ∈ run, validateAll schema r.modifications = .ok ())
    (t : Tracked) : t.applyAll schema run = .ok (run.foldl (afterRequest schema) t) := by
  induction run generalizing t with
  | nil => rfl
  | cons r rest ih =>
    obtain ⟨tally, first⟩ := applyRequest_eq (valid r (.head _)) t
    simp only [applyAll, first]
    exact ih (fun r hr => valid r (.tail _ hr)) _

theorem created_foldl_afterRequest (schema : Schema) (run : List Request) (t : Tracked) :
    (run.foldl (afterRequest schema) t).history.created = t.history.created := by
  induction run generalizing t with
  | nil => rfl
  | cons r rest ih => rw [List.foldl_cons, ih, afterRequest, created_foldl_step]

@[simp] theorem renamed_foldl_afterRequest (schema : Schema) (run : List Request) (t : Tracked) :
    (run.foldl (afterRequest schema) t).history.renamed = t.history.renamed := by
  induction run generalizing t with
  | nil => rfl
  | cons r rest ih => rw [List.foldl_cons, ih, afterRequest, renamed_foldl_step]

theorem name_foldl_afterRequest (schema : Schema) (run : List Request) (t : Tracked) :
    (run.foldl (afterRequest schema) t).entry.name = t.entry.name := by
  induction run generalizing t with
  | nil => rfl
  | cons r rest ih => rw [List.foldl_cons, ih, afterRequest, name_foldl_step]

theorem slot_foldl_afterRequest (run : List Request) (t : Tracked) (a : Attribute) :
    (run.foldl (afterRequest schema) t).slot a = (run.map (Request.edit a)).foldl
      (Slot.resolveEdit (schema.isSingle a) t.history.created) (t.slot a) := by
  induction run generalizing t with
  | nil => rfl
  | cons r rest ih =>
    rw [List.foldl_cons, ih, afterRequest, slot_foldl_step, created_foldl_step]
    rfl

/-- The timeline of every attribute is the one of the edits of it. -/
theorem timeline_foldl_afterRequest (newer : ∀ r ∈ run, ∀ c ∈ t.history.created, c < r.stamp)
    (a : Attribute) : (run.foldl (afterRequest schema) t).history.timeline a =
      (run.map (Request.edit a)).foldl Timeline.mergeEdit (t.history.timeline a) := by
  have newer' : ∀ e ∈ run.map (Request.edit a), ∀ c ∈ t.history.created, c < e.stamp := by
    rw [List.forall_mem_map]
    exact newer
  rw [← timeline_slot, slot_foldl_afterRequest, Slot.timeline_foldl_resolveEdit newer',
    timeline_slot]

/-- The entry was created and not changed since, and the requests are valid ones for it, each with a
stamp of its own that is newer than the creation. -/
structure CanTake (schema : Schema) (t : Tracked) (requests : List Request) : Prop where
  fresh : t.history.IsFresh
  valid : ∀ r ∈ requests, validateAll schema r.modifications = .ok ()
  distinct : (requests.map (·.stamp)).Nodup
  newer : ∀ r ∈ requests, ∀ c ∈ t.history.created, c < r.stamp

variable {requests : List Request}

theorem CanTake.applyAll_eq (h : t.CanTake schema requests) (only : ∀ r ∈ run, r ∈ requests) :
    t.applyAll schema run = .ok (run.foldl (afterRequest schema) t) :=
  Tracked.applyAll_eq (fun r hr => h.valid r (only r hr)) t

/-- The slot of every attribute follows what the requests do to it. -/
theorem CanTake.follows (h : t.CanTake schema requests) (only : ∀ r ∈ run, r ∈ requests)
    (few : schema.isSingle a = true → (t.entry.values a).length ≤ 1) :
    ((run.foldl (afterRequest schema) t).slot a).Follows (schema.isSingle a) (t.entry.values a)
      (run.map (Request.edit a)) := by
  rw [slot_foldl_afterRequest]
  have start : (t.slot a).Follows (schema.isSingle a) (t.entry.values a) [] :=
    Slot.follows_start (s := t.slot a) (h.fresh.1 a) few
  have newer : ∀ e ∈ run.map (Request.edit a), ∀ c ∈ t.history.created, c < e.stamp := by
    rw [List.forall_mem_map]
    exact fun r hr => h.newer r (only r hr)
  apply start.foldl_resolveEdit _ newer
  simp only [List.nil_append, List.forall_mem_map]
  intro r hr s hs stamps
  rw [Request.eq_of_stamp_eq h.distinct (only s hs) (only r hr) stamps]

/-- A multi-valued attribute ends up with what the requests leave when each of them is executed once
in the order of their stamps. -/
theorem applyAll_eq_executeAll (multi : schema.isSingle a = false)
    (h : t.CanTake schema requests) (same : ∀ r, r ∈ run ↔ r ∈ requests) :
    ∃ t', t.applyAll schema run = .ok t' ∧ (t'.entry.values a).toFinset =
      Request.executeAll a requests (t.entry.values a).toFinset := by
  refine ⟨_, h.applyAll_eq fun r => (same r).mp, ?_⟩
  have follows := h.follows (a := a) (fun r => (same r).mp) (by simp [multi])
  rw [multi] at follows
  exact Request.toFinset_held_of_follows a follows h.distinct same

/-- An entry right after its creation at `stamp`, with the values `vs` of `a` alone. -/
def justCreated (stamp : Stamp) (a : Attribute) (vs : List Octets) : Tracked :=
  ⟨(Entry.make .root (.uniform 0)).setValues a vs, .ofCreation stamp⟩

/-- The newer request comes first, once more later, and clears what the older one did before it adds
a value again. -/
theorem applyAll_eq_executeAll_newer_first :
    ∃ t', (justCreated ⟨1, 0, 1⟩ ⟨"mail", []⟩ [[1], [2]]).applyAll ⟨["uid"]⟩
      [⟨⟨3, 0, 2⟩, [⟨⟨"mail", []⟩, .delete, []⟩, ⟨⟨"mail", []⟩, .add, [[3]]⟩]⟩,
        ⟨⟨2, 0, 1⟩, [⟨⟨"mail", []⟩, .replace, [[1], [4]]⟩]⟩,
        ⟨⟨3, 0, 2⟩, [⟨⟨"mail", []⟩, .delete, []⟩, ⟨⟨"mail", []⟩, .add, [[3]]⟩]⟩] = .ok t' ∧
      (t'.entry.values ⟨"mail", []⟩).toFinset = {[3]} := by
  let older : Request := ⟨⟨2, 0, 1⟩, [⟨⟨"mail", []⟩, .replace, [[1], [4]]⟩]⟩
  let newer : Request :=
    ⟨⟨3, 0, 2⟩, [⟨⟨"mail", []⟩, .delete, []⟩, ⟨⟨"mail", []⟩, .add, [[3]]⟩]⟩
  have takes : (justCreated ⟨1, 0, 1⟩ ⟨"mail", []⟩ [[1], [2]]).CanTake ⟨["uid"]⟩
      [older, newer] := ⟨History.isFresh_ofCreation _, by decide, by decide, by decide⟩
  have same : ∀ r, r ∈ [newer, older, newer] ↔ r ∈ [older, newer] := by simp [or_comm]
  obtain ⟨t', run, values⟩ := applyAll_eq_executeAll (a := ⟨"mail", []⟩) (by decide) takes same
  exact ⟨t', run, values.trans (by decide)⟩

/-- A single-valued attribute ends up the same in every order, and wherever a run is interrupted it
holds one value at most. -/
theorem applyAll_single_valued (single : schema.isSingle a = true)
    (few : (t.entry.values a).length ≤ 1) (h : t.CanTake schema requests) {run' : List Request}
    (same : ∀ r, r ∈ run ↔ r ∈ requests) (same' : ∀ r, r ∈ run' ↔ r ∈ requests) :
    (∃ u u', t.applyAll schema run = .ok u ∧ t.applyAll schema run' = .ok u' ∧
      u.entry.values a = u'.entry.values a) ∧
    ∀ before r after, run = before ++ r :: after → ∀ abandon, ∃ u ending tally u',
      t.applyAll schema before = .ok u ∧
      u.applyRequest schema r.modifications r.stamp abandon = .ok (ending, tally, u') ∧
      (u'.entry.values a).length ≤ 1 := by
  constructor
  · refine ⟨_, _, h.applyAll_eq fun r => (same r).mp, h.applyAll_eq fun r => (same' r).mp, ?_⟩
    have left := h.follows (a := a) (fun r => (same r).mp) fun _ => few
    have right := h.follows (a := a) (fun r => (same' r).mp) fun _ => few
    have mem : ∀ e, e ∈ run'.map (Request.edit a) ↔ e ∈ run.map (Request.edit a) := by
      intro e
      simp only [List.mem_map, same, same']
    rw [single] at left right
    exact left.held_eq (right.congr mem)
  · rintro before r after rfl abandon
    have only : ∀ s ∈ before, s ∈ requests := fun s hs => (same s).mp (by simp [hs])
    have hr : r ∈ requests := (same r).mp (by simp)
    obtain ⟨ending, tally, n, -, result, -⟩ := applyRequest_of_valid (h.valid r hr) abandon
      (before.foldl (afterRequest schema) t)
    refine ⟨_, ending, tally, _, h.applyAll_eq only, result, ?_⟩
    have follows := h.follows (a := a) only fun _ => few
    have reads := follows.readsBack.resolveEdit
      (e := ⟨r.stamp, changesTo a ((requestSteps r.modifications).take n)⟩)
      follows.reflects.ordered follows.few (h.newer r hr)
    rw [← created_foldl_afterRequest schema before t, ← slot_foldl_step, single] at reads
    exact reads.length_held_le

/-- Two replicas swap the value for another one. -/
theorem applyAll_single_valued_swaps :
    ∃ u u', (justCreated ⟨1, 0, 1⟩ ⟨"uid", []⟩ [[1]]).applyAll ⟨["uid"]⟩
        [⟨⟨2, 0, 1⟩, [⟨⟨"uid", []⟩, .delete, [[1]]⟩, ⟨⟨"uid", []⟩, .add, [[2]]⟩]⟩,
          ⟨⟨2, 0, 2⟩, [⟨⟨"uid", []⟩, .delete, [[1]]⟩, ⟨⟨"uid", []⟩, .add, [[3]]⟩]⟩] = .ok u ∧
      (justCreated ⟨1, 0, 1⟩ ⟨"uid", []⟩ [[1]]).applyAll ⟨["uid"]⟩
        [⟨⟨2, 0, 2⟩, [⟨⟨"uid", []⟩, .delete, [[1]]⟩, ⟨⟨"uid", []⟩, .add, [[3]]⟩]⟩,
          ⟨⟨2, 0, 1⟩, [⟨⟨"uid", []⟩, .delete, [[1]]⟩, ⟨⟨"uid", []⟩, .add, [[2]]⟩]⟩] = .ok u' ∧
      u.entry.values ⟨"uid", []⟩ = u'.entry.values ⟨"uid", []⟩ := by
  let one : Request :=
    ⟨⟨2, 0, 1⟩, [⟨⟨"uid", []⟩, .delete, [[1]]⟩, ⟨⟨"uid", []⟩, .add, [[2]]⟩]⟩
  let two : Request :=
    ⟨⟨2, 0, 2⟩, [⟨⟨"uid", []⟩, .delete, [[1]]⟩, ⟨⟨"uid", []⟩, .add, [[3]]⟩]⟩
  have takes : (justCreated ⟨1, 0, 1⟩ ⟨"uid", []⟩ [[1]]).CanTake ⟨["uid"]⟩ [one, two] :=
    ⟨History.isFresh_ofCreation _, by decide, by decide, by decide⟩
  have same : ∀ r, r ∈ [two, one] ↔ r ∈ [one, two] := by simp [or_comm]
  exact (applyAll_single_valued (a := ⟨"uid", []⟩) (by decide) (by decide) takes
    (fun _ => Iff.rfl) same).1

end Tracked

end DirectoryHistory
