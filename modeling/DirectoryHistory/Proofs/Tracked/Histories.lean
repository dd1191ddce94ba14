import DirectoryHistory.Proofs.Timeline.Late
import DirectoryHistory.Proofs.Tracked.Storing

/-!
# Histories of requests

The history that requests leave behind is the same in every order if and only if they are steady:
what a request leaves about a value that it is the last to name must not depend on whether a newer
reset of the attribute came before it. A request that adds a value and replaces the attribute later
on by others is not steady, since its replace does not count when it comes late.
-/

namespace DirectoryHistory

namespace Request

variable {requests : List Request} {a : Attribute}

/-- Whether it does not matter in which order the requests come for what each of them leaves. -/
def AreSteady (requests : List Request) : Prop :=
  ∀ r ∈ requests, ∀ m ∈ r.modifications, ∀ v ∈ m.values,
    Edit.IsLastNaming v (requests.map (edit m.attr)) (r.edit m.attr) →
    Edit.override (requests.map (edit m.attr)) r.stamp = true →
    (r.edit m.attr).lateOutcome v = (r.edit m.attr).outcome v

instance : DecidablePred AreSteady := fun _ =>
  inferInstanceAs (Decidable (∀ _ ∈ _, _))

theorem exists_modification_of_names {r : Request} {v : Octets} (h : (r.edit a).names v = true) :
    ∃ m ∈ r.modifications, m.attr = a ∧ v ∈ m.values := by
  obtain ⟨c, hc, named⟩ := List.any_eq_true.mp h
  rw [changes_edit] at hc
  obtain ⟨m, hm, hc⟩ := List.mem_flatMap.mp hc
  obtain ⟨hm, attr⟩ : m ∈ r.modifications ∧ m.attr = a := by simpa using hm
  refine ⟨m, hm, attr, ?_⟩
  simp only [Modification.changes] at hc
  split at hc
  · obtain ⟨w, hw, rfl⟩ := List.mem_map.mp hc
    exact (beq_iff_eq.mp named) ▸ hw
  · split at hc
    · obtain rfl := List.mem_singleton.mp hc
      simp [Change.names] at named
    · obtain ⟨w, hw, rfl⟩ := List.mem_map.mp hc
      exact (beq_iff_eq.mp named) ▸ hw
  · obtain rfl := List.mem_singleton.mp hc
    simpa [Change.names] using named

theorem areSteady_iff :
    AreSteady requests ↔ ∀ a, Edit.IsSteady (requests.map (edit a)) := by
  constructor
  · intro steady a v e last late
    obtain ⟨r, hr, rfl⟩ := List.mem_map.mp last.1
    obtain ⟨m, hm, rfl, hv⟩ := exists_modification_of_names last.2.1
    exact steady r hr m hm v hv last late
  · intro steady r hr m hm v hv last late
    exact steady m.attr v (r.edit m.attr) last late

end Request

namespace Tracked

variable {schema : Schema} {t : Tracked} {requests run run' : List Request}

theorem isOrdered_foldl_afterRequest (ordered : t.history.IsOrdered) (schema : Schema)
    (run : List Request) : (run.foldl (afterRequest schema) t).history.IsOrdered := by
  induction run generalizing t with
  | nil => exact ordered
  | cons r rest ih => exact ih (isOrdered_foldl_step ordered schema r.stamp _)

theorem isReadable_foldl_afterRequest (readable : t.history.IsReadable)
    (valid : ∀ r ∈ run, validateAll schema r.modifications = .ok ())
    (plain : ∀ r ∈ run, ∀ m ∈ r.modifications, m.attr.IsPlain) :
    (run.foldl (afterRequest schema) t).history.IsReadable := by
  induction run generalizing t with
  | nil => exact readable
  | cons r rest ih =>
    have slots := isSlot_of_validateAll (valid r (.head _)) (plain r (.head _))
    exact ih (isReadable_foldl_step readable schema r.stamp slots)
      (fun s hs => valid s (.tail _ hs)) fun s hs => plain s (.tail _ hs)

theorem CanTake.perm (h : t.CanTake schema requests) (perm : run.Perm requests) :
    t.CanTake schema run where
  fresh := h.fresh
  valid r hr := h.valid r (perm.mem_iff.mp hr)
  distinct := (perm.map _).nodup_iff.mpr h.distinct
  newer r hr := h.newer r (perm.mem_iff.mp hr)

theorem CanTake.nodup_edits (h : t.CanTake schema requests) (a : Attribute) :
    ((requests.map (Request.edit a)).map (·.stamp)).Nodup := by
  rw [List.map_map]
  exact h.distinct

/-- Runs of steady requests leave histories that say the same. -/
theorem CanTake.agrees_of_steady (h : t.CanTake schema requests)
    (steady : Request.AreSteady requests) (perm : run.Perm requests) :
    (run.foldl (afterRequest schema) t).history.Agrees
      (requests.foldl (afterRequest schema) t).history where
  created := by simp only [created_foldl_afterRequest]
  renamed := by simp only [renamed_foldl_afterRequest]
  timelines a := by
    rw [timeline_foldl_afterRequest (h.perm perm).newer, timeline_foldl_afterRequest h.newer,
      h.fresh.1 a]
    exact Timeline.foldl_mergeEdit_eq_of_steady (h.nodup_edits a)
      (Request.areSteady_iff.mp steady a) (perm.map _)

theorem CanTake.timeline_eq_of_encode_eq (h : t.CanTake schema requests)
    (plain : ∀ r ∈ requests, ∀ m ∈ r.modifications, m.attr.IsPlain) (perm : run.Perm requests)
    (same : (run.foldl (afterRequest schema) t).history.encode =
      (requests.foldl (afterRequest schema) t).history.encode) (a : Attribute) :
    (run.map (Request.edit a)).foldl Timeline.mergeEdit .empty =
      (requests.map (Request.edit a)).foldl Timeline.mergeEdit .empty := by
  have ordered : t.history.IsOrdered := fun a => h.fresh.1 a ▸ Timeline.ordered_empty
  have readable : t.history.IsReadable := fun a nonempty => absurd (h.fresh.1 a) nonempty
  have taken := h.perm perm
  have plain' : ∀ r ∈ run, ∀ m ∈ r.modifications, m.attr.IsPlain :=
    fun r hr => plain r (perm.mem_iff.mp hr)
  have agrees := History.agrees_of_encode_eq (isOrdered_foldl_afterRequest ordered schema run)
    (isReadable_foldl_afterRequest readable taken.valid plain')
    (isOrdered_foldl_afterRequest ordered schema requests)
    (isReadable_foldl_afterRequest readable h.valid plain) same
  have timelines := agrees.timelines a
  rwa [timeline_foldl_afterRequest taken.newer, timeline_foldl_afterRequest h.newer,
    h.fresh.1 a] at timelines

/-- A request and another one with a newer reset may be brought to the front in both orders. -/
theorem exists_perm_of_override {a : Attribute} {r : Request} (hr : r ∈ requests)
    (late : Edit.override (requests.map (Request.edit a)) r.stamp = true) :
    ∃ r' rest, requests.Perm (r :: r' :: rest) ∧ (r'.edit a).resets = true ∧ r.stamp < r'.stamp := by
  obtain ⟨e, he, resets, newer⟩ := Edit.override_iff.mp late
  obtain ⟨r', hr', rfl⟩ := List.mem_map.mp he
  have newer : r.stamp < r'.stamp := newer
  have other : r' ≠ r := by
    rintro rfl
    exact lt_irrefl _ newer
  have behind : r' ∈ requests.erase r := (List.mem_erase_of_ne other).mpr hr'
  exact ⟨r', (requests.erase r).erase r',
    (List.perm_cons_erase hr).trans ((List.perm_cons_erase behind).cons r), resets, newer⟩

/-- Steady requests leave the same history behind in every order. Others on plain attributes do not:
some two orders leave histories that are written differently. -/
theorem encode_applyAll_eq_iff_areSteady (h : t.CanTake schema requests) :
    (Request.AreSteady requests → ∀ run run', run.Perm requests → run'.Perm requests →
      ∃ u u', t.applyAll schema run = .ok u ∧ t.applyAll schema run' = .ok u' ∧
        u.history.encode = u'.history.encode) ∧
    ((∀ r ∈ requests, ∀ m ∈ r.modifications, m.attr.IsPlain) → ¬Request.AreSteady requests →
      ∃ run run', run.Perm requests ∧ run'.Perm requests ∧
        ∃ u u', t.applyAll schema run = .ok u ∧ t.applyAll schema run' = .ok u' ∧
          u.history.encode ≠ u'.history.encode) := by
  have applied : ∀ {run : List Request}, run.Perm requests →
      t.applyAll schema run = .ok (run.foldl (afterRequest schema) t) :=
    fun perm => h.applyAll_eq fun r => perm.mem_iff.mp
  constructor
  · intro steady run run' perm perm'
    refine ⟨_, _, applied perm, applied perm', ?_⟩
    rw [(h.agrees_of_steady steady perm).encode_eq, (h.agrees_of_steady steady perm').encode_eq]
  · intro plain unsteady
    simp only [Request.AreSteady, not_forall] at unsteady
    obtain ⟨r, hr, m, -, v, -, last, late, differ⟩ := unsteady
    obtain ⟨r', rest, perm, resets, newer⟩ := exists_perm_of_override hr late
    have swapped : (r' :: r :: rest).Perm (r :: r' :: rest) := .swap r r' rest
    refine ⟨_, _, swapped.trans perm.symm, perm.symm, _, _, applied (swapped.trans perm.symm),
      applied perm.symm, fun same => differ ?_⟩
    have taken := h.perm perm.symm
    have timelines := taken.timeline_eq_of_encode_eq
      (fun s hs => plain s (perm.mem_iff.mpr hs)) swapped same m.attr
    have edits := perm.map (Request.edit m.attr)
    exact Timeline.lateOutcome_eq_of_swap (taken.nodup_edits m.attr) (last.of_perm edits.symm)
      resets newer timelines.symm

/-- The newer request clears the attribute; the older one has only single values to speak of. -/
theorem encode_applyAll_eq_newer_clear : ∃ u u',
    (justCreated ⟨1, 0, 1⟩ ⟨"mail", []⟩ [[1]]).applyAll ⟨["uid"]⟩
      [⟨⟨2, 0, 1⟩, [⟨⟨"mail", []⟩, .delete, [[1]]⟩, ⟨⟨"mail", []⟩, .add, [[2]]⟩]⟩,
        ⟨⟨3, 0, 2⟩, [⟨⟨"mail", []⟩, .delete, []⟩, ⟨⟨"mail", []⟩, .add, [[3]]⟩]⟩] = .ok u ∧
    (justCreated ⟨1, 0, 1⟩ ⟨"mail", []⟩ [[1]]).applyAll ⟨["uid"]⟩
      [⟨⟨3, 0, 2⟩, [⟨⟨"mail", []⟩, .delete, []⟩, ⟨⟨"mail", []⟩, .add, [[3]]⟩]⟩,
        ⟨⟨2, 0, 1⟩, [⟨⟨"mail", []⟩, .delete, [[1]]⟩, ⟨⟨"mail", []⟩, .add, [[2]]⟩]⟩] = .ok u' ∧
    u.history.encode = u'.history.encode := by
  let older : Request :=
    ⟨⟨2, 0, 1⟩, [⟨⟨"mail", []⟩, .delete, [[1]]⟩, ⟨⟨"mail", []⟩, .add, [[2]]⟩]⟩
  let newer : Request :=
    ⟨⟨3, 0, 2⟩, [⟨⟨"mail", []⟩, .delete, []⟩, ⟨⟨"mail", []⟩, .add, [[3]]⟩]⟩
  have takes : (justCreated ⟨1, 0, 1⟩ ⟨"mail", []⟩ [[1]]).CanTake ⟨["uid"]⟩ [older, newer] :=
    ⟨History.isFresh_ofCreation _, by decide, by decide, by decide⟩
  have steady : Request.AreSteady [older, newer] := by decide
  exact (encode_applyAll_eq_iff_areSteady takes).1 steady _ _ (.refl _) (.swap older newer [])

/-- A request that adds a value and then replaces the attribute by others is written differently
when a newer replace came first: the value that it added stays an added one. -/
theorem encode_applyAll_ne_newer_replace : ¬∀ (schema : Schema) (t : Tracked) (created : Stamp)
    (requests run run' : List Request), t.history = .ofCreation created →
    t.CanTake schema requests → run.Perm requests → run'.Perm requests →
    ∃ u u', t.applyAll schema run = .ok u ∧ t.applyAll schema run' = .ok u' ∧
      u.history.encode = u'.history.encode := by
  intro converge
  let older : Request :=
    ⟨⟨2, 0, 1⟩, [⟨⟨"mail", []⟩, .add, [[1]]⟩, ⟨⟨"mail", []⟩, .replace, [[2]]⟩]⟩
  let newer : Request := ⟨⟨3, 0, 2⟩, [⟨⟨"mail", []⟩, .replace, [[3]]⟩]⟩
  have takes : (justCreated ⟨1, 0, 1⟩ ⟨"mail", []⟩ []).CanTake ⟨["uid"]⟩ [older, newer] :=
    ⟨History.isFresh_ofCreation _, by decide, by decide, by decide⟩
  obtain ⟨u, u', first, second, same⟩ := converge ⟨["uid"]⟩ _ ⟨1, 0, 1⟩ [older, newer]
    [older, newer] [newer, older] rfl takes (.refl _) (.swap older newer [])
  have differ : ((justCreated ⟨1, 0, 1⟩ ⟨"mail", []⟩ []).applyAll ⟨["uid"]⟩
      [older, newer]).map (·.history.encode) ≠
      ((justCreated ⟨1, 0, 1⟩ ⟨"mail", []⟩ []).applyAll ⟨["uid"]⟩
        [newer, older]).map (·.history.encode) := by decide +kernel
  exact differ (by rw [first, second]; exact congrArg Except.ok same)

end Tracked

end DirectoryHistory
