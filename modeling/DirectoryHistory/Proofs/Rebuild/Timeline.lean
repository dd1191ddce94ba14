import DirectoryHistory.Proofs.Timeline.Late
import DirectoryHistory.Rebuild
import DirectoryHistory.Tracked

/-!
# Rebuilding a timeline

The modifications that a timeline stands for make one edit for every stamp. The edits reset the
attribute where it was last reset, and name every value where it was last named. Merged in any
order, they give the timeline back.
-/

namespace DirectoryHistory

namespace Rebuilt

variable {a : Attribute} {t : Timeline} {s : Stamp} {v : Octets} {m : Mark}

/-- The edit that the modifications of one stamp make. -/
def editAt (a : Attribute) (t : Timeline) (s : Stamp) : Edit :=
  ⟨s, ((modifications a t).filter (·.1 = s)).flatMap (·.2.changes)⟩

theorem mem_resetValues : v ∈ resetValues t s ↔ ⟨v, .added, s⟩ ∈ t.marks := by
  simp only [resetValues, List.mem_map, List.mem_filter, Bool.and_eq_true, beq_iff_eq]
  constructor
  · rintro ⟨⟨w, x, r⟩, ⟨hm, rfl, rfl⟩, rfl⟩
    exact hm
  · intro hm
    exact ⟨_, ⟨hm, rfl, rfl⟩, rfl⟩

theorem mem_modifications {p : Stamp × Modification} : p ∈ modifications a t ↔
    (∃ r, t.lastReset = some r ∧ p = (r, resetModification a t r)) ∨
      ∃ m ∈ t.marks, (m.sense = .added → t.lastReset ≠ some m.stamp) ∧
        p = (m.stamp, markModification a m) := by
  simp only [modifications, List.mem_append, Option.mem_toList, Option.map_eq_some_iff,
    List.mem_map, List.mem_filter, eq_comm (b := p)]
  refine or_congr Iff.rfl (exists_congr fun m => ?_)
  simp only [Bool.not_eq_true', Bool.and_eq_false_iff, beq_eq_false_iff_ne, and_assoc]
  refine and_congr_right fun _ => and_congr_left fun _ => ?_
  constructor
  · intro h hx
    exact h.resolve_left (not_not.mpr hx)
  · intro h
    by_cases hx : m.sense = .added
    · exact .inr (h hx)
    · exact .inl hx

theorem attr_of_mem_modifications {p : Stamp × Modification} (h : p ∈ modifications a t) :
    p.2.attr = a := by
  rcases mem_modifications.mp h with ⟨r, -, rfl⟩ | ⟨m, -, -, rfl⟩
  · rfl
  · rfl

theorem changes_resetModification (a : Attribute) (t : Timeline) (s : Stamp) :
    (resetModification a t s).changes =
      if resetValues t s = [] then [.clear] else [.replace (resetValues t s)] := by
  by_cases h : resetValues t s = [] <;> simp [resetModification, Modification.changes, h]

theorem changes_markModification (a : Attribute) (m : Mark) :
    (markModification a m).changes = [match m.sense with
      | .added => .add m.value
      | .deleted => .delete m.value] := by
  obtain ⟨v, x, s⟩ := m
  cases x <;> rfl

/-- The reset adds the values that were added at its stamp and deletes all others. -/
theorem of_mem_changes_resetModification {c : Change}
    (h : c ∈ (resetModification a t s).changes) : c.resets = true ∧
      (c.names v = true ↔ v ∈ resetValues t s) ∧
      c.outcome v = some (if v ∈ resetValues t s then .added else .deleted) := by
  rw [changes_resetModification] at h
  split at h
  · next none =>
    obtain rfl := List.mem_singleton.mp h
    simp [Change.resets, Change.names, Change.outcome, none]
  · obtain rfl := List.mem_singleton.mp h
    by_cases hv : v ∈ resetValues t s <;>
      simp [Change.resets, Change.names, Change.outcome, hv]

theorem of_mem_changes_markModification {c : Change} (h : c ∈ (markModification a m).changes) :
    c.resets = false ∧ (c.names v = true ↔ m.value = v) ∧
      c.outcome v = if m.value = v then some m.sense else none := by
  rw [changes_markModification] at h
  obtain rfl := List.mem_singleton.mp h
  obtain ⟨w, x, s⟩ := m
  cases x <;> simp [Change.resets, Change.names, Change.outcome]

theorem mem_changes_editAt {c : Change} : c ∈ (editAt a t s).changes ↔
    t.lastReset = some s ∧ c ∈ (resetModification a t s).changes ∨
      ∃ m ∈ t.marks, (m.sense = .added → t.lastReset ≠ some m.stamp) ∧ m.stamp = s ∧
        c ∈ (markModification a m).changes := by
  simp only [editAt, List.mem_flatMap, List.mem_filter, mem_modifications, decide_eq_true_eq]
  constructor
  · rintro ⟨-, ⟨⟨r, hr, rfl⟩ | ⟨m, hm, apart, rfl⟩, rfl⟩, hc⟩
    · exact .inl ⟨hr, hc⟩
    · exact .inr ⟨m, hm, apart, rfl, hc⟩
  · rintro (⟨hr, hc⟩ | ⟨m, hm, apart, rfl, hc⟩)
    · exact ⟨_, ⟨.inl ⟨s, hr, rfl⟩, rfl⟩, hc⟩
    · exact ⟨_, ⟨.inr ⟨m, hm, apart, rfl⟩, rfl⟩, hc⟩

theorem resets_editAt : (editAt a t s).resets = true ↔ t.lastReset = some s := by
  rw [Edit.resets, List.any_eq_true]
  constructor
  · rintro ⟨c, hc, resets⟩
    rcases mem_changes_editAt.mp hc with ⟨hr, -⟩ | ⟨m, -, -, -, hc⟩
    · exact hr
    · simp [(of_mem_changes_markModification (v := []) hc).1] at resets
  · intro hr
    obtain ⟨c, hc⟩ : ∃ c, c ∈ (resetModification a t s).changes := by
      rw [changes_resetModification]
      split
      · exact ⟨_, .head _⟩
      · exact ⟨_, .head _⟩
    exact ⟨c, mem_changes_editAt.mpr (.inl ⟨hr, hc⟩),
      (of_mem_changes_resetModification (v := []) hc).1⟩

theorem names_editAt : (editAt a t s).names v = true ↔
    ∃ m ∈ t.marks, m.value = v ∧ m.stamp = s := by
  rw [Edit.names, List.any_eq_true]
  constructor
  · rintro ⟨c, hc, named⟩
    rcases mem_changes_editAt.mp hc with ⟨-, reset⟩ | ⟨m, hm, -, stamp, mark⟩
    · have added := (of_mem_changes_resetModification reset).2.1.mp named
      exact ⟨_, mem_resetValues.mp added, rfl, rfl⟩
    · exact ⟨m, hm, (of_mem_changes_markModification mark).2.1.mp named, stamp⟩
  · rintro ⟨⟨w, x, r⟩, hm, rfl, rfl⟩
    by_cases part : x = .added ∧ t.lastReset = some r
    · obtain ⟨rfl, hr⟩ := part
      have added : w ∈ resetValues t r := mem_resetValues.mpr hm
      refine ⟨.replace (resetValues t r), mem_changes_editAt.mpr (.inl ⟨hr, ?_⟩), ?_⟩
      · rw [changes_resetModification, if_neg (List.ne_nil_of_mem added)]
        exact .head _
      · simpa [Change.names] using added
    · have apart : x = .added → t.lastReset ≠ some r := fun hx hr => part ⟨hx, hr⟩
      obtain ⟨c, hc⟩ : ∃ c, c ∈ (markModification a ⟨w, x, r⟩).changes := by
        rw [changes_markModification]
        exact ⟨_, .head _⟩
      exact ⟨c, mem_changes_editAt.mpr (.inr ⟨_, hm, apart, rfl, hc⟩),
        (of_mem_changes_markModification hc).2.1.mpr rfl⟩

theorem outcome_editAt (ordered : t.Ordered) (hm : m ∈ t.marks) :
    (editAt a t m.stamp).outcome m.value = some m.sense := by
  refine Edit.outcomeOf_eq_of_agree (names_editAt.mpr ⟨m, hm, rfl, rfl⟩) fun c hc y hy => ?_
  rcases mem_changes_editAt.mp hc with ⟨-, hc⟩ | ⟨n, hn, -, -, hc⟩
  · rw [(of_mem_changes_resetModification hc).2.2, Option.mem_some_iff] at hy
    rw [← hy]
    -- A mark of another sense would be a second one about the value.
    split
    · next added =>
      exact congrArg Mark.sense (ordered.distinct _ (mem_resetValues.mp added) m hm rfl)
    · next others =>
      obtain ⟨v, x, s⟩ := m
      cases x with
      | added => exact absurd (mem_resetValues.mpr hm) others
      | deleted => rfl
  · rw [(of_mem_changes_markModification hc).2.2] at hy
    split at hy
    · next same => rw [← ordered.distinct n hn m hm same, ← Option.mem_some_iff.mp hy]
    · cases hy

variable {es : List Edit}

/-- The list holds an edit of the timeline for every stamp at which it says something. -/
structure Covers (a : Attribute) (t : Timeline) (es : List Edit) : Prop where
  distinct : (es.map (·.stamp)).Nodup
  form : ∀ e ∈ es, e = editAt a t e.stamp
  reset : ∀ s, t.lastReset = some s → ∃ e ∈ es, e.stamp = s
  marks : ∀ m ∈ t.marks, ∃ e ∈ es, e.stamp = m.stamp

theorem Covers.resets_iff (h : Covers a t es) {e : Edit} (he : e ∈ es) :
    e.resets = true ↔ t.lastReset = some e.stamp := by
  rw [h.form e he, resets_editAt]
  rfl

theorem Covers.names_iff (h : Covers a t es) {e : Edit} (he : e ∈ es) :
    e.names v = true ↔ ∃ m ∈ t.marks, m.value = v ∧ m.stamp = e.stamp := by
  rw [h.form e he, names_editAt]
  rfl

/-- Only the edit of the last reset resets the attribute, and no other one is newer than a reset. -/
theorem Covers.isSteady (h : Covers a t es) : Edit.IsSteady es := by
  intro v e last late
  obtain ⟨r, hr, resets, newer⟩ := Edit.override_iff.mp late
  have reset := (h.resets_iff hr).mp resets
  apply Edit.lateOutcomeOf_eq_of_not_resets
  have other : ¬e.resets = true := by
    rw [h.resets_iff last.1, reset]
    exact fun same => newer.ne (Option.some.inj same).symm
  exact Bool.eq_false_iff.mpr other

theorem Covers.isNewest_resets (h : Covers a t es) :
    Edit.IsNewest Edit.resets es t.lastReset := by
  constructor
  · intro s hs
    obtain ⟨e, he, rfl⟩ := h.reset s hs
    exact ⟨e, he, (h.resets_iff he).mpr hs, rfl⟩
  · intro e he resets
    exact ⟨e.stamp, (h.resets_iff he).mp resets, le_rfl⟩

/-- The edit at the stamp of a mark is the only one that names the value. -/
theorem Covers.isLastNaming (h : Covers a t es) (ordered : t.Ordered) (hm : m ∈ t.marks)
    {e : Edit} (he : e ∈ es) (stamp : e.stamp = m.stamp) : e.IsLastNaming m.value es := by
  refine ⟨he, (h.names_iff he).mpr ⟨m, hm, rfl, stamp.symm⟩, fun f hf named => ?_⟩
  obtain ⟨n, hn, same, stamp'⟩ := (h.names_iff hf).mp named
  rw [stamp, ← stamp', ordered.distinct n hn m hm same]

/-- Merged in any order, the edits of a timeline give it back. -/
theorem Covers.foldl_mergeEdit (h : Covers a t es) (ordered : t.Ordered) :
    es.foldl Timeline.mergeEdit .empty = t := by
  have reflects := Timeline.reflects_foldl_mergeEdit h.distinct
  refine reflects.ordered.ext ordered (reflects.resets.unique h.isNewest_resets) fun v => ?_
  cases hm : t.mark? v with
  | none =>
    refine reflects.mark?_eq_none_iff.mpr fun e he => Bool.eq_false_iff.mpr fun named => ?_
    obtain ⟨m, hm', rfl, -⟩ := (h.names_iff he).mp named
    rw [ordered.mark?_eq_some_iff.mpr ⟨hm', rfl⟩] at hm
    cases hm
  | some m =>
    obtain ⟨member, rfl⟩ := ordered.mark?_eq_some_iff.mp hm
    obtain ⟨e, he, stamp⟩ := h.marks m member
    rw [Timeline.mark?_foldl_mergeEdit_of_steady h.distinct h.isSteady (.refl es)
      (h.isLastNaming ordered member he stamp), h.form e he, stamp, outcome_editAt ordered member]
    rfl

end Rebuilt

end DirectoryHistory
