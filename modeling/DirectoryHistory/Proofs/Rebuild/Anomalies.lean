import DirectoryHistory.Proofs.Rebuild.Requests
import DirectoryHistory.Proofs.Slot.Started

/-!
# Values without anomalies

An anomaly contradicts the held values of one attribute by one of its marks. There is none as long as
the held values can be read back from the timeline.
-/

namespace DirectoryHistory

namespace Slot

/-- The held values do not contradict the timeline: a deleted value is not held, an asserted one is,
and a single-valued attribute holds something if anything is asserted. -/
structure IsFaithful (single : Bool) (s : Slot) : Prop where
  absent : ∀ m ∈ s.timeline.marks, m.sense = .deleted → m.value ∉ s.held
  present : single = false → ∀ v, s.timeline.asserts v = true → v ∈ s.held
  filled : single = true → s.held = [] → s.timeline.asserted = []

variable {single : Bool} {initial : List Octets} {s : Slot}

theorem isFaithful_of_unmarked (single : Bool) (h : s.timeline.marks = []) :
    s.IsFaithful single where
  absent m hm := by
    rw [h] at hm
    cases hm
  present _ v asserted := by
    obtain ⟨m, hm, -⟩ := Timeline.asserts_iff.mp asserted
    have member := Timeline.mem_of_mark? hm
    rw [h] at member
    cases member
  filled _ _ := by
    rw [Timeline.asserted, h]
    rfl

theorem ReadsBack.isFaithful (h : s.ReadsBack single initial) (ht : s.timeline.Ordered) :
    s.IsFaithful single := by
  have deleted : ∀ m ∈ s.timeline.marks, m.sense = .deleted →
      m.value ∉ kept initial s.timeline ∧ ¬s.timeline.asserts m.value = true := by
    intro m hm sense
    have mark := ht.mark?_eq_some_iff.mpr ⟨hm, rfl⟩
    refine ⟨fun hk => ?_, fun ha => ?_⟩
    · have unmarked := (mem_kept.mp hk).2.1
      rw [mark] at unmarked
      cases unmarked
    · obtain ⟨n, hn, upheld⟩ := Timeline.asserts_iff.mp ha
      obtain rfl : m = n := Option.some.inj (mark.symm.trans hn)
      have added := (Timeline.upholds_iff.mp upheld).1
      rw [sense] at added
      cases added
  cases single with
  | false =>
    refine ⟨fun m hm sense hv => ?_, fun _ v asserted => (h v).mpr (.inr asserted), nofun⟩
    obtain ⟨unkept, unasserted⟩ := deleted m hm sense
    exact ((h m.value).mp hv).elim unkept unasserted
  | true =>
    have held : s.held = ((kept initial s.timeline).head?.or
      (s.timeline.asserted.head?.map (·.value))).toList := h
    refine ⟨fun m hm sense hv => ?_, nofun, fun _ nothing => ?_⟩
    · obtain ⟨unkept, unasserted⟩ := deleted m hm sense
      rw [held, Option.mem_toList, Option.or_eq_some_iff] at hv
      rcases hv with hv | ⟨-, hv⟩
      · exact unkept (List.mem_of_mem_head? hv)
      · obtain ⟨n, hn, same⟩ := Option.map_eq_some_iff.mp hv
        refine unasserted (ht.mem_map_asserted.mp ?_)
        exact same ▸ List.mem_map_of_mem (List.mem_of_mem_head? hn)
    · rw [nothing, eq_comm, Option.toList_eq_nil_iff, Option.or_eq_none_iff] at held
      simpa using held.2

theorem Started.isFaithful (h : s.Started single initial) (ht : s.timeline.Ordered) :
    s.IsFaithful single := by
  cases single with
  | false =>
    have read : s.ReadsBack false initial := h
    exact read.isFaithful ht
  | true =>
    have started : s.StartedSingle initial := h
    rcases started with ⟨untouched, -⟩ | ⟨-, first, -, -, -, read⟩
    · exact isFaithful_of_unmarked true (by simp [untouched, Timeline.empty])
    · exact read.isFaithful ht

theorem IsFaithful.markAnomaly?_eq_none (h : s.IsFaithful single) (ht : s.timeline.Ordered)
    (a : Attribute) {m : Mark} (hm : m ∈ s.timeline.marks) :
    Rebuilt.markAnomaly? single s.held a s.timeline m = none := by
  obtain ⟨v, x, r⟩ := m
  cases x with
  | deleted => simpa [Rebuilt.markAnomaly?] using h.absent _ hm rfl
  | added =>
    simp only [Rebuilt.markAnomaly?, Rebuilt.isExpected]
    refine if_neg fun missing => ?_
    simp only [Bool.and_eq_true, Bool.or_eq_true, Bool.not_eq_true', List.isEmpty_iff,
      List.contains_eq_mem, decide_eq_false_iff_not] at missing
    obtain ⟨⟨asserted, expected⟩, absent⟩ := missing
    rcases expected with multi | ⟨nothing, -⟩
    · exact absent (h.present multi v asserted)
    · cases single with
      | false => exact absent (h.present rfl v asserted)
      | true =>
        have member := ht.mem_map_asserted.mpr asserted
        simp [h.filled rfl nothing] at member

end Slot

/-- The attribute that an anomaly is about. -/
def Anomaly.attr? : Anomaly → Option Attribute
  | .noCreation => none
  | .deletedPresent a _ _ => some a
  | .addedMissing a _ _ => some a

namespace Rebuilt

variable {schema : Schema} {e : Entry} {h : History} {x : Anomaly}

theorem attr?_of_markAnomaly? {single : Bool} {held : List Octets} {a : Attribute} {t : Timeline}
    {m : Mark} (hx : markAnomaly? single held a t m = some x) : x.attr? = some a := by
  obtain ⟨v, y, s⟩ := m
  cases y with
  | added | deleted =>
    simp only [markAnomaly?, Option.ite_none_right_eq_some, Option.some.injEq] at hx
    rw [← hx.2]
    rfl

/-- An anomaly of an entry whose creation is known is about an attribute whose values contradict the
timeline. -/
theorem exists_of_mem_anomaliesOf (ordered : h.IsOrdered) (created : h.created.isSome = true)
    (hx : x ∈ anomaliesOf schema e h) : ∃ a, x.attr? = some a ∧ h.timeline a ≠ .empty ∧
      ¬Slot.IsFaithful (schema.isSingle a) ⟨e.values a, h.timeline a⟩ := by
  have known : h.created.isNone = false := by
    cases hc : h.created <;> simp [hc] at created ⊢
  rw [anomaliesOf, known, if_neg Bool.false_ne_true, List.nil_append, List.mem_flatMap] at hx
  obtain ⟨⟨a, t⟩, ht, hx⟩ := hx
  obtain ⟨m, hm, hx⟩ := List.mem_filterMap.mp hx
  have timeline : h.timeline a = t := by
    rw [History.timeline, Table.mem_toList_iff.mp ht]
    rfl
  refine ⟨a, attr?_of_markAnomaly? hx, fun nothing => ?_, fun faithful => ?_⟩
  · obtain rfl : t = .empty := timeline.symm.trans nothing
    cases hm
  · subst timeline
    have none := faithful.markAnomaly?_eq_none (ordered a) a hm
    simp only at none
    rw [none] at hx
    cases hx

theorem exists_anomaly_of_not_isFaithful {a : Attribute} (ordered : h.IsOrdered)
    (multi : schema.isSingle a = false)
    (unfaithful : ¬Slot.IsFaithful false ⟨e.values a, h.timeline a⟩) :
    ∃ x ∈ anomaliesOf schema e h, x.attr? = some a := by
  by_contra none
  refine unfaithful ?_
  have silent : ∀ m ∈ (h.timeline a).marks,
      markAnomaly? false (e.values a) a (h.timeline a) m = .none := by
    intro m hm
    by_contra some
    obtain ⟨x, hx⟩ := Option.ne_none_iff_exists'.mp some
    have listed : h.timelines.get? a ≠ .none := by
      intro missing
      rw [History.timeline, missing] at hm
      cases hm
    obtain ⟨t, listed⟩ := Option.ne_none_iff_exists'.mp listed
    have timeline : h.timeline a = t := by
      rw [History.timeline, listed]
      rfl
    rw [timeline] at hm hx
    refine none ⟨x, List.mem_append_right _ (List.mem_flatMap.mpr ⟨(a, t), ?_, ?_⟩),
      attr?_of_markAnomaly? hx⟩
    · exact Table.mem_toList_iff.mpr listed
    · exact List.mem_filterMap.mpr ⟨m, hm, multi ▸ hx⟩
  refine ⟨fun m hm deleted hv => ?_, fun _ v asserted => ?_,
    fun single => absurd single Bool.false_ne_true⟩
  · have found := silent m hm
    simp [markAnomaly?, deleted, hv] at found
  · obtain ⟨m, hm, upheld⟩ := Timeline.asserts_iff.mp asserted
    obtain ⟨member, rfl⟩ := (ordered a).mark?_eq_some_iff.mp hm
    have found := silent m member
    simpa [markAnomaly?, isExpected, (Timeline.upholds_iff.mp upheld).1, asserted] using found

/-- A multi-valued attribute has no anomalies if and only if its values are faithful to the timeline. -/
theorem forall_attr?_ne_iff {a : Attribute} (ordered : h.IsOrdered)
    (created : h.created.isSome = true) (multi : schema.isSingle a = false) :
    (∀ x ∈ anomaliesOf schema e h, x.attr? ≠ some a) ↔
      Slot.IsFaithful false ⟨e.values a, h.timeline a⟩ := by
  constructor
  · intro none
    by_contra unfaithful
    obtain ⟨x, hx, about⟩ := exists_anomaly_of_not_isFaithful ordered multi unfaithful
    exact none x hx about
  · intro faithful x hx about
    obtain ⟨b, about', -, contradicted⟩ := exists_of_mem_anomaliesOf ordered created hx
    obtain rfl : a = b := Option.some.inj (about.symm.trans about')
    exact contradicted (multi.symm ▸ faithful)

end Rebuilt

end DirectoryHistory
