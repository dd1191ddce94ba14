import DirectoryHistory.Proofs.Slot.Evolution
import DirectoryHistory.Proofs.Timeline.Purging

/-!
# Purged slots

A purge leaves the held values alone, so that they can be read back from the purged timeline as
values from before it. Changes after the cutoff leave a multi-valued slot with the same values,
purged or not. A single-valued slot forgets the additions that waited behind the value it holds:
unless a change resets it, it ends with the same value exactly if the changes name none of the held
values, or all that waited.
-/

namespace DirectoryHistory

namespace Timeline

variable {cutoff : Stamp} {t u : Timeline} {m : Mark}

theorem Ordered.purged_of_mem_asserted (ht : t.Ordered) (hm : m ∈ t.asserted)
    (old : m.stamp < cutoff) :
    (t.purge cutoff).lastReset = none ∧ (t.purge cutoff).mark? m.value = none := by
  obtain ⟨mark, upheld⟩ := ht.mem_asserted.mp hm
  refine ⟨?_, ht.mark?_purge_eq_none_iff.mpr (by simpa [mark] using old)⟩
  by_contra kept
  exact old.not_ge (recent_of_upholds upheld kept)

theorem Continues.mem_asserted (h : Continues cutoff t u) (ht : t.Ordered) (hu : u.Ordered)
    (hm : m ∈ u.asserted) (old : m.stamp < cutoff) : m ∈ t.asserted := by
  obtain ⟨unreset, gone⟩ := hu.purged_of_mem_asserted hm old
  obtain ⟨mark, upheld⟩ := hu.mem_asserted.mp hm
  rw [h.marks _ gone] at mark
  rw [upholds, h.reset unreset] at upheld
  exact ht.mem_asserted.mpr ⟨mark, upheld⟩

theorem Continues.mem_asserted_of_purged (h : Continues cutoff t u) (ht : t.Ordered)
    (hu : u.Ordered) (hm : m ∈ t.asserted) (gone : (u.purge cutoff).mark? m.value = none)
    (unreset : (u.purge cutoff).lastReset = none) : m ∈ u.asserted := by
  obtain ⟨mark, upheld⟩ := ht.mem_asserted.mp hm
  rw [← h.marks _ gone] at mark
  rw [upholds, ← h.reset unreset] at upheld
  exact hu.mem_asserted.mpr ⟨mark, upheld⟩

end Timeline

namespace Slot

open Timeline

variable {single : Bool} {initial held : List Octets} {cutoff : Stamp} {t u : Timeline}
variable {b s s' : Slot} {v : Octets} {es : List Edit}

def purge (s : Slot) (cutoff : Stamp) : Slot :=
  { s with timeline := s.timeline.purge cutoff }

theorem ReadsBack.mem_held_of_kept (h : s.ReadsBack single initial)
    (few : single = true → initial.length ≤ 1) (hv : v ∈ kept initial s.timeline) :
    v ∈ s.held := by
  cases single with
  | false => exact (h v).mpr (.inl hv)
  | true =>
    have held : s.held = ((kept initial s.timeline).head?.or
      (s.timeline.asserted.head?.map (·.value))).toList := h
    rw [← toList_head? (length_kept_le.trans (few rfl)), Option.mem_toList] at hv
    simp [held, Option.mem_def.mp hv]

theorem ReadsBack.kept_or_asserts (h : s.ReadsBack single initial) (ht : s.timeline.Ordered)
    (hv : v ∈ s.held) : v ∈ kept initial s.timeline ∨ s.timeline.asserts v = true := by
  cases single with
  | false => exact (h v).mp hv
  | true =>
    have held : s.held = ((kept initial s.timeline).head?.or
      (s.timeline.asserted.head?.map (·.value))).toList := h
    rw [held, Option.mem_toList, Option.or_eq_some_iff] at hv
    rcases hv with hv | ⟨-, hv⟩
    · exact .inl (List.mem_of_mem_head? hv)
    · obtain ⟨m, hm, rfl⟩ := Option.map_eq_some_iff.mp hv
      exact .inr (ht.mem_map_asserted.mp (List.mem_map_of_mem (List.mem_of_mem_head? hm)))

/-- What the purged timeline calls for next to the values held before is what the whole one does. -/
theorem mem_kept_or_asserts_purge_iff (h : Continues cutoff t u) (hu : u.Ordered)
    (read : ∀ v, v ∈ held ↔ v ∈ kept initial t ∨ t.asserts v = true) :
    v ∈ kept held (u.purge cutoff) ∨ (u.purge cutoff).asserts v = true ↔
      v ∈ kept initial u ∨ u.asserts v = true := by
  by_cases fresh : (u.purge cutoff).lastReset = none ∧ (u.purge cutoff).mark? v = none
  · -- Nothing happened to the value since, and it is held if it was.
    obtain ⟨unreset, gone⟩ := fresh
    have same : v ∈ kept initial u ∨ u.asserts v = true ↔ v ∈ held := by
      rw [read, mem_kept, mem_kept, h.marks v gone, h.reset unreset,
        asserts_congr (h.marks v gone) (h.reset unreset)]
    rw [same, mem_kept, asserts, gone]
    simp [unreset]
  · have unkept : v ∉ kept initial u := fun hv => by
      obtain ⟨reset, mark, -⟩ := mem_kept.mp hv
      exact fresh ⟨lastReset_purge_eq_none_iff.mpr (by simp [reset]),
        hu.mark?_purge_eq_none_iff.mpr (by simp [mark])⟩
    have unkept' : v ∉ kept held (u.purge cutoff) := fun hv =>
      fresh ⟨(mem_kept.mp hv).1, (mem_kept.mp hv).2.1⟩
    simp only [unkept, unkept', false_or]
    rw [hu.asserts_purge_iff, asserts_iff]
    refine exists_congr fun m => ⟨?_, ?_⟩
    · rintro ⟨mark, upheld, -⟩
      exact ⟨mark, upheld⟩
    · rintro ⟨mark, upheld⟩
      refine ⟨mark, upheld, ?_⟩
      by_contra old
      refine fresh ⟨?_, hu.mark?_purge_eq_none_iff.mpr (by simpa [mark] using old)⟩
      by_contra reset
      exact old (recent_of_upholds upheld reset)

theorem eq_singleton_of_mem {l : List Octets} (hl : l.length ≤ 1) (hv : v ∈ l) : l = [v] := by
  rw [← toList_head? hl, Option.mem_toList] at hv
  rw [← toList_head? hl, hv, Option.toList_some]

/-- Read back with one value at most, the held value is the one that is kept or else the first one
asserted. -/
theorem ReadsBack.held_eq (h : s.ReadsBack true initial) (few : initial.length ≤ 1) :
    (∃ v, kept initial s.timeline = [v] ∧ s.held = [v]) ∨
      kept initial s.timeline = [] ∧ s.held = (s.timeline.asserted.head?.map (·.value)).toList := by
  have held : s.held = ((kept initial s.timeline).head?.or
    (s.timeline.asserted.head?.map (·.value))).toList := h
  cases hk : kept initial s.timeline with
  | nil => exact .inr ⟨rfl, by simp [held, hk]⟩
  | cons v rest =>
    have alone : (v :: rest).length ≤ 1 := hk ▸ length_kept_le.trans few
    have none : rest = [] := List.length_eq_zero_iff.mp (by simpa using alone)
    exact .inl ⟨v, by rw [none], by simp [held, hk]⟩

theorem kept_singleton (reset : t.lastReset = none) (mark : t.mark? v = none) :
    kept [v] t = [v] := by
  simp [kept, reset, mark]

theorem ReadsBack.purge_single (h : s.ReadsBack true initial) (ht : s.timeline.Ordered)
    (few : initial.length ≤ 1) (cutoff : Stamp) : (s.purge cutoff).ReadsBack true s.held := by
  have asserted := asserted_purge s.timeline cutoff
  simp only [ReadsBack, if_true, Slot.purge, asserted]
  rcases h.held_eq few with ⟨v, hk, held⟩ | ⟨-, held⟩
  · obtain ⟨reset, mark, -⟩ := mem_kept.mp (hk ▸ List.mem_singleton_self v)
    have unreset : (s.timeline.purge cutoff).lastReset = none :=
      lastReset_purge_eq_none_iff.mpr (by simp [reset])
    have gone : (s.timeline.purge cutoff).mark? v = none :=
      ht.mark?_purge_eq_none_iff.mpr (by simp [mark])
    simp [held, kept_singleton unreset gone]
  · cases ha : s.timeline.asserted with
    | nil => simp [held, ha, kept]
    | cons m rest =>
      have hm : m ∈ s.timeline.asserted := ha ▸ .head _
      replace held : s.held = [m.value] := by simp [held, ha]
      rcases lt_or_ge m.stamp cutoff with old | recent
      · obtain ⟨unreset, gone⟩ := ht.purged_of_mem_asserted hm old
        simp [held, kept_singleton unreset gone]
      · have mark : (s.timeline.purge cutoff).mark? m.value = some m :=
          ht.mark?_purge_eq_some_iff.mpr ⟨(ht.mem_asserted.mp hm).1, recent⟩
        have unkept : kept [m.value] (s.timeline.purge cutoff) = [] := by simp [kept, mark]
        simp [held, unkept, recent]

/-- A purge leaves the held values alone, and they can be read back as values from before it. -/
theorem ReadsBack.purge (h : s.ReadsBack single initial) (ht : s.timeline.Ordered)
    (few : single = true → initial.length ≤ 1) (cutoff : Stamp) :
    (s.purge cutoff).ReadsBack single s.held := by
  cases single with
  | true => exact h.purge_single ht (few rfl) cutoff
  | false =>
    intro v
    exact (h v).trans (mem_kept_or_asserts_purge_iff (.refl cutoff s.timeline) ht h).symm

/-- What became of a slot after the edits `es`, once without a purge before and once with. -/
structure Diverged (single : Bool) (initial : List Octets) (cutoff : Stamp) (es : List Edit)
    (b s s' : Slot) : Prop where
  ordered : b.timeline.Ordered
  few : single = true → initial.length ≤ 1
  recent : ∀ e ∈ es, cutoff ≤ e.stamp
  before : b.ReadsBack single initial
  whole : s.ReadsBack single initial
  purged : s'.ReadsBack single b.held
  merged : s.timeline = es.foldl mergeEdit b.timeline
  merged' : s'.timeline = es.foldl mergeEdit (b.timeline.purge cutoff)

theorem ReadsBack.foldl_resolveEdit {created : Option Stamp} (h : s.ReadsBack single initial)
    (ht : s.timeline.Ordered) (few : single = true → initial.length ≤ 1)
    (newer : ∀ e ∈ es, ∀ c ∈ created, c < e.stamp) :
    (es.foldl (Slot.resolveEdit single created) s).ReadsBack single initial := by
  induction es generalizing s with
  | nil => exact h
  | cons e rest ih =>
    have first := newer e (.head _)
    have ordered : (s.resolveEdit single created e).timeline.Ordered := by
      rw [timeline_resolveEdit first]
      exact ht.mergeEdit e
    exact ih (h.resolveEdit ht few first) ordered fun e he => newer e (.tail _ he)

/-- Slots diverge when one of them is purged, which may also drop the creation, and both go on. -/
theorem diverged_foldl_resolveEdit {created : Option Stamp} (h : b.ReadsBack single initial)
    (ht : b.timeline.Ordered) (few : single = true → initial.length ≤ 1)
    (newer : ∀ e ∈ es, ∀ c ∈ created, c < e.stamp) (recent : ∀ e ∈ es, cutoff ≤ e.stamp) :
    Diverged single initial cutoff es b (es.foldl (resolveEdit single created) b)
      (es.foldl (resolveEdit single (created.filter (cutoff ≤ ·))) (b.purge cutoff)) := by
  have newer' : ∀ e ∈ es, ∀ c ∈ created.filter (cutoff ≤ ·), c < e.stamp :=
    fun e he c hc => newer e he c (Option.filter_eq_some_iff.mp hc).1
  have few' : single = true → b.held.length ≤ 1 := by
    rintro rfl
    exact h.length_held_le
  exact {
    ordered := ht
    few
    recent
    before := h
    whole := h.foldl_resolveEdit ht few newer
    purged := (h.purge ht few cutoff).foldl_resolveEdit (ht.purge cutoff) few' newer'
    merged := timeline_foldl_resolveEdit newer b
    merged' := timeline_foldl_resolveEdit newer' (b.purge cutoff) }

section Diverged

variable (h : Diverged single initial cutoff es b s s')
include h

theorem Diverged.ordered' : s.timeline.Ordered := by
  rw [h.merged]
  exact h.ordered.foldl_mergeEdit es

theorem Diverged.timeline : s'.timeline = s.timeline.purge cutoff := by
  rw [h.merged', h.merged, h.ordered.purge_foldl_mergeEdit h.recent]

theorem Diverged.continues : Continues cutoff b.timeline s.timeline := by
  rw [h.merged]
  exact h.ordered.continues_foldl_mergeEdit h.recent

theorem Diverged.gone_iff : s'.timeline.mark? v = none ↔
    (b.timeline.purge cutoff).mark? v = none ∧ ∀ e ∈ es, e.names v = false := by
  rw [h.timeline, h.merged, h.ordered.mark?_purge_foldl_mergeEdit_eq_none_iff h.recent]

theorem Diverged.unreset_iff : s'.timeline.lastReset = none ↔
    (b.timeline.purge cutoff).lastReset = none ∧ ∀ e ∈ es, e.resets = false := by
  rw [h.timeline, h.merged, lastReset_purge_foldl_mergeEdit_eq_none_iff h.recent]

end Diverged

/-- A multi-valued slot holds the same values, purged or not. -/
theorem Diverged.mem_held_iff (h : Diverged false initial cutoff es b s s') (v : Octets) :
    v ∈ s'.held ↔ v ∈ s.held := by
  have purged : v ∈ s'.held ↔ v ∈ kept b.held s'.timeline ∨ s'.timeline.asserts v = true :=
    h.purged v
  have whole : v ∈ s.held ↔ v ∈ kept initial s.timeline ∨ s.timeline.asserts v = true := h.whole v
  rw [purged, whole, h.timeline]
  exact mem_kept_or_asserts_purge_iff h.continues h.ordered' h.before

section Single

variable (h : Diverged true initial cutoff es b s s')
include h

theorem Diverged.mem_kept_iff_of_gone (gone : s'.timeline.mark? v = none)
    (unreset : s'.timeline.lastReset = none) :
    v ∈ kept initial s.timeline ↔ v ∈ kept initial b.timeline := by
  rw [h.timeline] at gone unreset
  rw [mem_kept, mem_kept, h.continues.marks v gone, h.continues.reset unreset]

theorem Diverged.kept_before (hv : v ∈ kept initial s.timeline) :
    v ∈ kept initial b.timeline ∧ s'.timeline.mark? v = none ∧ s'.timeline.lastReset = none := by
  obtain ⟨reset, mark, -⟩ := mem_kept.mp hv
  have gone : s'.timeline.mark? v = none := by
    rw [h.timeline, h.ordered'.mark?_purge_eq_none_iff]
    simp [mark]
  have unreset : s'.timeline.lastReset = none := by
    rw [h.timeline, lastReset_purge_eq_none_iff]
    simp [reset]
  exact ⟨(h.mem_kept_iff_of_gone gone unreset).mp hv, gone, unreset⟩

/-- As long as the purge drops nothing that is asserted in the end, the value is the same. -/
theorem Diverged.held_eq_of_recent (recent : ∀ m ∈ s.timeline.asserted, cutoff ≤ m.stamp) :
    s'.held = s.held := by
  have asserted : s'.timeline.asserted = s.timeline.asserted := by
    rw [h.timeline, asserted_purge, List.filter_eq_self]
    simpa using recent
  have keeps : kept b.held s'.timeline = kept initial s.timeline := by
    refine eq_of_length_le_one (length_kept_le.trans h.before.length_held_le)
      (length_kept_le.trans (h.few rfl)) fun v => ⟨fun hv => ?_, fun hv => ?_⟩
    · obtain ⟨unreset, gone, hv⟩ := mem_kept.mp hv
      rw [h.mem_kept_iff_of_gone gone unreset]
      refine (h.before.kept_or_asserts h.ordered hv).resolve_right fun asserts => ?_
      -- An asserted value has a mark in the end, and that mark is not dropped.
      obtain ⟨m, mark, upheld⟩ := asserts_iff.mp asserts
      obtain rfl := mark?_value mark
      have still := h.continues.mem_asserted_of_purged h.ordered h.ordered'
        (h.ordered.mem_asserted.mpr ⟨mark, upheld⟩) (h.timeline ▸ gone) (h.timeline ▸ unreset)
      have mark' := (h.ordered'.mem_asserted.mp still).1
      rw [h.timeline, h.ordered'.mark?_purge_eq_none_iff] at gone
      exact (recent m still).not_gt (gone m mark')
    · obtain ⟨before, gone, unreset⟩ := h.kept_before hv
      exact mem_kept.mpr ⟨unreset, gone, h.before.mem_held_of_kept h.few before⟩
  have whole := h.whole
  have purged := h.purged
  simp only [ReadsBack, if_true] at whole purged
  rw [whole, purged, keeps, asserted]

theorem Diverged.untouched_of_old {m : Mark} (hm : m ∈ s.timeline.asserted)
    (old : m.stamp < cutoff) : m ∈ b.timeline.asserted ∧ s'.timeline.lastReset = none ∧
      s'.timeline.mark? m.value = none := by
  rw [h.timeline]
  exact ⟨h.continues.mem_asserted h.ordered h.ordered' hm old,
    h.ordered'.purged_of_mem_asserted hm old⟩

/-- An old mark that was asserted and that nothing has touched is asserted in the end. -/
theorem Diverged.mem_asserted_of_untouched {m : Mark} (hm : m ∈ b.timeline.asserted)
    (unreset : s'.timeline.lastReset = none) (gone : s'.timeline.mark? m.value = none) :
    m ∈ s.timeline.asserted :=
  h.continues.mem_asserted_of_purged h.ordered h.ordered' hm (h.timeline ▸ gone)
    (h.timeline ▸ unreset)

/-- While the purge drops something that is still asserted in the end, the held value stays unless
an edit names it. -/
theorem Diverged.held_eq_of_unnamed (unnamed : ∀ v ∈ b.held, ∀ e ∈ es, e.names v = false)
    {m : Mark} (hm : m ∈ s.timeline.asserted) (old : m.stamp < cutoff) : s'.held = s.held := by
  obtain ⟨waits, unreset, -⟩ := h.untouched_of_old hm old
  have stays : ∀ v ∈ b.held, (b.timeline.purge cutoff).mark? v = none →
      s'.timeline.mark? v = none ∧ s'.held = [v] := fun v hv gone => by
    have gone' := h.gone_iff.mpr ⟨gone, unnamed v hv⟩
    have member : v ∈ s'.held := h.purged.mem_held_of_kept (fun _ => h.before.length_held_le)
      (mem_kept.mpr ⟨unreset, gone', hv⟩)
    exact ⟨gone', eq_singleton_of_mem h.purged.length_held_le member⟩
  rcases h.before.held_eq (h.few rfl) with ⟨v, hk, held⟩ | ⟨drained, held⟩
  · -- The first value is still there.
    have keeps : v ∈ kept initial b.timeline := hk ▸ List.mem_singleton_self v
    have gone : (b.timeline.purge cutoff).mark? v = none :=
      h.ordered.mark?_purge_eq_none_iff.mpr (by simp [(mem_kept.mp keeps).2.1])
    obtain ⟨gone', purged⟩ := stays v (by simp [held]) gone
    have member : v ∈ s.held := h.whole.mem_held_of_kept h.few
      ((h.mem_kept_iff_of_gone gone' unreset).mpr keeps)
    rw [purged, eq_singleton_of_mem h.whole.length_held_le member]
  · -- The first asserted value is as old, and it is still the first one.
    cases first : b.timeline.asserted.head? with
    | none => simp [List.head?_eq_none_iff.mp first] at waits
    | some n =>
      obtain ⟨hn, least⟩ := h.ordered.head?_asserted first
      have old' : n.stamp < cutoff := (Mark.stamp_le_of_precedes (least m waits)).trans_lt old
      obtain ⟨-, gone⟩ := h.ordered.purged_of_mem_asserted hn old'
      obtain ⟨gone', purged⟩ := stays n.value (by simp [held, first]) gone
      have still := h.mem_asserted_of_untouched hn unreset gone'
      rcases h.whole.held_eq (h.few rfl) with ⟨w, hk, -⟩ | ⟨-, whole⟩
      · have before := (h.kept_before (hk ▸ List.mem_singleton_self w)).1
        simp [drained] at before
      · cases head : s.timeline.asserted.head? with
        | none => simp [List.head?_eq_none_iff.mp head] at still
        | some p =>
          obtain ⟨hp, least'⟩ := h.ordered'.head?_asserted head
          have le := Mark.stamp_le_of_precedes (least' n still)
          have known := (h.untouched_of_old hp (le.trans_lt old')).1
          have same : p = n := Mark.eq_of_precedes (least' n still) (least p known)
          rw [purged, whole, head, same]
          rfl

/-- An edit that names the held value uncovers what the purge has dropped. -/
theorem Diverged.held_ne_of_named (unreset : ∀ e ∈ es, e.resets = false)
    (named : ∃ v ∈ b.held, ∃ e ∈ es, e.names v = true) {m : Mark}
    (hm : m ∈ b.timeline.asserted) (old : m.stamp < cutoff)
    (unnamed : ∀ e ∈ es, e.names m.value = false) : s'.held ≠ s.held := by
  obtain ⟨unreset₀, gone₀⟩ := h.ordered.purged_of_mem_asserted hm old
  have still := h.mem_asserted_of_untouched hm (h.unreset_iff.mpr ⟨unreset₀, unreset⟩)
    (h.gone_iff.mpr ⟨gone₀, unnamed⟩)
  have touched : ∀ w ∈ b.held, s'.timeline.mark? w ≠ none := fun w hw gone => by
    obtain ⟨v, hv, e, he, names⟩ := named
    rw [eq_singleton_of_mem h.before.length_held_le hw, List.mem_singleton] at hv
    simp [(h.gone_iff.mp gone).2 e he, hv] at names
  rcases h.whole.held_eq (h.few rfl) with ⟨w, hk, -⟩ | ⟨-, whole⟩
  · obtain ⟨before, gone, -⟩ := h.kept_before (hk ▸ List.mem_singleton_self w)
    exact absurd gone (touched w (h.before.mem_held_of_kept h.few before))
  · cases head : s.timeline.asserted.head? with
    | none => simp [List.head?_eq_none_iff.mp head] at still
    | some p =>
      obtain ⟨hp, least⟩ := h.ordered'.head?_asserted head
      have old' : p.stamp < cutoff := (Mark.stamp_le_of_precedes (least m still)).trans_lt old
      intro same
      have held : p.value ∈ s'.held := by simp [same, whole, head]
      have ordered' : s'.timeline.Ordered := h.timeline ▸ h.ordered'.purge cutoff
      rcases h.purged.kept_or_asserts ordered' held with keeps | asserts
      · obtain ⟨-, gone, before⟩ := mem_kept.mp keeps
        exact touched p.value before gone
      · rw [h.timeline, h.ordered'.asserts_purge_iff] at asserts
        obtain ⟨q, mark, -, recent⟩ := asserts
        rw [(h.ordered'.mem_asserted.mp hp).1] at mark
        exact old'.not_ge (Option.some.inj mark ▸ recent)

/-- A single-valued slot ends with the same value, purged or not, exactly if an edit resets it, or
none names the held value, or the edits name all that waited behind it and was purged. -/
theorem Diverged.held_eq_iff : s'.held = s.held ↔ (∃ e ∈ es, e.resets = true) ∨
    (∀ v ∈ b.held, ∀ e ∈ es, e.names v = false) ∨
      ∀ m ∈ b.timeline.asserted, m.stamp < cutoff → ∃ e ∈ es, e.names m.value = true := by
  constructor
  · intro same
    by_contra differ
    simp only [not_or, not_exists, not_and, not_forall, Bool.not_eq_true, Bool.not_eq_false]
      at differ
    obtain ⟨unreset, ⟨v, hv, e, he, named⟩, m, hm, old, unnamed⟩ := differ
    exact h.held_ne_of_named unreset ⟨v, hv, e, he, named⟩ hm old unnamed same
  · intro cases
    by_cases recent : ∀ m ∈ s.timeline.asserted, cutoff ≤ m.stamp
    · exact h.held_eq_of_recent recent
    · simp only [not_forall, not_le] at recent
      obtain ⟨m, hm, old⟩ := recent
      obtain ⟨waits, unreset, gone⟩ := h.untouched_of_old hm old
      rcases cases with ⟨e, he, resets⟩ | unnamed | covered
      · simp [(h.unreset_iff.mp unreset).2 e he] at resets
      · exact h.held_eq_of_unnamed unnamed hm old
      · obtain ⟨e, he, named⟩ := covered m waits old
        simp [(h.gone_iff.mp gone).2 e he] at named

end Single

end Slot

end DirectoryHistory
