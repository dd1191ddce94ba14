import DirectoryHistory.Proofs.Slot.Started

/-!
# What became of a slot since

While changes come in the order of their stamps, a multi-valued slot holds a value that something
newer than a given stamp concerns if and only if the timeline asserts it. All other values are held
as they were, wherever they came from; the timeline need not know of them.
-/

namespace DirectoryHistory

namespace Timeline

/-- Whether anything newer than `s` concerns `v`. -/
def concerns (t : Timeline) (s : Stamp) (v : Octets) : Bool :=
  t.outdates v s || t.overrides s

variable {t u : Timeline} {s r : Stamp} {v : Octets} {es : List Edit}

theorem concerns_iff : t.concerns s v = true ↔
    (∃ m, t.mark? v = some m ∧ s < m.stamp) ∨ ∃ r, t.lastReset = some r ∧ s < r := by
  rw [concerns, Bool.or_eq_true, outdates_iff, overrides_iff]

theorem concerns_congr (mark : t.mark? v = u.mark? v) (reset : t.lastReset = u.lastReset)
    (s : Stamp) : t.concerns s v = u.concerns s v := by
  rw [concerns, concerns, outdates, outdates, overrides, overrides, mark, reset]

theorem asserts_congr (mark : t.mark? v = u.mark? v) (reset : t.lastReset = u.lastReset) :
    t.asserts v = u.asserts v := by
  rw [asserts, asserts, mark, upholds_congr reset]

theorem Reflects.concerns_iff (h : t.Reflects es) : t.concerns s v = true ↔
    ∃ e ∈ es, s < e.stamp ∧ (e.names v = true ∨ e.resets = true) := by
  rw [Timeline.concerns_iff]
  constructor
  · rintro (⟨m, hm, newer⟩ | ⟨r, hr, newer⟩)
    · obtain ⟨e, he, named, stamp⟩ := h.exists_edit hm
      exact ⟨e, he, stamp ▸ newer, .inl named⟩
    · obtain ⟨e, he, resets, rfl⟩ := h.resets.1 r hr
      exact ⟨e, he, newer, .inr resets⟩
  · rintro ⟨e, he, newer, named | resets⟩
    · obtain ⟨m, hm, le⟩ := h.exists_mark he named
      exact .inl ⟨m, hm, newer.trans_le le⟩
    · obtain ⟨r, hr, le⟩ := h.resets.2 e he resets
      exact .inr ⟨r, hr, newer.trans_le le⟩

/-- A change that is not newer than `r` leaves no reset newer than `r` behind. -/
theorem overrides_merge (h : t.overrides r = false) (older : s ≤ r) (c : Change) :
    (t.merge s c).overrides r = false := by
  rw [Bool.eq_false_iff, Ne, overrides_iff] at h ⊢
  rintro ⟨n, hn, newer⟩
  rw [lastReset_merge] at hn
  split at hn
  · obtain ⟨n', hn', -, -, attained⟩ := Stamp.newest_some_spec t.lastReset s
    obtain rfl : n = n' := Option.some.inj (hn.symm.trans hn')
    rcases attained with rfl | before
    · exact older.not_gt newer
    · exact h ⟨n, before, newer⟩
  · exact h ⟨n, hn, newer⟩

theorem overrides_mergeEdit {e : Edit} (h : t.overrides r = false) (older : e.stamp ≤ r) :
    (t.mergeEdit e).overrides r = false := by
  have fold : ∀ (cs : List Change) (t : Timeline), t.overrides r = false →
      (cs.foldl (merge e.stamp) t).overrides r = false := by
    intro cs
    induction cs with
    | nil => exact fun _ h => h
    | cons c cs ih => exact fun t h => ih _ (overrides_merge h older c)
  exact fold e.changes t h

end Timeline

namespace Slot

open Timeline

/-- The second slot is what became of the first one by changes that are newer than `b`. -/
structure Evolves (b : Stamp) (s s' : Slot) : Prop where
  kept : ∀ v, s'.timeline.concerns b v = false → s'.timeline.mark? v = s.timeline.mark? v ∧
    s'.timeline.lastReset = s.timeline.lastReset ∧ (v ∈ s'.held ↔ v ∈ s.held)
  settled : ∀ v, s'.timeline.concerns b v = true → (v ∈ s'.held ↔ s'.timeline.asserts v = true)

variable {s s' : Slot} {created : Option Stamp} {b stamp : Stamp} {held : List Octets} {m : Mark}

theorem evolves_self (calm : ∀ v, s.timeline.concerns b v = false) : s.Evolves b s where
  kept _ _ := ⟨rfl, rfl, Iff.rfl⟩
  settled v concerned := by
    rw [calm v] at concerned
    cases concerned

theorem Evolves.note (h : s.Evolves b s') (news : s'.timeline.isNews m = true)
    (later : b < m.stamp) (own : m.value ∈ held ↔ (s'.timeline.note m).asserts m.value = true)
    (others : ∀ v, v ≠ m.value → (v ∈ held ↔ v ∈ s'.held)) :
    s.Evolves b ⟨held, s'.timeline.note m⟩ := by
  have reset : (s'.timeline.note m).lastReset = s'.timeline.lastReset := lastReset_note _ _
  have mark : ∀ v, v ≠ m.value → (s'.timeline.note m).mark? v = s'.timeline.mark? v := by
    intro v hv
    simp [mark?_note, hv]
  constructor
  · intro v calm
    by_cases hv : v = m.value
    · subst hv
      have concerned : (s'.timeline.note m).concerns b m.value = true :=
        concerns_iff.mpr (.inl ⟨m, mark?_note_of_isNews news, later⟩)
      rw [calm] at concerned
      cases concerned
    · rw [concerns_congr (mark v hv) reset] at calm
      rw [mark v hv, reset, others v hv]
      exact h.kept v calm
  · intro v concerned
    by_cases hv : v = m.value
    · subst hv
      exact own
    · rw [concerns_congr (mark v hv) reset] at concerned
      rw [asserts_congr (mark v hv) reset, others v hv]
      exact h.settled v concerned

theorem Evolves.addMulti (h : s.Evolves b s') (later : b < stamp) (w : Octets) :
    s.Evolves b (s'.addMulti stamp w).slot := by
  simp only [Slot.addMulti]
  split
  · next news =>
    split
    · next asserts =>
      refine h.note news later ?_ fun v hv => ?_
      · simp only [asserts, iff_true]
        split <;> simp_all
      · split <;> simp [hv]
    · next asserts =>
      refine h.note news later ?_ fun v hv => ?_
      · simp [asserts]
      · simp [hv]
  · exact h

theorem Evolves.delete (h : s.Evolves b s') (later : b < stamp)
    (newer : ∀ c ∈ created, c < stamp) (w : Octets) :
    s.Evolves b (s'.delete false created stamp w).slot := by
  have late : created.any (stamp ≤ ·) = false := by
    cases created with
    | none => rfl
    | some c => simpa using newer c rfl
  simp only [Slot.delete, late, Bool.false_and, Bool.false_eq_true, if_false]
  split
  · next news =>
    have mark : (s'.timeline.note ⟨w, .deleted, stamp⟩).mark? w = some ⟨w, .deleted, stamp⟩ :=
      mark?_note_of_isNews news
    refine h.note news later ?_ fun v hv => ?_
    · simp [asserts_iff, mark, upholds_iff]
    · simp [hv]
  · exact h

/-- A replace that no newer reset overrides leaves what the timeline asserts, and of the values that
have no mark those that an earlier step of the same request left. -/
theorem mem_held_replace_iff (ht : s.timeline.Ordered)
    (current : s.timeline.overrides stamp = false) (vs : List Octets) :
    (s.replace false stamp vs).slot.timeline = s.timeline.replaced stamp vs ∧
      ∀ v, v ∈ (s.replace false stamp vs).slot.held ↔
        (s.timeline.replaced stamp vs).asserts v = true ∨ v ∈ s.held ∧
          (s.timeline.replaced stamp vs).mark? v = none ∧ s.timeline.lastReset = some stamp := by
  have reset := lastReset_reset_eq_some_iff.mpr current
  have timeline : (noteReplace (s.timeline.reset stamp) stamp vs).1 =
      s.timeline.replaced stamp vs := by
    rw [Timeline.replaced, if_pos reset]
  simp only [Slot.replace, reset, if_true, timeline, settle, Bool.false_eq_true, if_false]
  refine ⟨rfl, fun v => ?_⟩
  simp only [settleMulti, Entry.mem_distinct, List.mem_append, Slot.mem_unrecorded,
    (ht.replaced stamp vs).mem_map_asserted]
  rw [or_comm]
  refine or_congr Iff.rfl ?_
  by_cases raised : s.timeline.admitsReset stamp = true
  · -- A reset that is news sweeps away what has no mark.
    have news : s.timeline.lastReset ≠ some stamp := by
      intro same
      simp [admitsReset, Stamp.passes, same] at raised
    simp only [raised, if_true, List.mem_filter, news, and_false, iff_false]
    rintro ⟨⟨-, marked⟩, unmarked⟩
    rw [mark?_reset, mark?_eq_none_of_merge (c := .replace vs) ht unmarked] at marked
    cases marked
  · rw [reset_eq_self raised] at reset
    rw [if_neg raised, eq_true reset, and_true]

theorem Evolves.replace (h : s.Evolves b s') (ht : s'.timeline.Ordered) (later : b < stamp)
    (current : s'.timeline.overrides stamp = false) (vs : List Octets) :
    s.Evolves b (s'.replace false stamp vs).slot := by
  obtain ⟨timeline, mem⟩ := mem_held_replace_iff ht current vs
  have reset : (s'.timeline.replaced stamp vs).lastReset = some stamp := by
    rw [lastReset_replaced, ← lastReset_reset]
    exact lastReset_reset_eq_some_iff.mpr current
  have concerned : ∀ v, (s'.timeline.replaced stamp vs).concerns b v = true := fun v =>
    concerns_iff.mpr (.inr ⟨stamp, reset, later⟩)
  constructor
  · intro v calm
    rw [timeline, concerned v] at calm
    cases calm
  · intro v _
    rw [timeline, mem v, or_iff_left]
    rintro ⟨hv, unmarked, again⟩
    -- An earlier step of the request has settled the value, and without a mark it is not held.
    have before := mark?_eq_none_of_merge (c := .replace vs) ht unmarked
    have asserted := (h.settled v (concerns_iff.mpr (.inr ⟨stamp, again, later⟩))).mp hv
    simp [asserts_iff, before] at asserted

/-- A change settles what it concerns and leaves the rest alone. -/
theorem Evolves.resolve (h : s.Evolves b s') (ht : s'.timeline.Ordered) (later : b < stamp)
    (newer : ∀ c ∈ created, c < stamp) (current : s'.timeline.overrides stamp = false)
    (c : Change) : s.Evolves b (s'.resolve false created stamp c).slot := by
  cases c with
  | add w => exact h.addMulti later w
  | delete w => exact h.delete later newer w
  | clear => exact h.replace ht later current []
  | replace vs => exact h.replace ht later current vs

theorem Evolves.resolveEdit {e : Edit} (h : s.Evolves b s') (ht : s'.timeline.Ordered)
    (later : b < e.stamp) (newer : ∀ c ∈ created, c < e.stamp)
    (current : s'.timeline.overrides e.stamp = false) :
    s.Evolves b (s'.resolveEdit false created e) := by
  have fold : ∀ (cs : List Change) (s' : Slot), s.Evolves b s' → s'.timeline.Ordered →
      s'.timeline.overrides e.stamp = false →
      s.Evolves b (cs.foldl (fun s c => (s.resolve false created e.stamp c).slot) s') := by
    intro cs
    induction cs with
    | nil => exact fun s' h _ _ => h
    | cons c cs ih =>
      intro s' h ht current
      refine ih _ (h.resolve ht later newer current c)
        (ordered_resolve ht false created e.stamp c) ?_
      rw [timeline_resolve false newer c s']
      exact overrides_merge current le_rfl c
  exact fold e.changes s' h ht current

/-- Edits in the order of their stamps settle what they concern and leave the rest. -/
theorem Evolves.foldl_resolveEdit {es : List Edit} (h : s.Evolves b s')
    (ht : s'.timeline.Ordered) (later : ∀ e ∈ es, b < e.stamp)
    (newer : ∀ e ∈ es, ∀ c ∈ created, c < e.stamp)
    (current : ∀ e ∈ es, s'.timeline.overrides e.stamp = false)
    (ascending : es.Pairwise (·.stamp < ·.stamp)) :
    s.Evolves b (es.foldl (Slot.resolveEdit false created) s') := by
  induction es generalizing s' with
  | nil => exact h
  | cons e es ih =>
    obtain ⟨before, ascending⟩ := List.pairwise_cons.mp ascending
    have timeline : (s'.resolveEdit false created e).timeline = s'.timeline.mergeEdit e :=
      timeline_resolveEdit (newer e (.head _)) s'
    refine ih (h.resolveEdit ht (later e (.head _)) (newer e (.head _)) (current e (.head _))) ?_
      (fun f hf => later f (.tail _ hf)) (fun f hf => newer f (.tail _ hf)) (fun f hf => ?_)
      ascending
    · rw [timeline]
      exact ht.mergeEdit e
    · rw [timeline]
      exact overrides_mergeEdit (current f (.tail _ hf)) (before f hf).le

end Slot

end DirectoryHistory
