import DirectoryHistory.Proofs.Timeline.Asserted

/-!
# Purged timelines

A purge forgets the marks and the reset from before the cutoff. A change that is no older than the
cutoff meets neither of them, so it may be merged before the purge or after it. What a timeline
asserts is asserted after the purge as far as it is no older than the cutoff, and what such changes
do not touch stays as it was.
-/

namespace DirectoryHistory.Timeline

variable {t u : Timeline} {cutoff s : Stamp} {v : Octets} {es : List Edit}

theorem Ordered.mark?_purge (ht : t.Ordered) (cutoff : Stamp) (v : Octets) :
    (t.purge cutoff).mark? v = (t.mark? v).filter (cutoff ≤ ·.stamp) := by
  ext m
  rw [(ht.purge cutoff).mark?_eq_some_iff, Option.filter_eq_some_iff, ht.mark?_eq_some_iff,
    Timeline.purge, List.mem_filter, and_right_comm]

theorem Ordered.mark?_purge_eq_some_iff (ht : t.Ordered) {m : Mark} :
    (t.purge cutoff).mark? v = some m ↔ t.mark? v = some m ∧ cutoff ≤ m.stamp := by
  rw [ht.mark?_purge, Option.filter_eq_some_iff, decide_eq_true_eq]

theorem Ordered.mark?_purge_eq_none_iff (ht : t.Ordered) :
    (t.purge cutoff).mark? v = none ↔ ∀ m ∈ t.mark? v, m.stamp < cutoff := by
  simp [ht.mark?_purge, Option.filter_eq_none_iff]

theorem lastReset_purge_eq_none_iff :
    (t.purge cutoff).lastReset = none ↔ ∀ r ∈ t.lastReset, r < cutoff := by
  simp [purge, Option.filter_eq_none_iff]

theorem overrides_purge (recent : cutoff ≤ s) : (t.purge cutoff).overrides s = t.overrides s := by
  rw [Bool.eq_iff_iff, overrides_iff, overrides_iff]
  simp only [purge, Option.filter_eq_some_iff, decide_eq_true_eq]
  exact exists_congr fun r => ⟨fun h => ⟨h.1.1, h.2⟩, fun h => ⟨⟨h.1, recent.trans h.2.le⟩, h.2⟩⟩

theorem Ordered.outdates_purge (ht : t.Ordered) (recent : cutoff ≤ s) :
    (t.purge cutoff).outdates v s = t.outdates v s := by
  rw [Bool.eq_iff_iff, outdates_iff, outdates_iff]
  simp only [ht.mark?_purge_eq_some_iff]
  exact exists_congr fun m => ⟨fun h => ⟨h.1.1, h.2⟩, fun h => ⟨⟨h.1, recent.trans h.2.le⟩, h.2⟩⟩

/-- A mark that was dropped would not have refused a newer one. -/
theorem Ordered.admits_purge (ht : t.Ordered) {m : Mark} (recent : cutoff ≤ m.stamp) :
    (t.purge cutoff).admits m = t.admits m := by
  rw [Bool.eq_iff_iff, admits_iff, admits_iff]
  simp only [ht.mark?_purge_eq_some_iff]
  refine forall_congr' fun n => ⟨fun h hn => ?_, fun h hn => h hn.1⟩
  rcases lt_or_ge n.stamp cutoff with old | kept
  · exact old.trans_le recent
  · exact h ⟨hn, kept⟩

theorem lastReset_purge_merge (t : Timeline) (recent : cutoff ≤ s) (c : Change) :
    ((t.purge cutoff).merge s c).lastReset = ((t.merge s c).purge cutoff).lastReset := by
  have raised : Stamp.newest (t.lastReset.filter (cutoff ≤ ·)) (some s) =
      (Stamp.newest t.lastReset (some s)).filter (cutoff ≤ ·) := by
    cases t.lastReset with
    | none => simp [Option.filter, recent]
    | some r =>
      rcases lt_or_ge r cutoff with old | kept
      · have later : r ≤ s := old.le.trans recent
        simp [Option.filter, old.not_ge, recent, later]
      · simp [Option.filter, kept]
  simp only [lastReset_merge, purge]
  split
  · exact raised
  · rfl

theorem Ordered.mark?_purge_merge (ht : t.Ordered) (recent : cutoff ≤ s) (c : Change)
    (v : Octets) : ((t.purge cutoff).merge s c).mark? v = ((t.merge s c).purge cutoff).mark? v := by
  rw [(ht.merge s c).mark?_purge]
  cases hv : c.names v with
  | true =>
    obtain ⟨x, outcome, whole⟩ := mark?_merge_of_names (s := s) ht hv
    obtain ⟨x', outcome', purged⟩ := mark?_merge_of_names (s := s) (ht.purge cutoff) hv
    obtain rfl : x = x' := Option.some.inj (outcome.symm.trans outcome')
    have admitted := ht.admits_purge (m := ⟨v, .added, s⟩) recent
    rw [whole, purged, ht.outdates_purge recent, overrides_purge recent, admitted, ht.mark?_purge]
    split
    · rfl
    · simp [Option.filter, recent]
  | false =>
    have reset : (t.purge cutoff).mark? v = some ⟨v, .added, s⟩ ↔
        t.mark? v = some ⟨v, .added, s⟩ := by
      rw [ht.mark?_purge_eq_some_iff, and_iff_left recent]
    rw [mark?_merge_of_not_names ht hv, mark?_merge_of_not_names (ht.purge cutoff) hv,
      overrides_purge recent]
    simp only [reset]
    split
    · simp [Option.filter, recent]
    · exact ht.mark?_purge cutoff v

/-- A change that is no older than the cutoff may be merged before the purge or after it. -/
theorem Ordered.purge_merge (ht : t.Ordered) (recent : cutoff ≤ s) (c : Change) :
    (t.purge cutoff).merge s c = (t.merge s c).purge cutoff :=
  ((ht.purge cutoff).merge s c).ext ((ht.merge s c).purge cutoff)
    (lastReset_purge_merge t recent c) (ht.mark?_purge_merge recent c)

theorem Ordered.mark?_purge_merge_eq_none_iff (ht : t.Ordered) (recent : cutoff ≤ s) (c : Change) :
    ((t.merge s c).purge cutoff).mark? v = none ↔
      (t.purge cutoff).mark? v = none ∧ c.names v = false := by
  have gone : ∀ u : Timeline, u.Ordered → ((u.purge cutoff).mark? v = none ↔
      ∀ r ∈ (u.mark? v).map (·.stamp), r < cutoff) := fun u hu => by
    rw [hu.mark?_purge_eq_none_iff, Option.forall_mem_map]
  rw [gone _ (ht.merge s c), gone _ ht, stamp_mark?_merge ht]
  cases c.names v with
  | false => simp
  | true =>
    obtain ⟨n, hn, later, -⟩ := Stamp.newest_some_spec ((t.mark? v).map (·.stamp)) s
    simp [hn, recent.trans later]

theorem lastReset_purge_merge_eq_none_iff (recent : cutoff ≤ s) (c : Change) :
    ((t.merge s c).purge cutoff).lastReset = none ↔
      (t.purge cutoff).lastReset = none ∧ c.resets = false := by
  rw [lastReset_purge_eq_none_iff, lastReset_purge_eq_none_iff, lastReset_merge]
  cases c.resets with
  | false => simp
  | true =>
    obtain ⟨n, hn, later, -⟩ := Stamp.newest_some_spec t.lastReset s
    simp [hn, recent.trans later]

/-- `u` goes on from `t` after the cutoff: what the purge has nothing about is as in `t`. -/
structure Continues (cutoff : Stamp) (t u : Timeline) : Prop where
  marks : ∀ v, (u.purge cutoff).mark? v = none → u.mark? v = t.mark? v
  reset : (u.purge cutoff).lastReset = none → u.lastReset = t.lastReset

theorem Continues.refl (cutoff : Stamp) (t : Timeline) : Continues cutoff t t :=
  ⟨fun _ _ => rfl, fun _ => rfl⟩

theorem Continues.merge (h : Continues cutoff t u) (hu : u.Ordered) (recent : cutoff ≤ s)
    (c : Change) : Continues cutoff t (u.merge s c) where
  marks v gone := by
    obtain ⟨before, unnamed⟩ := (hu.mark?_purge_merge_eq_none_iff recent c).mp gone
    rw [← h.marks v before, mark?_merge_of_not_names hu unnamed, if_neg]
    rintro ⟨-, -, mark⟩
    exact recent.not_gt (hu.mark?_purge_eq_none_iff.mp before ⟨v, .added, s⟩ mark)
  reset gone := by
    obtain ⟨before, unreset⟩ := (lastReset_purge_merge_eq_none_iff recent c).mp gone
    rw [← h.reset before, lastReset_merge, unreset, if_neg Bool.false_ne_true]

/-- The timeline after one change with its stamp. -/
def mergeStep (t : Timeline) (p : Stamp × Change) : Timeline :=
  t.merge p.1 p.2

/-- The changes of all edits, each with its stamp. -/
def stepsOf (es : List Edit) : List (Stamp × Change) :=
  es.flatMap fun e => e.changes.map (e.stamp, ·)

theorem foldl_mergeEdit_eq (es : List Edit) (t : Timeline) :
    es.foldl mergeEdit t = (stepsOf es).foldl mergeStep t := by
  simp only [stepsOf, List.foldl_flatMap, List.foldl_map]
  rfl

theorem forall_mem_stepsOf_iff {P : Stamp × Change → Prop} :
    (∀ p ∈ stepsOf es, P p) ↔ ∀ e ∈ es, ∀ c ∈ e.changes, P (e.stamp, c) := by
  simp only [stepsOf, List.forall_mem_flatMap, List.forall_mem_map]

theorem recent_stepsOf (recent : ∀ e ∈ es, cutoff ≤ e.stamp) : ∀ p ∈ stepsOf es, cutoff ≤ p.1 :=
  forall_mem_stepsOf_iff.mpr fun e he _ _ => recent e he

theorem Ordered.mergeStep (ht : t.Ordered) (p : Stamp × Change) : (t.mergeStep p).Ordered :=
  ht.merge p.1 p.2

variable {steps : List (Stamp × Change)}

theorem Ordered.purge_foldl_mergeStep (ht : t.Ordered) (recent : ∀ p ∈ steps, cutoff ≤ p.1) :
    steps.foldl Timeline.mergeStep (t.purge cutoff) =
      (steps.foldl Timeline.mergeStep t).purge cutoff := by
  induction steps generalizing t with
  | nil => rfl
  | cons p rest ih =>
    have first : (t.purge cutoff).mergeStep p = (t.mergeStep p).purge cutoff :=
      ht.purge_merge (recent p (.head _)) p.2
    rw [List.foldl_cons, first, ih (ht.mergeStep p) fun q hq => recent q (.tail _ hq),
      List.foldl_cons]

theorem Ordered.mark?_purge_foldl_mergeStep_eq_none_iff (ht : t.Ordered)
    (recent : ∀ p ∈ steps, cutoff ≤ p.1) :
    ((steps.foldl Timeline.mergeStep t).purge cutoff).mark? v = none ↔
      (t.purge cutoff).mark? v = none ∧ ∀ p ∈ steps, p.2.names v = false := by
  induction steps generalizing t with
  | nil => simp
  | cons p rest ih =>
    rw [List.foldl_cons, ih (ht.mergeStep p) fun q hq => recent q (.tail _ hq), Timeline.mergeStep,
      ht.mark?_purge_merge_eq_none_iff (recent p (.head _)), List.forall_mem_cons, and_assoc]

theorem lastReset_purge_foldl_mergeStep_eq_none_iff (recent : ∀ p ∈ steps, cutoff ≤ p.1) :
    ((steps.foldl mergeStep t).purge cutoff).lastReset = none ↔
      (t.purge cutoff).lastReset = none ∧ ∀ p ∈ steps, p.2.resets = false := by
  induction steps generalizing t with
  | nil => simp
  | cons p rest ih =>
    rw [List.foldl_cons, ih fun q hq => recent q (.tail _ hq), mergeStep,
      lastReset_purge_merge_eq_none_iff (recent p (.head _)), List.forall_mem_cons, and_assoc]

theorem Continues.foldl_mergeStep (h : Continues cutoff t u) (hu : u.Ordered)
    (recent : ∀ p ∈ steps, cutoff ≤ p.1) : Continues cutoff t (steps.foldl mergeStep u) := by
  induction steps generalizing u with
  | nil => exact h
  | cons p rest ih =>
    exact ih (h.merge hu (recent p (.head _)) p.2) (hu.mergeStep p)
      fun q hq => recent q (.tail _ hq)

theorem Ordered.foldl_mergeEdit (ht : t.Ordered) (es : List Edit) :
    (es.foldl Timeline.mergeEdit t).Ordered := by
  induction es generalizing t with
  | nil => exact ht
  | cons e rest ih => exact ih (ht.mergeEdit e)

/-- Edits that are no older than the cutoff may be merged before the purge or after it. -/
theorem Ordered.purge_foldl_mergeEdit (ht : t.Ordered) (recent : ∀ e ∈ es, cutoff ≤ e.stamp) :
    es.foldl Timeline.mergeEdit (t.purge cutoff) =
      (es.foldl Timeline.mergeEdit t).purge cutoff := by
  rw [foldl_mergeEdit_eq, foldl_mergeEdit_eq]
  exact ht.purge_foldl_mergeStep (recent_stepsOf recent)

theorem Ordered.mark?_purge_foldl_mergeEdit_eq_none_iff (ht : t.Ordered)
    (recent : ∀ e ∈ es, cutoff ≤ e.stamp) :
    ((es.foldl Timeline.mergeEdit t).purge cutoff).mark? v = none ↔
      (t.purge cutoff).mark? v = none ∧ ∀ e ∈ es, e.names v = false := by
  rw [foldl_mergeEdit_eq, ht.mark?_purge_foldl_mergeStep_eq_none_iff (recent_stepsOf recent),
    forall_mem_stepsOf_iff]
  simp only [Edit.names, List.any_eq_false, Bool.not_eq_true]

theorem lastReset_purge_foldl_mergeEdit_eq_none_iff (recent : ∀ e ∈ es, cutoff ≤ e.stamp) :
    ((es.foldl mergeEdit t).purge cutoff).lastReset = none ↔
      (t.purge cutoff).lastReset = none ∧ ∀ e ∈ es, e.resets = false := by
  rw [foldl_mergeEdit_eq, lastReset_purge_foldl_mergeStep_eq_none_iff (recent_stepsOf recent),
    forall_mem_stepsOf_iff]
  simp only [Edit.resets, List.any_eq_false, Bool.not_eq_true]

theorem Ordered.continues_foldl_mergeEdit (ht : t.Ordered)
    (recent : ∀ e ∈ es, cutoff ≤ e.stamp) :
    Continues cutoff t (es.foldl Timeline.mergeEdit t) := by
  rw [foldl_mergeEdit_eq]
  exact (Continues.refl cutoff t).foldl_mergeStep ht (recent_stepsOf recent)

theorem upholds_purge {m : Mark} (kept : cutoff ≤ m.stamp) :
    (t.purge cutoff).upholds m = t.upholds m := by
  rw [Bool.eq_iff_iff, upholds_iff, upholds_iff, overrides_purge kept]

theorem asserted_purge (t : Timeline) (cutoff : Stamp) :
    (t.purge cutoff).asserted = t.asserted.filter (cutoff ≤ ·.stamp) := by
  rw [asserted, asserted, List.filter_comm, purge]
  exact List.filter_congr fun m hm => upholds_purge (by simpa using (List.mem_filter.mp hm).2)

theorem Ordered.asserts_purge_iff (ht : t.Ordered) : (t.purge cutoff).asserts v = true ↔
    ∃ m, t.mark? v = some m ∧ t.upholds m = true ∧ cutoff ≤ m.stamp := by
  rw [asserts_iff]
  simp only [ht.mark?_purge_eq_some_iff]
  exact exists_congr fun m => ⟨fun h => ⟨h.1.1, upholds_purge h.1.2 ▸ h.2, h.1.2⟩,
    fun h => ⟨⟨h.1, h.2.2⟩, (upholds_purge h.2.2).trans h.2.1⟩⟩

/-- Beside a reset that was not dropped nothing old is upheld. -/
theorem recent_of_upholds {m : Mark} (hm : t.upholds m = true)
    (reset : (t.purge cutoff).lastReset ≠ none) : cutoff ≤ m.stamp := by
  by_contra old
  refine reset (lastReset_purge_eq_none_iff.mpr fun r hr => ?_)
  by_contra kept
  have overrides := (upholds_iff.mp hm).2
  rw [Bool.eq_false_iff, Ne, overrides_iff] at overrides
  exact overrides ⟨r, hr, (not_le.mp old).trans_le (not_lt.mp kept)⟩

end DirectoryHistory.Timeline
