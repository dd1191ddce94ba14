import DirectoryHistory.Proofs.Timeline.Reflection

/-!
# What a timeline asserts

The marks that a timeline upholds are the same for all timelines that reflect the same edits, and
the values that it asserts are those that the edits leave behind when they are performed one after
the other in the order of their stamps.
-/

namespace DirectoryHistory.Timeline

theorem upholds_iff {t : Timeline} {m : Mark} :
    t.upholds m = true ↔ m.sense = .added ∧ t.overrides m.stamp = false := by
  cases h : t.lastReset <;> simp [upholds, overrides, h]

theorem upholds_congr {t u : Timeline} (reset : t.lastReset = u.lastReset) :
    t.upholds = u.upholds := by
  funext m
  rw [upholds, upholds, reset]

theorem asserts_iff {t : Timeline} {v : Octets} : t.asserts v = true ↔
    ∃ m, t.mark? v = some m ∧ t.upholds m = true := by
  cases h : t.mark? v <;> simp [asserts, h]

theorem Ordered.mem_asserted {t : Timeline} (ht : t.Ordered) {m : Mark} :
    m ∈ t.asserted ↔ t.mark? m.value = some m ∧ t.upholds m = true := by
  rw [asserted, List.mem_filter, ht.mark?_eq_some_iff]
  simp

theorem Ordered.mem_map_asserted {t : Timeline} (ht : t.Ordered) {v : Octets} :
    v ∈ t.asserted.map (·.value) ↔ t.asserts v = true := by
  rw [List.mem_map, asserts_iff]
  constructor
  · rintro ⟨m, hm, rfl⟩
    exact ⟨m, ht.mem_asserted.mp hm⟩
  · rintro ⟨m, hm, hu⟩
    obtain rfl := mark?_value hm
    exact ⟨m, ht.mem_asserted.mpr ⟨hm, hu⟩, rfl⟩

theorem Ordered.head?_asserted {t : Timeline} (ht : t.Ordered) {m : Mark}
    (h : t.asserted.head? = some m) :
    m ∈ t.asserted ∧ ∀ n ∈ t.asserted, n = m ∨ m.precedes n = true := by
  obtain ⟨rest, he⟩ := List.head?_eq_some_iff.mp h
  have ascending : (m :: rest).Pairwise (·.precedes ·) := he ▸ ht.ascending.filter t.upholds
  rw [he]
  refine ⟨.head _, fun n hn => ?_⟩
  rcases List.mem_cons.mp hn with rfl | hn
  · exact .inl rfl
  · exact .inr ((List.pairwise_cons.mp ascending).1 n hn)

theorem Ordered.head?_asserted_iff {t : Timeline} (ht : t.Ordered) {m : Mark} :
    t.asserted.head? = some m ↔ m ∈ t.asserted ∧ ∀ n ∈ t.asserted, n = m ∨ m.precedes n = true := by
  constructor
  · exact ht.head?_asserted
  · rintro ⟨member, first⟩
    cases head : t.asserted.head? with
    | none =>
      rw [List.head?_eq_none_iff.mp head] at member
      cases member
    | some n =>
      obtain ⟨member', first'⟩ := ht.head?_asserted head
      rw [Mark.eq_of_precedes (first' m member) (first n member')]

/-- Ordered timelines that uphold the same marks list them alike. -/
theorem Ordered.asserted_eq {t u : Timeline} (ht : t.Ordered) (hu : u.Ordered)
    (same : ∀ v m, (t.mark? v = some m ∧ t.upholds m = true) ↔
      (u.mark? v = some m ∧ u.upholds m = true)) : t.asserted = u.asserted :=
  (ht.ascending.filter _).eq_of_mem_iff (hu.ascending.filter _) fun m => by
    have h := same m.value m
    rwa [← ht.mem_asserted, ← hu.mem_asserted] at h

variable {t u : Timeline} {es : List Edit}

theorem Reflects.lastReset_eq (h : t.Reflects es) (h' : u.Reflects es) :
    t.lastReset = u.lastReset :=
  h.resets.unique h'.resets

theorem Reflects.overrides_eq (h : t.Reflects es) (h' : u.Reflects es) (s : Stamp) :
    t.overrides s = u.overrides s := by
  rw [overrides, overrides, h.lastReset_eq h']

theorem Reflects.stamp_eq (h : t.Reflects es) (h' : u.Reflects es) (v : Octets) :
    (t.mark? v).map (·.stamp) = (u.mark? v).map (·.stamp) :=
  (h.stamps v).unique (h'.stamps v)

theorem Reflects.exists_edit (h : t.Reflects es) {v : Octets} {m : Mark}
    (hm : t.mark? v = some m) : ∃ e ∈ es, Edit.names v e = true ∧ e.stamp = m.stamp :=
  (h.stamps v).1 m.stamp (by simp [hm])

theorem Reflects.exists_mark (h : t.Reflects es) {v : Octets} {e : Edit} (he : e ∈ es)
    (hv : Edit.names v e = true) : ∃ m, t.mark? v = some m ∧ e.stamp ≤ m.stamp := by
  obtain ⟨s, hs, hle⟩ := (h.stamps v).2 e he hv
  obtain ⟨m, hm, rfl⟩ := Option.map_eq_some_iff.mp hs
  exact ⟨m, hm, hle⟩

theorem Reflects.mark?_eq_none_iff (h : t.Reflects es) {v : Octets} :
    t.mark? v = none ↔ ∀ e ∈ es, Edit.names v e = false := by
  constructor
  · intro hv e he
    rw [Bool.eq_false_iff]
    intro hn
    obtain ⟨m, hm, -⟩ := h.exists_mark he hn
    simp [hv] at hm
  · intro hv
    by_contra hm
    obtain ⟨m, hm⟩ := Option.ne_none_iff_exists'.mp hm
    obtain ⟨e, he, hn, -⟩ := h.exists_edit hm
    simp [hv e he] at hn

theorem Reflects.mark?_eq_of_counts (h : t.Reflects es) (h' : u.Reflects es) {v : Octets}
    {m : Mark} (hm : t.mark? v = some m)
    (counts : t.overrides m.stamp = false ∨ ∀ e ∈ es, e.IsUniform) : u.mark? v = some m := by
  have stamps := h.stamp_eq h' v
  rw [hm, Option.map_some, eq_comm, Option.map_eq_some_iff] at stamps
  obtain ⟨n, hn, hs⟩ := stamps
  obtain ⟨e, he, hv, hes⟩ := h.exists_edit hm
  have left := h.outcomes v m hm e he hes hv (counts.imp_right (· e he))
  have right := h'.outcomes v n hn e he (hes.trans hs.symm) hv
    (counts.imp (by rw [h.overrides_eq h', hs]; exact id) (· e he))
  have value := mark?_value hn
  have value' := mark?_value hm
  rw [left] at right
  cases m
  cases n
  simp_all

theorem Reflects.asserted_eq (h : t.Reflects es) (h' : u.Reflects es) :
    t.asserted = u.asserted := by
  have half : ∀ {t u : Timeline}, t.Reflects es → u.Reflects es → ∀ v m,
      t.mark? v = some m ∧ t.upholds m = true → u.mark? v = some m ∧ u.upholds m = true := by
    intro t u h h' v m ⟨hm, hu⟩
    obtain ⟨hx, ho⟩ := upholds_iff.mp hu
    exact ⟨h.mark?_eq_of_counts h' hm (.inl ho),
      upholds_iff.mpr ⟨hx, (h.overrides_eq h' m.stamp).symm.trans ho⟩⟩
  exact h.ordered.asserted_eq h'.ordered fun v m => ⟨half h h' v m, half h' h v m⟩

/-- Edits of one change each determine the whole timeline. -/
theorem Reflects.eq_of_uniform (h : t.Reflects es) (h' : u.Reflects es)
    (uniform : ∀ e ∈ es, e.IsUniform) : t = u := by
  refine h.ordered.ext h'.ordered (h.lastReset_eq h') fun v => ?_
  cases hm : t.mark? v with
  | none => exact (h'.mark?_eq_none_iff.mpr (h.mark?_eq_none_iff.mp hm)).symm
  | some m => exact (h.mark?_eq_of_counts h' hm (.inr uniform)).symm

theorem outcomeOf_flatMap_eq_none {es : List Edit} {v : Octets}
    (h : ∀ e ∈ es, e.outcome v = none) : Edit.outcomeOf v (es.flatMap (·.changes)) = none := by
  induction es with
  | nil => simp
  | cons e es ih =>
    rw [List.flatMap_cons, Edit.outcomeOf_append, ih fun e' he' => h e' (.tail _ he')]
    exact h e (.head _)

/-- In ascending order the last edit that concerns the value decides. -/
theorem outcomeOf_flatMap {es : List Edit} (ascending : es.Pairwise (·.stamp < ·.stamp))
    {v : Octets} {e : Edit} {x : Sense} (he : e ∈ es) (hx : e.outcome v = some x)
    (last : ∀ e' ∈ es, e.stamp < e'.stamp → e'.outcome v = none) :
    Edit.outcomeOf v (es.flatMap (·.changes)) = some x := by
  induction es with
  | nil => simp at he
  | cons f fs ih =>
    obtain ⟨first, rest⟩ := List.pairwise_cons.mp ascending
    rw [List.flatMap_cons, Edit.outcomeOf_append]
    rcases List.mem_cons.mp he with rfl | he
    · rw [outcomeOf_flatMap_eq_none fun e' he' => last e' (.tail _ he') (first e' he')]
      exact hx
    · rw [ih rest he fun e' he' => last e' (.tail _ he')]
      rfl

theorem Reflects.outcome_eq_none (h : t.Reflects es) {v : Octets} {s : Stamp}
    (reset : ∀ r ∈ t.lastReset, r ≤ s) (mark : ∀ m ∈ t.mark? v, m.stamp ≤ s) {e : Edit}
    (he : e ∈ es) (hs : s < e.stamp) : e.outcome v = none := by
  rw [Edit.outcome, Edit.outcomeOf_eq_none_iff, Bool.eq_false_iff, Bool.eq_false_iff]
  constructor
  · intro hn
    obtain ⟨m, hm, hle⟩ := h.exists_mark he hn
    exact absurd (hs.trans_le hle) (mark m hm).not_gt
  · intro hr
    obtain ⟨r, hr, hle⟩ := h.resets.2 e he hr
    exact absurd (hs.trans_le hle) (reset r hr).not_gt

/-- A mark that no reset overrides decides. -/
theorem Reflects.outcomeOf_flatMap_of_mark (h : t.Reflects es)
    (ascending : es.Pairwise (·.stamp < ·.stamp)) {v : Octets} {m : Mark}
    (hm : t.mark? v = some m) (hr : ∀ r ∈ t.lastReset, r ≤ m.stamp) :
    Edit.outcomeOf v (es.flatMap (·.changes)) = some m.sense := by
  obtain ⟨e, he, hv, hs⟩ := h.exists_edit hm
  have counts : t.overrides m.stamp = false := by
    rw [Bool.eq_false_iff, Ne, overrides_iff]
    rintro ⟨r, hr', hlt⟩
    exact (hr r hr').not_gt hlt
  apply outcomeOf_flatMap ascending he (h.outcomes v m hm e he hs hv (.inl counts))
  intro e' he' hlt
  exact h.outcome_eq_none hr (by simp [hm]) he' (hs ▸ hlt)

/-- A reset that overrides the mark, or finds none, decides. -/
theorem Reflects.outcomeOf_flatMap_of_reset (h : t.Reflects es)
    (ascending : es.Pairwise (·.stamp < ·.stamp)) {v : Octets} {r : Stamp}
    (hr : t.lastReset = some r) (hm : ∀ m ∈ t.mark? v, m.stamp < r) :
    Edit.outcomeOf v (es.flatMap (·.changes)) = some .deleted := by
  obtain ⟨e, he, hres, rfl⟩ := h.resets.1 r hr
  have unnamed : Edit.names v e = false := by
    rw [Bool.eq_false_iff]
    intro hn
    obtain ⟨m, hm', hle⟩ := h.exists_mark he hn
    exact absurd (hm m hm') hle.not_gt
  apply outcomeOf_flatMap ascending he (Edit.outcomeOf_of_not_names unnamed hres)
  intro e' he' hlt
  exact h.outcome_eq_none (by simp [hr]) (fun m hm' => (hm m hm').le) he' hlt

theorem Reflects.outcomeOf_flatMap (h : t.Reflects es)
    (ascending : es.Pairwise (·.stamp < ·.stamp)) (v : Octets) :
    Edit.outcomeOf v (es.flatMap (·.changes)) =
      match t.mark? v, t.lastReset with
      | some m, some r => if r ≤ m.stamp then some m.sense else some .deleted
      | some m, none => some m.sense
      | none, some _ => some .deleted
      | none, none => none := by
  cases hm : t.mark? v with
  | some m =>
    cases hr : t.lastReset with
    | some r =>
      by_cases hle : r ≤ m.stamp
      · simpa [hle] using h.outcomeOf_flatMap_of_mark ascending hm (by simpa [hr] using hle)
      · simpa [hle] using h.outcomeOf_flatMap_of_reset ascending hr (by simpa [hm] using hle)
    | none => exact h.outcomeOf_flatMap_of_mark ascending hm (by simp [hr])
  | none =>
    cases hr : t.lastReset with
    | some r => exact h.outcomeOf_flatMap_of_reset ascending hr (by simp [hm])
    | none =>
      refine outcomeOf_flatMap_eq_none fun e he => Edit.outcomeOf_eq_none_iff.mpr
        ⟨h.mark?_eq_none_iff.mp hm e he, Bool.eq_false_iff.mpr fun hres => ?_⟩
      simpa [hr] using h.resets.2 e he hres

/-- Performing the edits in the order of their stamps leaves the asserted values, and as long as
nothing was reset also those from before that no edit names. -/
theorem Reflects.mem_foldl_perform (h : t.Reflects es)
    (ascending : es.Pairwise (·.stamp < ·.stamp)) (v : Octets) (initial : Finset Octets) :
    v ∈ (es.flatMap (·.changes)).foldl Change.perform initial ↔
      t.asserts v = true ∨ t.lastReset = none ∧ t.mark? v = none ∧ v ∈ initial := by
  rw [Edit.mem_foldl_perform, h.outcomeOf_flatMap ascending, asserts_iff]
  cases hm : t.mark? v with
  | none => cases hr : t.lastReset <;> simp
  | some m =>
    cases hr : t.lastReset with
    | none => simp [upholds_iff, overrides, hr]
    | some r => by_cases hle : r ≤ m.stamp <;> simp [upholds_iff, overrides, hr, hle]

end DirectoryHistory.Timeline
