import DirectoryHistory.Proofs.Timeline.Merge

/-!
# Timelines as reflections of edits

A timeline reflects a collection of edits when its last reset and its marks carry the newest stamps
of the edits that reset the attribute and that name the values, and each mark has the outcome of its
edit. An edit that a newer reset overrides may leave another outcome behind, unless all its changes
are the same. Merging the changes of an edit one after the other adds it to the collection, and what
is reflected does not depend on order or repetition.
-/

namespace DirectoryHistory

namespace Edit

/-- Whether `newest` is the newest stamp of the edits that `p` holds of, if there are any. -/
def IsNewest (p : Edit → Bool) (edits : List Edit) (newest : Option Stamp) : Prop :=
  (∀ s ∈ newest, ∃ e ∈ edits, p e = true ∧ e.stamp = s) ∧
    ∀ e ∈ edits, p e = true → ∃ s ∈ newest, e.stamp ≤ s

theorem IsNewest.congr {p : Edit → Bool} {es fs : List Edit} {newest : Option Stamp}
    (h : IsNewest p es newest) (same : ∀ e, e ∈ es ↔ e ∈ fs) : IsNewest p fs newest := by
  simpa only [IsNewest, same] using h

theorem IsNewest.unique {p : Edit → Bool} {es : List Edit} {o o' : Option Stamp}
    (h : IsNewest p es o) (h' : IsNewest p es o') : o = o' := by
  have below : ∀ {o o' : Option Stamp}, IsNewest p es o → IsNewest p es o' →
      ∀ s ∈ o, ∃ s' ∈ o', s ≤ s' := by
    rintro o o' h h' s hs
    obtain ⟨e, he, hp, rfl⟩ := h.1 s hs
    exact h'.2 e he hp
  cases o with
  | none =>
    cases o' with
    | none => rfl
    | some s' => simpa using below h' h s' rfl
  | some s =>
    obtain ⟨s', hs', hle⟩ := below h h' s rfl
    obtain ⟨s'', hs'', hge⟩ := below h' h s' hs'
    cases hs'
    cases hs''
    rw [le_antisymm hle hge]

theorem IsNewest.cons_of_not {p : Edit → Bool} {es : List Edit} {o : Option Stamp} {e : Edit}
    (h : IsNewest p es o) (he : p e = false) : IsNewest p (e :: es) o := by
  refine ⟨fun s hs => ?_, fun e' he' hp => ?_⟩
  · obtain ⟨e', he', hp⟩ := h.1 s hs
    exact ⟨e', .tail _ he', hp⟩
  · rcases List.mem_cons.mp he' with rfl | he'
    · simp [he] at hp
    · exact h.2 e' he' hp

/-- More changes of the edit in front may make its stamp count. -/
theorem IsNewest.extend {p : Edit → Bool} {es : List Edit} {s : Stamp} {cs ds : List Change}
    {o : Option Stamp} (h : IsNewest p (⟨s, cs⟩ :: es) o) {b : Bool}
    (hp : p ⟨s, ds⟩ = (p ⟨s, cs⟩ || b)) :
    IsNewest p (⟨s, ds⟩ :: es) (if b = true then Stamp.newest o (some s) else o) := by
  obtain ⟨attained, bounded⟩ := h
  cases b with
  | false =>
    rw [Bool.or_false] at hp
    refine ⟨fun s' hs' => ?_, fun e he hpe => ?_⟩
    · obtain ⟨e, he, hpe, rfl⟩ := attained s' hs'
      rcases List.mem_cons.mp he with rfl | he
      · exact ⟨_, .head _, hp.trans hpe, rfl⟩
      · exact ⟨e, .tail _ he, hpe, rfl⟩
    · rcases List.mem_cons.mp he with rfl | he
      · exact bounded ⟨s, cs⟩ (.head _) (hp.symm.trans hpe)
      · exact bounded e (.tail _ he) hpe
  | true =>
    rw [Bool.or_true] at hp
    obtain ⟨n, hn, hs, ho, hcase⟩ := Stamp.newest_some_spec o s
    refine ⟨fun s' hs' => ?_, fun e he hpe => ⟨n, by simp [hn], ?_⟩⟩
    · obtain rfl : n = s' := by simpa [hn] using hs'
      rcases hcase with rfl | hcase
      · exact ⟨_, .head _, hp, rfl⟩
      · obtain ⟨e, he, hpe, rfl⟩ := attained n hcase
        rcases List.mem_cons.mp he with rfl | he
        · exact ⟨_, .head _, hp, rfl⟩
        · exact ⟨e, .tail _ he, hpe, rfl⟩
    · rcases List.mem_cons.mp he with rfl | he
      · exact hs
      · obtain ⟨r, hr, hle⟩ := bounded e (.tail _ he) hpe
        exact hle.trans (ho r hr)

/-- What holds of a state and the edits it has taken, in any order, holds after a run of edits. A
stamp may come again with the same edit. -/
theorem foldl_collects {σ : Type} {P : σ → List Edit → Prop} {f : σ → Edit → σ} {s : σ}
    {es fs : List Edit}
    (congr : ∀ {s es fs}, P s es → (∀ e, e ∈ es ↔ e ∈ fs) → P s fs)
    (step : ∀ {s es}, ∀ e ∈ fs, P s es → (∀ e' ∈ es, e'.stamp = e.stamp → e' = e) →
      P (f s e) (e :: es))
    (h : P s es)
    (compatible : ∀ e ∈ es ++ fs, ∀ e' ∈ es ++ fs, e'.stamp = e.stamp → e' = e) :
    P (fs.foldl f s) (es ++ fs) := by
  induction fs generalizing s es with
  | nil => simpa using h
  | cons f fs ih =>
    have mem : ∀ e, e ∈ f :: es ++ fs ↔ e ∈ es ++ f :: fs := by
      intro e
      simp only [List.cons_append, List.mem_cons, List.mem_append]
      tauto
    have first := step f (.head _) h
      fun e' he' hs => compatible f (by simp) e' (by simp [he']) hs
    refine congr (ih (fun e he => step e (.tail _ he)) first fun e he e' he' => ?_) mem
    exact compatible e ((mem e).mp he) e' ((mem e').mp he')

end Edit

namespace Timeline

/-- The timeline tells what `edits` did: when the attribute was last reset, when each value was last
named, and with which outcome, as far as that still counts. -/
structure Reflects (t : Timeline) (edits : List Edit) : Prop where
  ordered : t.Ordered
  resets : Edit.IsNewest Edit.resets edits t.lastReset
  stamps : ∀ v, Edit.IsNewest (Edit.names v) edits ((t.mark? v).map (·.stamp))
  outcomes : ∀ v m, t.mark? v = some m → ∀ e ∈ edits, e.stamp = m.stamp → e.names v = true →
    (t.overrides m.stamp = false ∨ e.IsUniform) → e.outcome v = some m.sense

theorem reflects_nil : Reflects .empty [] := by
  refine ⟨ordered_empty, ?_, fun v => ?_, fun v m hm => by simp at hm⟩
  · simp [Edit.IsNewest, empty]
  · simp [Edit.IsNewest]

theorem Reflects.congr {t : Timeline} {es fs : List Edit} (h : t.Reflects es)
    (same : ∀ e, e ∈ es ↔ e ∈ fs) : t.Reflects fs where
  ordered := h.ordered
  resets := h.resets.congr same
  stamps v := (h.stamps v).congr same
  outcomes v m hm e he := h.outcomes v m hm e ((same e).mpr he)

theorem stamp_mark?_merge {t : Timeline} (ht : t.Ordered) (s : Stamp) (c : Change) (v : Octets) :
    ((t.merge s c).mark? v).map (·.stamp) =
      if c.names v = true then Stamp.newest ((t.mark? v).map (·.stamp)) (some s)
      else (t.mark? v).map (·.stamp) := by
  cases hv : c.names v with
  | false =>
    rw [mark?_merge_of_not_names ht hv]
    split
    · next h => simp [h.2.2]
    · simp
  | true =>
    obtain ⟨x, -, hm⟩ := mark?_merge_of_names (s := s) ht hv
    rw [hm, if_pos rfl]
    split
    · next h =>
      -- The mark that stays is at least as new as the change.
      have : ∃ n, t.mark? v = some n ∧ s ≤ n.stamp := by
        rcases h with h | ⟨-, -, h⟩
        · obtain ⟨n, hn, hlt⟩ := outdates_iff.mp h
          exact ⟨n, hn, hlt.le⟩
        · rw [Bool.eq_false_iff, Ne, admits_iff] at h
          simpa using h
      obtain ⟨n, hn, hle⟩ := this
      simp [hn, max_eq_left hle]
    · next h =>
      cases hn : t.mark? v with
      | none => simp
      | some n =>
        have hle : n.stamp ≤ s := by
          by_contra hlt
          exact h (.inl (outdates_iff.mpr ⟨n, hn, not_le.mp hlt⟩))
        simp [max_eq_right hle]

theorem overrides_merge_of_overrides {t : Timeline} {s s' : Stamp} (c : Change)
    (h : t.overrides s' = true) : (t.merge s c).overrides s' = true := by
  obtain ⟨r, hr, hlt⟩ := overrides_iff.mp h
  rw [overrides_iff, lastReset_merge]
  split
  · exact ⟨max r s, by simp [hr], hlt.trans_le (le_max_left r s)⟩
  · exact ⟨r, hr, hlt⟩

theorem mark?_of_mark?_merge {t : Timeline} (ht : t.Ordered) {s : Stamp} {c : Change} {v : Octets}
    {m : Mark} (hm : (t.merge s c).mark? v = some m) (hs : m.stamp ≠ s) : t.mark? v = some m := by
  cases hv : c.names v with
  | false =>
    rw [mark?_merge_of_not_names ht hv] at hm
    split at hm
    · cases hm
      exact absurd rfl hs
    · exact hm
  | true =>
    obtain ⟨x, -, h⟩ := mark?_merge_of_names (s := s) ht hv
    rw [h] at hm
    split at hm
    · exact hm
    · cases hm
      exact absurd rfl hs

theorem Reflects.mem_of_stamp {t : Timeline} {s : Stamp} {cs : List Change} {es : List Edit}
    (h : t.Reflects (⟨s, cs⟩ :: es)) (fresh : ∀ e ∈ es, e.stamp ≠ s) {v : Octets} {m : Mark}
    (hm : t.mark? v = some m) (hs : m.stamp = s) : Edit.names v ⟨s, cs⟩ = true := by
  obtain ⟨e, he, hv, he'⟩ := (h.stamps v).1 s (by simp [hm, hs])
  rcases List.mem_cons.mp he with rfl | he
  · exact hv
  · exact absurd he' (fresh e he)

/-- A mark that the changes before the last one left behind has their outcome. -/
theorem Reflects.outcome_init {t : Timeline} {s : Stamp} {cs : List Change} {es : List Edit}
    (h : t.Reflects (⟨s, cs⟩ :: es)) (fresh : ∀ e ∈ es, e.stamp ≠ s) {c : Change} {v : Octets}
    {m : Mark} (old : t.mark? v = some m) (hs : m.stamp = s)
    (counts : t.overrides s = false ∨ Edit.IsUniform ⟨s, cs ++ [c]⟩) :
    Edit.outcomeOf v cs = some m.sense := by
  refine h.outcomes v m old ⟨s, cs⟩ (.head _) hs.symm (h.mem_of_stamp fresh old hs) ?_
  rw [hs]
  exact counts.imp_right fun hu d hd d' hd' =>
    hu d (List.mem_append_left _ hd) d' (List.mem_append_left _ hd')

theorem Reflects.outcome_snoc_of_names {t : Timeline} {s : Stamp} {cs : List Change}
    {es : List Edit} (h : t.Reflects (⟨s, cs⟩ :: es)) (fresh : ∀ e ∈ es, e.stamp ≠ s) {c : Change}
    {v : Octets} {m : Mark} (hc : c.names v = true) (hm : (t.merge s c).mark? v = some m)
    (hs : m.stamp = s) (counts : t.overrides s = false ∨ Edit.IsUniform ⟨s, cs ++ [c]⟩) :
    (c.outcome v).or (Edit.outcomeOf v cs) = some m.sense := by
  obtain ⟨x, hx, hm'⟩ := mark?_merge_of_names (s := s) h.ordered hc
  rw [hm'] at hm
  split at hm
  · next hcase =>
    rcases hcase with hd | ⟨-, ho, -⟩
    · obtain ⟨n, hn, hlt⟩ := outdates_iff.mp hd
      rw [hm] at hn
      cases hn
      exact absurd hs hlt.ne'
    · -- An overridden replace that came before: all changes are this one.
      have hu := counts.resolve_left (by simp [ho])
      have named := h.mem_of_stamp fresh hm hs
      have hcs : cs ≠ [] := by
        rintro rfl
        simp [Edit.names] at named
      have same : ∀ d ∈ cs, d = c := fun d hd => hu d (by simp [hd]) c (by simp)
      rw [← h.outcome_init fresh hm hs counts, Edit.outcomeOf_eq_of_forall hcs same, Option.or_self]
  · cases hm
    simp [hx]

theorem Reflects.outcome_snoc_of_not_names {t : Timeline} {s : Stamp} {cs : List Change}
    {es : List Edit} (h : t.Reflects (⟨s, cs⟩ :: es)) (fresh : ∀ e ∈ es, e.stamp ≠ s) {c : Change}
    {v : Octets} {m : Mark} (hc : c.names v = false) (hm : (t.merge s c).mark? v = some m)
    (hs : m.stamp = s) (counts : t.overrides s = false ∨ Edit.IsUniform ⟨s, cs ++ [c]⟩) :
    (c.outcome v).or (Edit.outcomeOf v cs) = some m.sense := by
  rw [mark?_merge_of_not_names h.ordered hc] at hm
  split at hm
  · next hcase =>
    cases hm
    simp [Change.outcome_of_not_names hc hcase.1]
  · next hcase =>
    cases hr : c.resets with
    | false => simp [Change.outcome_eq_none hc hr, h.outcome_init fresh hm hs counts]
    | true =>
      rw [Change.outcome_of_not_names hc hr, Option.some_or]
      rcases counts with ho | hu
      · obtain ⟨w, x, s'⟩ := m
        obtain rfl : w = v := mark?_value hm
        cases x with
        | deleted => rfl
        | added => exact absurd ⟨hr, ho, hs ▸ hm⟩ hcase
      · obtain ⟨d, hd, hdv⟩ := List.any_eq_true.mp (h.mem_of_stamp fresh hm hs)
        have same : d = c := hu d (List.mem_append_left _ hd) c (by simp)
        rw [same, hc] at hdv
        cases hdv

/-- The mark that the last change of an edit leaves behind has the outcome of the edit. -/
theorem Reflects.outcome_snoc {t : Timeline} {s : Stamp} {cs : List Change} {es : List Edit}
    (h : t.Reflects (⟨s, cs⟩ :: es)) (fresh : ∀ e ∈ es, e.stamp ≠ s) {c : Change} {v : Octets}
    {m : Mark} (hm : (t.merge s c).mark? v = some m) (hs : m.stamp = s)
    (counts : t.overrides s = false ∨ Edit.IsUniform ⟨s, cs ++ [c]⟩) :
    Edit.outcome v ⟨s, cs ++ [c]⟩ = some m.sense := by
  rw [Edit.outcome, Edit.outcomeOf_snoc]
  cases hc : c.names v with
  | true => exact h.outcome_snoc_of_names fresh hc hm hs counts
  | false => exact h.outcome_snoc_of_not_names fresh hc hm hs counts

theorem Reflects.merge {t : Timeline} {s : Stamp} {cs : List Change} {es : List Edit}
    (h : t.Reflects (⟨s, cs⟩ :: es)) (fresh : ∀ e ∈ es, e.stamp ≠ s) (c : Change) :
    (t.merge s c).Reflects (⟨s, cs ++ [c]⟩ :: es) where
  ordered := h.ordered.merge s c
  resets := by
    rw [lastReset_merge]
    exact h.resets.extend (by simp [Edit.resets])
  stamps v := by
    rw [stamp_mark?_merge h.ordered]
    exact (h.stamps v).extend (by simp [Edit.names])
  outcomes v m hm e he hs hv hcount := by
    have before : t.overrides m.stamp = false ∨ e.IsUniform := by
      refine hcount.imp_left fun hc => ?_
      rw [Bool.eq_false_iff] at hc ⊢
      exact mt (overrides_merge_of_overrides c) hc
    rcases List.mem_cons.mp he with rfl | he
    · have hs : m.stamp = s := hs.symm
      exact h.outcome_snoc fresh hm hs (hs ▸ before)
    · have old := mark?_of_mark?_merge h.ordered hm (hs ▸ fresh e he)
      exact h.outcomes v m old e (.tail _ he) hs hv before

theorem Reflects.foldl_merge {t : Timeline} {s : Stamp} {cs : List Change} {es : List Edit}
    (h : t.Reflects (⟨s, cs⟩ :: es)) (fresh : ∀ e ∈ es, e.stamp ≠ s) (ds : List Change) :
    (ds.foldl (Timeline.merge s) t).Reflects (⟨s, cs ++ ds⟩ :: es) := by
  induction ds generalizing t cs with
  | nil => simpa using h
  | cons d ds ih => simpa using ih (h.merge fresh d)

theorem Reflects.cons_nil {t : Timeline} {es : List Edit} (h : t.Reflects es) (s : Stamp) :
    t.Reflects (⟨s, []⟩ :: es) where
  ordered := h.ordered
  resets := h.resets.cons_of_not rfl
  stamps v := (h.stamps v).cons_of_not rfl
  outcomes v m hm e he hs hv hcount := by
    rcases List.mem_cons.mp he with rfl | he
    · simp [Edit.names] at hv
    · exact h.outcomes v m hm e he hs hv hcount

theorem Reflects.of_twice {t : Timeline} {s : Stamp} {cs : List Change} {es : List Edit}
    (h : t.Reflects (⟨s, cs ++ cs⟩ :: es)) : t.Reflects (⟨s, cs⟩ :: es) where
  ordered := h.ordered
  resets := h.resets.extend (b := false) (by simp [Edit.resets])
  stamps v := (h.stamps v).extend (b := false) (by simp [Edit.names])
  outcomes v m hm e he hs hv hcount := by
    rcases List.mem_cons.mp he with rfl | he
    · have twice := h.outcomes v m hm ⟨s, cs ++ cs⟩ (.head _) hs
        (by simpa [Edit.names] using hv) (hcount.imp_right fun hu c hc d hd =>
          hu c (by simpa using hc) d (by simpa using hd))
      rwa [Edit.outcome, Edit.outcomeOf_append, Option.or_self] at twice
    · exact h.outcomes v m hm e (.tail _ he) hs hv hcount

def mergeEdit (t : Timeline) (e : Edit) : Timeline :=
  e.changes.foldl (merge e.stamp) t

theorem Ordered.mergeEdit {t : Timeline} (ht : t.Ordered) (e : Edit) : (t.mergeEdit e).Ordered := by
  have fold : ∀ (cs : List Change) (t : Timeline), t.Ordered →
      (cs.foldl (Timeline.merge e.stamp) t).Ordered := by
    intro cs
    induction cs with
    | nil => exact fun _ ht => ht
    | cons c cs ih => exact fun t ht => ih _ (ht.merge e.stamp c)
  exact fold e.changes t ht

/-- Merging an edit adds it to what is reflected, also when it was there before. -/
theorem Reflects.mergeEdit {t : Timeline} {es : List Edit} (h : t.Reflects es) (e : Edit)
    (compatible : ∀ e' ∈ es, e'.stamp = e.stamp → e' = e) :
    (t.mergeEdit e).Reflects (e :: es) := by
  by_cases he : e ∈ es
  · -- A repetition does the changes twice in a row, as far as they are still there.
    let others := es.filter fun e' => e'.stamp ≠ e.stamp
    have same : ∀ e', e' ∈ es ↔ e' ∈ e :: others := by
      intro e'
      simp only [others, List.mem_cons, List.mem_filter, decide_eq_true_eq]
      constructor
      · intro h'
        by_cases hs : e'.stamp = e.stamp
        · exact .inl (compatible e' h' hs)
        · exact .inr ⟨h', hs⟩
      · rintro (rfl | ⟨h', -⟩)
        · exact he
        · exact h'
    have twice := (h.congr same).foldl_merge (by simp [others]) e.changes
    refine twice.of_twice.congr fun e' => ?_
    rw [← same, List.mem_cons]
    exact ⟨.inr, fun h' => h'.elim (fun h' => h' ▸ he) id⟩
  · have fresh : ∀ e' ∈ es, e'.stamp ≠ e.stamp :=
      fun e' he' hs => he (compatible e' he' hs ▸ he')
    exact (h.cons_nil e.stamp).foldl_merge fresh e.changes

theorem Reflects.foldl_mergeEdit {t : Timeline} {es : List Edit} (h : t.Reflects es)
    (fs : List Edit)
    (compatible : ∀ e ∈ es ++ fs, ∀ e' ∈ es ++ fs, e'.stamp = e.stamp → e' = e) :
    (fs.foldl Timeline.mergeEdit t).Reflects (es ++ fs) :=
  Edit.foldl_collects (P := Reflects) (fun h => h.congr) (fun e _ h => h.mergeEdit e) h compatible

end Timeline

end DirectoryHistory
