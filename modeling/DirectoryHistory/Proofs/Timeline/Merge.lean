import DirectoryHistory.Proofs.Edit
import DirectoryHistory.Proofs.Timeline.Records

/-!
# Merging a change into a timeline

The timeline after a change depends on the timeline before it and not on the values that the
attribute holds. What the change does to the mark about a value depends on whether it names the
value, and on whether a newer reset overrides it.
-/

namespace DirectoryHistory.Timeline

open Slot (superseded noteReplace)

theorem Ordered.mem_superseded {t : Timeline} (ht : t.Ordered) {s : Stamp} {vs : List Octets}
    {v : Octets} : v ∈ superseded t s vs ↔ t.mark? v = some ⟨v, .added, s⟩ ∧ v ∉ vs := by
  rw [ht.mark?_eq_some_iff]
  simp only [superseded, List.mem_map, List.mem_filter, Bool.and_eq_true, beq_iff_eq,
    Bool.not_eq_true', List.contains_eq_mem, decide_eq_false_iff_not]
  constructor
  · rintro ⟨⟨w, x, s'⟩, ⟨hm, ⟨rfl, rfl⟩, hv⟩, rfl⟩
    exact ⟨⟨hm, trivial⟩, hv⟩
  · rintro ⟨⟨hm, -⟩, hv⟩
    exact ⟨_, ⟨hm, ⟨rfl, rfl⟩, hv⟩, rfl⟩

/-- What is left when the news is not asked for. -/
theorem fst_noteReplace (t : Timeline) (s : Stamp) (vs : List Octets) :
    (noteReplace t s vs).1 = vs.foldl (fun t v => t.note ⟨v, .added, s⟩)
      ((superseded t s vs).foldl (fun t v => t.amend ⟨v, .deleted, s⟩) t) := by
  have fst : ∀ (ws : List Octets) (p : Timeline × Bool),
      (ws.foldl (fun p v => (p.1.note ⟨v, .added, s⟩, p.2 || p.1.isNews ⟨v, .added, s⟩)) p).1 =
        ws.foldl (fun t v => t.note ⟨v, .added, s⟩) p.1 := by
    intro ws
    induction ws with
    | nil => exact fun _ => rfl
    | cons w ws ih => exact fun p => ih _
  exact fst vs _

theorem Ordered.noteReplace {t : Timeline} (ht : t.Ordered) (s : Stamp) (vs : List Octets) :
    (Slot.noteReplace t s vs).1.Ordered := by
  rw [fst_noteReplace]
  exact .foldl (fun _ _ h => h.note _) _ (.foldl (fun _ _ h => h.amend _) _ ht)

@[simp] theorem lastReset_noteReplace (t : Timeline) (s : Stamp) (vs : List Octets) :
    (noteReplace t s vs).1.lastReset = t.lastReset := by
  rw [fst_noteReplace, lastReset_foldl (by simp), lastReset_foldl (by simp)]

theorem mark?_noteReplace {t : Timeline} (ht : t.Ordered) (s : Stamp) (vs : List Octets)
    (v : Octets) : (noteReplace t s vs).1.mark? v =
      if v ∈ vs then if t.outdates v s = true then t.mark? v else some ⟨v, .added, s⟩
      else if t.mark? v = some ⟨v, .added, s⟩ then some ⟨v, .deleted, s⟩ else t.mark? v := by
  rw [fst_noteReplace, mark?_foldl_note]
  by_cases hv : v ∈ vs
  · have hs : v ∉ superseded t s vs := fun h => (ht.mem_superseded.mp h).2 hv
    have same : (t.outdates v s) = ((superseded t s vs).foldl
        (fun t v => t.amend ⟨v, .deleted, s⟩) t).outdates v s := by
      simp [outdates, mark?_foldl_amend, hs]
    rw [← same, mark?_foldl_amend]
    by_cases hd : t.outdates v s = true <;> simp [hv, hs, hd]
  · have hs : v ∈ superseded t s vs ↔ t.mark? v = some ⟨v, .added, s⟩ := by
      simp [ht.mem_superseded, hv]
    simp only [mark?_foldl_amend, hs]
    simp [hv]

/-- The timeline after a replace of all values by `vs`. -/
def replaced (t : Timeline) (s : Stamp) (vs : List Octets) : Timeline :=
  if (t.reset s).lastReset = some s then (noteReplace (t.reset s) s vs).1
  else vs.foldl (fun t v => t.record ⟨v, .added, s⟩) (t.reset s)

theorem lastReset_reset_eq_some_iff {t : Timeline} {s : Stamp} :
    (t.reset s).lastReset = some s ↔ t.overrides s = false := by
  rw [lastReset_reset]
  cases h : t.lastReset <;> simp [overrides, h]

theorem outdates_reset (t : Timeline) (s s' : Stamp) (v : Octets) :
    (t.reset s).outdates v s' = t.outdates v s' := by
  simp [outdates]

theorem admits_reset (t : Timeline) (s : Stamp) (m : Mark) :
    (t.reset s).admits m = t.admits m := by
  simp [admits]

theorem Ordered.replaced {t : Timeline} (ht : t.Ordered) (s : Stamp) (vs : List Octets) :
    (t.replaced s vs).Ordered := by
  simp only [Timeline.replaced]
  split
  · exact (ht.reset s).noteReplace s vs
  · exact .foldl (fun _ _ h => h.record _) _ (ht.reset s)

theorem lastReset_replaced (t : Timeline) (s : Stamp) (vs : List Octets) :
    (t.replaced s vs).lastReset = Stamp.newest t.lastReset (some s) := by
  rw [← lastReset_reset]
  simp only [replaced]
  split
  · rw [lastReset_noteReplace]
  · rw [lastReset_foldl (by simp)]

theorem mark?_replaced {t : Timeline} (ht : t.Ordered) {s : Stamp} (vs : List Octets)
    (h : t.overrides s = false) (v : Octets) : (t.replaced s vs).mark? v =
      if v ∈ vs then if t.outdates v s = true then t.mark? v else some ⟨v, .added, s⟩
      else if t.mark? v = some ⟨v, .added, s⟩ then some ⟨v, .deleted, s⟩ else t.mark? v := by
  rw [replaced, if_pos (lastReset_reset_eq_some_iff.mpr h), mark?_noteReplace (ht.reset s)]
  simp only [mark?_reset, outdates_reset]

theorem mark?_replaced_of_overrides {t : Timeline} {s : Stamp} (vs : List Octets)
    (h : t.overrides s = true) (v : Octets) : (t.replaced s vs).mark? v =
      if v ∈ vs ∧ t.admits ⟨v, .added, s⟩ = true then some ⟨v, .added, s⟩ else t.mark? v := by
  have hr : ¬(t.reset s).lastReset = some s := by
    simp [lastReset_reset_eq_some_iff, h]
  rw [replaced, if_neg hr, mark?_foldl_record, admits_reset, mark?_reset]

def merge (s : Stamp) (t : Timeline) : Change → Timeline
  | .add v => t.note ⟨v, .added, s⟩
  | .delete v => t.note ⟨v, .deleted, s⟩
  | .clear => t.replaced s []
  | .replace vs => t.replaced s vs

theorem Ordered.merge {t : Timeline} (ht : t.Ordered) (s : Stamp) (c : Change) :
    (t.merge s c).Ordered := by
  cases c with
  | add v | delete v => exact ht.note _
  | clear => exact ht.replaced s []
  | replace vs => exact ht.replaced s vs

theorem lastReset_merge (s : Stamp) (t : Timeline) (c : Change) : (t.merge s c).lastReset =
    if c.resets = true then Stamp.newest t.lastReset (some s) else t.lastReset := by
  cases c <;> simp [merge, Change.resets, lastReset_replaced]

/-- A value that the change does not name is concerned only if the same change added it before. -/
theorem mark?_merge_of_not_names {t : Timeline} (ht : t.Ordered) {s : Stamp} {c : Change}
    {v : Octets} (hv : c.names v = false) : (t.merge s c).mark? v =
      if c.resets = true ∧ t.overrides s = false ∧ t.mark? v = some ⟨v, .added, s⟩
      then some ⟨v, .deleted, s⟩ else t.mark? v := by
  have replaced : ∀ vs, v ∉ vs → (t.replaced s vs).mark? v =
      if t.overrides s = false ∧ t.mark? v = some ⟨v, .added, s⟩
      then some ⟨v, .deleted, s⟩ else t.mark? v := by
    intro vs hvs
    cases h : t.overrides s with
    | true => simp [mark?_replaced_of_overrides vs h, hvs]
    | false => simp [mark?_replaced ht vs h, hvs]
  cases c with
  | add w | delete w =>
    have h : v ≠ w := by
      rintro rfl
      simp [Change.names] at hv
    simp [merge, mark?_note, Change.resets, h]
  | clear => simp [merge, Change.resets, replaced [] (by simp)]
  | replace vs =>
    have h : v ∉ vs := by simpa [Change.names] using hv
    simp [merge, Change.resets, replaced vs h]

/-- A named value gets a mark of the change, unless a newer one is there or the change is an
overridden replace and any mark of its own is there. -/
theorem mark?_merge_of_names {t : Timeline} (ht : t.Ordered) {s : Stamp} {c : Change}
    {v : Octets} (hv : c.names v = true) : ∃ x, c.outcome v = some x ∧ (t.merge s c).mark? v =
      if t.outdates v s = true ∨
        c.resets = true ∧ t.overrides s = true ∧ t.admits ⟨v, .added, s⟩ = false
      then t.mark? v else some ⟨v, x, s⟩ := by
  cases c with
  | add w =>
    obtain rfl : w = v := by simpa [Change.names] using hv
    refine ⟨.added, by simp [Change.outcome], ?_⟩
    cases h : t.outdates w s <;> simp [merge, mark?_note, Change.resets, h]
  | delete w =>
    obtain rfl : w = v := by simpa [Change.names] using hv
    refine ⟨.deleted, by simp [Change.outcome], ?_⟩
    cases h : t.outdates w s <;> simp [merge, mark?_note, Change.resets, h]
  | clear => simp [Change.names] at hv
  | replace vs =>
    have hvs : v ∈ vs := by simpa [Change.names] using hv
    refine ⟨.added, by simp [Change.outcome, hvs], ?_⟩
    cases ho : t.overrides s with
    | false =>
      rw [merge, mark?_replaced ht vs ho]
      simp [hvs]
    | true =>
      rw [merge, mark?_replaced_of_overrides vs ho]
      cases ha : t.admits ⟨v, .added, s⟩ with
      | false => simp [Change.resets]
      | true =>
        have hd : t.outdates v s = false := outdates_eq_false_of_isNews (m := ⟨v, .added, s⟩)
          (by simp [isNews, ha])
        simp [hvs, hd]

theorem mark?_merge_eq_or {t : Timeline} (ht : t.Ordered) (s : Stamp) (c : Change) (v : Octets) :
    (t.merge s c).mark? v = t.mark? v ∨ ∃ x, (t.merge s c).mark? v = some ⟨v, x, s⟩ := by
  cases hc : c.names v with
  | false =>
    rw [mark?_merge_of_not_names ht hc]
    split
    · exact .inr ⟨_, rfl⟩
    · exact .inl rfl
  | true =>
    obtain ⟨x, -, hm⟩ := mark?_merge_of_names ht hc
    rw [hm]
    split
    · exact .inl rfl
    · exact .inr ⟨x, rfl⟩

end DirectoryHistory.Timeline
