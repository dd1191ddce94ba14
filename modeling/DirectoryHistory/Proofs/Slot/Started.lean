import DirectoryHistory.Proofs.Slot.Convergence

/-!
# Slots that start crowded

A new entry may be given several values of a single-valued attribute. They stay until the attribute
is changed. The first change leaves one of them at most, and from then on the slot is like one that
started with what the change left.
-/

namespace DirectoryHistory

namespace Timeline

variable {t : Timeline}

theorem merge_ne_empty (t : Timeline) (s : Stamp) (c : Change) : t.merge s c ≠ .empty := by
  have noted : ∀ m : Mark, t.note m ≠ .empty := by
    intro m nothing
    have mark := t.mark?_note m m.value
    rw [nothing, mark?_empty] at mark
    split at mark
    · cases mark
    · next newer =>
      have newer : t.outdates m.value m.stamp = true := by simpa using newer
      obtain ⟨n, hn, -⟩ := outdates_iff.mp newer
      rw [hn] at mark
      cases mark
  have replaced : ∀ vs, t.replaced s vs ≠ .empty := by
    intro vs nothing
    have reset := Slot.isSome_lastReset_replaced t s vs
    rw [nothing] at reset
    cases reset
  cases c with
  | add v => exact noted _
  | delete v => exact noted _
  | clear => exact replaced []
  | replace vs => exact replaced vs

theorem mark?_eq_none_of_merge (ht : t.Ordered) {s : Stamp} {c : Change} {v : Octets}
    (h : (t.merge s c).mark? v = none) : t.mark? v = none := by
  have stamps := stamp_mark?_merge ht s c v
  rw [h] at stamps
  cases hm : t.mark? v with
  | none => rfl
  | some m => split at stamps <;> simp [hm] at stamps

theorem lastReset_eq_none_of_merge {s : Stamp} {c : Change}
    (h : (t.merge s c).lastReset = none) : t.lastReset = none := by
  rw [lastReset_merge] at h
  cases hr : t.lastReset with
  | none => rfl
  | some r => split at h <;> simp [hr] at h

end Timeline

namespace Slot

open Timeline

variable {initial first : List Octets} {single : Bool} {created : Option Stamp} {s s' : Slot}
variable {stamp : Stamp}

theorem kept_merge_eq_nil (ht : s.timeline.Ordered) (c : Change)
    (h : kept initial s.timeline = []) : kept initial (s.timeline.merge stamp c) = [] := by
  refine List.eq_nil_iff_forall_not_mem.mpr fun v hv => ?_
  obtain ⟨reset, mark, hv⟩ := mem_kept.mp hv
  have before : v ∈ kept initial s.timeline :=
    mem_kept.mpr ⟨lastReset_eq_none_of_merge reset, mark?_eq_none_of_merge ht mark, hv⟩
  rw [h] at before
  exact List.not_mem_nil before

/-- A single-valued slot has not been changed yet, or is like one that started with one of `initial`
at most; with none of them only if all were touched. -/
def StartedSingle (initial : List Octets) (s : Slot) : Prop :=
  s.timeline = .empty ∧ s.held = initial ∨
    s.timeline ≠ .empty ∧ ∃ first, first ⊆ initial ∧ first.length ≤ 1 ∧
      (first = [] → kept initial s.timeline = []) ∧ s.ReadsBack true first

/-- The slot started with the values `initial`, however many. -/
def Started (single : Bool) (initial : List Octets) (s : Slot) : Prop :=
  if single = true then s.StartedSingle initial else s.ReadsBack false initial

theorem started_start (single : Bool) (h : s.timeline = .empty) : s.Started single s.held := by
  cases single with
  | false =>
    have follows : s.Follows false s.held [] := follows_start h nofun
    exact follows.readsBack
  | true => exact .inl ⟨h, rfl⟩

/-- Settling leaves the first unrecorded value, if there are any, to start with. -/
theorem readsBack_settleSingle
    (cleared : s.timeline.lastReset.isSome = true → s.unrecorded = []) :
    s.settleSingle.ReadsBack true s.unrecorded.head?.toList := by
  have kept : kept s.unrecorded.head?.toList s.timeline = s.unrecorded.head?.toList := by
    cases hu : s.unrecorded.head? with
    | none => simp [Slot.kept]
    | some v =>
      have member : v ∈ s.unrecorded := List.mem_of_mem_head? hu
      have unreset : ¬s.timeline.lastReset.isSome = true := fun reset => by
        simp [cleared reset] at member
      simp [Slot.kept, unreset, (Slot.mem_unrecorded.mp member).2]
  simp only [ReadsBack, if_true]
  rw [show s.settleSingle.timeline = s.timeline from rfl, kept]
  cases hu : s.unrecorded.head? <;> simp [settleSingle, hu]

/-- The first change settles the slot, and drops all values if it is a reset. -/
theorem exists_settleSingle (untouched : s.timeline = .empty)
    (newer : ∀ r ∈ created, r < stamp) (c : Change) :
    ∃ u : Slot, u.held ⊆ s.held ∧ (u.timeline.lastReset = none → u.held = s.held) ∧
      (u.timeline.lastReset.isSome = true → u.unrecorded = []) ∧
      (s.resolve true created stamp c).slot = u.settleSingle := by
  have news : ∀ m : Mark, s.timeline.isNews m = true := fun m => by
    simp [untouched, isNews, admits, Stamp.passes]
  have noted : ∀ m : Mark, (s.timeline.note m).lastReset = none := fun m => by
    simp [untouched, empty]
  have replaced : ∀ vs, ∃ u : Slot, u.held ⊆ s.held ∧
      (u.timeline.lastReset = none → u.held = s.held) ∧
      (u.timeline.lastReset.isSome = true → u.unrecorded = []) ∧
      (s.replace true stamp vs).slot = u.settleSingle := by
    intro vs
    have raised : s.timeline.admitsReset stamp = true := by
      simp [untouched, empty, admitsReset, Stamp.passes]
    have current : (s.timeline.reset stamp).lastReset = some stamp :=
      lastReset_reset_eq_some_iff.mpr (by simp [untouched, empty, overrides])
    have gone : (s.held.filter fun v => ((s.timeline.reset stamp).mark? v).isSome) = [] := by
      simp [untouched]
    refine ⟨⟨[], (noteReplace (s.timeline.reset stamp) stamp vs).1⟩, List.nil_subset _, ?_,
      fun _ => rfl, ?_⟩
    · intro none
      rw [lastReset_noteReplace, current] at none
      cases none
    · simp only [Slot.replace, raised, current, gone, if_true, settle]
  cases c with
  | add v =>
    refine ⟨{ s with timeline := s.timeline.note ⟨v, .added, stamp⟩ }, List.Subset.refl _,
      fun _ => rfl, ?_, ?_⟩
    · simp only [noted, Option.isSome_none, Bool.false_eq_true, false_implies]
    · simp [resolve, addSingle, news]
  | delete v =>
    have late : created.any (stamp ≤ ·) = false := by
      cases created with
      | none => rfl
      | some r => simpa using newer r rfl
    refine ⟨{ s with timeline := s.timeline.note ⟨v, .deleted, stamp⟩ }, List.Subset.refl _,
      fun _ => rfl, ?_, ?_⟩
    · simp only [noted, Option.isSome_none, Bool.false_eq_true, false_implies]
    · simp [resolve, Slot.delete, late, news, settleSingle]
  | clear => exact replaced []
  | replace vs => exact replaced vs

theorem StartedSingle.resolve (h : s.StartedSingle initial) (ht : s.timeline.Ordered)
    (newer : ∀ r ∈ created, r < stamp) (c : Change) :
    (s.resolve true created stamp c).slot.StartedSingle initial := by
  have timeline := timeline_resolve true newer c s
  have touched : (s.resolve true created stamp c).slot.timeline ≠ .empty := by
    rw [timeline]
    exact merge_ne_empty _ _ _
  refine .inr ⟨touched, ?_⟩
  rcases h with ⟨untouched, rfl⟩ | ⟨-, first, among, few, drained, read⟩
  · obtain ⟨u, within, whole, cleared, settled⟩ := exists_settleSingle untouched newer c
    rw [settled]
    refine ⟨u.unrecorded.head?.toList, fun v hv => ?_, Option.length_toList_le, fun none => ?_,
      readsBack_settleSingle cleared⟩
    · have member := List.mem_of_mem_head? (Option.mem_toList.mp hv)
      exact within (Slot.mem_unrecorded.mp member).1
    · have nothing : u.unrecorded = [] := by simpa using none
      rw [show u.settleSingle.timeline = u.timeline from rfl]
      cases reset : u.timeline.lastReset with
      | some r => exact kept_eq_nil (by simp [reset])
      | none => rw [kept, reset, ← whole reset]; exact nothing
  · refine ⟨first, among, few, fun none => ?_, read.resolve ht (fun _ => few) created stamp c⟩
    rw [timeline]
    exact kept_merge_eq_nil ht c (drained none)

theorem Started.resolve (h : s.Started single initial) (ht : s.timeline.Ordered)
    (newer : ∀ r ∈ created, r < stamp) (c : Change) :
    (s.resolve single created stamp c).slot.Started single initial := by
  cases single with
  | false =>
    have read : s.ReadsBack false initial := h
    exact read.resolve ht nofun created stamp c
  | true => exact StartedSingle.resolve h ht newer c

theorem Started.foldl_resolve (h : s.Started single initial) (ht : s.timeline.Ordered)
    (newer : ∀ r ∈ created, r < stamp) (cs : List Change) :
    (cs.foldl (fun s c => (s.resolve single created stamp c).slot) s).Started single initial := by
  induction cs generalizing s with
  | nil => exact h
  | cons c cs ih => exact ih (h.resolve ht newer c) (ordered_resolve ht single created stamp c)

theorem Started.foldl_resolveEdit {es : List Edit} (h : s.Started single initial)
    (ht : s.timeline.Ordered) (newer : ∀ e ∈ es, ∀ r ∈ created, r < e.stamp) :
    (es.foldl (resolveEdit single created) s).Started single initial := by
  induction es generalizing s with
  | nil => exact h
  | cons e es ih =>
    have first := newer e (.head _)
    have ordered : (s.resolveEdit single created e).timeline.Ordered := by
      rw [timeline_resolveEdit first]
      exact ht.mergeEdit e
    exact ih (h.foldl_resolve ht first e.changes) ordered fun e he => newer e (.tail _ he)

theorem isSome_mark?_of_drained (ht : s.timeline.Ordered) (h : s.ReadsBack true first)
    (drained : kept first s.timeline = []) {v : Octets} (hv : v ∈ s.held) :
    s.timeline.mark? v ≠ none := by
  have held : s.held = (s.timeline.asserted.head?.map (·.value)).toList := by
    simpa [ReadsBack, drained] using h
  rw [held, Option.mem_toList, Option.map_eq_some_iff] at hv
  obtain ⟨m, hm, rfl⟩ := hv
  rw [(ht.mem_asserted.mp (List.mem_of_mem_head? hm)).1]
  exact Option.some_ne_none m

theorem held_eq_of_mem_kept (h : s.ReadsBack true first) (few : first.length ≤ 1) {v : Octets}
    (hv : v ∈ kept first s.timeline) : s.held = [v] := by
  have head : (kept first s.timeline).head? = some v := by
    rwa [← toList_head? (length_kept_le.trans few), Option.mem_toList] at hv
  simpa [ReadsBack, head] using h

/-- What is kept of the first value of a slot that started with what another one holds, once both have
the same timeline. -/
theorem kept_eq_of_started {first' : List Octets} (read : s.ReadsBack true first)
    (ht : s.timeline.Ordered) (few : first.length ≤ 1) (few' : first'.length ≤ 1)
    (whole : s.held ⊆ initial) (only : ∀ v ∈ initial, v ∈ s.held ∨ v ∈ first)
    (among : first' ⊆ initial) (drained : first' = [] → kept initial s.timeline = []) :
    kept first' s.timeline = kept first s.timeline := by
  refine eq_of_length_le_one (length_kept_le.trans few') (length_kept_le.trans few) fun v => ?_
  constructor
  · -- A value that is kept has no mark, so it is not held for the sake of the timeline.
    intro hv
    obtain ⟨reset, mark, hv⟩ := mem_kept.mp hv
    refine mem_kept.mpr ⟨reset, mark, ?_⟩
    rcases only v (among hv) with hv | hv
    · by_cases nothing : kept first s.timeline = []
      · exact absurd mark (isSome_mark?_of_drained ht read nothing hv)
      · obtain ⟨w, hw⟩ := List.exists_mem_of_ne_nil _ nothing
        rw [held_eq_of_mem_kept read few hw, List.mem_singleton] at hv
        exact hv ▸ (mem_kept.mp hw).2.2
    · exact hv
  · intro hv
    obtain ⟨reset, mark, member⟩ := mem_kept.mp hv
    have held : s.held = [v] := held_eq_of_mem_kept read few hv
    have started : v ∈ initial := whole (by simp [held])
    cases hf : first' with
    | nil =>
      have left : v ∈ kept initial s.timeline := mem_kept.mpr ⟨reset, mark, started⟩
      simp [drained hf] at left
    | cons w rest =>
      have other : w = v := by
        rcases only w (among (by simp [hf])) with hw | hw
        · simpa [held] using hw
        · exact eq_of_mem_of_length_le_one few hw member
      exact mem_kept.mpr ⟨reset, mark, by simp [other]⟩

/-- A single-valued slot that started with what another one holds, and perhaps with the value that
this one started with, holds the same once it has the same timeline. -/
theorem StartedSingle.held_eq (h : s'.StartedSingle initial) (read : s.ReadsBack true first)
    (ht : s.timeline.Ordered) (few : first.length ≤ 1) (same : s'.timeline = s.timeline)
    (whole : s.held ⊆ initial) (only : ∀ v ∈ initial, v ∈ s.held ∨ v ∈ first) :
    ∀ v, v ∈ s'.held ↔ v ∈ s.held := by
  rcases h with ⟨untouched, rfl⟩ | ⟨-, first', among, few', drained, read'⟩
  · intro v
    have started : s.held = first := by
      have unmarked : kept first s.timeline = first := by
        simp [kept, ← same, untouched, empty, mark?]
      have asserted : s.timeline.asserted = [] := by
        simp [asserted, ← same, untouched, empty]
      simpa [ReadsBack, unmarked, asserted, toList_head? few] using read
    exact ⟨fun hv => (only v hv).elim id fun hv => started ▸ hv, fun hv => whole hv⟩
  rw [same] at drained
  have keeps := kept_eq_of_started read ht few few' whole only among drained
  have held : s'.held = s.held := by
    simp only [ReadsBack, if_true] at read read'
    rw [read, read', same, keeps]
  intro v
  rw [held]

/-- A slot that started with what another one holds, and perhaps with values that this one started
with, holds the same once it has the same timeline. -/
theorem Started.mem_held_iff (h : s'.Started single initial) (read : s.ReadsBack single first)
    (ht : s.timeline.Ordered) (few : single = true → first.length ≤ 1)
    (same : s'.timeline = s.timeline) (whole : s.held ⊆ initial)
    (only : ∀ v ∈ initial, v ∈ s.held ∨ v ∈ first) (v : Octets) :
    v ∈ s'.held ↔ v ∈ s.held := by
  cases single with
  | true => exact StartedSingle.held_eq h read ht (few rfl) same whole only v
  | false =>
    have target : v ∈ s'.held ↔ v ∈ kept initial s'.timeline ∨ s'.timeline.asserts v = true := h v
    have source : v ∈ s.held ↔ v ∈ kept first s.timeline ∨ s.timeline.asserts v = true := read v
    rw [target, same]
    constructor
    · rintro (hv | hv)
      · obtain ⟨reset, mark, hv⟩ := mem_kept.mp hv
        rcases only v hv with hv | hv
        · exact hv
        · exact source.mpr (.inl (mem_kept.mpr ⟨reset, mark, hv⟩))
      · exact source.mpr (.inr hv)
    · intro hv
      rcases source.mp hv with kept | asserted
      · obtain ⟨reset, mark, -⟩ := mem_kept.mp kept
        exact .inl (mem_kept.mpr ⟨reset, mark, whole hv⟩)
      · exact .inr asserted

/-- A slot that started with what another one holds holds the same once it has the same timeline. -/
theorem Started.mem_held_iff_of_started (h : s'.Started single initial)
    (h' : s.Started single first) (ht : s.timeline.Ordered) (same : s'.timeline = s.timeline)
    (again : ∀ v, v ∈ initial ↔ v ∈ s.held) (v : Octets) : v ∈ s'.held ↔ v ∈ s.held := by
  cases single with
  | false =>
    have read : s.ReadsBack false first := h'
    exact h.mem_held_iff read ht nofun same (fun v => (again v).mpr)
      (fun v hv => .inl ((again v).mp hv)) v
  | true =>
    have started : s'.StartedSingle initial := h
    have started' : s.StartedSingle first := h'
    rcases started' with ⟨untouched, -⟩ | ⟨-, first', -, few, -, read⟩
    · rcases started with ⟨-, rfl⟩ | ⟨touched, -⟩
      · exact again v
      · exact absurd (same.trans untouched) touched
    · exact h.mem_held_iff read ht (fun _ => few) same (fun v => (again v).mpr)
        (fun v hv => .inl ((again v).mp hv)) v

end Slot

end DirectoryHistory
