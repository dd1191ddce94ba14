import DirectoryHistory.Proofs.Slot.ReadBack

/-!
# Convergence of slots

A slot follows a collection of edits when its timeline reflects them and its values can be read
back. Resolving the changes of an edit adds it to the collection, so slots that resolved the same
edits hold the same values. A multi-valued slot holds what the edits leave when they are performed
one after the other in the order of their stamps.
-/

namespace DirectoryHistory.Slot

open Timeline

/-- The slot started with the values `initial` and has resolved `edits` since. -/
structure Follows (single : Bool) (initial : List Octets) (s : Slot) (edits : List Edit) :
    Prop where
  reflects : s.timeline.Reflects edits
  readsBack : s.ReadsBack single initial
  few : single = true → initial.length ≤ 1

def resolveEdit (single : Bool) (created : Option Stamp) (s : Slot) (e : Edit) : Slot :=
  e.changes.foldl (fun s c => (s.resolve single created e.stamp c).slot) s

variable {single : Bool} {initial : List Octets} {created : Option Stamp} {s s' : Slot}
variable {es fs : List Edit}

theorem follows_start (h : s.timeline = .empty) (few : single = true → s.held.length ≤ 1) :
    s.Follows single s.held [] where
  reflects := h ▸ reflects_nil
  readsBack := by
    have kept : kept s.held s.timeline = s.held := by simp [kept, h, empty, mark?]
    have asserted : s.timeline.asserted = [] := by simp [Timeline.asserted, h, empty]
    cases single with
    | false =>
      intro v
      rw [kept, asserts_iff, h]
      simp
    | true =>
      simp only [ReadsBack, if_true, kept, asserted]
      simp [toList_head? (few rfl)]
  few := few

theorem Follows.congr (h : s.Follows single initial es) (same : ∀ e, e ∈ es ↔ e ∈ fs) :
    s.Follows single initial fs where
  reflects := h.reflects.congr same
  readsBack := h.readsBack
  few := h.few

theorem timeline_resolveEdit {e : Edit} (newer : ∀ c ∈ created, c < e.stamp) (s : Slot) :
    (s.resolveEdit single created e).timeline = s.timeline.mergeEdit e := by
  have fold : ∀ (cs : List Change) (s : Slot),
      (cs.foldl (fun s c => (s.resolve single created e.stamp c).slot) s).timeline =
        cs.foldl (merge e.stamp) s.timeline := by
    intro cs
    induction cs with
    | nil => exact fun _ => rfl
    | cons c cs ih =>
      intro s
      rw [List.foldl_cons, ih, timeline_resolve single newer, List.foldl_cons]
  exact fold e.changes s

theorem timeline_foldl_resolveEdit (newer : ∀ e ∈ es, ∀ c ∈ created, c < e.stamp) (s : Slot) :
    (es.foldl (resolveEdit single created) s).timeline = es.foldl mergeEdit s.timeline := by
  induction es generalizing s with
  | nil => rfl
  | cons e es ih =>
    rw [List.foldl_cons, ih (fun e he => newer e (.tail _ he)),
      timeline_resolveEdit (newer e (.head _)), List.foldl_cons]

theorem ReadsBack.resolveEdit {e : Edit} (h : s.ReadsBack single initial)
    (ht : s.timeline.Ordered) (few : single = true → initial.length ≤ 1)
    (newer : ∀ c ∈ created, c < e.stamp) :
    (s.resolveEdit single created e).ReadsBack single initial := by
  have fold : ∀ (cs : List Change) (s : Slot), s.ReadsBack single initial → s.timeline.Ordered →
      (cs.foldl (fun s c => (s.resolve single created e.stamp c).slot) s).ReadsBack
        single initial := by
    intro cs
    induction cs with
    | nil => exact fun _ h _ => h
    | cons c cs ih =>
      intro s h ht
      apply ih _ (h.resolve ht few created e.stamp c)
      rw [timeline_resolve single newer]
      exact ht.merge e.stamp c
  exact fold e.changes s h ht

/-- Resolving an edit adds it to those that the slot follows, also when it was resolved before. -/
theorem Follows.resolveEdit (h : s.Follows single initial es) {e : Edit}
    (newer : ∀ c ∈ created, c < e.stamp) (compatible : ∀ e' ∈ es, e'.stamp = e.stamp → e' = e) :
    (s.resolveEdit single created e).Follows single initial (e :: es) where
  reflects := by
    rw [timeline_resolveEdit newer]
    exact h.reflects.mergeEdit e compatible
  readsBack := h.readsBack.resolveEdit h.reflects.ordered h.few newer
  few := h.few

theorem Follows.foldl_resolveEdit (h : s.Follows single initial es) (fs : List Edit)
    (newer : ∀ e ∈ fs, ∀ c ∈ created, c < e.stamp)
    (compatible : ∀ e ∈ es ++ fs, ∀ e' ∈ es ++ fs, e'.stamp = e.stamp → e' = e) :
    (fs.foldl (Slot.resolveEdit single created) s).Follows single initial (es ++ fs) :=
  Edit.foldl_collects (P := Follows single initial) (fun h => h.congr)
    (fun e he h => h.resolveEdit (newer e he)) h compatible

theorem foldl_resolveEdit_of_silent (silent : ∀ e ∈ es, e.changes = []) (s : Slot) :
    es.foldl (resolveEdit single created) s = s := by
  induction es with
  | nil => rfl
  | cons e es ih =>
    have still : s.resolveEdit single created e = s := by
      rw [resolveEdit, silent e (.head _)]
      rfl
    rw [List.foldl_cons, still]
    exact ih fun e he => silent e (.tail _ he)

theorem Follows.kept_eq (h : s.Follows single initial es) (h' : s'.Follows single initial es) :
    kept initial s.timeline = kept initial s'.timeline := by
  have marks : ∀ v, (s.timeline.mark? v).isNone = (s'.timeline.mark? v).isNone := by
    intro v
    rw [Bool.eq_iff_iff, Option.isNone_iff_eq_none, Option.isNone_iff_eq_none,
      h.reflects.mark?_eq_none_iff, h'.reflects.mark?_eq_none_iff]
  simp only [kept, h.reflects.lastReset_eq h'.reflects, marks]

/-- Slots that started alike and followed the same edits hold the same values. -/
theorem Follows.mem_held_iff (h : s.Follows single initial es)
    (h' : s'.Follows single initial es) (v : Octets) : v ∈ s.held ↔ v ∈ s'.held := by
  have asserted := h.reflects.asserted_eq h'.reflects
  cases single with
  | false =>
    rw [h.readsBack v, h'.readsBack v, h.kept_eq h', ← h.reflects.ordered.mem_map_asserted,
      ← h'.reflects.ordered.mem_map_asserted, asserted]
  | true =>
    have read := h.readsBack
    have read' := h'.readsBack
    simp only [ReadsBack, if_true] at read read'
    rw [read, read', h.kept_eq h', asserted]

theorem Follows.length_held_le (h : s.Follows true initial es) : s.held.length ≤ 1 :=
  h.readsBack.length_held_le

theorem Follows.held_eq (h : s.Follows true initial es) (h' : s'.Follows true initial es) :
    s.held = s'.held :=
  eq_of_length_le_one h.length_held_le h'.length_held_le (h.mem_held_iff h')

/-- A multi-valued slot holds what its edits leave of the first values when they are performed in
the order of their stamps. -/
theorem Follows.mem_held_iff_perform (h : s.Follows false initial es)
    (ascending : es.Pairwise (·.stamp < ·.stamp)) (v : Octets) :
    v ∈ s.held ↔ v ∈ (es.flatMap (·.changes)).foldl Change.perform initial.toFinset := by
  rw [h.readsBack v, mem_kept, h.reflects.mem_foldl_perform ascending, List.mem_toFinset, or_comm]

end DirectoryHistory.Slot
