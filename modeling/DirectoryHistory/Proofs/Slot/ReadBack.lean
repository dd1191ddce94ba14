import DirectoryHistory.Proofs.Timeline.Asserted

/-!
# Held values and the timeline

The values that a slot holds can be read back from its timeline and the values that it held at
first. Every change keeps that so, whichever way it takes: a multi-valued slot holds what is
asserted and the untouched first values, a single-valued slot the first of these.
-/

namespace DirectoryHistory.Slot

open Timeline

/-- The first values that nothing recorded has touched. -/
def kept (initial : List Octets) (t : Timeline) : List Octets :=
  if t.lastReset.isSome then [] else initial.filter fun v => (t.mark? v).isNone

/-- The held values are those that the timeline and the first values call for. -/
def ReadsBack (single : Bool) (initial : List Octets) (s : Slot) : Prop :=
  if single = true then
    s.held = ((kept initial s.timeline).head?.or
      (s.timeline.asserted.head?.map (·.value))).toList
  else ∀ v, v ∈ s.held ↔ v ∈ kept initial s.timeline ∨ s.timeline.asserts v = true

variable {single : Bool} {initial : List Octets} {s : Slot} {t : Timeline}

theorem mem_kept {v : Octets} :
    v ∈ kept initial t ↔ t.lastReset = none ∧ t.mark? v = none ∧ v ∈ initial := by
  cases h : t.lastReset <;> simp [kept, h, and_comm]

theorem kept_eq_nil (h : t.lastReset.isSome = true) : kept initial t = [] := by
  simp [kept, h]

theorem length_kept_le : (kept initial t).length ≤ initial.length := by
  rw [kept]
  split
  · simp
  · exact List.length_filter_le _ _

theorem timeline_resolve (single : Bool) {created : Option Stamp} {stamp : Stamp}
    (newer : ∀ c ∈ created, c < stamp) (c : Change) (s : Slot) :
    (s.resolve single created stamp c).slot.timeline = s.timeline.merge stamp c := by
  have replace : ∀ vs, (s.replace single stamp vs).slot.timeline =
      s.timeline.replaced stamp vs := by
    intro vs
    simp only [Slot.replace, replaced]
    split
    · cases single <;> rfl
    · rfl
  cases c with
  | add v =>
    cases single
    · simp only [resolve, addMulti, merge, Bool.false_eq_true, if_false]
      split
      · split <;> rfl
      · next h => exact (note_eq_self h).symm
    · simp only [resolve, addSingle, merge, if_true]
      split
      · rfl
      · next h => exact (note_eq_self h).symm
  | delete v =>
    have late : created.any (stamp ≤ ·) = false := by
      simpa [Option.any_eq_false_iff_get] using fun h => newer _ (Option.get_mem h)
    simp only [resolve, Slot.delete, merge, late, Bool.false_and, Bool.false_eq_true, if_false]
    split
    · cases single <;> rfl
    · next h => exact (note_eq_self h).symm
  | clear => exact replace []
  | replace vs => exact replace vs

theorem ordered_resolve (ht : s.timeline.Ordered) (single : Bool) (created : Option Stamp)
    (stamp : Stamp) (c : Change) : (s.resolve single created stamp c).slot.timeline.Ordered := by
  have merged : ∀ c, (s.resolve single none stamp c).slot.timeline.Ordered := by
    intro c
    rw [timeline_resolve single (by simp) c s]
    exact ht.merge stamp c
  cases c with
  | add v => exact merged (.add v)
  | delete v =>
    simp only [resolve, Slot.delete]
    split
    · exact ht
    · split
      · cases single <;> exact ht.note _
      · exact ht
  | clear => exact merged .clear
  | replace vs => exact merged (.replace vs)

theorem held_of_not_settled {created : Option Stamp} {stamp : Stamp} {c : Change}
    (h : (s.resolve single created stamp c).settled = false) :
    (s.resolve single created stamp c).slot.held = s.held := by
  have replace : ∀ vs, (s.replace single stamp vs).settled = false →
      (s.replace single stamp vs).slot.held = s.held := by
    intro vs
    simp only [Slot.replace]
    split <;> simp
  cases c with
  | add v =>
    cases single
    · simp only [resolve, addMulti, Bool.false_eq_true, if_false] at h ⊢
      split at h
      · split at h <;> cases h
      · next hn => simp [hn]
    · simp only [resolve, addSingle, if_true] at h ⊢
      split at h <;> simp_all
  | delete v =>
    simp only [resolve, Slot.delete] at h ⊢
    split at h
    · simp_all
    · split at h <;> simp_all
  | clear => exact replace [] h
  | replace vs => exact replace vs h

theorem mem_unrecorded {v : Octets} :
    v ∈ s.unrecorded ↔ v ∈ s.held ∧ s.timeline.mark? v = none := by
  simp [unrecorded]

theorem toList_head? {α : Type} {l : List α} (hl : l.length ≤ 1) : l.head?.toList = l := by
  cases l with
  | nil => rfl
  | cons v rest =>
    have : rest = [] := List.length_eq_zero_iff.mp (by simpa using hl)
    simp [this]

theorem eq_of_mem_of_length_le_one {α : Type} {l : List α} (few : l.length ≤ 1) {x y : α}
    (hx : x ∈ l) (hy : y ∈ l) : x = y := by
  rw [← toList_head? few, Option.mem_toList] at hx hy
  exact Option.some.inj (hx.symm.trans hy)

theorem eq_of_length_le_one {l k : List Octets} (hl : l.length ≤ 1) (hk : k.length ≤ 1)
    (same : ∀ v, v ∈ l ↔ v ∈ k) : l = k := by
  rw [← toList_head? hl, ← toList_head? hk] at same ⊢
  congr 1
  ext v
  simpa using same v

/-- What is unrecorded while the values can be read back are the untouched first values. -/
theorem ReadsBack.mem_unrecorded (h : s.ReadsBack single initial) (ht : s.timeline.Ordered)
    (few : single = true → initial.length ≤ 1) {v : Octets} :
    v ∈ s.unrecorded ↔ v ∈ kept initial s.timeline := by
  have unasserted (hv : s.timeline.mark? v = none) : ¬s.timeline.asserts v = true := by
    simp [asserts_iff, hv]
  have unmarked (hv : v ∈ kept initial s.timeline) : s.timeline.mark? v = none :=
    (mem_kept.mp hv).2.1
  rw [Slot.mem_unrecorded]
  cases single with
  | false =>
    constructor
    · rintro ⟨hv, hm⟩
      exact ((h v).mp hv).resolve_right (unasserted hm)
    · intro hv
      exact ⟨(h v).mpr (.inl hv), unmarked hv⟩
  | true =>
    have held : s.held = ((kept initial s.timeline).head?.or
      (s.timeline.asserted.head?.map (·.value))).toList := h
    rw [held, Option.mem_toList, Option.or_eq_some_iff]
    constructor
    · rintro ⟨hv | ⟨-, hv⟩, hm⟩
      · exact List.mem_of_mem_head? hv
      · obtain ⟨m, hm', rfl⟩ := Option.map_eq_some_iff.mp hv
        have asserted := List.mem_map_of_mem (f := Mark.value) (List.mem_of_mem_head? hm')
        exact absurd (ht.mem_map_asserted.mp asserted) (unasserted hm)
    · intro hv
      refine ⟨.inl ?_, unmarked hv⟩
      rwa [← toList_head? (length_kept_le.trans (few rfl)), Option.mem_toList] at hv

theorem ReadsBack.length_held_le (h : s.ReadsBack true initial) : s.held.length ≤ 1 := by
  have held : s.held = ((kept initial s.timeline).head?.or
    (s.timeline.asserted.head?.map (·.value))).toList := h
  rw [held]
  exact Option.length_toList_le

/-- Settling reads the held values back. -/
theorem readsBack_settle (ht : s.timeline.Ordered)
    (few : single = true → s.held.length ≤ 1 ∧ initial.length ≤ 1)
    (unrecorded : ∀ v, v ∈ s.unrecorded ↔ v ∈ kept initial s.timeline) :
    (s.settle single).ReadsBack single initial := by
  cases single with
  | false =>
    intro v
    rw [settle, if_neg Bool.false_ne_true, settleMulti, Entry.mem_distinct, List.mem_append,
      unrecorded, ht.mem_map_asserted]
  | true =>
    obtain ⟨held, initial⟩ := few rfl
    have same := eq_of_length_le_one ((List.length_filter_le _ _).trans held)
      (length_kept_le.trans initial) unrecorded
    simp only [ReadsBack, settle, settleSingle, if_true, ← same]
    rfl

theorem counts_note_of_ne {m : Mark} {v : Octets} (hv : v ≠ m.value) :
    v ∈ kept initial (t.note m) ∨ (t.note m).asserts v = true ↔
      v ∈ kept initial t ∨ t.asserts v = true := by
  have mark : (t.note m).mark? v = t.mark? v := by simp [mark?_note, hv]
  rw [mem_kept, mem_kept, asserts, asserts, mark, upholds_congr (lastReset_note t m), lastReset_note]

theorem mark?_note_of_isNews {m : Mark} (h : t.isNews m = true) :
    (t.note m).mark? m.value = some m := by
  simp [mark?_note, outdates_eq_false_of_isNews h]

theorem ReadsBack.settle_note (h : s.ReadsBack single initial) (ht : s.timeline.Ordered)
    (few : single = true → initial.length ≤ 1) (m : Mark) :
    (settle single ⟨s.held, s.timeline.note m⟩).ReadsBack single initial := by
  refine readsBack_settle (ht.note m) (fun hs => ⟨?_, few hs⟩) fun v => ?_
  · subst hs
    exact h.length_held_le
  · have before := h.mem_unrecorded ht few (v := v)
    rw [Slot.mem_unrecorded, mem_kept] at before ⊢
    simp only [mark?_note, lastReset_note]
    by_cases hm : v = m.value ∧ s.timeline.outdates v m.stamp = false
    · simp only [if_pos hm, reduceCtorEq, false_and, and_false]
    · simpa only [if_neg hm] using before

theorem ReadsBack.delete (h : s.ReadsBack single initial) (ht : s.timeline.Ordered)
    (few : single = true → initial.length ≤ 1) (created : Option Stamp) (stamp : Stamp)
    (v : Octets) : (s.delete single created stamp v).slot.ReadsBack single initial := by
  simp only [Slot.delete]
  split
  · exact h
  split
  · next news =>
    cases single with
    | true => exact h.settle_note ht few _
    | false =>
      intro w
      simp only [Bool.false_eq_true, if_false, List.mem_filter, bne_iff_ne]
      by_cases hw : w = v
      · subst hw
        have mark := mark?_note_of_isNews news
        simp [mem_kept, asserts_iff, mark, upholds_iff]
      · rw [counts_note_of_ne hw, h w]
        simp [hw]
  · exact h

theorem ReadsBack.addMulti (h : s.ReadsBack false initial) (stamp : Stamp) (v : Octets) :
    (s.addMulti stamp v).slot.ReadsBack false initial := by
  simp only [Slot.addMulti]
  split
  · next news =>
    have mark : (s.timeline.note ⟨v, .added, stamp⟩).mark? v = _ := mark?_note_of_isNews news
    split
    · next asserts =>
      intro w
      by_cases hw : w = v
      · subst hw
        simp only [asserts, or_true, iff_true]
        split <;> simp_all
      · rw [counts_note_of_ne hw, ← h w]
        split <;> simp [hw]
    · next asserts =>
      intro w
      by_cases hw : w = v
      · subst hw
        simp [mem_kept, mark, asserts]
      · rw [counts_note_of_ne hw, ← h w]
        simp [hw]
  · exact h

theorem ReadsBack.addSingle (h : s.ReadsBack true initial) (ht : s.timeline.Ordered)
    (few : initial.length ≤ 1) (stamp : Stamp) (v : Octets) :
    (s.addSingle stamp v).slot.ReadsBack true initial := by
  simp only [Slot.addSingle]
  split
  · exact h.settle_note ht (fun _ => few) _
  · exact h

/-- The marks that an overridden replace leaves behind are not upheld. -/
theorem asserted_replaced_of_overrides {stamp : Stamp} (ht : t.Ordered) (vs : List Octets)
    (ho : t.overrides stamp = true) : (t.replaced stamp vs).asserted = t.asserted := by
  obtain ⟨r, hr, hlt⟩ := overrides_iff.mp ho
  have reset : (t.replaced stamp vs).lastReset = t.lastReset := by
    rw [lastReset_replaced, hr, Stamp.newest_some, max_eq_left hlt.le]
  refine (ht.replaced stamp vs).asserted_eq ht fun v m => ?_
  rw [upholds_congr reset, mark?_replaced_of_overrides vs ho]
  split
  · next hv =>
    -- The new mark lies below the reset, and the one that it displaces below the new one.
    constructor
    · rintro ⟨hm, hu⟩
      cases hm
      simp [upholds_iff, ho] at hu
    · rintro ⟨hm, hu⟩
      have older := admits_iff.mp hv.2 m hm
      have := overrides_iff.mpr ⟨r, hr, older.trans hlt⟩
      simp [upholds_iff, this] at hu
  · rfl

theorem isSome_lastReset_replaced (t : Timeline) (stamp : Stamp) (vs : List Octets) :
    (t.replaced stamp vs).lastReset.isSome = true := by
  obtain ⟨n, hn, -⟩ := Stamp.newest_some_spec t.lastReset stamp
  simp [lastReset_replaced, hn]

theorem isSome_mark?_replaced (ht : t.Ordered) (stamp : Stamp) (vs : List Octets) {v : Octets}
    (h : (t.mark? v).isSome = true) : ((t.replaced stamp vs).mark? v).isSome = true := by
  cases ho : t.overrides stamp with
  | true =>
    rw [mark?_replaced_of_overrides vs ho]
    split
    · rfl
    · exact h
  | false =>
    rw [mark?_replaced ht vs ho]
    split
    · split
      · exact h
      · rfl
    · split
      · rfl
      · exact h

theorem ReadsBack.overridden (h : s.ReadsBack single initial) (ht : s.timeline.Ordered)
    {stamp : Stamp} (ho : s.timeline.overrides stamp = true) (vs : List Octets) :
    ReadsBack single initial { s with timeline := s.timeline.replaced stamp vs } := by
  have before : s.timeline.lastReset.isSome = true := by
    obtain ⟨r, hr, -⟩ := overrides_iff.mp ho
    simp [hr]
  have after := isSome_lastReset_replaced s.timeline stamp vs
  have asserted := asserted_replaced_of_overrides ht vs ho
  cases single with
  | true =>
    simpa only [ReadsBack, if_true, kept_eq_nil after, kept_eq_nil before, asserted] using h
  | false =>
    intro v
    rw [h v, kept_eq_nil after, kept_eq_nil before, ← ht.mem_map_asserted,
      ← (ht.replaced stamp vs).mem_map_asserted, asserted]

theorem ReadsBack.isSome_mark? (h : s.ReadsBack single initial) (ht : s.timeline.Ordered)
    (few : single = true → initial.length ≤ 1) (hr : s.timeline.lastReset.isSome = true)
    {v : Octets} (hv : v ∈ s.held) : (s.timeline.mark? v).isSome = true := by
  by_contra hm
  have := (h.mem_unrecorded ht few).mp (Slot.mem_unrecorded.mpr ⟨hv, by simpa using hm⟩)
  simp [kept_eq_nil hr] at this

theorem ReadsBack.replace (h : s.ReadsBack single initial) (ht : s.timeline.Ordered)
    (few : single = true → initial.length ≤ 1) (stamp : Stamp) (vs : List Octets) :
    (s.replace single stamp vs).slot.ReadsBack single initial := by
  have few' : single = true → s.held.length ≤ 1 := by
    rintro rfl
    exact h.length_held_le
  simp only [Slot.replace]
  split
  · next current =>
    have timeline : (noteReplace (s.timeline.reset stamp) stamp vs).1 =
        s.timeline.replaced stamp vs := by
      rw [Timeline.replaced, if_pos current]
    simp only [timeline]
    refine readsBack_settle (ht.replaced stamp vs) (fun hs => ⟨?_, few hs⟩) fun v => ?_
    · split
      · exact (List.length_filter_le _ _).trans (few' hs)
      · exact few' hs
    · rw [kept_eq_nil (isSome_lastReset_replaced _ _ _), Slot.mem_unrecorded,
        iff_false_right List.not_mem_nil]
      rintro ⟨hv, hm⟩
      have before : (s.timeline.mark? v).isSome = true := by
        split at hv
        · simpa using (List.mem_filter.mp hv).2
        · next raised =>
          rw [reset_eq_self raised] at current
          exact h.isSome_mark? ht few (by simp [current]) hv
      simpa [hm] using isSome_mark?_replaced ht stamp vs before
  · next overridden =>
    have timeline : vs.foldl (fun t v => t.record ⟨v, .added, stamp⟩) (s.timeline.reset stamp) =
        s.timeline.replaced stamp vs := by
      rw [Timeline.replaced, if_neg overridden]
    simp only [timeline]
    exact h.overridden ht (by simpa [lastReset_reset_eq_some_iff] using overridden) vs

/-- Every change keeps the held values in step with the timeline. -/
theorem ReadsBack.resolve (h : s.ReadsBack single initial) (ht : s.timeline.Ordered)
    (few : single = true → initial.length ≤ 1) (created : Option Stamp) (stamp : Stamp)
    (c : Change) : (s.resolve single created stamp c).slot.ReadsBack single initial := by
  cases c with
  | add v =>
    cases single with
    | false => exact h.addMulti stamp v
    | true => exact h.addSingle ht (few rfl) stamp v
  | delete v => exact h.delete ht few created stamp v
  | clear => exact h.replace ht few stamp []
  | replace vs => exact h.replace ht few stamp vs

end DirectoryHistory.Slot
