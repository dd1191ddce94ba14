import DirectoryHistory.Proofs.Slot.Evolution
import DirectoryHistory.Proofs.Timeline.Repeated

/-!
# Changes that a slot takes again

Of a multi-valued slot each value can be followed by itself: once a change has looked it up in the
timeline, the slot holds it as the timeline says, and does so from then on. A single-valued slot is
looked up as a whole. A change that comes again looks nothing up, unless it resets the attribute or
contradicts the mark that its request has left.
-/

namespace DirectoryHistory

theorem Change.exists_word {c : Change} (single : c.resets = false) :
    ∃ v x, c.word v = some x ∧ (∀ w, w ≠ v → c.word w = none) ∧
      ∀ (t : Timeline) (s : Stamp), t.merge s c = t.note ⟨v, x, s⟩ := by
  cases c with
  | add v => exact ⟨v, .added, if_pos rfl, fun w h => if_neg (Ne.symm h), fun _ _ => rfl⟩
  | delete v => exact ⟨v, .deleted, if_pos rfl, fun w h => if_neg (Ne.symm h), fun _ _ => rfl⟩
  | clear | replace vs => cases single

namespace Timeline

variable {t : Timeline} {created : Option Stamp} {stamp : Stamp} {v : Octets} {c : Change} {x : Sense}

/-- The change does not contradict a mark of its stamp about `v`, and it does not look the value up. -/
structure IsQuiet (t : Timeline) (stamp : Stamp) (v : Octets) (c : Change) : Prop where
  words : ∀ x, t.mark? v = some ⟨v, x, stamp⟩ → ∀ y ∈ c.word v, y = x
  reset : c.resets = true → t.overrides stamp = true ∨ t.mark? v = none

theorem IsQuiet.congr {u : Timeline} (h : t.IsQuiet stamp v c) (mark : u.mark? v = t.mark? v)
    (overrides : u.overrides stamp = t.overrides stamp) : u.IsQuiet stamp v c := by
  constructor
  · rw [mark]
    exact h.words
  · rw [mark, overrides]
    exact h.reset

/-- A word that the timeline knows is news only if it contradicts a mark of its stamp. -/
theorem Knows.isNews_eq_false (known : t.Knows created stamp c) (word : c.word v = some x)
    (taken : t.drops created stamp c = false)
    (words : ∀ x', t.mark? v = some ⟨v, x', stamp⟩ → x = x') : t.isNews ⟨v, x, stamp⟩ = false := by
  obtain ⟨m, hm, le⟩ := (known.marks v (Change.names_of_word word)).resolve_left
    (by rw [taken]; exact Bool.noConfusion)
  rw [Bool.eq_false_iff, Ne, isNews, Bool.or_eq_true, admits_iff, amends_iff]
  rintro (newer | ⟨n, hn, same, other⟩)
  · exact le.not_gt (newer m hm)
  · obtain ⟨w, x', s⟩ := n
    obtain rfl : w = v := mark?_value hn
    obtain rfl : s = stamp := same
    exact other (words x' hn).symm

theorem Knows.mark?_of_isQuiet (known : t.Knows created stamp c) (ht : t.Ordered)
    (quiet : t.IsQuiet stamp v c) : (t.mergeSince created stamp c).mark? v = t.mark? v := by
  by_cases own : ∃ x, t.mark? v = some ⟨v, x, stamp⟩
  · obtain ⟨x, mark⟩ := own
    have word : t.hears stamp v c = c.word v := by
      rw [hears]
      split
      · rfl
      · next current =>
        refine (Change.word_of_not_resets (Bool.eq_false_iff.mpr fun resets => ?_)).symm
        rcases quiet.reset resets with late | unmarked
        · exact current late
        · simp [mark] at unmarked
    rw [mark?_mergeSince_of_mark ht mark, word, mark]
    cases said : c.word v with
    | none => rfl
    | some y => rw [quiet.words x mark y said, Option.getD_some]
  · exact known.mark?_mergeSince_eq ht fun x mark => own ⟨x, mark⟩

theorem Knows.isNone_mark?_mergeSince (known : t.Knows created stamp c) (ht : t.Ordered)
    (v : Octets) : ((t.mergeSince created stamp c).mark? v).isNone = (t.mark? v).isNone := by
  by_cases own : ∃ x, t.mark? v = some ⟨v, x, stamp⟩
  · obtain ⟨x, mark⟩ := own
    rw [mark?_mergeSince_of_mark ht mark, mark]
    rfl
  · rw [known.mark?_mergeSince_eq ht fun x mark => own ⟨x, mark⟩]

theorem Knows.mergeSince_of_late (known : t.Knows created stamp c) (ht : t.Ordered)
    (resets : c.resets = true) (late : t.overrides stamp = true) :
    t.mergeSince created stamp c = t := by
  have all : ∀ d ∈ [c], t.Knows created stamp d := by simpa using known
  refine (foldl_mergeSince_eq_iff ht all).mpr fun v x _ y last => ?_
  have silent : t.hears stamp v c = none := by
    rw [hears, if_pos late, Change.word_of_resets resets]
  simp [Edit.lastOf, silent] at last

end Timeline

namespace Slot

open Timeline

variable {s : Slot} {single : Bool} {created : Option Stamp} {stamp : Stamp} {v : Octets} {c : Change}
variable {x : Sense}

/-- The slot holds `v` exactly if the timeline asserts it. -/
def Heeds (s : Slot) (v : Octets) : Prop :=
  v ∈ s.held ↔ s.timeline.asserts v = true

theorem resolve_of_stale (word : c.word v = some x)
    (stale : s.timeline.isNews ⟨v, x, stamp⟩ = false ∨ s.timeline.drops created stamp c = true) :
    (s.resolve single created stamp c).slot = s := by
  cases c with
  | add w =>
    obtain ⟨rfl, rfl⟩ : w = v ∧ Sense.added = x := by simpa [Change.word] using word
    have stale := stale.resolve_right Bool.noConfusion
    cases single <;> simp [resolve, addMulti, addSingle, stale]
  | delete w =>
    obtain ⟨rfl, rfl⟩ : w = v ∧ Sense.deleted = x := by simpa [Change.word] using word
    simp only [resolve, Slot.delete]
    rcases stale with stale | dropped
    · simp [stale]
    · simp only [drops] at dropped
      simp [dropped]
  | clear | replace vs => cases word

theorem resolve_single_of_news (word : c.word v = some x)
    (news : s.timeline.isNews ⟨v, x, stamp⟩ = true)
    (taken : s.timeline.drops created stamp c = false) :
    (s.resolve true created stamp c).slot =
      settleSingle { s with timeline := s.timeline.mergeSince created stamp c } := by
  rw [mergeSince, taken, if_neg Bool.false_ne_true]
  cases c with
  | add w =>
    obtain ⟨rfl, rfl⟩ : w = v ∧ Sense.added = x := by simpa [Change.word] using word
    simp [resolve, addSingle, news, merge]
  | delete w =>
    obtain ⟨rfl, rfl⟩ : w = v ∧ Sense.deleted = x := by simpa [Change.word] using word
    simp only [drops] at taken
    simp [resolve, Slot.delete, taken, news, merge]
  | clear | replace vs => cases word

theorem heeds_of_news (word : c.word v = some x) (news : s.timeline.isNews ⟨v, x, stamp⟩ = true)
    (taken : s.timeline.drops created stamp c = false) :
    (s.resolve false created stamp c).slot.Heeds v := by
  cases c with
  | add w =>
    obtain ⟨rfl, rfl⟩ : w = v ∧ Sense.added = x := by simpa [Change.word] using word
    simp only [resolve, addMulti, news, Bool.false_eq_true, if_false, if_true, Heeds]
    split
    · next asserts =>
      refine iff_of_true ?_ asserts
      split <;> simp_all
    · next asserts => exact iff_of_false (by simp) asserts
  | delete w =>
    obtain ⟨rfl, rfl⟩ : w = v ∧ Sense.deleted = x := by simpa [Change.word] using word
    have mark : (s.timeline.note ⟨w, .deleted, stamp⟩).mark? w = some ⟨w, .deleted, stamp⟩ :=
      mark?_note_of_isNews news
    simp only [drops] at taken
    simp [resolve, Slot.delete, taken, news, Heeds, asserts_iff, mark, upholds_iff]
  | clear | replace vs => cases word

theorem mem_held_resolve_of_other (single : c.resets = false) (silent : c.word v = none) :
    v ∈ (s.resolve false created stamp c).slot.held ↔ v ∈ s.held := by
  cases c with
  | add w =>
    have other : v ≠ w := by
      rintro rfl
      simp [Change.word] at silent
    simp only [resolve, addMulti, Bool.false_eq_true, if_false]
    split
    · split
      · split <;> simp [other]
      · simp [other]
    · rfl
  | delete w =>
    have other : v ≠ w := by
      rintro rfl
      simp [Change.word] at silent
    simp only [resolve, Slot.delete]
    split
    · rfl
    · split <;> simp [other]
  | clear | replace vs => cases single

theorem exists_replace (resets : c.resets = true) (single : Bool) (created : Option Stamp)
    (stamp : Stamp) (s : Slot) : ∃ vs, s.resolve single created stamp c = s.replace single stamp vs ∧
      s.timeline.mergeSince created stamp c = s.timeline.replaced stamp vs := by
  cases c with
  | clear => exact ⟨[], rfl, by simp [mergeSince, drops, merge]⟩
  | replace vs => exact ⟨vs, rfl, by simp [mergeSince, drops, merge]⟩
  | add v | delete v => cases resets

theorem held_resolve_of_late (resets : c.resets = true)
    (late : s.timeline.overrides stamp = true) (single : Bool) (created : Option Stamp) :
    (s.resolve single created stamp c).slot.held = s.held := by
  obtain ⟨vs, same, -⟩ := exists_replace resets single created stamp s
  have overridden : ¬(s.timeline.reset stamp).lastReset = some stamp := by
    simp [lastReset_reset_eq_some_iff, late]
  rw [same, Slot.replace, if_neg overridden]

theorem resolve_of_late (ht : s.timeline.Ordered) (known : s.timeline.Knows created stamp c)
    (resets : c.resets = true) (late : s.timeline.overrides stamp = true) (single : Bool) :
    (s.resolve single created stamp c).slot = s := by
  have timeline := timeline_resolve_since single created stamp c s
  rw [known.mergeSince_of_late ht resets late] at timeline
  have held := held_resolve_of_late resets late single created
  generalize (s.resolve single created stamp c).slot = s' at timeline held ⊢
  obtain ⟨_, _⟩ := s
  obtain ⟨_, _⟩ := s'
  cases timeline
  cases held
  rfl

/-- A reset that counts looks up every value that has a mark afterwards. -/
theorem mem_held_resolve_of_reset (ht : s.timeline.Ordered) (resets : c.resets = true)
    (current : s.timeline.overrides stamp = false) (created : Option Stamp) (v : Octets) :
    v ∈ (s.resolve false created stamp c).slot.held ↔
      (s.timeline.mergeSince created stamp c).asserts v = true ∨ v ∈ s.held ∧
        (s.timeline.mergeSince created stamp c).mark? v = none ∧ s.timeline.lastReset = some stamp := by
  obtain ⟨vs, same, replaced⟩ := exists_replace resets false created stamp s
  rw [same, replaced]
  exact (mem_held_replace_iff ht current vs).2 v

theorem Heeds.resolve (h : s.Heeds v) (ht : s.timeline.Ordered) (created : Option Stamp)
    (stamp : Stamp) (c : Change) : (s.resolve false created stamp c).slot.Heeds v := by
  have timeline := timeline_resolve_since false created stamp c s
  cases resets : c.resets with
  | false =>
    obtain ⟨w, x, word, others, merged⟩ := Change.exists_word resets
    by_cases stale : s.timeline.isNews ⟨w, x, stamp⟩ = false ∨ s.timeline.drops created stamp c = true
    · rw [resolve_of_stale word stale]
      exact h
    obtain ⟨news, taken⟩ := not_or.mp stale
    rw [Bool.not_eq_false] at news
    rw [Bool.not_eq_true] at taken
    by_cases own : v = w
    · exact own ▸ heeds_of_news word news taken
    rw [mergeSince, taken, if_neg Bool.false_ne_true, merged] at timeline
    have mark : (s.timeline.note ⟨w, x, stamp⟩).mark? v = s.timeline.mark? v := by
      simp [mark?_note, own]
    rw [Heeds, mem_held_resolve_of_other resets (others v own), timeline,
      asserts_congr mark (lastReset_note _ _)]
    exact h
  | true =>
    cases late : s.timeline.overrides stamp with
    | true =>
      obtain ⟨vs, -, replaced⟩ := exists_replace resets false created stamp s
      rw [Heeds, held_resolve_of_late resets late, timeline, replaced,
        ← (ht.replaced stamp vs).mem_map_asserted, asserted_replaced_of_overrides ht vs late,
        ht.mem_map_asserted]
      exact h
    | false =>
      rw [Heeds, mem_held_resolve_of_reset ht resets late created v, timeline, or_iff_left]
      rintro ⟨hv, unmarked, -⟩
      obtain ⟨m, hm, -⟩ := asserts_iff.mp (h.mp hv)
      rcases mark?_mergeSince_eq_or ht created stamp c v with same | ⟨x, new⟩
      · cases hm.symm.trans (same.symm.trans unmarked)
      · cases new.symm.trans unmarked

theorem heeds_or_isQuiet_resolve_of_word (unreset : c.resets = false) (created : Option Stamp)
    (v : Octets) : let s' := (s.resolve false created stamp c).slot
    s'.Heeds v ∨ s'.timeline.IsQuiet stamp v c ∧ s'.timeline.mark? v = s.timeline.mark? v := by
  intro s'
  have silent : c.resets = true →
      s'.timeline.overrides stamp = true ∨ s'.timeline.mark? v = none := by
    rw [unreset]
    exact Bool.noConfusion
  obtain ⟨w, x, word, others, merged⟩ := Change.exists_word unreset
  by_cases own : v = w
  · subst own
    by_cases stale : s.timeline.isNews ⟨v, x, stamp⟩ = false ∨
        s.timeline.drops created stamp c = true
    · have same : s' = s := resolve_of_stale word stale
      refine .inr ⟨⟨fun x' mark y said => ?_, silent⟩, by rw [same]⟩
      obtain rfl : x = y := Option.some.inj (word.symm.trans said)
      rw [same] at mark
      rcases stale with stale | dropped
      · rcases isNews_eq_false stale with newer | there
        · simp [outdates, mark] at newer
        · exact congrArg Mark.sense (Option.some.inj (there.symm.trans mark))
      · cases mark.symm.trans (mark?_eq_none_of_drops dropped (Change.names_of_word word))
    · obtain ⟨news, taken⟩ := not_or.mp stale
      exact .inl (heeds_of_news word (by simpa using news) (by simpa using taken))
  · refine .inr ⟨⟨fun _ _ y said => ?_, silent⟩, ?_⟩
    · cases (others v own).symm.trans said
    · rw [timeline_resolve_since, mergeSince]
      split
      · rfl
      · rw [merged, mark?_note, if_neg fun same => own same.1]

/-- A change that counts looks `v` up, or it has nothing more to say about it. -/
theorem heeds_or_isQuiet_resolve (ht : s.timeline.Ordered)
    (taken : s.timeline.overrides stamp = true → c.resets = false) (created : Option Stamp)
    (v : Octets) : let s' := (s.resolve false created stamp c).slot
    s'.Heeds v ∨ s'.timeline.IsQuiet stamp v c ∧ s'.timeline.mark? v = s.timeline.mark? v := by
  intro s'
  have timeline : s'.timeline = s.timeline.mergeSince created stamp c :=
    timeline_resolve_since false created stamp c s
  cases resets : c.resets with
  | false => exact heeds_or_isQuiet_resolve_of_word resets created v
  | true =>
    have current : s.timeline.overrides stamp = false := by
      rw [Bool.eq_false_iff]
      intro late
      rw [taken late] at resets
      cases resets
    -- A reset looks up what has a mark afterwards, and says nothing of the rest.
    by_cases unmarked : (s.timeline.mergeSince created stamp c).mark? v = none
    · refine .inr ⟨⟨fun x mark => ?_, fun _ => .inr (by rw [timeline, unmarked])⟩, ?_⟩
      · rw [timeline, unmarked] at mark
        cases mark
      · rw [timeline]
        rcases mark?_mergeSince_eq_or ht created stamp c v with same | ⟨x, new⟩
        · exact same
        · cases new.symm.trans unmarked
    · left
      rw [Heeds, mem_held_resolve_of_reset ht resets current created v, timeline, or_iff_left]
      exact fun stays => unmarked stays.2.1

theorem mem_held_resolve_of_isQuiet (ht : s.timeline.Ordered)
    (known : s.timeline.Knows created stamp c) (quiet : s.timeline.IsQuiet stamp v c) :
    v ∈ (s.resolve false created stamp c).slot.held ↔ v ∈ s.held := by
  cases resets : c.resets with
  | false =>
    cases word : c.word v with
    | none => rw [mem_held_resolve_of_other resets word]
    | some x =>
      rw [resolve_of_stale word]
      rw [← Bool.not_eq_false, or_iff_not_imp_right, not_not]
      exact fun taken => known.isNews_eq_false word taken fun x' mark => quiet.words x' mark x word
  | true =>
    cases late : s.timeline.overrides stamp with
    | true => rw [held_resolve_of_late resets late]
    | false =>
      have unmarked : s.timeline.mark? v = none :=
        (quiet.reset resets).resolve_left (by rw [late]; exact Bool.noConfusion)
      have still : (s.timeline.mergeSince created stamp c).mark? v = none := by
        rw [known.mark?_of_isQuiet ht quiet, unmarked]
      have again : s.timeline.lastReset = some stamp := by
        obtain ⟨r, hr, le⟩ := known.reset resets
        have ge : r ≤ stamp := by simpa [overrides, hr] using late
        rw [hr, le.antisymm ge]
      rw [mem_held_resolve_of_reset ht resets late created v]
      simp [asserts_iff, still, again]

/-- Settling finds the same value once more. -/
theorem head?_unrecorded_settleSingle (ht : s.timeline.Ordered) :
    s.settleSingle.unrecorded.head? = s.unrecorded.head? := by
  have timeline : s.settleSingle.timeline = s.timeline := rfl
  rw [unrecorded, timeline, settleSingle]
  cases found : s.unrecorded.head? with
  | some v =>
    have unmarked := (mem_unrecorded.mp (List.mem_of_mem_head? found)).2
    simp [unmarked]
  | none =>
    rw [Option.none_or]
    cases first : s.timeline.asserted.head? with
    | none => rfl
    | some m =>
      have marked := (ht.mem_asserted.mp (List.mem_of_mem_head? first)).1
      simp [marked]

theorem settleSingle_settleSingle (ht : s.timeline.Ordered) :
    s.settleSingle.settleSingle = s.settleSingle := by
  rw [settleSingle, head?_unrecorded_settleSingle ht]
  rfl

/-- A change settles the slot or leaves it as it is, unless it is a reset that a newer one overrides. -/
theorem resolve_single_eq_or (ht : s.timeline.Ordered) (created : Option Stamp)
    (taken : s.timeline.overrides stamp = true → c.resets = false) :
    (s.resolve true created stamp c).slot = s ∨
      (s.resolve true created stamp c).slot.settleSingle = (s.resolve true created stamp c).slot := by
  cases resets : c.resets with
  | false =>
    obtain ⟨v, x, word, -, -⟩ := Change.exists_word resets
    by_cases stale : s.timeline.isNews ⟨v, x, stamp⟩ = false ∨ s.timeline.drops created stamp c = true
    · exact .inl (resolve_of_stale word stale)
    · obtain ⟨news, taken⟩ := not_or.mp stale
      rw [resolve_single_of_news word (by simpa using news) (by simpa using taken)]
      exact .inr (settleSingle_settleSingle (ht.mergeSince created stamp c))
  | true =>
    have current : s.timeline.overrides stamp = false := by
      rw [Bool.eq_false_iff]
      intro late
      rw [taken late] at resets
      cases resets
    obtain ⟨vs, same, -⟩ := exists_replace resets true created stamp s
    rw [same, Slot.replace, if_pos (lastReset_reset_eq_some_iff.mpr current)]
    exact .inr (settleSingle_settleSingle ((ht.reset stamp).noteReplace stamp vs))

/-- A change that comes again leaves the slot as it is, or settles it and leaves the unrecorded
value. -/
theorem resolve_single_of_knows (ht : s.timeline.Ordered)
    (known : s.timeline.Knows created stamp c) : let s' := (s.resolve true created stamp c).slot
    s' = s ∨ s'.settleSingle = s' ∧ s'.unrecorded.head? = s.unrecorded.head? := by
  intro s'
  have looked (settled : s' = settleSingle ⟨s.held, s.timeline.mergeSince created stamp c⟩) :
      s'.settleSingle = s' ∧ s'.unrecorded.head? = s.unrecorded.head? := by
    have ordered : (s.timeline.mergeSince created stamp c).Ordered := ht.mergeSince created stamp c
    have same : Slot.unrecorded ⟨s.held, s.timeline.mergeSince created stamp c⟩ = s.unrecorded :=
      List.filter_congr fun v _ => known.isNone_mark?_mergeSince ht v
    rw [settled, head?_unrecorded_settleSingle ordered, same]
    exact ⟨settleSingle_settleSingle ordered, rfl⟩
  cases resets : c.resets with
  | false =>
    obtain ⟨v, x, word, -, -⟩ := Change.exists_word resets
    by_cases stale : s.timeline.isNews ⟨v, x, stamp⟩ = false ∨ s.timeline.drops created stamp c = true
    · exact .inl (resolve_of_stale word stale)
    · obtain ⟨news, taken⟩ := not_or.mp stale
      exact .inr (looked (resolve_single_of_news word (by simpa using news) (by simpa using taken)))
  | true =>
    cases late : s.timeline.overrides stamp with
    | true =>
      exact .inl (resolve_of_late ht known resets late true)
    | false =>
      obtain ⟨vs, same, replaced⟩ := exists_replace resets true created stamp s
      have reset := lastReset_reset_eq_some_iff.mpr late
      have unraised : s.timeline.admitsReset stamp = false := by
        obtain ⟨r, hr, le⟩ := known.reset resets
        simp [admitsReset, Stamp.passes, hr, le]
      refine .inr (looked ?_)
      rw [show s' = (s.replace true stamp vs).slot from congrArg Resolved.slot same, replaced,
        Slot.replace, if_pos reset, unraised, Timeline.replaced, if_pos reset]
      rfl

end Slot

end DirectoryHistory
