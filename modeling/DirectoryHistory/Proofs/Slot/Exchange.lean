import DirectoryHistory.Proofs.Slot.Newest
import DirectoryHistory.Proofs.Slot.Renaming

/-!
# An edit and a rename in both orders

A rename changes values without a word in the timeline, and an edit that is newer than all before
takes them as it finds them. So they leave the same values in both orders if and only if the edit lets
those values be that the rename is about. How far it has to do so depends on how many values the
attribute may hold.
-/

namespace DirectoryHistory

/-- An edit of a multi-valued attribute lets a rename be. The attribute holds `held` before the edit,
and `edited` after the edit alone. -/
structure Edit.Spares (e : Edit) (leaf : RelativeName) (dropped : Option RelativeName)
    (a : Attribute) (held edited : List Octets) : Prop where
  /-- It adds no value that the rename drops. -/
  drops : ∀ v, e.outcome v = some .added → ∀ old ∈ dropped, ¬old.Gives a v
  /-- It deletes the value of the leaf only if another spelling of it is left. -/
  keeps : ∀ v, leaf.Writes a v → e.outcome v = some .deleted → ∃ w ∈ edited, leaf.Gives a w
  /-- If it does not speak of the value of the leaf, it neither brings another spelling of it nor takes
  the last one away. -/
  spells : ∀ v, leaf.Writes a v → e.outcome v = none →
    ((∃ w ∈ edited, leaf.Gives a w) ↔ ∃ w ∈ held, leaf.Gives a w)

/-- An edit of a single-valued attribute lets a rename be. The edit alone leaves `edited`, and `last`
comes of the edit after the rename. -/
structure SparesHolder (leaf : RelativeName) (dropped : Option RelativeName) (a : Attribute)
    (edited last : List Octets) : Prop where
  /-- The value of the leaf is left, and it is the only one that the rename finds or leaves. -/
  named : a = .make leaf.attr → ∃ w ∈ last, leaf.Gives a w ∧
    (w ∈ edited ∨ leaf.Writes a w ∧ ∀ v ∈ edited, ∃ old ∈ dropped, old.Gives a v)
  /-- No other value moves up into the place of a dropped one. -/
  other : a ≠ .make leaf.attr → ∀ w ∈ last, w ∈ edited ∧ ∀ old ∈ dropped, ¬old.Gives a w

namespace Slot

variable {leaf : RelativeName} {dropped : Option RelativeName} {a : Attribute} {e : Edit}
variable {created : Option Stamp} {s s₁ u u₁ : Slot}

theorem IsRenamed.eq_of_untouched (h : IsRenamed leaf dropped a s u) (other : a ≠ .make leaf.attr)
    (others : ∀ old ∈ dropped, a ≠ .make old.attr) : u = s := by
  obtain ⟨held, timeline⟩ := u
  obtain rfl : timeline = s.timeline := h.timeline
  obtain rfl : held = s.held := h.untouched other others
  rfl

/-- A rename of a slot after an edit that is newer than all before, and the edit after the rename. -/
theorem IsRenamed.mem_held_iff_of_multi (h : IsRenamed leaf dropped a s u)
    (h₁ : IsRenamed leaf dropped a (s.resolveEdit false created e) u₁)
    (apart : ∀ v, leaf.Gives a v → ∀ old ∈ dropped, ¬old.Gives a v) (ht : s.timeline.Ordered)
    (older : s.timeline.IsOlder e.stamp) (newer : ∀ c ∈ created, c < e.stamp) :
    (∀ v, v ∈ u₁.held ↔ v ∈ (u.resolveEdit false created e).held) ↔
      e.Spares leaf dropped a s.held (s.resolveEdit false created e).held := by
  have edited := mem_held_resolveEdit ht older newer
  have left : ∀ v, v ∈ (u.resolveEdit false created e).held ↔
      e.outcome v = some .added ∨ e.outcome v = none ∧ v ∈ u.held :=
    mem_held_resolveEdit (h.timeline ▸ ht) (h.timeline ▸ older) newer
  have right := h₁.mem_held_iff
  constructor
  · intro same
    refine ⟨fun v added => ?_, fun v written deleted => ?_, fun v written unspoken => ?_⟩
    · exact ((right v).mp ((same v).mpr ((left v).mpr (.inl added)))).2
    · have gone : v ∉ u₁.held := by
        rw [same v, left v, deleted]
        simp
      by_contra none
      refine gone ((right v).mpr ⟨.inr ⟨written, fun w hw given => ?_⟩, apart v written.gives⟩)
      exact none ⟨w, hw, given⟩
    · by_cases hv : v ∈ s.held
      · have still : v ∈ (s.resolveEdit false created e).held :=
          (edited v).mpr (.inr ⟨unspoken, hv⟩)
        exact iff_of_true ⟨v, still, written.gives⟩ ⟨v, hv, written.gives⟩
      · have agree := same v
        rw [left v, right v, edited v, unspoken, h.mem_held_iff v,
          and_iff_left (apart v written.gives), and_iff_left (apart v written.gives)] at agree
        simpa [written, hv, not_iff_not] using not_congr agree
  · intro spares v
    rw [left v, right v, edited v, h.mem_held_iff v]
    cases outcome : e.outcome v with
    | none =>
      have spells : leaf.Writes a v → ((∀ w ∈ (s.resolveEdit false created e).held, ¬leaf.Gives a w) ↔
          ∀ w ∈ s.held, ¬leaf.Gives a w) := by
        intro written
        have spells := not_congr (spares.spells v written outcome)
        push Not at spells
        exact spells
      simp only [reduceCtorEq, false_or, true_and]
      exact and_congr_left fun _ => or_congr_right (and_congr_right spells)
    | some x =>
      cases x with
      | added => simpa using spares.drops v outcome
      | deleted =>
        simp only [Option.some_inj, reduceCtorEq, false_and, or_self, false_or, iff_false]
        rintro ⟨⟨written, none⟩, -⟩
        obtain ⟨w, hw, given⟩ := spares.keeps v written outcome
        exact none w hw given

theorem IsRenamed.mem_held_iff_of_ne (h : IsRenamed leaf dropped a s u) (other : a ≠ .make leaf.attr)
    (v : Octets) : v ∈ u.held ↔ v ∈ s.held ∧ ∀ old ∈ dropped, ¬old.Gives a v := by
  have unwritten : ¬leaf.Writes a v := fun written => other written.1
  rw [h.mem_held_iff v]
  simp [unwritten]

/-- When one value at most was held, one that the leaf gives is all that is held after the rename, if
it is left over or takes the place of what is dropped. -/
theorem IsRenamed.mem_held_iff_eq {w : Octets} (h : IsRenamed leaf dropped a s u)
    (apart : ∀ v, leaf.Gives a v → ∀ old ∈ dropped, ¬old.Gives a v) (few : s.held.length ≤ 1)
    (given : leaf.Gives a w)
    (why : w ∈ s.held ∨ leaf.Writes a w ∧ ∀ v ∈ s.held, ∃ old ∈ dropped, old.Gives a v)
    (v : Octets) : v ∈ u.held ↔ v = w := by
  rw [h.mem_held_iff v]
  obtain held | ⟨written, gone⟩ := why
  · constructor
    · rintro ⟨hv | ⟨-, none⟩, -⟩
      · exact eq_of_mem_of_length_le_one few hv held
      · exact absurd given (none w held)
    · rintro rfl
      exact ⟨.inl held, apart v given⟩
  · constructor
    · rintro ⟨hv | ⟨written', -⟩, spared⟩
      · obtain ⟨old, drops, given⟩ := gone v hv
        exact absurd given (spared old drops)
      · exact written'.2.trans written.2.symm
    · rintro rfl
      refine ⟨.inr ⟨written, fun w hw given => ?_⟩, apart v given⟩
      obtain ⟨old, drops, given'⟩ := gone w hw
      exact apart w given old drops given'

/-- The attribute of the leaf holds a value that the leaf gives after the rename. It is left over, or
it takes the place of what is dropped if no other value is held. -/
theorem IsRenamed.exists_gives (h : IsRenamed leaf dropped (.make leaf.attr) s u)
    (apart : ∀ v, leaf.Gives (.make leaf.attr) v → ∀ old ∈ dropped, ¬old.Gives (.make leaf.attr) v)
    (alone : ∀ v ∈ u.held, ∀ w ∈ u.held, v = w) :
    ∃ w ∈ u.held, leaf.Gives (.make leaf.attr) w ∧ (w ∈ s.held ∨ leaf.Writes (.make leaf.attr) w ∧
      ∀ v ∈ s.held, ∃ old ∈ dropped, old.Gives (.make leaf.attr) v) := by
  by_cases spelled : ∃ w ∈ s.held, leaf.Gives (.make leaf.attr) w
  · obtain ⟨w, hw, given⟩ := spelled
    exact ⟨w, (h.mem_held_iff w).mpr ⟨.inl hw, apart w given⟩, given, .inl hw⟩
  · have none : ∀ w ∈ s.held, ¬leaf.Gives (.make leaf.attr) w :=
      fun w hw given => spelled ⟨w, hw, given⟩
    have written : leaf.Writes (.make leaf.attr) (.ofText leaf.value) := ⟨rfl, rfl⟩
    have found : Octets.ofText leaf.value ∈ u.held :=
      (h.mem_held_iff _).mpr ⟨.inr ⟨written, none⟩, apart _ written.gives⟩
    refine ⟨_, found, written.gives, .inr ⟨written, fun v hv => ?_⟩⟩
    by_contra kept
    have spared : ∀ old ∈ dropped, ¬old.Gives (.make leaf.attr) v :=
      fun old drops given => kept ⟨old, drops, given⟩
    have left : v ∈ u.held := (h.mem_held_iff v).mpr ⟨.inl hv, spared⟩
    exact none v hv (alone v left _ found ▸ written.gives)

/-- A rename of a single-valued slot after an edit that is newer than all before, and the edit after the
rename: the edit leaves one value at most in either case. -/
theorem IsRenamed.mem_held_iff_of_single (h : IsRenamed leaf dropped a s u)
    (h₁ : IsRenamed leaf dropped a (s.resolveEdit true created e) u₁)
    (part : a ≠ .make leaf.attr →
      u.held = s.held.filter fun v => decide (∀ old ∈ dropped, ¬old.Gives a v))
    (apart : ∀ v, leaf.Gives a v → ∀ old ∈ dropped, ¬old.Gives a v) (busy : e.changes ≠ [])
    (ht : s.timeline.Ordered) (older : s.timeline.IsOlder e.stamp)
    (newer : ∀ c ∈ created, c < e.stamp) :
    (∀ v, v ∈ u₁.held ↔ v ∈ (u.resolveEdit true created e).held) ↔
      SparesHolder leaf dropped a (s.resolveEdit true created e).held
        (u.resolveEdit true created e).held := by
  have few : (s.resolveEdit true created e).held.length ≤ 1 :=
    length_held_resolveEdit_le busy ht older newer
  have few' : (u.resolveEdit true created e).held.length ≤ 1 :=
    length_held_resolveEdit_le busy (h.timeline ▸ ht) (h.timeline ▸ older) newer
  constructor
  · intro same
    refine ⟨?_, fun other w hw => (h₁.mem_held_iff_of_ne other w).mp ((same w).mpr hw)⟩
    rintro rfl
    obtain ⟨w, hw, named⟩ := h₁.exists_gives apart fun v hv w hw =>
      eq_of_mem_of_length_le_one few' ((same v).mp hv) ((same w).mp hw)
    exact ⟨w, (same w).mp hw, named⟩
  · intro spares v
    by_cases own : a = .make leaf.attr
    · obtain ⟨w, hw, given, why⟩ := spares.named own
      rw [h₁.mem_held_iff_eq apart few given why v]
      constructor
      · rintro rfl
        exact hw
      · exact fun hv => eq_of_mem_of_length_le_one few' hv hw
    · rw [h₁.mem_held_iff_of_ne own v]
      constructor
      · rintro ⟨edited, spared⟩
        obtain ⟨w, hw⟩ := exists_mem_held_resolveEdit busy ht older newer h.timeline (part own) edited
          (decide_eq_true spared)
        exact eq_of_mem_of_length_le_one few (spares.other own w hw).1 edited ▸ hw
      · exact spares.other own v

end Slot

end DirectoryHistory
