import DirectoryHistory.Proofs.Rebuild.Anomalies
import DirectoryHistory.Proofs.Slot.Evolution
import DirectoryHistory.Replica

/-!
# What a rename does to a slot

A rename adds the value of the new leaf, unless it is held in some case, and takes that of a dropped
leaf away in every case, without a word in the timeline. So a value that nothing newer concerns may
be held against what the timeline says of it, or be missing. Otherwise the slot is the same as one
that takes what the timeline stands for on top of the values held in the end.
-/

namespace DirectoryHistory

/-- The name gives `a` the value `v`, in some case. -/
def RelativeName.Gives (n : RelativeName) (a : Attribute) (v : Octets) : Prop :=
  a = .make n.attr ∧ Replica.sameIgnoringCase v (.ofText n.value) = true

/-- The name gives `a` the value `v` as it is written. -/
def RelativeName.Writes (n : RelativeName) (a : Attribute) (v : Octets) : Prop :=
  a = .make n.attr ∧ v = .ofText n.value

instance (n : RelativeName) (a : Attribute) (v : Octets) : Decidable (n.Gives a v) :=
  inferInstanceAs (Decidable (_ ∧ _))

instance (n : RelativeName) (a : Attribute) (v : Octets) : Decidable (n.Writes a v) :=
  inferInstanceAs (Decidable (_ ∧ _))

variable {leaf : RelativeName} {dropped : Option RelativeName} {a : Attribute} {v : Octets}

theorem RelativeName.Writes.gives (h : leaf.Writes a v) : leaf.Gives a v := by
  obtain ⟨ha, rfl⟩ := h
  exact ⟨ha, beq_self_eq_true _⟩

/-- The rename goes against what the timeline says of the value: it drops an asserted value or brings
a deleted one back. -/
def Timeline.IsContradicted (t : Timeline) (leaf : RelativeName) (dropped : Option RelativeName)
    (a : Attribute) (v : Octets) : Prop :=
  (t.asserts v = true ∧ ∃ old ∈ dropped, old.Gives a v) ∨
    (leaf.Writes a v ∧ ∃ m ∈ t.mark? v, m.sense = .deleted)

theorem Timeline.isContradicted_congr {t u : Timeline} (mark : t.mark? v = u.mark? v)
    (reset : t.lastReset = u.lastReset) :
    t.IsContradicted leaf dropped a v ↔ u.IsContradicted leaf dropped a v := by
  rw [IsContradicted, IsContradicted, asserts_congr mark reset, mark]

namespace Slot

/-- The slot of `a` before and after a rename to `leaf` that drops another leaf, if any. -/
structure IsRenamed (leaf : RelativeName) (dropped : Option RelativeName) (a : Attribute)
    (s u : Slot) : Prop where
  timeline : u.timeline = s.timeline
  untouched : a ≠ .make leaf.attr → (∀ old ∈ dropped, a ≠ .make old.attr) → u.held = s.held
  mem_held_iff : ∀ v, v ∈ u.held ↔
    (v ∈ s.held ∨ leaf.Writes a v ∧ ∀ w ∈ s.held, ¬leaf.Gives a w) ∧
    ∀ old ∈ dropped, ¬old.Gives a v

variable {s₀ s₁ u₁ s t₀ t : Slot} {c r : Stamp} {told told' : Timeline}

/-- The value of the leaf is held, unless it is dropped at once, where it is held in no other case. -/
theorem IsRenamed.mem_held_iff_of_exact (h : IsRenamed leaf dropped a s₁ u₁)
    (exact : ∀ w ∈ s₁.held, leaf.Gives a w → leaf.Writes a w) (v : Octets) : v ∈ u₁.held ↔
      (v ∈ s₁.held ∨ leaf.Writes a v) ∧ ∀ old ∈ dropped, ¬old.Gives a v := by
  rw [h.mem_held_iff v]
  refine and_congr_left fun _ => ⟨fun hv => hv.imp_right And.left, ?_⟩
  rintro (hv | written)
  · exact .inl hv
  by_cases held : ∃ w ∈ s₁.held, leaf.Gives a w
  · obtain ⟨w, hw, given⟩ := held
    have same : w = v := (exact w hw given).2.trans written.2.symm
    exact .inl (same ▸ hw)
  · refine .inr ⟨written, fun w hw given => held ⟨w, hw, given⟩⟩

/-- What became of a multi-valued slot created at `c`: a rename at `r` found the timeline `told`. -/
structure IsOutcome (c r : Stamp) (leaf : RelativeName) (dropped : Option RelativeName)
    (a : Attribute) (told : Timeline) (s₀ s : Slot) : Prop where
  recent : ∀ v, s.timeline.concerns r v = true → (v ∈ s.held ↔ s.timeline.asserts v = true)
  kept : ∀ v, s.timeline.concerns r v = false →
    s.timeline.mark? v = told.mark? v ∧ s.timeline.lastReset = told.lastReset
  early : ∀ v, s.timeline.concerns r v = false → s.timeline.concerns c v = true →
    (v ∈ s.held ↔ (s.timeline.asserts v = true ∨ leaf.Writes a v) ∧
      ∀ old ∈ dropped, ¬old.Gives a v)
  initial : ∀ v, s.timeline.concerns r v = false → s.timeline.concerns c v = false →
    (v ∈ s.held ↔ (v ∈ s₀.held ∨ leaf.Writes a v) ∧ ∀ old ∈ dropped, ¬old.Gives a v)

theorem IsRenamed.isOutcome (h : IsRenamed leaf dropped a s₁ u₁) (before : s₀.Evolves c s₁)
    (after : u₁.Evolves r s) (exact : ∀ w ∈ s₁.held, leaf.Gives a w → leaf.Writes a w) :
    IsOutcome c r leaf dropped a s₁.timeline s₀ s := by
  have kept : ∀ v, s.timeline.concerns r v = false →
      s.timeline.mark? v = s₁.timeline.mark? v ∧ s.timeline.lastReset = s₁.timeline.lastReset := by
    intro v calm
    obtain ⟨mark, reset, -⟩ := after.kept v calm
    exact ⟨mark.trans (by rw [h.timeline]), reset.trans (by rw [h.timeline])⟩
  refine ⟨after.settled, kept, fun v calm concerned => ?_, fun v calm calm' => ?_⟩
  · obtain ⟨mark, reset⟩ := kept v calm
    rw [Timeline.concerns_congr mark reset] at concerned
    rw [(after.kept v calm).2.2, h.mem_held_iff_of_exact exact, before.settled v concerned,
      Timeline.asserts_congr mark reset]
  · obtain ⟨mark, reset⟩ := kept v calm
    rw [Timeline.concerns_congr mark reset] at calm'
    rw [(after.kept v calm).2.2, h.mem_held_iff_of_exact exact, (before.kept v calm').2.2]

/-- The held values are faithful to the timeline if and only if something newer concerns every value
that the rename went against. -/
theorem IsOutcome.isFaithful_iff (h : IsOutcome c r leaf dropped a told s₀ s)
    (ht : s.timeline.Ordered) (newer : ∀ m ∈ s.timeline.marks, c < m.stamp)
    (apart : ∀ v, leaf.Writes a v → ∀ old ∈ dropped, ¬old.Gives a v) : s.IsFaithful false ↔
      ∀ v, told.IsContradicted leaf dropped a v → s.timeline.concerns r v = true := by
  have marked : ∀ {v m}, s.timeline.mark? v = some m → s.timeline.concerns c v = true := by
    intro v m hm
    exact Timeline.concerns_iff.mpr (.inl ⟨m, hm, newer m (Timeline.mem_of_mark? hm)⟩)
  constructor
  · intro faithful v contradicted
    by_contra calm
    rw [Bool.not_eq_true] at calm
    obtain ⟨mark, reset⟩ := h.kept v calm
    rw [← Timeline.isContradicted_congr mark reset] at contradicted
    rcases contradicted with ⟨asserted, old, dropped, given⟩ | ⟨written, m, hm, deleted⟩
    · obtain ⟨m, hm, -⟩ := Timeline.asserts_iff.mp asserted
      have held := faithful.present rfl v asserted
      exact ((h.early v calm (marked hm)).mp held).2 old dropped given
    · have held := (h.early v calm (marked hm)).mpr ⟨.inr written, apart v written⟩
      obtain ⟨member, rfl⟩ := ht.mark?_eq_some_iff.mp hm
      exact faithful.absent m member deleted held
  · intro heeded
    refine ⟨fun m hm deleted hv => ?_, fun _ v asserted => ?_, nofun⟩
    · have mark := ht.mark?_eq_some_iff.mpr ⟨hm, rfl⟩
      have unasserted : ¬s.timeline.asserts m.value = true := by
        simp [Timeline.asserts_iff, mark, Timeline.upholds_iff, deleted]
      by_cases concerned : s.timeline.concerns r m.value = true
      · exact unasserted ((h.recent m.value concerned).mp hv)
      · rw [Bool.not_eq_true] at concerned
        obtain ⟨mark', reset⟩ := h.kept m.value concerned
        have written := ((h.early m.value concerned (marked mark)).mp hv).1.resolve_left unasserted
        have late := heeded m.value ((Timeline.isContradicted_congr mark' reset).mp
          (.inr ⟨written, m, mark, deleted⟩))
        rw [concerned] at late
        cases late
    · by_cases concerned : s.timeline.concerns r v = true
      · exact (h.recent v concerned).mpr asserted
      · rw [Bool.not_eq_true] at concerned
        obtain ⟨mark, reset⟩ := h.kept v concerned
        obtain ⟨m, hm, -⟩ := Timeline.asserts_iff.mp asserted
        refine (h.early v concerned (marked hm)).mpr ⟨.inl asserted, fun old drops given => ?_⟩
        have late := heeded v ((Timeline.isContradicted_congr mark reset).mp
          (.inl ⟨asserted, old, drops, given⟩))
        rw [concerned] at late
        cases late

/-- A slot that starts with what a faithful one holds, and with the value of the leaf, holds the same
after a rename to that leaf, once it has the same timeline. -/
theorem IsOutcome.mem_held_iff (h : IsOutcome c r leaf dropped a told s₀ s)
    (h' : IsOutcome c r leaf none a told' t₀ t) (same : t.timeline = s.timeline)
    (initial : ∀ v, v ∈ t₀.held ↔ v ∈ s.held ∨ leaf.Writes a v)
    (apart : ∀ v, leaf.Writes a v → ∀ old ∈ dropped, ¬old.Gives a v)
    (faithful : s.IsFaithful false) (v : Octets) : v ∈ t.held ↔ v ∈ s.held := by
  by_cases concerned : s.timeline.concerns r v = true
  · rw [h.recent v concerned, h'.recent v (same ▸ concerned), same]
  rw [Bool.not_eq_true] at concerned
  by_cases concerned' : s.timeline.concerns c v = true
  · have target := h'.early v (same ▸ concerned) (same ▸ concerned')
    rw [same] at target
    rw [target]
    constructor
    · rintro ⟨asserted | written, -⟩
      · exact faithful.present rfl v asserted
      · exact (h.early v concerned concerned').mpr ⟨.inr written, apart v written⟩
    · intro hv
      exact ⟨((h.early v concerned concerned').mp hv).1, nofun⟩
  · rw [Bool.not_eq_true] at concerned'
    rw [h'.initial v (same ▸ concerned) (same ▸ concerned'), initial v]
    constructor
    · rintro ⟨(hv | written) | written, -⟩
      · exact hv
      · exact (h.initial v concerned concerned').mpr ⟨.inr written, apart v written⟩
      · exact (h.initial v concerned concerned').mpr ⟨.inr written, apart v written⟩
    · intro hv
      exact ⟨.inl (.inl hv), nofun⟩

end Slot

end DirectoryHistory
