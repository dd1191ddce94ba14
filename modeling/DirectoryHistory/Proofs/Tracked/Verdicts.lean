import DirectoryHistory.Proofs.Slot.Verdicts
import DirectoryHistory.Proofs.Tracked.Actions

/-!
# Verdicts on changes to an entry

Whatever an entry has taken, the verdict on a further change tells what became of the values: after
an addition that was applied the value is there, and after one that displaced another value nothing
else is. An ignored change leaves the values of all attributes alone, with one exception. Added
again, the value that holds a single-valued attribute may come behind an older addition, and is lost
although the verdict says that nothing happened.
-/

namespace DirectoryHistory.Tracked

variable {schema : Schema} {initial : Attribute → List Octets} {t u : Tracked} {a : Attribute}
variable {c : Change} {stamp : Stamp}

/-- The change adds the value that holds a single-valued attribute, and that value gives way. -/
def GivesWay (schema : Schema) (a : Attribute) (c : Change) (stamp : Stamp) (t : Tracked) : Prop :=
  schema.isSingle a = true ∧ ∃ v, c = .add v ∧ (t.slot a).GivesWay stamp v

theorem mem_values_step_iff (schema : Schema) (stamp : Stamp) (t : Tracked) (a : Attribute)
    (c : Change) : (∀ b v, v ∈ (t.step schema stamp (a, c)).entry.values b ↔ v ∈ t.entry.values b) ↔
      ∀ v, v ∈ ((t.slot a).resolve (schema.isSingle a) t.history.created stamp c).slot.held ↔
        v ∈ (t.slot a).held := by
  have own := congrArg Slot.held (slot_step_self schema stamp t a c)
  constructor
  · intro same v
    rw [← own]
    exact same a v
  · intro same b v
    by_cases other : a = b
    · subst other
      exact (iff_of_eq (congrArg (v ∈ ·) own)).trans (same v)
    · have slot := congrArg Slot.held (slot_step_of_ne schema stamp t (p := (a, c)) other)
      exact iff_of_eq (congrArg (v ∈ ·) slot)

/-- An entry whose values are in step with its timelines gives true verdicts. -/
theorem InStep.verdict (h : u.InStep schema initial)
    (few : schema.isSingle a = true → (initial a).length ≤ 1) (accepted : Accepts schema (a, c))
    (stamp : Stamp) :
    ∃ verdict u', u.resolve schema a c stamp = .ok (verdict, u') ∧
      (verdict = .ignored → ((∀ b v, v ∈ u'.entry.values b ↔ v ∈ u.entry.values b) ↔
        ¬u.GivesWay schema a c stamp)) ∧
      (verdict = .applied → ∀ v, c = .add v → v ∈ u'.entry.values a) ∧
      (∀ v, verdict = .appliedAs v →
        u'.entry.values a = [v] ∧ ∃ w ∈ u.entry.values a, w ≠ v) ∧
      (schema.isSingle a = true → ∀ v, c = .add v → v ∈ u.entry.values a →
        (v ∈ u'.entry.values a ↔ ¬u.GivesWay schema a c stamp)) := by
  have read := h.readsBack a few
  have ordered := h.ordered a
  have own : (u.step schema stamp (a, c)).entry.values a =
      ((u.slot a).resolve (schema.isSingle a) u.history.created stamp c).slot.held :=
    congrArg Slot.held (slot_step_self schema stamp u a c)
  refine ⟨_, _, resolve_eq_of_accepts accepted stamp u, ?ignored, ?applied, ?displaces, ?again⟩
  case ignored =>
    intro ignored
    rw [mem_values_step_iff]
    exact read.held_of_ignored ordered few ignored
  case applied =>
    rintro applied v rfl
    rw [own]
    exact Slot.mem_held_of_counted (by simp [applied])
  case displaces =>
    intro v displaces
    rw [own]
    exact read.held_of_appliedAs ordered few displaces
  case again =>
    rintro single v rfl held
    rw [own]
    simp only [single] at read
    have stays := read.mem_held_again_iff ordered (few single) stamp held
    simpa [Slot.resolve, single, GivesWay] using stays

/-- In every state that an entry without changes can reach, the verdict on a further change that is
not rejected is true. After an addition that was applied the value is there, and after one that
displaced a value nothing else is, and there was another value before. A change that was ignored
leaves the values of all attributes as they were, unless it adds the value that holds a
single-valued attribute and that value gives way to an older addition, and only then is the value
not held afterwards. -/
theorem verdict_of_reached (fresh : t.history.IsFresh) {actions : List Action}
    (reached : actions.foldl (act schema) t = u)
    (few : schema.isSingle a = true → (t.entry.values a).length ≤ 1)
    (accepted : Accepts schema (a, c)) (stamp : Stamp) :
    ∃ verdict u', u.resolve schema a c stamp = .ok (verdict, u') ∧
      (verdict = .ignored → ((∀ b v, v ∈ u'.entry.values b ↔ v ∈ u.entry.values b) ↔
        ¬u.GivesWay schema a c stamp)) ∧
      (verdict = .applied → ∀ v, c = .add v → v ∈ u'.entry.values a) ∧
      (∀ v, verdict = .appliedAs v →
        u'.entry.values a = [v] ∧ ∃ w ∈ u.entry.values a, w ≠ v) ∧
      (schema.isSingle a = true → ∀ v, c = .add v → v ∈ u.entry.values a →
        (v ∈ u'.entry.values a ↔ ¬u.GivesWay schema a c stamp)) := by
  have inStep : u.InStep schema t.entry.values :=
    reached ▸ (inStep_start schema fresh).foldl_act actions
  exact inStep.verdict few accepted stamp

/-- An older addition arrives late and displaces the value that was added first. -/
theorem verdict_of_reached_displacing :
    let u := [Action.change ⟨⟨3, 0, 1⟩, ⟨"uid", []⟩, .add [2]⟩].foldl (act ⟨["uid"]⟩)
      (justCreated ⟨1, 0, 1⟩ ⟨"uid", []⟩ [])
    ∃ u', u.resolve ⟨["uid"]⟩ ⟨"uid", []⟩ (.add [1]) ⟨2, 0, 2⟩ = .ok (.appliedAs [1], u') ∧
      u'.entry.values ⟨"uid", []⟩ = [[1]] ∧ ∃ w ∈ u.entry.values ⟨"uid", []⟩, w ≠ [1] := by
  intro u
  obtain ⟨verdict, u', taken, -, -, displaces, -⟩ := verdict_of_reached
    (History.isFresh_ofCreation _) (u := u) (a := ⟨"uid", []⟩) (c := .add [1]) rfl (by decide)
    (by decide) ⟨2, 0, 2⟩
  have same : (u.resolve ⟨["uid"]⟩ ⟨"uid", []⟩ (.add [1]) ⟨2, 0, 2⟩).map (·.1) =
      .ok (.appliedAs [1]) := by decide
  obtain rfl : verdict = .appliedAs [1] := by
    rw [taken] at same
    exact Except.ok.inj same
  exact ⟨u', taken, displaces [1] rfl⟩

/-- An ignored change may take a value away: the value from before is added again after another
addition came, and gives way to it. -/
theorem ignored_takes_value : ¬∀ (t u u' : Tracked) (actions : List Action) (stamp : Stamp)
    (v : Octets), t.history.IsFresh → (∀ s ∈ t.history.created, ∀ x ∈ actions, s < x.stamp) →
    (∀ s ∈ t.history.created, s < stamp) → (t.entry.values ⟨"uid", []⟩).length ≤ 1 →
    actions.foldl (act ⟨["uid"]⟩) t = u → Accepts ⟨["uid"]⟩ (⟨"uid", []⟩, .add v) →
    u.resolve ⟨["uid"]⟩ ⟨"uid", []⟩ (.add v) stamp = .ok (.ignored, u') →
    ∀ b w, w ∈ u'.entry.values b ↔ w ∈ u.entry.values b := by
  intro holds
  let t := justCreated ⟨1, 0, 1⟩ ⟨"uid", []⟩ [[1]]
  let u := t.act ⟨["uid"]⟩ (.change ⟨⟨2, 0, 1⟩, ⟨"uid", []⟩, .add [2]⟩)
  let u' := u.act ⟨["uid"]⟩ (.change ⟨⟨3, 0, 1⟩, ⟨"uid", []⟩, .add [1]⟩)
  have same := holds t u u' [.change ⟨⟨2, 0, 1⟩, ⟨"uid", []⟩, .add [2]⟩] ⟨3, 0, 1⟩ [1]
    (History.isFresh_ofCreation _) (by decide) (by decide) (by decide) rfl (by decide)
    (by decide) ⟨"uid", []⟩ [1]
  have held : [1] ∈ u.entry.values ⟨"uid", []⟩ := by decide
  have lost : [1] ∉ u'.entry.values ⟨"uid", []⟩ := by decide
  exact lost (same.mpr held)

end DirectoryHistory.Tracked
