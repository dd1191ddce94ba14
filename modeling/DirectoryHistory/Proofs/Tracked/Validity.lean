import DirectoryHistory.Tracked
import Mathlib.Tactic.MkIffOfInductiveProp

/-!
# Valid requests

What the check of a request asks of its modifications. A request is rejected if one of them is not
valid, and the first that is not gives the reason.
-/

namespace DirectoryHistory

variable {schema : Schema} {m : Modification} {mods : List Modification} {a : Attribute}
  {e : Rejection}

theorem checkTarget_eq_ok_iff : checkTarget a = .ok () ↔
    a.name ≠ "" ∧ a.isHistory = false ∧ a.name ≠ Attribute.entrySlot := by
  simp only [checkTarget]
  split
  · next nameless => simp [nameless]
  · next named =>
    split
    · next kept => simp [kept]
    · next user =>
      split
      · next reserved => simp [reserved]
      · next free => simp [named, user, free]

namespace Modification

/-- The attribute is one that requests may change, an addition has a value, and an attribute that
holds one value at most is not given more. -/
@[mk_iff]
structure IsValid (schema : Schema) (m : Modification) : Prop where
  named : m.attr.name ≠ ""
  user : m.attr.isHistory = false
  unreserved : m.attr.name ≠ Attribute.entrySlot
  given : m.kind = .add → m.values ≠ []
  few : m.kind ≠ .delete → schema.isSingle m.attr = true → m.values.length ≤ 1

instance (schema : Schema) : DecidablePred (IsValid schema) := fun m =>
  decidable_of_iff _ (isValid_iff schema m).symm

theorem IsValid.target (h : m.IsValid schema) : checkTarget m.attr = .ok () :=
  checkTarget_eq_ok_iff.mpr ⟨h.named, h.user, h.unreserved⟩

theorem validate_eq_ok_iff : m.validate schema = .ok () ↔ m.IsValid schema := by
  cases target : checkTarget m.attr with
  | error e =>
    have invalid : ¬m.IsValid schema := fun h => by cases target.symm.trans h.target
    simp [validate, target, invalid]
  | ok =>
    have crowded : (schema.isSingle m.attr && decide (1 < m.values.length)) = true ↔
        ¬(schema.isSingle m.attr = true → m.values.length ≤ 1) := by simp
    have allowed := checkTarget_eq_ok_iff.mp target
    rw [isValid_iff, and_iff_right allowed.1, and_iff_right allowed.2.1,
      and_iff_right allowed.2.2]
    simp only [validate, target, crowded]
    cases kind : m.kind with
    | add => by_cases none : m.values = [] <;> simp [none]
    | replace => simp
    | delete => simp

end Modification

theorem validateAll_eq_ok_iff :
    validateAll schema mods = .ok () ↔ ∀ m ∈ mods, m.validate schema = .ok () := by
  induction mods with
  | nil => simp [validateAll]
  | cons m rest ih =>
    rw [validateAll, List.forall_mem_cons, ← ih]
    cases m.validate schema <;> simp

/-- A request is rejected for the first of its modifications that is not valid. -/
theorem validateAll_eq_error_iff : validateAll schema mods = .error e ↔
    ∃ before m after, mods = before ++ m :: after ∧
      (∀ n ∈ before, n.validate schema = .ok ()) ∧ m.validate schema = .error e := by
  constructor
  · intro rejected
    induction mods with
    | nil => simp [validateAll] at rejected
    | cons m rest ih =>
      cases first : m.validate schema with
      | error cause =>
        simp only [validateAll, first, Except.error.injEq] at rejected
        exact ⟨[], m, rest, rfl, by simp, rejected ▸ first⟩
      | ok =>
        simp only [validateAll, first] at rejected
        obtain ⟨before, n, after, rfl, valid, cause⟩ := ih rejected
        exact ⟨m :: before, n, after, rfl, List.forall_mem_cons.mpr ⟨first, valid⟩, cause⟩
  · rintro ⟨before, m, after, rfl, valid, cause⟩
    induction before with
    | nil => simp [validateAll, cause]
    | cons n rest ih =>
      obtain ⟨first, others⟩ := List.forall_mem_cons.mp valid
      simp only [List.cons_append, validateAll, first]
      exact ih others

end DirectoryHistory
