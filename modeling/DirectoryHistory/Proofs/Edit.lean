import DirectoryHistory.Proofs.Stamp.Order
import DirectoryHistory.Slot
import Mathlib.Data.Finset.Basic
import Mathlib.Data.List.Induction
import Mathlib.Tactic.Tauto

/-!
# Edits of one attribute

What a modify request does to one attribute: its stamp and its changes in their order. Performed on
a set of values, a change has the plain meaning of directory requests; for a single value all that
counts is whether the last change that concerns it adds or deletes it.
-/

namespace DirectoryHistory

namespace Change

/-- Whether the change speaks of `v` by itself. -/
def names (v : Octets) : Change → Bool
  | .add w | .delete w => w == v
  | .clear => false
  | .replace ws => ws.contains v

/-- Whether the change concerns all values. -/
def resets : Change → Bool
  | .add _ | .delete _ => false
  | .clear | .replace _ => true

/-- The values after the change, with the plain meaning of directory requests. -/
def perform (vs : Finset Octets) : Change → Finset Octets
  | .add v => insert v vs
  | .delete v => vs.erase v
  | .clear => ∅
  | .replace ws => ws.toFinset

/-- What the change does to `v`, if it concerns it. -/
def outcome (v : Octets) : Change → Option Sense
  | .add w => if w = v then some .added else none
  | .delete w => if w = v then some .deleted else none
  | .clear => some .deleted
  | .replace ws => if v ∈ ws then some .added else some .deleted

/-- The plain meaning of a change, value by value. -/
theorem mem_perform (v : Octets) (vs : Finset Octets) (c : Change) :
    v ∈ c.perform vs ↔ c.outcome v = some .added ∨ c.outcome v = none ∧ v ∈ vs := by
  cases c with
  | add w | delete w =>
    by_cases h : w = v
    · simp [perform, outcome, h]
    · simp [perform, outcome, h, Ne.symm h]
  | clear => simp [perform, outcome]
  | replace ws => by_cases h : v ∈ ws <;> simp [perform, outcome, h]

theorem outcome_isSome_iff {v : Octets} {c : Change} :
    (c.outcome v).isSome = true ↔ c.names v = true ∨ c.resets = true := by
  cases c with
  | add w | delete w => by_cases h : w = v <;> simp [outcome, names, resets, h]
  | clear => simp [outcome, names, resets]
  | replace ws => by_cases h : v ∈ ws <;> simp [outcome, names, resets, h]

theorem outcome_of_not_names {v : Octets} {c : Change} (h : c.names v = false)
    (hr : c.resets = true) : c.outcome v = some .deleted := by
  cases c <;> simp_all [outcome, names, resets]

theorem outcome_eq_none {v : Octets} {c : Change} (h : c.names v = false)
    (hr : c.resets = false) : c.outcome v = none := by
  rw [← Option.not_isSome_iff_eq_none, outcome_isSome_iff]
  simp [h, hr]

end Change

/-- What one request does to one attribute. -/
structure Edit where
  stamp : Stamp
  changes : List Change
  deriving DecidableEq, Repr

namespace Edit

def names (v : Octets) (e : Edit) : Bool :=
  e.changes.any (·.names v)

def resets (e : Edit) : Bool :=
  e.changes.any Change.resets

/-- The outcome for `v` of the changes in their order: the last one that concerns it decides. -/
def outcomeOf (v : Octets) (cs : List Change) : Option Sense :=
  cs.foldl (fun o c => (c.outcome v).or o) none

def outcome (v : Octets) (e : Edit) : Option Sense :=
  outcomeOf v e.changes

/-- Whether all changes of the edit are one and the same. -/
def IsUniform (e : Edit) : Prop :=
  ∀ c ∈ e.changes, ∀ d ∈ e.changes, c = d

theorem changes_eq_nil {e : Edit} (named : ∀ v, e.names v = false) (resets : e.resets = false) :
    e.changes = [] := by
  refine List.eq_nil_iff_forall_not_mem.mpr fun c hc => ?_
  have unnamed : ∀ v, ¬c.names v = true := fun v => List.any_eq_false.mp (named v) c hc
  have unreset : ¬c.resets = true := List.any_eq_false.mp resets c hc
  cases c with
  | add v | delete v => simpa [Change.names] using unnamed v
  | clear | replace vs => simp [Change.resets] at unreset

@[simp] theorem outcomeOf_nil (v : Octets) : outcomeOf v [] = none := rfl

theorem outcomeOf_snoc (v : Octets) (cs : List Change) (c : Change) :
    outcomeOf v (cs ++ [c]) = (c.outcome v).or (outcomeOf v cs) := by
  simp [outcomeOf]

theorem outcomeOf_append (v : Octets) (cs ds : List Change) :
    outcomeOf v (cs ++ ds) = (outcomeOf v ds).or (outcomeOf v cs) := by
  induction ds using List.reverseRecOn with
  | nil => simp
  | append_singleton ds d ih =>
    rw [← List.append_assoc, outcomeOf_snoc, outcomeOf_snoc, ih, Option.or_assoc]

theorem outcomeOf_isSome_iff {v : Octets} {cs : List Change} :
    (outcomeOf v cs).isSome = true ↔ cs.any (·.names v) = true ∨ cs.any Change.resets = true := by
  induction cs using List.reverseRecOn with
  | nil => simp
  | append_singleton cs c ih =>
    rw [outcomeOf_snoc, Option.isSome_or, Bool.or_eq_true, ih, Change.outcome_isSome_iff]
    simp only [List.any_append, List.any_cons, List.any_nil, Bool.or_false, Bool.or_eq_true]
    tauto

theorem outcomeOf_eq_none_iff {v : Octets} {cs : List Change} : outcomeOf v cs = none ↔
    cs.any (·.names v) = false ∧ cs.any Change.resets = false := by
  rw [← Option.not_isSome_iff_eq_none, outcomeOf_isSome_iff, not_or, Bool.not_eq_true,
    Bool.not_eq_true]

theorem outcomeOf_of_not_names {v : Octets} {cs : List Change}
    (hv : cs.any (·.names v) = false) (hr : cs.any Change.resets = true) :
    outcomeOf v cs = some .deleted := by
  induction cs using List.reverseRecOn with
  | nil => simp at hr
  | append_singleton cs c ih =>
    simp only [List.any_append, List.any_cons, List.any_nil, Bool.or_false, Bool.or_eq_false_iff,
      Bool.or_eq_true] at hv hr
    rw [outcomeOf_snoc]
    cases hc : c.resets with
    | true => simp [Change.outcome_of_not_names hv.2 hc]
    | false => simp [Change.outcome_eq_none hv.2 hc, ih hv.1 (hr.resolve_right (by simp [hc]))]

theorem outcomeOf_eq_of_forall {v : Octets} {cs : List Change} {c : Change} (h : cs ≠ [])
    (same : ∀ d ∈ cs, d = c) : outcomeOf v cs = c.outcome v := by
  induction cs using List.reverseRecOn with
  | nil => exact absurd rfl h
  | append_singleton cs d ih =>
    obtain rfl : d = c := same d (by simp)
    rw [outcomeOf_snoc]
    by_cases hcs : cs = []
    · simp [hcs]
    · rw [ih hcs fun e he => same e (by simp [he]), Option.or_self]

theorem exists_of_outcomeOf_eq_some {v : Octets} {cs : List Change} {x : Sense}
    (h : outcomeOf v cs = some x) : ∃ c ∈ cs, c.outcome v = some x := by
  induction cs using List.reverseRecOn with
  | nil => cases h
  | append_singleton cs c ih =>
    rw [outcomeOf_snoc, Option.or_eq_some_iff] at h
    rcases h with h | ⟨-, h⟩
    · exact ⟨c, by simp, h⟩
    · obtain ⟨d, hd, hx⟩ := ih h
      exact ⟨d, by simp [hd], hx⟩

/-- Changes that agree about a value that one of them names have their common outcome. -/
theorem outcomeOf_eq_of_agree {v : Octets} {cs : List Change} {x : Sense}
    (named : cs.any (·.names v) = true) (agree : ∀ c ∈ cs, ∀ y ∈ c.outcome v, y = x) :
    outcomeOf v cs = some x := by
  have only : ∀ y ∈ outcomeOf v cs, y = x := by
    clear named
    induction cs using List.reverseRecOn with
    | nil => simp
    | append_singleton cs c ih =>
      intro y hy
      rw [outcomeOf_snoc, Option.mem_def, Option.or_eq_some_iff] at hy
      rcases hy with hy | ⟨-, hy⟩
      · exact agree c (by simp) y hy
      · exact ih (fun d hd => agree d (by simp [hd])) y hy
  obtain ⟨y, hy⟩ := Option.isSome_iff_exists.mp (outcomeOf_isSome_iff.mpr (.inl named))
  rw [hy, only y hy]

/-- Performing the changes in their order comes to their outcome for every value. -/
theorem mem_foldl_perform (v : Octets) (vs : Finset Octets) (cs : List Change) :
    v ∈ cs.foldl Change.perform vs ↔
      outcomeOf v cs = some .added ∨ outcomeOf v cs = none ∧ v ∈ vs := by
  induction cs using List.reverseRecOn with
  | nil => simp
  | append_singleton cs c ih =>
    rw [List.foldl_append, List.foldl_cons, List.foldl_nil, Change.mem_perform, ih, outcomeOf_snoc]
    cases c.outcome v <;> simp

end Edit

end DirectoryHistory
