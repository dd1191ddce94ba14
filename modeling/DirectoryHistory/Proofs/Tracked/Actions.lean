import DirectoryHistory.Proofs.Tracked.Changes
import DirectoryHistory.Proofs.Tracked.Storing

/-!
# Actions on an entry

An entry takes single changes and whole requests, which may be abandoned, in any order and with any
stamps. Whatever it takes, the values of every attribute are those that its timeline and the values
from before call for.
-/

namespace DirectoryHistory

open Timeline

/-- What an entry may be asked to do. -/
inductive Action where
  | change (c : StampedChange)
  | request (r : Request) (abandon : Nat → Bool)

namespace Action

def stamp : Action → Stamp
  | change c => c.stamp
  | request r _ => r.stamp

/-- What is taken of `steps` when `count` steps were taken before. -/
def takenOf (abandon : Nat → Bool) (count : Nat) :
    List (Attribute × Change) → List (Attribute × Change)
  | [] => []
  | p :: rest => if abandon count then [] else p :: takenOf abandon (count + 1) rest

/-- The steps of an action. They do not depend on the entry that takes it. -/
def steps (schema : Schema) : Action → List (Attribute × Change)
  | change c => if Tracked.Accepts schema (c.attr, c.change) then [(c.attr, c.change)] else []
  | request r abandon =>
    if validateAll schema r.modifications = .ok () then
      takenOf abandon 0 (requestSteps r.modifications)
    else []

end Action

namespace Tracked

variable {schema : Schema} {initial : Attribute → List Octets} {t u : Tracked} {stamp : Stamp}

/-- The entry after an action. A rejected one leaves it as it was. -/
def act (schema : Schema) (t : Tracked) : Action → Tracked
  | .change c =>
    match t.resolve schema c.attr c.change c.stamp with
    | .ok (_, t') => t'
    | .error _ => t
  | .request r abandon =>
    match t.applyRequest schema r.modifications r.stamp abandon with
    | .ok (_, _, t') => t'
    | .error _ => t

theorem applySteps_eq {steps : List (Attribute × Change)} (h : ∀ p ∈ steps, Accepts schema p)
    (stamp : Stamp) (abandon : Nat → Bool) (tally : Tally) (t : Tracked) : ∃ ending tally',
      applySteps schema stamp abandon steps tally t = .ok (ending, tally',
        (Action.takenOf abandon tally.total steps).foldl (step schema stamp) t) := by
  induction steps generalizing tally t with
  | nil => exact ⟨_, _, rfl⟩
  | cons p rest ih =>
    obtain ⟨a, c⟩ := p
    simp only [applySteps, Action.takenOf]
    split
    · exact ⟨_, _, rfl⟩
    · obtain ⟨verdict, taken⟩ := resolve_of_accepts (h (a, c) (.head _)) stamp t
      have first := tally.total_count verdict
      obtain ⟨ending, tally', rest⟩ := ih (fun p hp => h p (.tail _ hp)) (tally.count verdict)
        (t.step schema stamp (a, c))
      simp only [taken]
      exact ⟨ending, tally', first ▸ rest⟩

theorem act_eq (schema : Schema) (t : Tracked) (x : Action) :
    t.act schema x = (x.steps schema).foldl (step schema x.stamp) t := by
  cases x with
  | change c =>
    simp only [Action.steps, Action.stamp]
    split
    · next accepted =>
      obtain ⟨verdict, taken⟩ := resolve_of_accepts accepted c.stamp t
      simp only [act, taken]
      rfl
    · next refused =>
      obtain ⟨e, rejected⟩ := resolve_of_not_accepts refused c.stamp t
      simp only [act, rejected]
      rfl
  | request r abandon =>
    simp only [Action.steps, Action.stamp]
    split
    · next valid =>
      obtain ⟨ending, tally, taken⟩ :=
        applySteps_eq (accepts_of_validateAll valid) r.stamp abandon .zero t
      simp only [act, applyRequest, valid, taken]
      rfl
    · next invalid =>
      simp only [act, applyRequest]
      cases rejected : validateAll schema r.modifications with
      | ok => exact absurd rejected invalid
      | error e => rfl

/-- The values of every attribute are in step with its timeline. -/
structure InStep (schema : Schema) (initial : Attribute → List Octets) (t : Tracked) : Prop where
  ordered : t.history.IsOrdered
  readsBack : ∀ a, (schema.isSingle a = true → (initial a).length ≤ 1) →
    (t.slot a).ReadsBack (schema.isSingle a) (initial a)

theorem inStep_of_untouched (schema : Schema) (untouched : ∀ a, t.history.timeline a = .empty) :
    t.InStep schema t.entry.values where
  ordered a := untouched a ▸ ordered_empty
  readsBack a few := (Slot.follows_start (s := t.slot a) (untouched a) few).readsBack

theorem inStep_start (schema : Schema) (fresh : t.history.IsFresh) :
    t.InStep schema t.entry.values :=
  inStep_of_untouched schema fresh.1

theorem InStep.step (h : t.InStep schema initial) (stamp : Stamp) (p : Attribute × Change) :
    (t.step schema stamp p).InStep schema initial where
  ordered := isOrdered_step h.ordered schema stamp p
  readsBack b few := by
    obtain ⟨a, c⟩ := p
    by_cases hb : a = b
    · subst hb
      rw [slot_step_self]
      exact (h.readsBack a few).resolve (h.ordered a) few _ stamp c
    · rw [slot_step_of_ne schema stamp t (p := (a, c)) hb]
      exact h.readsBack b few

theorem InStep.foldl_step (h : t.InStep schema initial) (stamp : Stamp)
    (steps : List (Attribute × Change)) :
    (steps.foldl (Tracked.step schema stamp) t).InStep schema initial := by
  induction steps generalizing t with
  | nil => exact h
  | cons p rest ih => exact ih (h.step stamp p)

theorem InStep.foldl_act (h : t.InStep schema initial) (actions : List Action) :
    (actions.foldl (act schema) t).InStep schema initial := by
  induction actions generalizing t with
  | nil => exact h
  | cons action rest ih =>
    apply ih
    rw [act_eq]
    exact h.foldl_step action.stamp (action.steps schema)

variable {a : Attribute}

/-- A multi-valued attribute holds what is asserted and the untouched first values. -/
theorem InStep.mem_values_iff (h : t.InStep schema initial) (multi : schema.isSingle a = false)
    (v : Octets) : v ∈ t.entry.values a ↔ v ∈ (t.history.timeline a).asserted.map (·.value) ∨
      (t.history.timeline a).lastReset = none ∧ (t.history.timeline a).mark? v = none ∧
        v ∈ initial a := by
  have read := h.readsBack a (by simp [multi])
  rw [multi] at read
  have held : v ∈ t.entry.values a ↔ v ∈ Slot.kept (initial a) (t.history.timeline a) ∨
      (t.history.timeline a).asserts v = true := read v
  rw [held, Slot.mem_kept, (h.ordered a).mem_map_asserted, or_comm]

/-- A single-valued attribute holds the untouched first value or else the first asserted one. -/
theorem InStep.values_eq (h : t.InStep schema initial) (single : schema.isSingle a = true)
    (few : (initial a).length ≤ 1) : t.entry.values a =
      ((Slot.kept (initial a) (t.history.timeline a)).head?.or
        ((t.history.timeline a).asserted.head?.map (·.value))).toList := by
  have read := h.readsBack a fun _ => few
  simp only [single, Slot.ReadsBack, if_true] at read
  exact read

theorem InStep.values_of_untouched (h : t.InStep schema initial)
    (single : schema.isSingle a = true) (few : (initial a).length ≤ 1) {v : Octets}
    (hv : v ∈ initial a) (reset : (t.history.timeline a).lastReset = none)
    (mark : (t.history.timeline a).mark? v = none) : t.entry.values a = [v] := by
  have kept : v ∈ Slot.kept (initial a) (t.history.timeline a) :=
    Slot.mem_kept.mpr ⟨reset, mark, hv⟩
  rw [← Slot.toList_head? (Slot.length_kept_le.trans few), Option.mem_toList] at kept
  simp [h.values_eq single few, Option.mem_def.mp kept]

theorem InStep.values_of_touched (h : t.InStep schema initial)
    (single : schema.isSingle a = true) (few : (initial a).length ≤ 1)
    (touched : ∀ v ∈ initial a, (t.history.timeline a).lastReset = none →
      (t.history.timeline a).mark? v ≠ none) :
    (t.history.timeline a).asserted = [] ∧ t.entry.values a = [] ∨
      ∃ m ∈ (t.history.timeline a).asserted, t.entry.values a = [m.value] ∧
        ∀ n ∈ (t.history.timeline a).asserted, n = m ∨ m.precedes n = true := by
  have gone : Slot.kept (initial a) (t.history.timeline a) = [] := by
    refine List.eq_nil_iff_forall_not_mem.mpr fun v hv => ?_
    obtain ⟨reset, mark, hv⟩ := Slot.mem_kept.mp hv
    exact touched v hv reset mark
  have held := h.values_eq single few
  cases first : (t.history.timeline a).asserted.head? with
  | none => exact .inl ⟨List.head?_eq_none_iff.mp first, by simp [held, gone, first]⟩
  | some m =>
    obtain ⟨member, least⟩ := (h.ordered a).head?_asserted first
    exact .inr ⟨m, member, by simp [held, gone, first], least⟩

/-- In every state that an entry without changes can reach, a multi-valued attribute holds what its
timeline asserts and, until the first reset, the values from before that have no mark. A
single-valued attribute holds the value from before, as long as there was no reset and the value has
no mark, and afterwards the asserted value with the least stamp. -/
theorem values_of_reached (fresh : t.history.IsFresh) {actions : List Action}
    (reached : actions.foldl (act schema) t = u) (a : Attribute) :
    (schema.isSingle a = false → ∀ v, v ∈ u.entry.values a ↔
      v ∈ (u.history.timeline a).asserted.map (·.value) ∨
        (u.history.timeline a).lastReset = none ∧ (u.history.timeline a).mark? v = none ∧
          v ∈ t.entry.values a) ∧
    (schema.isSingle a = true → (t.entry.values a).length ≤ 1 →
      (∀ v ∈ t.entry.values a, (u.history.timeline a).lastReset = none →
        (u.history.timeline a).mark? v = none → u.entry.values a = [v]) ∧
      ((∀ v ∈ t.entry.values a, (u.history.timeline a).lastReset = none →
          (u.history.timeline a).mark? v ≠ none) →
        (u.history.timeline a).asserted = [] ∧ u.entry.values a = [] ∨
        ∃ m ∈ (u.history.timeline a).asserted, u.entry.values a = [m.value] ∧
          ∀ n ∈ (u.history.timeline a).asserted, n = m ∨ m.precedes n = true)) := by
  have h : u.InStep schema t.entry.values := reached ▸ (inStep_start schema fresh).foldl_act actions
  exact ⟨fun multi => h.mem_values_iff multi, fun single few =>
    ⟨fun v hv => h.values_of_untouched single few hv, h.values_of_touched single few⟩⟩

/-- A request is abandoned after its first step, and a newer delete takes one of the two values from
before. The other one stays next to the value that was added. -/
theorem values_of_reached_abandoned :
    let u := [Action.request ⟨⟨2, 0, 2⟩, [⟨⟨"mail", []⟩, .add, [[3], [4]]⟩]⟩ fun steps => steps == 1,
        .change ⟨⟨3, 0, 1⟩, ⟨"mail", []⟩, .delete [1]⟩].foldl (act ⟨["uid"]⟩)
      (justCreated ⟨1, 0, 1⟩ ⟨"mail", []⟩ [[1], [2]])
    ∀ v, v ∈ u.entry.values ⟨"mail", []⟩ ↔ v = [3] ∨ v = [2] := by
  intro u v
  have read := (values_of_reached (History.isFresh_ofCreation _) (u := u) rfl
    ⟨"mail", []⟩).1 (by decide) v
  have asserted : (u.history.timeline ⟨"mail", []⟩).asserted.map (·.value) = [[3]] := by decide
  have reset : (u.history.timeline ⟨"mail", []⟩).lastReset = none := by decide
  have first : (u.history.timeline ⟨"mail", []⟩).mark? [1] ≠ none := by decide
  have second : (u.history.timeline ⟨"mail", []⟩).mark? [2] = none := by decide
  have before : (justCreated ⟨1, 0, 1⟩ ⟨"mail", []⟩ [[1], [2]]).entry.values ⟨"mail", []⟩ =
      [[1], [2]] := by decide
  rw [read, asserted, before, List.mem_singleton]
  refine or_congr_right ⟨fun ⟨_, unmarked, hv⟩ => ?_, ?_⟩
  · rcases List.mem_pair.mp hv with rfl | rfl
    · exact absurd unmarked first
    · rfl
  · rintro rfl
    exact ⟨reset, second, by decide⟩

end Tracked

end DirectoryHistory
