import DirectoryHistory.Proofs.Slot.Convergence
import DirectoryHistory.Proofs.Tracked.Validity

/-!
# Steps of a request

A step that is not rejected changes the slot of its attribute and nothing else of the entry and its
history. The steps of a valid request are never rejected, so an attribute sees of a request just the
changes to it, in their order, up to the step before which the request is abandoned.
-/

namespace DirectoryHistory

theorem Tally.total_count (tally : Tally) (verdict : Verdict) :
    (tally.count verdict).total = tally.total + 1 := by
  cases verdict <;> simp only [count, total] <;> omega

namespace Tracked

@[simp] theorem timeline_slot (t : Tracked) (a : Attribute) :
    (t.slot a).timeline = t.history.timeline a := rfl

@[simp] theorem renamed_setSlot (t : Tracked) (a : Attribute) (r : Resolved) :
    (t.setSlot a r).history.renamed = t.history.renamed := rfl

@[simp] theorem id_setSlot (t : Tracked) (a : Attribute) (r : Resolved) :
    (t.setSlot a r).entry.id = t.entry.id := by
  simp only [setSlot]
  split <;> rfl

@[simp] theorem name_setSlot (t : Tracked) (a : Attribute) (r : Resolved) :
    (t.setSlot a r).entry.name = t.entry.name := by
  simp only [setSlot]
  split <;> rfl

theorem slot_setSlot_self {t : Tracked} {a : Attribute} {r : Resolved}
    (h : r.settled = false → r.slot.held = (t.slot a).held) : (t.setSlot a r).slot a = r.slot := by
  have held : (t.setSlot a r).entry.values a = r.slot.held := by
    simp only [setSlot]
    split
    · simp
    · next unsettled => exact (h (by simpa using unsettled)).symm
  simp only [slot, held]
  simp [setSlot]

theorem slot_setSlot_of_ne {t : Tracked} {a b : Attribute} (h : b ≠ a) (r : Resolved) :
    (t.setSlot a r).slot b = t.slot b := by
  have held : (t.setSlot a r).entry.values b = t.entry.values b := by
    simp only [setSlot]
    split
    · exact Entry.values_setValues_of_ne _ h _
    · rfl
  simp only [slot, held]
  simp [setSlot, History.timeline_setTimeline_of_ne _ h _]

def step (schema : Schema) (stamp : Stamp) (t : Tracked) (p : Attribute × Change) : Tracked :=
  t.setSlot p.1 ((t.slot p.1).resolve (schema.isSingle p.1) t.history.created stamp p.2)

/-- Whether a step is rejected by no entry. -/
def Accepts (schema : Schema) (p : Attribute × Change) : Prop :=
  checkTarget p.1 = .ok () ∧ p.2.isOvercrowded (schema.isSingle p.1) = false

instance (schema : Schema) : DecidablePred (Accepts schema) := fun _ =>
  inferInstanceAs (Decidable (_ ∧ _))

variable {schema : Schema} {stamp : Stamp}

theorem resolve_eq_of_accepts {a : Attribute} {c : Change} (h : Accepts schema (a, c))
    (stamp : Stamp) (t : Tracked) : t.resolve schema a c stamp =
      .ok (((t.slot a).resolve (schema.isSingle a) t.history.created stamp c).verdict,
        t.step schema stamp (a, c)) := by
  obtain ⟨target, uncrowded⟩ := h
  simp only [resolve, target, uncrowded]
  rfl

theorem resolve_of_accepts {p : Attribute × Change} (h : Accepts schema p) (stamp : Stamp)
    (t : Tracked) :
    ∃ verdict, t.resolve schema p.1 p.2 stamp = .ok (verdict, t.step schema stamp p) :=
  ⟨_, resolve_eq_of_accepts h stamp t⟩

theorem resolve_of_not_accepts {p : Attribute × Change} (h : ¬Accepts schema p) (stamp : Stamp)
    (t : Tracked) : ∃ e, t.resolve schema p.1 p.2 stamp = .error e := by
  simp only [resolve]
  split
  · exact ⟨_, rfl⟩
  · next target =>
    split
    · exact ⟨_, rfl⟩
    · next uncrowded => exact absurd ⟨target, by simpa using uncrowded⟩ h

theorem slot_step_self (schema : Schema) (stamp : Stamp) (t : Tracked) (a : Attribute)
    (c : Change) :
    (t.step schema stamp (a, c)).slot a =
      ((t.slot a).resolve (schema.isSingle a) t.history.created stamp c).slot :=
  slot_setSlot_self Slot.held_of_not_settled

theorem slot_step_of_ne (schema : Schema) (stamp : Stamp) (t : Tracked)
    {p : Attribute × Change} {a : Attribute} (h : p.1 ≠ a) :
    (t.step schema stamp p).slot a = t.slot a :=
  slot_setSlot_of_ne h.symm _

@[simp] theorem created_step (t : Tracked) (p : Attribute × Change) :
    (t.step schema stamp p).history.created = t.history.created := rfl

@[simp] theorem created_foldl_step (steps : List (Attribute × Change)) (t : Tracked) :
    (steps.foldl (step schema stamp) t).history.created = t.history.created := by
  induction steps generalizing t with
  | nil => rfl
  | cons p steps ih => rw [List.foldl_cons, ih, created_step]

@[simp] theorem renamed_foldl_step (steps : List (Attribute × Change)) (t : Tracked) :
    (steps.foldl (step schema stamp) t).history.renamed = t.history.renamed := by
  induction steps generalizing t with
  | nil => rfl
  | cons p steps ih => rw [List.foldl_cons, ih, step, renamed_setSlot]

@[simp] theorem id_foldl_step (steps : List (Attribute × Change)) (t : Tracked) :
    (steps.foldl (step schema stamp) t).entry.id = t.entry.id := by
  induction steps generalizing t with
  | nil => rfl
  | cons p steps ih => rw [List.foldl_cons, ih, step, id_setSlot]

@[simp] theorem name_foldl_step (steps : List (Attribute × Change)) (t : Tracked) :
    (steps.foldl (step schema stamp) t).entry.name = t.entry.name := by
  induction steps generalizing t with
  | nil => rfl
  | cons p steps ih => rw [List.foldl_cons, ih, step, name_setSlot]

def changesTo (a : Attribute) (steps : List (Attribute × Change)) : List Change :=
  (steps.filter (·.1 = a)).map (·.2)

/-- An attribute sees of the steps the changes to it. -/
theorem slot_foldl_step (steps : List (Attribute × Change)) (t : Tracked) (a : Attribute) :
    (steps.foldl (step schema stamp) t).slot a = (t.slot a).resolveEdit (schema.isSingle a)
      t.history.created ⟨stamp, changesTo a steps⟩ := by
  induction steps generalizing t with
  | nil => rfl
  | cons p steps ih =>
    obtain ⟨b, c⟩ := p
    rw [List.foldl_cons, ih, created_step]
    by_cases h : b = a
    · subst h
      rw [slot_step_self]
      simp [Slot.resolveEdit, changesTo]
    · rw [slot_step_of_ne schema stamp t h]
      simp [Slot.resolveEdit, changesTo, h]

theorem accepts_of_validate {m : Modification} (h : m.validate schema = .ok ()) :
    ∀ p ∈ m.changes.map (m.attr, ·), Accepts schema p := by
  have valid := Modification.validate_eq_ok_iff.mp h
  simp only [List.forall_mem_map]
  intro c hc
  refine ⟨valid.target, ?_⟩
  cases c with
  | replace vs =>
    simp only [Modification.changes] at hc
    split at hc
    · simp at hc
    · split at hc <;> simp at hc
    · next kind =>
      obtain rfl : vs = m.values := by simpa using hc
      simpa [Change.isOvercrowded] using valid.few (by simp [kind])
  | _ => rfl

/-- The steps of a valid request are never rejected. -/
theorem accepts_of_validateAll {mods : List Modification} (h : validateAll schema mods = .ok ()) :
    ∀ p ∈ requestSteps mods, Accepts schema p := by
  induction mods with
  | nil => simp [requestSteps]
  | cons m rest ih =>
    simp only [validateAll] at h
    split at h
    · cases h
    · next first =>
      intro p hp
      rw [requestSteps, List.flatMap_cons, List.mem_append] at hp
      exact hp.elim (accepts_of_validate first p) (ih h p)

/-- What is done of a request are its first steps, and all of them unless it is abandoned. -/
theorem applySteps_of_accepts {steps : List (Attribute × Change)}
    (h : ∀ p ∈ steps, Accepts schema p) (stamp : Stamp) (abandon : Nat → Bool) (tally : Tally)
    (t : Tracked) : ∃ ending tally', ∃ n ≤ steps.length,
      applySteps schema stamp abandon steps tally t =
        .ok (ending, tally', (steps.take n).foldl (step schema stamp) t) ∧
      tally'.total = tally.total + n ∧ (ending = .completed → n = steps.length) ∧
      ((∀ k, abandon k = false) → ending = .completed) := by
  induction steps generalizing tally t with
  | nil => exact ⟨.completed, tally, 0, le_rfl, rfl, rfl, fun _ => rfl, fun _ => rfl⟩
  | cons p rest ih =>
    obtain ⟨a, c⟩ := p
    simp only [applySteps]
    split
    · next stop =>
      exact ⟨.abandoned, tally, 0, Nat.zero_le _, rfl, rfl, nofun,
        fun never => by simp [never] at stop⟩
    · obtain ⟨verdict, taken⟩ := resolve_of_accepts (h (a, c) (.head _)) stamp t
      have first := tally.total_count verdict
      obtain ⟨ending, tally', n, hn, rest, total, completed, never⟩ :=
        ih (fun p hp => h p (.tail _ hp)) (tally.count verdict) (t.step schema stamp (a, c))
      simp only [taken]
      refine ⟨ending, tally', n + 1, Nat.succ_le_succ hn, rest, by omega, fun he => ?_, never⟩
      simp [completed he]

end Tracked

end DirectoryHistory
