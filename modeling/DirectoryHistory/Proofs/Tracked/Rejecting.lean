import DirectoryHistory.Proofs.Tracked.Requests

/-!
# Requests are rejected whole

A request works on the entry and its history in place. The check before its first step refuses all
that a step would refuse, so that a rejected request has changed nothing, and one that has begun is
never rejected: it goes on to its end or until it is told to stop.
-/

namespace DirectoryHistory.Tracked

/-- Takes the steps in place: the entry and its history stay as they are when the steps end, even if
they end because one of them is rejected. -/
def takeSteps (schema : Schema) (stamp : Stamp) (abandon : Nat → Bool) :
    List (Attribute × Change) → Tally → Tracked → Except Rejection (Ending × Tally) × Tracked
  | [], tally, t => (.ok (.completed, tally), t)
  | (a, c) :: rest, tally, t =>
    if abandon tally.total then (.ok (.abandoned, tally), t)
    else
      match t.resolve schema a c stamp with
      | .error e => (.error e, t)
      | .ok (verdict, t) => takeSteps schema stamp abandon rest (tally.count verdict) t

def takeRequest (schema : Schema) (mods : List Modification) (stamp : Stamp)
    (abandon : Nat → Bool) (t : Tracked) : Except Rejection (Ending × Tally) × Tracked :=
  match validateAll schema mods with
  | .error e => (.error e, t)
  | .ok () => takeSteps schema stamp abandon (requestSteps mods) .zero t

/-- What was done in place, forgotten if the request is rejected. -/
def outcome (taken : Except Rejection (Ending × Tally) × Tracked) :
    Except Rejection (Ending × Tally × Tracked) :=
  taken.1.map fun (ending, tally) => (ending, tally, taken.2)

variable {schema : Schema} {mods : List Modification} {stamp : Stamp} {abandon : Nat → Bool}
  {tally : Tally} {t t' : Tracked}

theorem applySteps_eq_outcome (steps : List (Attribute × Change)) (tally : Tally) (t : Tracked) :
    applySteps schema stamp abandon steps tally t =
      outcome (takeSteps schema stamp abandon steps tally t) := by
  induction steps generalizing tally t with
  | nil => rfl
  | cons p rest ih =>
    obtain ⟨a, c⟩ := p
    rw [applySteps, takeSteps]
    split
    · rfl
    · cases t.resolve schema a c stamp with
      | error e => rfl
      | ok result => exact ih _ _

theorem applyRequest_eq_outcome : t.applyRequest schema mods stamp abandon =
    outcome (t.takeRequest schema mods stamp abandon) := by
  rw [applyRequest, takeRequest]
  cases validateAll schema mods with
  | error e => rfl
  | ok => exact applySteps_eq_outcome _ _ _

theorem exists_of_outcome_eq_ok {taken : Except Rejection (Ending × Tally) × Tracked}
    {ending : Ending} (h : outcome taken = .ok (ending, tally, t')) :
    taken = (.ok (ending, tally), t') := by
  obtain ⟨result, reached⟩ := taken
  cases result with
  | error e => cases h
  | ok result =>
    cases h
    rfl

/-- A request that passes the check is not rejected in its course. -/
theorem takeRequest_of_valid (valid : validateAll schema mods = .ok ()) (stamp : Stamp)
    (abandon : Nat → Bool) (t : Tracked) : ∃ ending tally t',
      t.takeRequest schema mods stamp abandon = (.ok (ending, tally), t') ∧
      ((∀ k, abandon k = false) → ending = .completed) := by
  obtain ⟨ending, tally, n, -, taken, -, -, never⟩ :=
    applyRequest_of_valid (r := ⟨stamp, mods⟩) valid abandon t
  rw [applyRequest_eq_outcome] at taken
  exact ⟨ending, tally, _, exists_of_outcome_eq_ok taken, never⟩

/-- A request is rejected exactly for the reason that the check gives, and nothing is changed then.
-/
theorem takeRequest_eq_error_iff {e : Rejection} :
    t.takeRequest schema mods stamp abandon = (.error e, t') ↔
      t' = t ∧ validateAll schema mods = .error e := by
  cases valid : validateAll schema mods with
  | error cause =>
    rw [takeRequest, valid, Prod.mk.injEq, Except.error.injEq, Except.error.injEq]
    constructor
    · rintro ⟨rfl, rfl⟩
      exact ⟨rfl, rfl⟩
    · rintro ⟨rfl, rfl⟩
      exact ⟨rfl, rfl⟩
  | ok =>
    obtain ⟨ending, tally, reached, taken, -⟩ := takeRequest_of_valid valid stamp abandon t
    simp [taken]

/-- A request with an invalid modification in any place is rejected with the entry and its history
unchanged, for the first of its modifications that is not valid. Any other request is not rejected,
and ends before its last step only if it is told to stop. No step that a valid modification falls
into is rejected by any entry. -/
theorem takeRequest_rejects_iff (schema : Schema) (mods : List Modification) (stamp : Stamp)
    (abandon : Nat → Bool) (t : Tracked) :
    t.applyRequest schema mods stamp abandon =
      outcome (t.takeRequest schema mods stamp abandon) ∧
    (∀ e t', t.takeRequest schema mods stamp abandon = (.error e, t') ↔
      t' = t ∧ ∃ before m after, mods = before ++ m :: after ∧ (∀ n ∈ before, n.IsValid schema) ∧
        m.validate schema = .error e) ∧
    ((∃ e, t.takeRequest schema mods stamp abandon = (.error e, t)) ↔
      ∃ m ∈ mods, ¬m.IsValid schema) ∧
    ((∃ ending tally t', t.takeRequest schema mods stamp abandon = (.ok (ending, tally), t') ∧
      ((∀ k, abandon k = false) → ending = .completed)) ↔ ∀ m ∈ mods, m.IsValid schema) ∧
    ∀ m : Modification, m.IsValid schema → ∀ c ∈ m.changes, ∀ t : Tracked,
      ∃ verdict t', t.resolve schema m.attr c stamp = .ok (verdict, t') := by
  have check : validateAll schema mods = .ok () ↔ ∀ m ∈ mods, m.IsValid schema :=
    validateAll_eq_ok_iff.trans (forall₂_congr fun _ _ => Modification.validate_eq_ok_iff)
  refine ⟨applyRequest_eq_outcome, fun e t' => ?_, ?_, ?_, fun m valid c hc t => ?_⟩
  · rw [takeRequest_eq_error_iff, validateAll_eq_error_iff]
    simp only [Modification.validate_eq_ok_iff]
  · have invalid : (∃ m ∈ mods, ¬m.IsValid schema) ↔ ¬validateAll schema mods = .ok () := by
      rw [check]
      push Not
      rfl
    simp only [takeRequest_eq_error_iff, true_and]
    rw [invalid]
    cases validateAll schema mods <;> simp
  · rw [← check]
    constructor
    · rintro ⟨ending, tally, t', taken, -⟩
      cases valid : validateAll schema mods with
      | ok => rfl
      | error e =>
        have rejected : t.takeRequest schema mods stamp abandon = (.error e, t) :=
          takeRequest_eq_error_iff.mpr ⟨rfl, valid⟩
        cases rejected.symm.trans taken
    · intro valid
      exact takeRequest_of_valid valid stamp abandon t
  · have accepted := accepts_of_validate (Modification.validate_eq_ok_iff.mpr valid) (m.attr, c)
      (List.mem_map_of_mem hc)
    obtain ⟨verdict, taken⟩ := resolve_of_accepts accepted stamp t
    exact ⟨verdict, _, taken⟩

/-- The second modification gives two values to a single-valued attribute, so the first one is not
done either, though on its own any entry would take it. -/
theorem takeRequest_rejects_iff_second :
    let mail : Attribute := ⟨"mail", []⟩
    let uid : Attribute := ⟨"uid", ["lang-en"]⟩
    let first : Modification := ⟨mail, .add, [[1]]⟩
    let second : Modification := ⟨uid, .replace, [[2], [3]]⟩
    let schema : Schema := ⟨["uid"]⟩
    let t : Tracked := ⟨Entry.make .root (.uniform 0), .ofCreation ⟨1, 0, 1⟩⟩
    t.takeRequest schema [first, second, first] ⟨5, 0, 1⟩ (fun _ => true) =
        (.error ⟨uid, .manyValues⟩, t) ∧
      ∃ verdict t', t.resolve schema mail (.add [1]) ⟨5, 0, 1⟩ = .ok (verdict, t') := by
  intro mail uid first second schema t
  obtain ⟨-, rejects, -, -, accepts⟩ :=
    takeRequest_rejects_iff schema [first, second, first] ⟨5, 0, 1⟩ (fun _ => true) t
  refine ⟨(rejects _ _).mpr ⟨rfl, [first], second, [first], rfl, by decide, by decide⟩, ?_⟩
  exact accepts first (by decide) (.add [1]) (by decide) t

end DirectoryHistory.Tracked
