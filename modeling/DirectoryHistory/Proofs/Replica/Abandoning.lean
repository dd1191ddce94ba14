import DirectoryHistory.Proofs.Replica.Taking

/-!
# Requests that are abandoned

Before each of its steps a request asks whether to go on. If it is told to stop, it has done exactly
what the part of it does that the steps before come from: the cut may fall inside the values of an
addition or a deletion, and never inside a replace or a delete of the whole attribute. A replica then
stores what this part leaves and tells the others of it, or does nothing if no step was done.
-/

namespace DirectoryHistory

variable {schema : Schema} {mods : List Modification} {abandon : Nat → Bool} {k : Nat}

/-- A valid request is told to stop right before the step that `k` others precede, and not earlier. -/
structure StopsAt (schema : Schema) (mods : List Modification) (abandon : Nat → Bool) (k : Nat) :
    Prop where
  valid : validateAll schema mods = .ok ()
  within : k < (requestSteps mods).length
  told : abandon k = true
  untold : ∀ j < k, abandon j = false

namespace Tracked

variable {t t' : Tracked} {stamp : Stamp} {tally tally' : Tally}

/-- Steps stop at the first check that tells them to, with what the steps before leave. -/
theorem applySteps_eq_abandoned_iff {steps : List (Attribute × Change)}
    (accepted : ∀ p ∈ steps, Accepts schema p) :
    applySteps schema stamp abandon steps tally t = .ok (.abandoned, tally', t') ↔
      ∃ k < steps.length, tally'.total = tally.total + k ∧ abandon tally'.total = true ∧
        (∀ j, tally.total ≤ j → j < tally'.total → abandon j = false) ∧
        applySteps schema stamp (fun _ => false) (steps.take k) tally t =
          .ok (.completed, tally', t') := by
  -- Every step that is done adds one to the tally, so `k` is the place of the first check that stops.
  induction steps generalizing tally t with
  | nil => simp [applySteps]
  | cons p rest ih =>
    obtain ⟨a, c⟩ := p
    obtain ⟨verdict, taken⟩ := resolve_of_accepts (accepted (a, c) (.head _)) stamp t
    have next := tally.total_count verdict
    rw [applySteps]
    split
    · next told =>
      constructor
      · intro stopped
        cases stopped
        exact ⟨0, Nat.succ_pos _, rfl, told, fun j le lt => absurd le lt.not_ge, rfl⟩
      · rintro ⟨k, -, total, -, untold, done⟩
        cases k with
        | zero =>
          cases done
          rfl
        | succ k =>
          have early := untold tally.total le_rfl (by omega)
          rw [told] at early
          cases early
    · next untold =>
      simp only [taken]
      rw [ih fun p hp => accepted p (.tail _ hp)]
      constructor
      · rintro ⟨k, within, total, told, before, done⟩
        refine ⟨k + 1, Nat.succ_lt_succ within, by omega, told, fun j le lt => ?_, ?_⟩
        · rcases le.eq_or_lt with rfl | later
          · simpa using untold
          · exact before j (by omega) lt
        · simpa only [List.take_succ_cons, applySteps, Bool.false_eq_true, if_false, taken] using done
      · rintro ⟨k, within, total, told, before, done⟩
        cases k with
        | zero =>
          cases done
          exact absurd told untold
        | succ k =>
          refine ⟨k, Nat.lt_of_succ_lt_succ within, by omega, told,
            fun j le lt => before j (by omega) lt, ?_⟩
          simpa only [List.take_succ_cons, applySteps, Bool.false_eq_true, if_false, taken] using done

/-- The request is abandoned when `k` of its steps are done, and leaves what the part of it leaves
that they come from. This part is a valid request of its own and falls into just these steps. -/
structure Abandons (t : Tracked) (schema : Schema) (mods : List Modification) (stamp : Stamp)
    (abandon : Nat → Bool) (k : Nat) (tally : Tally) (t' : Tracked) : Prop where
  stops : StopsAt schema mods abandon k
  steps : requestSteps (committedPrefix mods k) = (requestSteps mods).take k
  valid : validateAll schema (committedPrefix mods k) = .ok ()
  counted : tally.total = k
  done : t.applyRequest schema (committedPrefix mods k) stamp (fun _ => false) =
    .ok (.completed, tally, t')

theorem abandons_iff : t.Abandons schema mods stamp abandon k tally t' ↔
    t.applyRequest schema mods stamp abandon = .ok (.abandoned, tally, t') ∧ tally.total = k := by
  cases valid : validateAll schema mods with
  | error e =>
    constructor
    · intro abandons
      cases valid.symm.trans abandons.stops.valid
    · simp [applyRequest, valid]
  | ok =>
    have part := fun k => validateAll_committedPrefix valid k
    simp only [applyRequest, valid]
    rw [applySteps_eq_abandoned_iff (accepts_of_validateAll valid)]
    have zero : Tally.zero.total = 0 := rfl
    simp only [zero, Nat.zero_add, Nat.zero_le, true_implies]
    constructor
    · rintro ⟨⟨-, within, told, untold⟩, -, -, rfl, done⟩
      simp only [applyRequest, part, requestSteps_committedPrefix] at done
      exact ⟨⟨_, within, rfl, told, untold, done⟩, rfl⟩
    · rintro ⟨⟨_, within, rfl, told, untold, done⟩, rfl⟩
      refine ⟨⟨valid, within, told, untold⟩, requestSteps_committedPrefix _ _, part _, rfl, ?_⟩
      simpa only [applyRequest, part, requestSteps_committedPrefix] using done

end Tracked

namespace Replica

variable {r r' : Replica} {now : Readings} {name d : DistinguishedName} {update : Option Update}

/-- What is left of an abandoned request to the entry called `name`, of which `k` steps were done: the
entry is stored as they leave it, and an update tells of them. If there are none, only the clock has
moved. -/
def Leaves (r : Replica) (now : Readings) (name : DistinguishedName) (mods : List Modification)
    (k : Nat) (t t' : Tracked) (update : Option Update) (r' : Replica) : Prop :=
  if k = 0 then update = none ∧ r' = r.tick now.issuing
  else update = some ⟨(r.clock.tick now.issuing).stamp, name, t.entry.id,
      .modify (committedPrefix mods k)⟩ ∧
    r.store.put (t'.store now.storing r.retention) = .ok r'.store ∧
    r' = { r.tick now.issuing with store := r'.store }

variable {t t' : Tracked}

theorem leaves_zero :
    r.Leaves now name mods 0 t t' update r' ↔ update = none ∧ r' = r.tick now.issuing :=
  Iff.of_eq (if_pos rfl)

theorem leaves_of_ne_zero (done : k ≠ 0) : r.Leaves now name mods k t t' update r' ↔
    update = some ⟨(r.clock.tick now.issuing).stamp, name, t.entry.id,
      .modify (committedPrefix mods k)⟩ ∧
      (r.tick now.issuing).persist now.storing t' = .ok r' := by
  rw [Leaves, if_neg done]
  refine and_congr_right fun _ => ⟨?_, of_persist_eq_ok⟩
  rintro ⟨put, only⟩
  have put : (r.tick now.issuing).store.put (t'.store now.storing (r.tick now.issuing).retention) =
    .ok r'.store := put
  simp only [persist, put, ← only]

theorem modify_eq_iff_of_abandoned {tally : Tally} (found : r.findTracked name = .ok t)
    (taken : t.applyRequest r.schema mods (r.clock.tick now.issuing).stamp abandon =
      .ok (.abandoned, tally, t')) :
    r.modify now name mods abandon = (.error (.abandoned d k update), r') ↔
      d = name ∧ tally.total = k ∧ r.Leaves now name mods k t t' update r' := by
  have taken : t.applyRequest (r.tick now.issuing).schema mods (r.tick now.issuing).clock.stamp abandon =
    .ok (.abandoned, tally, t') := taken
  simp only [modify, found, taken]
  split
  · next none =>
    simp only [Prod.mk.injEq, Except.error.injEq, Failure.abandoned.injEq]
    constructor
    · rintro ⟨⟨rfl, rfl, rfl⟩, rfl⟩
      exact ⟨rfl, none, leaves_zero.mpr ⟨rfl, rfl⟩⟩
    · rintro ⟨rfl, rfl, leaves⟩
      rw [none, leaves_zero] at leaves
      obtain ⟨rfl, rfl⟩ := leaves
      exact ⟨⟨rfl, none.symm, rfl⟩, rfl⟩
  · next done =>
    cases written : (r.tick now.issuing).persist now.storing t' with
    | error e =>
      simp only [Prod.mk.injEq, Except.error.injEq]
      constructor
      · rintro ⟨rfl, -⟩
        cases isAbandoned_of_persist written
      · rintro ⟨-, rfl, leaves⟩
        cases written.symm.trans ((leaves_of_ne_zero done).mp leaves).2
    | ok s =>
      simp only [Prod.mk.injEq, Except.error.injEq, Failure.abandoned.injEq]
      constructor
      · rintro ⟨⟨rfl, rfl, rfl⟩, rfl⟩
        exact ⟨rfl, rfl, (leaves_of_ne_zero done).mpr ⟨rfl, written⟩⟩
      · rintro ⟨rfl, rfl, leaves⟩
        obtain ⟨rfl, written'⟩ := (leaves_of_ne_zero done).mp leaves
        exact ⟨⟨rfl, rfl, rfl⟩, Except.ok.inj (written.symm.trans written')⟩

theorem modify_ne_of_not_abandoned (found : r.findTracked name = .ok t)
    (goesOn : ∀ tally t', t.applyRequest r.schema mods (r.clock.tick now.issuing).stamp abandon ≠
      .ok (.abandoned, tally, t')) :
    r.modify now name mods abandon ≠ (.error (.abandoned d k update), r') := by
  cases taken : t.applyRequest (r.tick now.issuing).schema mods (r.tick now.issuing).clock.stamp
      abandon with
  | error e => simp [modify, found, taken]
  | ok result =>
    obtain ⟨ending, tally, t'⟩ := result
    cases ending with
    | abandoned => exact absurd taken (goesOn tally t')
    | completed =>
      simp only [modify, found, taken]
      cases written : (r.tick now.issuing).persist now.storing t' with
      | error e =>
        intro answered
        obtain rfl := Except.error.inj (Prod.ext_iff.mp answered).1
        cases isAbandoned_of_persist written
      | ok s => simp

theorem modify_eq_abandoned_iff :
    r.modify now name mods abandon = (.error (.abandoned d k update), r') ↔
      d = name ∧ ∃ t tally t', r.findTracked name = .ok t ∧
        t.Abandons r.schema mods (r.clock.tick now.issuing).stamp abandon k tally t' ∧
        r.Leaves now name mods k t t' update r' := by
  cases found : r.findTracked name with
  | error e =>
    have other : e ≠ .abandoned d k update := by
      rintro rfl
      cases isAbandoned_of_findTracked found
    simp [modify, found, other]
  | ok t =>
    simp only [Tracked.abandons_iff, Except.ok.injEq, exists_and_left, exists_eq_left']
    constructor
    · intro answered
      by_cases goesOn : ∀ tally t', t.applyRequest r.schema mods (r.clock.tick now.issuing).stamp abandon ≠
          .ok (.abandoned, tally, t')
      · exact absurd answered (modify_ne_of_not_abandoned found goesOn)
      · push Not at goesOn
        obtain ⟨tally, t', taken⟩ := goesOn
        obtain ⟨same, total, leaves⟩ := (modify_eq_iff_of_abandoned found taken).mp answered
        exact ⟨same, tally, t', ⟨taken, total⟩, leaves⟩
    · rintro ⟨same, tally, t', ⟨taken, total⟩, leaves⟩
      exact (modify_eq_iff_of_abandoned found taken).mpr ⟨same, total, leaves⟩

/-- A request is abandoned exactly when it is valid and told to stop right before one of its steps.
The first steps, which are done then, are those of a valid request, the committed part, and the entry
and its history are as that part leaves them when nothing stops it. A replica stores the entry so and
tells of the committed part; if no step was done, it stores nothing and tells of nothing. -/
theorem abandoned_iff_abandons (mods : List Modification) (abandon : Nat → Bool) :
    (∀ (t : Tracked) schema stamp tally t',
      t.applyRequest schema mods stamp abandon = .ok (.abandoned, tally, t') ↔
        t.Abandons schema mods stamp abandon tally.total tally t') ∧
    ∀ (r : Replica) now name d k update r',
      r.modify now name mods abandon = (.error (.abandoned d k update), r') ↔
        d = name ∧ ∃ t tally t', r.findTracked name = .ok t ∧
          t.Abandons r.schema mods (r.clock.tick now.issuing).stamp abandon k tally t' ∧
          r.Leaves now name mods k t t' update r' := by
  constructor
  · intro t schema stamp tally t'
    rw [Tracked.abandons_iff, and_iff_left rfl]
  · intro r now name d k update r'
    exact modify_eq_abandoned_iff

/-- A replace of three values is done and then one of three deletions. The two values that are left are
stored, and the update asks for the replace and the one deletion. -/
theorem abandoned_iff_abandons_within :
    let mail : Attribute := ⟨"mail", []⟩
    let e : Entry := (Entry.make ⟨[⟨"o", "test"⟩]⟩ (.uniform 1)).setValues mail [[4]]
    let r : Replica := make 1 e.name ⟨["uid"]⟩ none
      ⟨Table.empty.insert e.id e, Table.empty.insert e.name.folded e.id⟩
    let mods : List Modification :=
      [⟨mail, .replace, [[1], [2], [3]]⟩, ⟨mail, .delete, [[1], [2], [3]]⟩]
    let part : List Modification := [⟨mail, .replace, [[1], [2], [3]]⟩, ⟨mail, .delete, [[1]]⟩]
    let r' := (r.modify 5 e.name mods fun steps => steps == 2).2
    ∃ t tally t', r.findTracked e.name = .ok t ∧
      t.Abandons ⟨["uid"]⟩ mods ⟨5, 0, 1⟩ (fun steps => steps == 2) 2 tally t' ∧
      t'.entry.values mail = [[2], [3]] ∧
      r.Leaves 5 e.name mods 2 t t' (some ⟨⟨5, 0, 1⟩, e.name, .uniform 1, .modify part⟩) r' := by
  intro mail e r mods part r'
  let u : Update := ⟨⟨5, 0, 1⟩, e.name, .uniform 1, .modify part⟩
  have answered : r.modify 5 e.name mods (fun steps => steps == 2) =
      (.error (.abandoned e.name 2 (some u)), r') := by decide +kernel
  obtain ⟨-, t, tally, t', found, abandons, leaves⟩ :=
    ((abandoned_iff_abandons mods fun steps => steps == 2).2 r 5 e.name e.name 2 (some u) r').mp
      answered
  have read : r.findTracked e.name = .ok ⟨e, .empty⟩ := by decide +kernel
  obtain rfl := Except.ok.inj (read.symm.trans found)
  have values : ((⟨e, .empty⟩ : Tracked).applyRequest ⟨["uid"]⟩ part ⟨5, 0, 1⟩
      fun _ => false).toOption.map (·.2.2.entry.values mail) = some [[2], [3]] := by decide +kernel
  have done : (⟨e, .empty⟩ : Tracked).applyRequest ⟨["uid"]⟩ part ⟨5, 0, 1⟩ (fun _ => false) =
    .ok (.completed, tally, t') := abandons.done
  rw [done] at values
  exact ⟨_, tally, t', found, abandons, Option.some.inj values, leaves⟩

end Replica

end DirectoryHistory
