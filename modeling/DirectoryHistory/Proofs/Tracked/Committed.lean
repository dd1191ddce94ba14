import DirectoryHistory.Proofs.Tracked.Requests

/-!
# Requests that were abandoned

A request that is abandoned has done its first steps. The part of the request that these steps come
from is a request of its own that falls into the same steps, and it is valid if the request is.
-/

namespace DirectoryHistory

variable {schema : Schema} {m : Modification} {mods : List Modification} {n : Nat}

theorem requestSteps_cons (m : Modification) (mods : List Modification) :
    requestSteps (m :: mods) = m.changes.map (m.attr, ·) ++ requestSteps mods :=
  List.flatMap_cons

/-- A modification that is cut short falls into the first of its steps. -/
theorem Modification.changes_take (some : n ≠ 0) (cut : n < m.changes.length) :
    (⟨m.attr, m.kind, m.values.take n⟩ : Modification).changes = m.changes.take n := by
  obtain ⟨attr, kind, values⟩ := m
  cases kind with
  | add => exact List.map_take
  | replace =>
    simp only [changes, List.length_singleton] at cut
    omega
  | delete =>
    cases values with
    | nil =>
      simp only [changes, if_true, List.length_singleton] at cut
      omega
    | cons v rest =>
      obtain ⟨k, rfl⟩ := Nat.exists_eq_succ_of_ne_zero some
      simp [changes, List.map_take]

theorem Modification.validate_take (some : n ≠ 0) (valid : m.validate schema = .ok ()) :
    (⟨m.attr, m.kind, m.values.take n⟩ : Modification).validate schema = .ok () := by
  have valid := validate_eq_ok_iff.mp valid
  rw [validate_eq_ok_iff]
  exact {
    named := valid.named
    user := valid.user
    unreserved := valid.unreserved
    given := fun adds => by simpa [some] using valid.given adds
    few := fun gives single => (List.length_take_le' n m.values).trans (valid.few gives single) }

theorem requestSteps_committedPrefix (mods : List Modification) (n : Nat) :
    requestSteps (committedPrefix mods n) = (requestSteps mods).take n := by
  induction mods generalizing n with
  | nil => simp [committedPrefix, requestSteps]
  | cons m rest ih =>
    cases n with
    | zero => simp [committedPrefix, requestSteps]
    | succ n =>
      simp only [committedPrefix]
      split
      · next whole =>
        rw [requestSteps_cons, requestSteps_cons, ih, List.take_append, List.length_map,
          List.take_of_length_le (l := m.changes.map _) (by simpa using whole)]
      · next cut =>
        have cut := Nat.lt_of_not_le cut
        have empty : requestSteps [] = [] := rfl
        rw [requestSteps_cons, requestSteps_cons, Modification.changes_take n.succ_ne_zero cut,
          empty, List.append_nil, List.map_take, List.take_append_of_le_length]
        simpa using cut.le

theorem validateAll_committedPrefix (valid : validateAll schema mods = .ok ()) (n : Nat) :
    validateAll schema (committedPrefix mods n) = .ok () := by
  induction mods generalizing n with
  | nil => exact valid
  | cons m rest ih =>
    simp only [validateAll] at valid
    split at valid
    · cases valid
    next first =>
    cases n with
    | zero => rfl
    | succ n =>
      simp only [committedPrefix]
      split
      · simp only [validateAll, first]
        exact ih valid _
      · simp only [validateAll, Modification.validate_take n.succ_ne_zero first]

namespace Tracked

variable {t t' : Tracked} {stamp : Stamp} {abandon : Nat → Bool} {tally : Tally}

theorem of_applyRequest_eq_completed
    (h : t.applyRequest schema mods stamp abandon = .ok (.completed, tally, t')) :
    validateAll schema mods = .ok () ∧ t' = t.afterRequest schema ⟨stamp, mods⟩ := by
  cases valid : validateAll schema mods with
  | error e => simp [applyRequest, valid] at h
  | ok =>
    obtain ⟨_, _, n, -, result, -, completed, -⟩ :=
      applyRequest_of_valid (r := ⟨stamp, mods⟩) valid abandon t
    rw [h] at result
    cases result
    refine ⟨rfl, ?_⟩
    rw [afterRequest, completed rfl, List.take_length]

/-- A request that was abandoned has done what the part of it does that its first steps come from. -/
theorem of_applyRequest_eq_abandoned
    (h : t.applyRequest schema mods stamp abandon = .ok (.abandoned, tally, t')) :
    validateAll schema (committedPrefix mods tally.total) = .ok () ∧
      t' = t.afterRequest schema ⟨stamp, committedPrefix mods tally.total⟩ := by
  cases valid : validateAll schema mods with
  | error e => simp [applyRequest, valid] at h
  | ok =>
    obtain ⟨_, _, n, -, result, total, -⟩ :=
      applyRequest_of_valid (r := ⟨stamp, mods⟩) valid abandon t
    rw [h] at result
    cases result
    refine ⟨validateAll_committedPrefix valid _, ?_⟩
    rw [afterRequest, requestSteps_committedPrefix, total]

end Tracked

end DirectoryHistory
