import DirectoryHistory.Proofs.Replica.Collision
import DirectoryHistory.Proofs.Replica.Course
import DirectoryHistory.Proofs.Replica.Deletion
import DirectoryHistory.Proofs.Replica.Sending

/-!
# States along a run

A property of a replica holds in every state of a run if and only if it holds at the start and no step
breaks it. So it is enough to know which steps do. Of the operations of clients only those can that
send an update, since the others leave the store alone.
-/

namespace DirectoryHistory.Replica

/-- Whether a client asks for the operation, and not another replica. -/
def Operation.isOfClient : Operation → Bool
  | .replay _ => false
  | _ => true

variable {r r' : Replica} {now : Readings} {op : Operation} {run : List (Readings × Operation)}
variable {P : Replica → Prop} {u : Update}

theorem schema_perform (r : Replica) (now : Readings) (op : Operation) :
    (r.perform now op).schema = r.schema := by
  rw [perform_eq]

@[simp] theorem schema_performAll (r : Replica) (run : List (Readings × Operation)) :
    (r.performAll run).schema = r.schema := by
  induction run using List.reverseRecOn with
  | nil => rfl
  | append_singleton run p ih => rw [performAll_snoc, schema_perform, ih]

/-- What each step keeps exactly if it `Fits` holds along a run exactly if all its steps do. -/
theorem forall_prefix_iff (Fits : Replica → Readings → Operation → Prop) (start : P r)
    (step : ∀ before now op, before ++ [(now, op)] <+: run → P (r.performAll before) →
      (P ((r.performAll before).perform now op) ↔ Fits (r.performAll before) now op)) :
    (∀ before, before <+: run → P (r.performAll before)) ↔
      ∀ before now op, before ++ [(now, op)] <+: run → Fits (r.performAll before) now op := by
  constructor
  · intro along before now op within
    have first := along before ((List.prefix_append _ _).trans within)
    have second := along _ within
    rw [performAll_snoc] at second
    exact (step before now op within first).mp second
  · intro fits before within
    induction before using List.reverseRecOn with
    | nil => exact start
    | append_singleton before p ih =>
      have first := ih ((List.prefix_append _ _).trans within)
      rw [performAll_snoc]
      exact (step before p.1 p.2 within first).mpr (fits before p.1 p.2 within)

theorem forall_prefix_snoc_iff {F : List (Readings × Operation) → Readings → Operation → Prop} :
    (∀ before now op, before ++ [(now, op)] <+: run → F before now op) ↔
      ∀ i : Fin run.length, F (run.take i) run[i].1 run[i].2 := by
  constructor
  · intro all i
    refine all _ _ _ ?_
    rw [Prod.mk.eta, Fin.getElem_fin, List.take_append_getElem]
    exact List.take_prefix ..
  · rintro each before now op ⟨after, rfl⟩
    simpa using each ⟨before.length, by simp⟩

theorem store_modify_of_silent {name : DistinguishedName} {mods : List Modification}
    {abandon : Nat → Bool} (silent : sent? (r.modify now name mods abandon).1 = none) :
    (r.modify now name mods abandon).2.store = r.store := by
  revert silent
  simp only [modify]
  split
  · exact fun _ => rfl
  split
  · exact fun _ => rfl
  · split
    · exact fun _ => rfl
    · simp [sent?]
  · split
    · exact fun _ => rfl
    split
    · exact fun _ => rfl
    · simp [sent?]

theorem store_rename_of_silent {name : DistinguishedName} {leaf : RelativeName} {deleteOld : Bool}
    {superior : Option DistinguishedName}
    (silent : sent? (r.rename now name leaf deleteOld superior).1 = none) :
    (r.rename now name leaf deleteOld superior).2.store = r.store := by
  revert silent
  simp only [rename]
  split
  · exact fun _ => rfl
  split
  · exact fun _ => rfl
  split
  · exact fun _ => rfl
  split
  · exact fun _ => rfl
  split
  · exact fun _ => rfl
  split
  · exact fun _ => rfl
  · simp [sent?]

theorem store_delete_of_silent {now : UInt64} {name : DistinguishedName}
    (silent : sent? (r.delete now name).1 = none) : (r.delete now name).2.store = r.store := by
  revert silent
  simp only [delete]
  split
  · exact fun _ => rfl
  · simp [sent?]

theorem store_perform_of_silent (client : op.isOfClient = true)
    (silent : (r.answer now op).sent? = none) : (r.perform now op).store = r.store := by
  cases op with
  | add name attributes =>
    cases result : (r.add now name attributes).1 with
    | error cause => exact store_add_of_error result
    | ok u => simp [answer, Answer.sent?, result, sent?] at silent
  | modify name mods abandon => exact store_modify_of_silent silent
  | rename name leaf deleteOld superior => exact store_rename_of_silent silent
  | delete name => exact store_delete_of_silent silent
  | replay u => cases client

/-- Along a run of clients, only the operations that send an update matter. -/
theorem forall_prefix_iff_of_client (Fits : Replica → Readings → Operation → Update → Prop)
    (clients : ∀ p ∈ run, p.2.isOfClient = true) (start : P r)
    (congr : ∀ r r', r'.store = r.store → r'.base = r.base → r'.schema = r.schema → P r → P r')
    (step : ∀ before now op u, before ++ [(now, op)] <+: run → P (r.performAll before) →
      Sends (r.performAll before) now op u ((r.performAll before).perform now op) →
      (P ((r.performAll before).perform now op) ↔ Fits (r.performAll before) now op u)) :
    (∀ before, before <+: run → P (r.performAll before)) ↔
      ∀ before now op u, before ++ [(now, op)] <+: run →
        ((r.performAll before).answer now op).sent? = some u →
        Fits (r.performAll before) now op u := by
  rw [forall_prefix_iff (fun r now op => ∀ u, (r.answer now op).sent? = some u → Fits r now op u)
    start ?_]
  · exact ⟨fun all before now op u within sent => all before now op within u sent,
      fun all before now op within u sent => all before now op u within sent⟩
  intro before now op within holds
  cases sent : ((r.performAll before).answer now op).sent? with
  | some u => simpa using step before now op u within holds (sends_of_sent sent)
  | none =>
    have client := clients (now, op) (within.subset (by simp))
    have kept := store_perform_of_silent client sent
    exact iff_of_true (congr _ _ kept (base_perform ..) (schema_perform ..) holds) nofun

end DirectoryHistory.Replica
