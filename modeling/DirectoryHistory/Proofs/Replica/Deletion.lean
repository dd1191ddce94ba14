import DirectoryHistory.Proofs.Replica.Arrival
import DirectoryHistory.Proofs.Replica.Readable
import DirectoryHistory.Proofs.Replica.Renaming

/-!
# Deleted entries

A replica keeps nothing of an entry that it deletes. Requests and renames that come late do not find
the entry and leave it away. Only a creation brings it back, and it may be the entry's own creation
that is delivered once more: the replica cannot tell it from a first delivery.
-/

namespace DirectoryHistory

variable {id : EntryId} {e : Entry}

theorem Store.IsIndexed.performAll {r : Replica} (h : r.store.IsIndexed)
    (run : List (Readings × Replica.Operation)) : (r.performAll run).store.IsIndexed := by
  induction run generalizing r with
  | nil => exact h
  | cons p rest ih => exact ih (h.perform p.1 p.2)

namespace Replica

/-- The operation deletes the entry `id`, for a client or by an update that is applied. -/
inductive Deletes (r : Replica) (now : Readings) (id : EntryId) : Operation → Prop
  | locally {name u} (done : (r.delete now.issuing name).1 = .ok u) (own : u.id = id) :
    Deletes r now id (.delete name)
  | replayed {u tally} (payload : u.payload = .delete)
      (done : (r.replay now.storing u).1 = .ok (.applied tally)) (own : u.id = id) :
    Deletes r now id (.replay u)

/-- The operation creates the entry `id`, for a client or by an update that is applied. -/
inductive Creates (r : Replica) (now : Readings) (id : EntryId) : Operation → Prop
  | locally {name attributes u} (done : (r.add now name attributes).1 = .ok u) (own : u.id = id) :
    Creates r now id (.add name attributes)
  | replayed {u parent attributes tally} (payload : u.payload = .add parent attributes)
      (done : (r.replay now.storing u).1 = .ok (.applied tally)) (own : u.id = id) :
    Creates r now id (.replay u)

variable {r : Replica} {now : Readings} {op : Operation} {u : Update} {t : Tracked}

theorem Deletes.get?_perform (h : Deletes r now id op) : (r.perform now op).store.get? id = none := by
  cases h with
  | @locally name u done own =>
    simp only [delete] at done
    cases found : r.find name with
    | error e => simp [found] at done
    | ok e =>
      rw [found] at done
      obtain rfl := Except.ok.inj done
      simp [perform, delete, found, Store.get?_remove, ← own]
  | @replayed u tally payload done own =>
    simp only [replay, replayWitnessed, payload, replayDelete] at done
    cases stored : (r.witness u.stamp).store.get? u.id with
    | none => simp [stored] at done
    | some e =>
      simp [perform, replay, replayWitnessed, payload, replayDelete, stored, Store.get?_remove,
        ← own]

theorem Writes.isCreation (writes : Writes r now op t) (indexed : r.store.IsIndexed)
    (absent : r.store.get? t.entry.id = none) : (∃ name attributes, op = .add name attributes) ∨
      ∃ u parent attributes, op = .replay u ∧ u.payload = .add parent attributes := by
  -- What was read from a stored entry is written under its identifier.
  have rewritten : ∀ {id' : EntryId} {e : Entry}, r.store.get? id' = some e → t.entry.id ≠ e.id := by
    intro id' e stored same
    rw [same, indexed.keyed id' e stored, stored] at absent
    cases absent
  cases writes with
  | add ticked => exact .inl ⟨_, _, rfl⟩
  | modify found taken =>
    obtain ⟨e, found, read⟩ := of_findTracked_eq_ok found
    obtain ⟨id, stored⟩ := of_find_eq_ok found
    obtain ⟨-, n, rfl⟩ := Tracked.exists_take_of_applyRequest taken
    refine absurd ?_ (rewritten stored)
    rw [Tracked.id_foldl_step, Tracked.entry_of_ofEntry read]
  | rename found named read =>
    obtain ⟨id, stored⟩ := of_find_eq_ok found
    exact absurd (id_renameEntry ..) (rewritten stored)
  | replayAdd payload named => exact .inr ⟨_, _, _, rfl, payload⟩
  | replayModify payload stored read taken =>
    obtain ⟨-, n, rfl⟩ := Tracked.exists_take_of_applyRequest taken
    refine absurd ?_ (rewritten stored)
    rw [Tracked.id_foldl_step, Tracked.entry_of_ofEntry read]
  | replayRename payload stored read named =>
    exact absurd (id_renameEntry ..) (rewritten stored)

theorem id_of_add_eq_ok {name : DistinguishedName} {attributes : Table Attribute (List Octets)}
    (h : (r.add now name attributes).1 = .ok u) :
    u.id = .generate name (r.clock.tick now.issuing).stamp := by
  simp only [add] at h
  split at h
  · cases h
  split at h
  · cases h
  split at h
  · cases h
  split at h <;> cases h
  rfl

theorem store_add_of_error {name : DistinguishedName} {attributes : Table Attribute (List Octets)}
    {cause : Failure} (h : (r.add now name attributes).1 = .error cause) :
    (r.add now name attributes).2.store = r.store := by
  revert h
  simp only [add]
  split
  · exact fun _ => rfl
  split
  · exact fun _ => rfl
  split
  · exact fun _ => rfl
  split
  · exact fun _ => rfl
  · intro done
    cases done

/-- An entry that was not stored and is stored after an operation was created by it. -/
theorem creates_of_get?_perform (indexed : r.store.IsIndexed) (absent : r.store.get? id = none)
    (present : (r.perform now op).store.get? id = some e) : Creates r now id op := by
  obtain before | ⟨t, writes, own, -⟩ := get?_perform present
  · cases absent.symm.trans before
  obtain ⟨name, attributes, rfl⟩ | ⟨u, parent, attributes, rfl, payload⟩ :=
    writes.isCreation indexed (own ▸ absent)
  · cases done : (r.add now name attributes).1 with
    | error cause =>
      rw [perform, store_add_of_error done, absent] at present
      cases present
    | ok u =>
      cases writes with
      | add ticked =>
        refine .locally done ?_
        rw [id_of_add_eq_ok done, ticked, ← own, id_newEntry]
  · have same : u.id = id := by
      cases writes with
      | replayAdd payload' named => rw [← own, id_newEntry]
      | replayModify payload' => cases payload.symm.trans payload'
      | replayRename payload' => cases payload.symm.trans payload'
    obtain ⟨-, applied, -⟩ | ⟨-, kept⟩ := replay_of_absent indexed (same ▸ absent) now.storing
    · exact .replayed payload applied same
    · rw [perform, kept, absent] at present
      cases present

theorem performAll_append (r : Replica) (run run' : List (Readings × Operation)) :
    r.performAll (run ++ run') = (r.performAll run).performAll run' :=
  List.foldl_append

/-- An entry that was not stored and is stored after a run was created in it, and has been stored
ever since. -/
theorem exists_creates {run : List (Readings × Operation)} (indexed : r.store.IsIndexed)
    (absent : r.store.get? id = none) (present : (r.performAll run).store.get? id = some e) :
    ∃ before now op after, run = before ++ (now, op) :: after ∧
      (r.performAll before).store.get? id = none ∧ Creates (r.performAll before) now id op ∧
      ∀ later, later <+: after →
        ∃ f, (r.performAll (before ++ (now, op) :: later)).store.get? id = some f := by
  induction run using List.reverseRecOn generalizing e with
  | nil => cases absent.symm.trans present
  | append_singleton run p ih =>
    cases held : (r.performAll run).store.get? id with
    | none =>
      refine ⟨run, p.1, p.2, [], rfl, held, ?_, fun later hl => ?_⟩
      · rw [performAll_snoc] at present
        exact creates_of_get?_perform (indexed.performAll run) held present
      · obtain rfl := List.prefix_nil.mp hl
        exact ⟨e, present⟩
    | some f =>
      obtain ⟨before, now, op, after, rfl, away, creates, since⟩ := ih held
      refine ⟨before, now, op, after ++ [p], by simp, away, creates, fun later hl => ?_⟩
      obtain rfl | hl := List.prefix_concat_iff.mp hl
      · exact ⟨e, by simpa using present⟩
      · exact since later hl

/-- A deleted entry is stored again only after a creation, and stored ever since. As long as it is
away, an update about it brings it back if and only if the replica can create it from that update. -/
theorem exists_creates_of_deletes {before after : List (Readings × Operation)}
    (indexed : r.store.IsIndexed) (deletes : Deletes (r.performAll before) now id op) :
    (∀ e, (r.performAll (before ++ (now, op) :: after)).store.get? id = some e →
      ∃ between now' op' rest, after = between ++ (now', op') :: rest ∧
        Creates (r.performAll (before ++ (now, op) :: between)) now' id op' ∧
        ∀ later, later <+: rest → ∃ f, (r.performAll (before ++ (now, op) :: between ++
          (now', op') :: later)).store.get? id = some f) ∧
    ((r.performAll (before ++ (now, op) :: after)).store.get? id = none → ∀ now' u, u.id = id →
      ((∃ e, ((r.performAll (before ++ (now, op) :: after)).replay now' u).2.store.get? id =
          some e) ↔
        (r.performAll (before ++ (now, op) :: after)).CanCreate u)) := by
  have split : ∀ run, r.performAll (before ++ (now, op) :: run) =
      ((r.performAll before).perform now op).performAll run :=
    fun run => performAll_append r before ((now, op) :: run)
  have indexed' : ((r.performAll before).perform now op).store.IsIndexed :=
    (indexed.performAll before).perform now op
  constructor
  · intro e present
    rw [split] at present
    obtain ⟨between, now', op', rest, rfl, -, creates, since⟩ :=
      exists_creates indexed' deletes.get?_perform present
    refine ⟨between, now', op', rest, rfl, (split between).symm ▸ creates, fun later hl => ?_⟩
    rw [List.append_assoc, List.cons_append, split]
    exact since later hl
  · rintro absent now' u rfl
    obtain ⟨can, -, present⟩ | ⟨cannot, kept⟩ :=
      replay_of_absent (indexed.performAll _) absent now'
    · exact iff_of_true present can
    · refine iff_of_false ?_ cannot
      rintro ⟨e, present⟩
      rw [kept, absent] at present
      cases present

/-- A late rename does not bring a deleted entry back. Its creation does. -/
theorem exists_creates_of_deletes_late :
    let creation : Update := ⟨⟨2, 0, 2⟩, ⟨[⟨"cn", "a"⟩, ⟨"o", "test"⟩]⟩, .uniform 1,
      .add (some (.uniform 0)) .empty⟩
    let late : Update := ⟨⟨3, 0, 3⟩, creation.name, .uniform 1, .rename ⟨"cn", "b"⟩ true none none⟩
    let before : List (Readings × Operation) :=
      [(10, .replay ⟨⟨1, 0, 2⟩, ⟨[⟨"o", "test"⟩]⟩, .uniform 0, .add none .empty⟩),
        (20, .replay creation)]
    let r := (make 1 ⟨[⟨"o", "test"⟩]⟩ ⟨["uid"]⟩ none .empty).performAll
      (before ++ (30, .delete creation.name) :: [(40, .replay late)])
    (¬∃ e, (r.replay 50 late).2.store.get? (.uniform 1) = some e) ∧
      ∃ e, (r.replay 50 creation).2.store.get? (.uniform 1) = some e := by
  intro creation late before r
  have deletes : Deletes ((make 1 ⟨[⟨"o", "test"⟩]⟩ ⟨["uid"]⟩ none .empty).performAll before) 30
      (.uniform 1) (.delete creation.name) :=
    .locally (u := ⟨⟨30, 0, 1⟩, creation.name, .uniform 1, .delete⟩) (by decide +kernel) rfl
  have away : r.store.get? (.uniform 1) = none := by decide +kernel
  have finds := (exists_creates_of_deletes Store.isIndexed_empty deletes).2 away 50
  constructor
  · rw [finds late rfl]
    rintro ⟨parent, attributes, name, payload, -⟩
    cases payload
  · rw [finds creation rfl]
    exact ⟨some (.uniform 0), .empty, creation.name, rfl, by decide +kernel, by decide +kernel⟩

/-- The creation of a deleted entry may be delivered once more. -/
theorem get?_replay_of_deletes_creation : ¬∀ (r : Replica) (before after : List (Readings × Operation))
    (now : Readings) (now' : UInt64) (op : Operation) (id : EntryId) (u : Update),
    r.store = .empty →
    Deletes (r.performAll before) now id op → u.id = id →
    (r.performAll (before ++ (now, op) :: after)).store.get? id = none →
    ((r.performAll (before ++ (now, op) :: after)).replay now' u).2.store.get? id = none := by
  intro final
  let creation : Update := ⟨⟨2, 0, 2⟩, ⟨[⟨"cn", "a"⟩, ⟨"o", "test"⟩]⟩, .uniform 1,
    .add (some (.uniform 0)) .empty⟩
  let deletion : Update := ⟨⟨3, 0, 2⟩, creation.name, .uniform 1, .delete⟩
  let r := (make 1 ⟨[⟨"o", "test"⟩]⟩ ⟨["uid"]⟩ none .empty).performAll
    [(10, .replay ⟨⟨1, 0, 2⟩, ⟨[⟨"o", "test"⟩]⟩, .uniform 0, .add none .empty⟩),
      (20, .replay creation)]
  have done : (r.replay 30 deletion).1 = .ok (.applied .zero) := by decide +kernel
  have deletes : Deletes r 30 (.uniform 1) (.replay deletion) := .replayed rfl done rfl
  have gone := final _ _ [] _ 40 _ _ creation rfl deletes rfl (by decide +kernel)
  revert gone
  decide +kernel

end Replica

end DirectoryHistory
