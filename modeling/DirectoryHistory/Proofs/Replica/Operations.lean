import DirectoryHistory.Proofs.Replica.Holding

/-!
# Operations of a replica

An operation leaves the store alone, removes one entry, or writes one entry with its history. Which
entry it writes depends on what the replica holds and on the operation alone.
-/

namespace DirectoryHistory

namespace Store

variable {s : Store} {e : Entry}

theorem get?_remove (s : Store) (id id' : EntryId) :
    (s.remove id).get? id' = if id' = id then none else s.get? id' := by
  simp only [remove]
  split
  · split
    · next same => exact same ▸ Table.get?_erase_self _ _
    · next other => exact Table.get?_erase_of_ne _ other
  · next absent =>
    split
    · next same => exact same ▸ absent
    · rfl

theorem get?_of_find? {name : DistinguishedName} (h : s.find? name = some e) :
    ∃ id, s.get? id = some e := by
  obtain ⟨id, -, stored⟩ := Option.bind_eq_some_iff.mp h
  exact ⟨id, stored⟩

end Store

namespace Replica

/-- What a replica may be asked to do. -/
inductive Operation where
  | add (name : DistinguishedName) (attributes : Table Attribute (List Octets))
  | modify (name : DistinguishedName) (mods : List Modification) (abandon : Nat → Bool)
  | rename (name : DistinguishedName) (leaf : RelativeName) (deleteOld : Bool)
      (superior : Option DistinguishedName)
  | delete (name : DistinguishedName)
  | replay (u : Update)

/-- The replica after an operation in the course of which the wall clock shows `now`. One that fails may
have moved the clock. -/
def perform (r : Replica) (now : Readings) : Operation → Replica
  | .add name attributes => (r.add now name attributes).2
  | .modify name mods abandon => (r.modify now name mods abandon).2
  | .rename name leaf deleteOld superior => (r.rename now name leaf deleteOld superior).2
  | .delete name => (r.delete now.issuing name).2
  | .replay u => (r.replay now.storing u).2

/-- The entry with its history that an operation writes, if it writes one. -/
inductive Writes (r : Replica) (now : Readings) : Operation → Tracked → Prop
  | add {name attributes stamp} (ticked : (r.clock.tick now.issuing).stamp = stamp) :
    Writes r now (.add name attributes)
      ⟨newEntry name (.generate name stamp) attributes, .ofCreation stamp⟩
  | modify {name mods abandon t ending tally t'} (found : r.findTracked name = .ok t)
      (taken : t.applyRequest r.schema mods (r.clock.tick now.issuing).stamp abandon =
        .ok (ending, tally, t')) :
    Writes r now (.modify name mods abandon) t'
  | rename {name leaf deleteOld superior e target h} (found : r.find name = .ok e)
      (named : targetName name leaf superior = .ok target) (read : History.ofEntry e = .ok h) :
    Writes r now (.rename name leaf deleteOld superior)
      ⟨renameEntry e target leaf deleteOld, h.rename (r.clock.tick now.issuing).stamp⟩
  | replayAdd {u parent attributes name} (payload : u.payload = .add parent attributes)
      (named : r.addedName u.name parent = .ok name) :
    Writes r now (.replay u) ⟨newEntry name u.id attributes, .ofCreation u.stamp⟩
  | replayModify {u mods e t ending tally t'} (payload : u.payload = .modify mods)
      (stored : r.store.get? u.id = some e) (read : Tracked.ofEntry e = .ok t)
      (taken : t.applyRequest r.schema mods u.stamp (fun _ => false) = .ok (ending, tally, t')) :
    Writes r now (.replay u) t'
  | replayRename {u leaf deleteOld superior superiorId e parent h}
      (payload : u.payload = .rename leaf deleteOld superior superiorId)
      (stored : r.store.get? u.id = some e) (read : History.ofEntry e = .ok h)
      (named : r.renameParent? e superior superiorId = some parent) :
    Writes r now (.replay u)
      ⟨renameEntry e (parent.child leaf) leaf deleteOld, h.rename u.stamp⟩

/-- The update that a request sends to other replicas. One that was abandoned half-way sends what it
has done. -/
def sent? : Except Failure Update → Option Update
  | .ok u => some u
  | .error (.abandoned _ _ u) => u
  | .error _ => none

def Failure.isAbandoned : Failure → Bool
  | .abandoned .. => true
  | _ => false

/-- Whether nothing is left of what failed. An abandoned request leaves the steps that it took. -/
def Failure.isClean : Failure → Bool
  | .abandoned _ committed _ => committed == 0
  | _ => true

/-- What a replica answers to an operation: a client hears of the update that tells the others of
it, and an update has an outcome. -/
inductive Answer where
  | told (result : Except Failure Update)
  | replayed (result : Except Failure Outcome)

/-- Whether the answer declines the operation, and does not say that anything of it was done. -/
def Answer.declines : Answer → Bool
  | .told (.ok _) => false
  | .told (.error e) => e.isClean
  | .replayed (.ok (.applied _)) => false
  | .replayed (.ok (.ignored _)) => true
  | .replayed (.error e) => e.isClean

/-- The answer of a replica to an operation while the wall clock shows `now`. -/
def answer (r : Replica) (now : Readings) : Operation → Answer
  | .add name attributes => .told (r.add now name attributes).1
  | .modify name mods abandon => .told (r.modify now name mods abandon).1
  | .rename name leaf deleteOld superior => .told (r.rename now name leaf deleteOld superior).1
  | .delete name => .told (r.delete now.issuing name).1
  | .replay u => .replayed (r.replay now.storing u).1

/-- The clock moves to the stamp of an operation of a client, and witnesses that of an update. -/
def clockAt (r : Replica) (now : Readings) : Operation → Clock
  | .replay u => r.clock.witness u.stamp
  | _ => r.clock.tick now.issuing

/-- What the answer to an operation says of the replica after it. -/
inductive Answered (r : Replica) (now : Readings) (op : Operation) : Answer → Replica → Prop
  | declined {answer : Answer} {r' : Replica} (declines : answer.declines = true)
    (only : r' = { r with clock := r'.clock })
    (moved : r'.clock = r.clock ∨ r'.clock = r.clockAt now op) : Answered r now op answer r'
  | removed {answer : Answer} {r' : Replica} (done : answer.declines = false) (id : EntryId)
    (only : r' = { r with clock := r.clockAt now op, store := r.store.remove id }) :
    Answered r now op answer r'
  | wrote {answer : Answer} {r' : Replica} (done : answer.declines = false) (t : Tracked)
    (writes : Writes r now op t) (put : r.store.put (t.store now.storing r.retention) = .ok r'.store)
    (only : r' = { r with clock := r.clockAt now op, store := r'.store }) :
    Answered r now op answer r'

variable {r r' : Replica} {now : Readings} {t : Tracked} {op : Operation} {answer : Answer}

theorem answered_of_persist (done : answer.declines = false) (writes : Writes r now op t)
    (h : ({ r with clock := r.clockAt now op } : Replica).persist now.storing t = .ok r') :
    Answered r now op answer r' := by
  obtain ⟨put, only⟩ := of_persist_eq_ok h
  exact .wrote done t writes put only

theorem Failure.isClean_of_not_isAbandoned {e : Failure} (h : e.isAbandoned = false) :
    e.isClean = true := by
  cases e <;> first | rfl | cases h

theorem sent?_of_not_isAbandoned {e : Failure} (h : e.isAbandoned = false) :
    sent? (.error e) = none := by
  cases e <;> first | rfl | cases h

/-- Only a name that is in use keeps an entry from being written. -/
theorem isAbandoned_of_persist {e : Failure} (h : r.persist now.storing t = .error e) :
    e.isAbandoned = false := by
  simp only [persist] at h
  split at h
  · cases h
    rfl
  · cases h

theorem isAbandoned_of_find {name : DistinguishedName} {e : Failure} (h : r.find name = .error e) :
    e.isAbandoned = false := by
  simp only [find] at h
  split at h
  · cases h
  · cases h
    rfl

theorem isAbandoned_of_findTracked {name : DistinguishedName} {e : Failure}
    (h : r.findTracked name = .error e) : e.isAbandoned = false := by
  simp only [findTracked] at h
  split at h
  · next missing =>
    cases h
    exact isAbandoned_of_find missing
  · next e' _ =>
    cases read : Tracked.ofEntry e' <;> rw [read] at h <;> cases h
    rfl

theorem isAbandoned_of_checkNewAttributes {attributes : Table Attribute (List Octets)} {e : Failure}
    (h : checkNewAttributes attributes = .error e) : e.isAbandoned = false := by
  simp only [checkNewAttributes] at h
  split at h
  · cases h
    rfl
  split at h <;> cases h
  rfl

theorem isAbandoned_of_parentOf {name : DistinguishedName} {e : Failure}
    (h : r.parentOf name = .error e) : e.isAbandoned = false := by
  simp only [parentOf] at h
  split at h
  · cases h
  split at h
  · split at h
    · cases h
    · cases h
      rfl
  · cases h
    rfl

theorem isAbandoned_of_addedName {name : DistinguishedName} {parent : Option EntryId} {e : Failure}
    (h : r.addedName name parent = .error e) : e.isAbandoned = false := by
  simp only [addedName] at h
  split at h
  · split at h <;> cases h
  · cases place : r.parentOf name <;> rw [place] at h <;> cases h
    exact isAbandoned_of_parentOf place

theorem isAbandoned_of_findSuperior {superior : Option DistinguishedName} {e : Failure}
    (h : r.findSuperior superior = .error e) : e.isAbandoned = false := by
  simp only [findSuperior] at h
  split at h
  · cases h
  · split at h <;> cases h
    rfl

theorem isAbandoned_of_targetName {name : DistinguishedName} {leaf : RelativeName}
    {superior : Option DistinguishedName} {e : Failure}
    (h : targetName name leaf superior = .error e) : e.isAbandoned = false := by
  simp only [targetName] at h
  split at h
  · cases h
    rfl
  · split at h <;> cases h
    rfl

theorem answered_of_failed {e : Failure} (plain : e.isAbandoned = false)
    (only : r' = { r with clock := r'.clock })
    (moved : r'.clock = r.clock ∨ r'.clock = r.clockAt now op) :
    Answered r now op (.told (.error e)) r' :=
  .declined (Failure.isClean_of_not_isAbandoned plain) only moved

theorem answered_add (r : Replica) (now : Readings) (name : DistinguishedName)
    (attributes : Table Attribute (List Octets)) : Answered r now (.add name attributes)
      (.told (r.add now name attributes).1) (r.add now name attributes).2 := by
  simp only [add]
  split
  · next forbidden =>
    exact answered_of_failed (isAbandoned_of_checkNewAttributes forbidden) rfl (.inl rfl)
  split
  · next unplaced => exact answered_of_failed (isAbandoned_of_parentOf unplaced) rfl (.inl rfl)
  split
  · exact .declined rfl rfl (.inr rfl)
  split
  · next refused => exact answered_of_failed (isAbandoned_of_persist refused) rfl (.inr rfl)
  · next written => exact answered_of_persist rfl (.add rfl) written

theorem answered_modify (r : Replica) (now : Readings) (name : DistinguishedName)
    (mods : List Modification) (abandon : Nat → Bool) : Answered r now (.modify name mods abandon)
      (.told (r.modify now name mods abandon).1) (r.modify now name mods abandon).2 := by
  simp only [modify]
  split
  · next missing => exact answered_of_failed (isAbandoned_of_findTracked missing) rfl (.inl rfl)
  next t found =>
  split
  · exact .declined rfl rfl (.inr rfl)
  · next taken =>
    split
    · next refused => exact answered_of_failed (isAbandoned_of_persist refused) rfl (.inr rfl)
    · next written => exact answered_of_persist rfl (.modify found taken) written
  · next tally _ taken =>
    split
    · exact .declined rfl rfl (.inr rfl)
    next some =>
    split
    · next refused => exact answered_of_failed (isAbandoned_of_persist refused) rfl (.inr rfl)
    · next written =>
      exact answered_of_persist (beq_eq_false_iff_ne.mpr some) (.modify found taken) written

theorem answered_rename (r : Replica) (now : Readings) (name : DistinguishedName)
    (leaf : RelativeName) (deleteOld : Bool) (superior : Option DistinguishedName) :
    Answered r now (.rename name leaf deleteOld superior)
      (.told (r.rename now name leaf deleteOld superior).1)
      (r.rename now name leaf deleteOld superior).2 := by
  simp only [rename]
  split
  · next missing =>
    exact answered_of_failed (isAbandoned_of_findSuperior missing) rfl (.inl rfl)
  split
  · next missing => exact answered_of_failed (isAbandoned_of_find missing) rfl (.inl rfl)
  next found =>
  split
  · next nameless => exact answered_of_failed (isAbandoned_of_targetName nameless) rfl (.inl rfl)
  next named =>
  split
  · exact .declined rfl rfl (.inl rfl)
  split
  · exact .declined rfl rfl (.inl rfl)
  next read =>
  split
  · next refused => exact answered_of_failed (isAbandoned_of_persist refused) rfl (.inr rfl)
  · next written => exact answered_of_persist rfl (.rename found named read) written

theorem answered_delete (r : Replica) (now : Readings) (name : DistinguishedName) :
    Answered r now (.delete name) (.told (r.delete now.issuing name).1) (r.delete now.issuing name).2 := by
  simp only [delete]
  split
  · next missing => exact answered_of_failed (isAbandoned_of_find missing) rfl (.inl rfl)
  · exact .removed rfl _ rfl

/-- The result of taking in the update says what became of the replica. -/
def IsAnswered (r : Replica) (now : Readings) (u : Update) :
    Except Failure (Outcome × Replica) → Prop
  | .error e => e.isClean = true
  | .ok (outcome, r') => Answered r now (.replay u) (.replayed (.ok outcome)) r'

variable {u : Update}

theorem isAnswered_ignored (r : Replica) (now : Readings) (u : Update) (reason : IgnoreReason) :
    r.IsAnswered now u (.ok (.ignored reason, r.witness u.stamp)) :=
  .declined rfl rfl (.inr rfl)

theorem isAnswered_map_persist {tally : Tally} (writes : Writes r now (.replay u) t) :
    r.IsAnswered now u (((r.witness u.stamp).persist now.storing t).map (Outcome.applied tally, ·)) := by
  cases written : (r.witness u.stamp).persist now.storing t with
  | error e => exact Failure.isClean_of_not_isAbandoned (isAbandoned_of_persist written)
  | ok r' => exact answered_of_persist rfl writes written

theorem isAnswered_replayAdd {parent : Option EntryId}
    {attributes : Table Attribute (List Octets)} (payload : u.payload = .add parent attributes) :
    r.IsAnswered now u ((r.witness u.stamp).replayAdd now.storing u parent attributes) := by
  simp only [replayAdd]
  split
  · exact r.isAnswered_ignored now u _
  split
  · next unplaced => exact Failure.isClean_of_not_isAbandoned (isAbandoned_of_addedName unplaced)
  next named =>
  split
  · exact r.isAnswered_ignored now u _
  · exact isAnswered_map_persist (.replayAdd payload named)

theorem isAnswered_replayModify {mods : List Modification} (payload : u.payload = .modify mods) :
    r.IsAnswered now u ((r.witness u.stamp).replayModify now.storing u mods) := by
  simp only [replayModify]
  split
  · exact r.isAnswered_ignored now u _
  next stored =>
  split
  · rfl
  next read =>
  split
  · rfl
  · next taken => exact isAnswered_map_persist (.replayModify payload stored read taken)

theorem isAnswered_replayRename {leaf : RelativeName} {deleteOld : Bool}
    {superior : Option DistinguishedName} {superiorId : Option EntryId}
    (payload : u.payload = .rename leaf deleteOld superior superiorId) : r.IsAnswered now u
      ((r.witness u.stamp).replayRename now.storing u leaf deleteOld superior superiorId) := by
  simp only [replayRename]
  split
  · exact r.isAnswered_ignored now u _
  next stored =>
  split
  · rfl
  next read =>
  split
  · split
    · exact r.isAnswered_ignored now u _
    next named =>
    split
    · exact r.isAnswered_ignored now u _
    · exact isAnswered_map_persist (.replayRename payload stored read named)
  · exact r.isAnswered_ignored now u _

theorem isAnswered_replayDelete (r : Replica) (now : Readings) (u : Update) :
    r.IsAnswered now u (.ok ((r.witness u.stamp).replayDelete u)) := by
  simp only [replayDelete]
  split
  · exact r.isAnswered_ignored now u _
  · exact .removed rfl u.id rfl

theorem isAnswered_replayWitnessed (r : Replica) (now : Readings) (u : Update) :
    r.IsAnswered now u ((r.witness u.stamp).replayWitnessed now.storing u) := by
  simp only [replayWitnessed]
  split
  · next payload => exact isAnswered_replayAdd payload
  · next payload => exact isAnswered_replayModify payload
  · next payload => exact isAnswered_replayRename payload
  · exact r.isAnswered_replayDelete now u

theorem answered_replay (r : Replica) (now : Readings) (u : Update) :
    Answered r now (.replay u) (.replayed (r.replay now.storing u).1) (r.replay now.storing u).2 := by
  have each := r.isAnswered_replayWitnessed now u
  simp only [replay]
  split
  · next failed =>
    rw [failed] at each
    exact .declined each rfl (.inr rfl)
  · next taken =>
    rw [taken] at each
    exact each

/-- An update that is not applied leaves the store alone. -/
theorem store_replay_of_not_applied {now : UInt64}
    (declined : ∀ tally, (r.replay now u).1 ≠ .ok (.applied tally)) :
    (r.replay now u).2.store = r.store := by
  have each : r.IsAnswered (.still now) u ((r.witness u.stamp).replayWitnessed now u) :=
    r.isAnswered_replayWitnessed (.still now) u
  revert declined
  simp only [replay]
  split
  · exact fun _ => rfl
  · next outcome r' taken =>
    intro declined
    rw [taken] at each
    cases outcome with
    | applied tally => exact absurd rfl (declined tally)
    | ignored reason =>
      cases each with
      | declined declines only moved => rw [only]
      | removed done => cases done
      | wrote done => cases done

/-- The answer to an operation tells whether the store was changed. -/
theorem answered_perform (r : Replica) (now : Readings) (op : Operation) :
    Answered r now op (r.answer now op) (r.perform now op) := by
  cases op with
  | add name attributes => exact answered_add r now name attributes
  | modify name mods abandon => exact answered_modify r now name mods abandon
  | rename name leaf deleteOld superior => exact answered_rename r now name leaf deleteOld superior
  | delete name => exact answered_delete r now name
  | replay u => exact answered_replay r now u

/-- What becomes of a replica by an operation. -/
inductive Effect (r : Replica) (now : Readings) (op : Operation) (r' : Replica) : Prop
  | kept (only : r' = { r with clock := r'.clock })
  | removed (id : EntryId) (only : r' = { r with clock := r'.clock, store := r.store.remove id })
  | wrote (t : Tracked) (writes : Writes r now op t)
      (put : r.store.put (t.store now.storing r.retention) = .ok r'.store)
      (only : r' = { r with clock := r'.clock, store := r'.store })

theorem effect_perform (r : Replica) (now : Readings) (op : Operation) :
    Effect r now op (r.perform now op) := by
  cases r.answered_perform now op with
  | declined declines only moved => exact .kept only
  | removed done id only => exact .removed id (by rw [only])
  | wrote done t writes put only => exact .wrote t writes put (by rw [only])

/-- An operation changes nothing but the clock and the store. -/
theorem perform_eq (r : Replica) (now : Readings) (op : Operation) : r.perform now op =
    { r with clock := (r.perform now op).clock, store := (r.perform now op).store } := by
  cases effect_perform r now op with
  | kept only | removed id only | wrote t writes put only => rw [only]

end Replica

end DirectoryHistory
