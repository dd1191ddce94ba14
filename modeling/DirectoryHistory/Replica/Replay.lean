import DirectoryHistory.Replica

/-!
# Replaying updates

A replica takes in the updates of the others. Its clock witnesses the stamp first, whatever becomes
of the update. Entries are addressed by identifier, so an update finds its entry under another name
than the one it was made for.
-/

namespace DirectoryHistory.Replica

/-- Why an update changes nothing. -/
inductive IgnoreReason where
  | duplicate
  | noSuchEntry
  | namingConflict
  | stale
  deriving DecidableEq, Repr

/-- What became of an update. -/
inductive Outcome where
  | applied (tally : Tally)
  | ignored (reason : IgnoreReason)
  deriving DecidableEq, Repr

/-- The name that a replayed creation gives the entry: below its parent, where that is known, and
otherwise as the update says. -/
def addedName (r : Replica) (name : DistinguishedName) (parent : Option EntryId) :
    Except Failure DistinguishedName :=
  match parent.bind r.store.get? with
  | some p =>
    match name.leaf? with
    | some leaf => .ok (p.name.child leaf)
    | none => .ok name
  | none => (r.parentOf name).map fun _ => name

def replayAdd (r : Replica) (now : UInt64) (u : Update) (parent : Option EntryId)
    (attributes : Table Attribute (List Octets)) : Except Failure (Outcome × Replica) :=
  if (r.store.get? u.id).isSome then .ok (.ignored .duplicate, r)
  else
    match r.addedName u.name parent with
    | .error e => .error e
    | .ok name =>
      if (r.store.find? name).isSome then .ok (.ignored .namingConflict, r)
      else (r.create now name u.id attributes u.stamp).map (.applied .zero, ·)

def replayModify (r : Replica) (now : UInt64) (u : Update) (mods : List Modification) :
    Except Failure (Outcome × Replica) :=
  match r.store.get? u.id with
  | none => .ok (.ignored .noSuchEntry, r)
  | some e =>
    match Tracked.ofEntry e with
    | .error cause => .error (.history cause)
    | .ok t =>
      match t.applyRequest r.schema mods u.stamp fun _ => false with
      | .error e => .error (.rejected e)
      | .ok (_, tally, t) => (r.persist now t).map (.applied tally, ·)

/-- The parent that a replayed rename leads to: the superior where it is now, or else under the name
it had, or else the present parent. -/
def renameParent? (r : Replica) (e : Entry) (superior : Option DistinguishedName)
    (superiorId : Option EntryId) : Option DistinguishedName :=
  match superiorId.bind r.store.get? with
  | some p => some p.name
  | none => superior.or e.name.parent?

def replayRename (r : Replica) (now : UInt64) (u : Update) (leaf : RelativeName)
    (deleteOld : Bool) (superior : Option DistinguishedName) (superiorId : Option EntryId) :
    Except Failure (Outcome × Replica) :=
  match r.store.get? u.id with
  | none => .ok (.ignored .noSuchEntry, r)
  | some e =>
    match History.ofEntry e with
    | .error cause => .error (.history cause)
    | .ok h =>
      if h.admitsRename u.stamp then
        match r.renameParent? e superior superiorId with
        | none => .ok (.ignored .noSuchEntry, r)
        | some parent =>
          let target := parent.child leaf
          if r.isTaken e target then .ok (.ignored .namingConflict, r)
          else
            (r.persist now ⟨renameEntry e target leaf deleteOld, h.rename u.stamp⟩).map
              (.applied .zero, ·)
      else .ok (.ignored .stale, r)

def replayDelete (r : Replica) (u : Update) : Outcome × Replica :=
  match r.store.get? u.id with
  | none => (.ignored .noSuchEntry, r)
  | some _ => (.applied .zero, { r with store := r.store.remove u.id })

/-- Takes in an update whose stamp the clock has witnessed. -/
def replayWitnessed (r : Replica) (now : UInt64) (u : Update) :
    Except Failure (Outcome × Replica) :=
  match u.payload with
  | .add parent attributes => r.replayAdd now u parent attributes
  | .modify mods => r.replayModify now u mods
  | .rename leaf deleteOld superior superiorId =>
    r.replayRename now u leaf deleteOld superior superiorId
  | .delete => .ok (r.replayDelete u)

def replay (r : Replica) (now : UInt64) (u : Update) : Except Failure Outcome × Replica :=
  let r := r.witness u.stamp
  match r.replayWitnessed now u with
  | .error e => (.error e, r)
  | .ok (outcome, r) => (.ok outcome, r)

end DirectoryHistory.Replica
