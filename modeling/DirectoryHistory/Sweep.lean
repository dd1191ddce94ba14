import DirectoryHistory.Store
import DirectoryHistory.Tracked

/-!
# Purging a store

A sweep goes through the store by ascending identifier and puts back the entries whose history held
facts past the retention. A pass that runs out of time stops behind an entry and the next one
resumes there. The horizon follows the highest reading of the wall clock, so it never moves back.
-/

namespace DirectoryHistory

/-- Why an entry was left alone. -/
inductive Sweep.Cause where
  | history (cause : Fact.Malformed)
  | store (cause : Store.NameInUse)
  deriving DecidableEq, Repr

def Sweep.Cause.message : Sweep.Cause → String
  | .history cause => cause.message
  | .store cause => cause.message

/-- What one pass did. -/
structure Sweep.Report where
  scanned : Nat
  purgedEntries : Nat
  purgedFacts : Nat
  skipped : List (EntryId × Sweep.Cause)
  resumeAfter : Option EntryId
  deriving DecidableEq

/-- What a sweep keeps from pass to pass; the delay is in milliseconds. -/
structure Sweep where
  delay : Nat
  latest : UInt64
  cursor : Option EntryId
  purged : Nat
  passes : Nat
  deriving DecidableEq

namespace Sweep

def Report.empty : Report :=
  ⟨0, 0, 0, [], none⟩

def Report.isComplete (r : Report) : Bool :=
  r.resumeAfter.isNone

def start (delay : Nat) : Sweep :=
  ⟨delay, 0, none, 0, 0⟩

def purgeEntry (store : Store) (cutoff : Stamp) (id : EntryId) : Except Cause (Store × Nat) :=
  match store.get? id with
  | none => .ok (store, 0)
  | some e =>
    match History.ofEntry e with
    | .error cause => .error (.history cause)
    | .ok h =>
      let count := h.purgeCount cutoff
      if count = 0 then .ok (store, 0)
      else
        match store.put (e.setHistory (h.purge cutoff).encode) with
        | .error cause => .error (.store cause)
        | .ok store => .ok (store, count)

def visit (cutoff : Stamp) (id : EntryId) (r : Report) (store : Store) : Report × Store :=
  let r := { r with scanned := r.scanned + 1 }
  match purgeEntry store cutoff id with
  | .error cause => ({ r with skipped := r.skipped ++ [(id, cause)] }, store)
  | .ok (store, 0) => (r, store)
  | .ok (store, count) =>
    ({ r with purgedEntries := r.purgedEntries + 1, purgedFacts := r.purgedFacts + count }, store)

/-- Visits the entries `ids`. After each of them but the last `outOfTime` is asked, with the number
of entries visited, whether to stop. -/
def visitAll (cutoff : Stamp) (outOfTime : Nat → Bool) :
    List EntryId → Report → Store → Report × Store
  | [], r, store => (r, store)
  | [id], r, store => visit cutoff id r store
  | id :: next :: rest, r, store =>
    let (r, store) := visit cutoff id r store
    if outOfTime r.scanned then ({ r with resumeAfter := some id }, store)
    else visitAll cutoff outOfTime (next :: rest) r store

def isBehind (cursor : Option EntryId) (id : EntryId) : Bool :=
  cursor.all fun c => compare c id == .lt

def pass (now : UInt64) (outOfTime : Nat → Bool) (s : Sweep) (store : Store) :
    Report × Sweep × Store :=
  let latest := max s.latest now
  let (r, store) := visitAll (History.horizon latest s.delay) outOfTime
    (store.ids.filter (isBehind s.cursor)) .empty store
  (r, { s with
    latest, cursor := r.resumeAfter, purged := s.purged + r.purgedFacts, passes := s.passes + 1 },
    store)

/-- What may reach a sweep that runs in the background. -/
inductive Signal where
  | trigger
  | goOn
  | stop
  deriving DecidableEq, Repr

/-- The passes that signals bring about until one of them stops the sweep. -/
def follow (now : UInt64) (outOfTime : Nat → Bool) : List Signal → Sweep → Store → Sweep × Store
  | .trigger :: rest, s, store =>
    let (_, s, store) := pass now outOfTime s store
    follow now outOfTime rest s store
  | .goOn :: rest, s, store => follow now outOfTime rest s store
  | .stop :: _, s, store => (s, store)
  | [], s, store => (s, store)

/-- In the background a sweep makes its first pass at once. -/
def run (now : UInt64) (outOfTime : Nat → Bool) (signals : List Signal) (s : Sweep)
    (store : Store) : Sweep × Store :=
  follow now outOfTime (.trigger :: signals) s store

end Sweep

end DirectoryHistory
