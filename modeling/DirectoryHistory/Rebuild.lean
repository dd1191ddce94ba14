import DirectoryHistory.History
import DirectoryHistory.Schema
import DirectoryHistory.Update

/-!
# Rebuilding updates from history

When the updates that made an entry are gone, its history still yields updates that make an equal
entry elsewhere: its creation, one modify for every stamp of an attribute fact, and the latest
rename. Facts that were overridden are rebuilt too, so that the histories agree. A fact that the
live values contradict is reported as an anomaly.
-/

namespace DirectoryHistory

/-- A disagreement between a history and the values of its entry. -/
inductive Anomaly where
  | noCreation
  | deletedPresent (attr : Attribute) (value : Octets) (stamp : Stamp)
  | addedMissing (attr : Attribute) (value : Octets) (stamp : Stamp)
  deriving DecidableEq, Repr

def Anomaly.message : Anomaly → String
  | .noCreation => "history has no creation fact"
  | .deletedPresent a v s =>
    a.text ++ " value " ++ Text.quoted (Octets.lossyText v) ++ " deleted at " ++ s.text ++
      " is still present"
  | .addedMissing a v s =>
    a.text ++ " value " ++ Text.quoted (Octets.lossyText v) ++ " added at " ++ s.text ++
      " is missing"

/-- Updates in the order of their stamps, and the anomalies met on the way. -/
structure Rebuilt where
  updates : List Update
  anomalies : List Anomaly
  deriving DecidableEq

namespace Rebuilt

/-- The values that were added by the last reset itself. -/
def resetValues (t : Timeline) (s : Stamp) : List Octets :=
  (t.marks.filter fun m => m.stamp == s && m.sense == .added).map (·.value)

def resetModification (a : Attribute) (t : Timeline) (s : Stamp) : Modification :=
  let vs := resetValues t s
  ⟨a, if vs = [] then .delete else .replace, vs⟩

def markModification (a : Attribute) (m : Mark) : Modification :=
  ⟨a, match m.sense with
    | .added => .add
    | .deleted => .delete, [m.value]⟩

/-- The modifications that a timeline stands for, each with its stamp. -/
def modifications (a : Attribute) (t : Timeline) : List (Stamp × Modification) :=
  (t.lastReset.map fun s => (s, resetModification a t s)).toList ++
    (t.marks.filter fun m => !(m.sense == .added && t.lastReset == some m.stamp)).map
      fun m => (m.stamp, markModification a m)

/-- An added value is expected to be held, but of a single-valued attribute only the oldest, and
only if it holds nothing else. -/
def isExpected (single : Bool) (held : List Octets) (t : Timeline) (m : Mark) : Bool :=
  t.asserts m.value &&
    (!single || held.isEmpty && t.asserted.head?.map (·.value) == some m.value)

def markAnomaly? (single : Bool) (held : List Octets) (a : Attribute) (t : Timeline) (m : Mark) :
    Option Anomaly :=
  let live := held.contains m.value
  match m.sense with
  | .added =>
    if isExpected single held t m && !live then some (.addedMissing a m.value m.stamp) else none
  | .deleted => if live then some (.deletedPresent a m.value m.stamp) else none

def anomaliesOf (schema : Schema) (e : Entry) (h : History) : List Anomaly :=
  (if h.created.isNone then [.noCreation] else []) ++
    h.timelines.toList.flatMap fun (a, t) =>
      t.marks.filterMap (markAnomaly? (schema.isSingle a) (e.values a) a t)

/-- Gathers what shares a stamp, in the order given. -/
def byStamp (ms : List (Stamp × Modification)) : Table Stamp (List Modification) :=
  ms.foldl (fun t (s, m) => t.insert s ((t.get? s).getD [] ++ [m])) .empty

def creation? (e : Entry) (parent : Option EntryId) (h : History) : Option Update :=
  h.created.map fun s => ⟨s, e.name, e.id, .add parent e.userAttributes⟩

def modifies (e : Entry) (h : History) : List Update :=
  (byStamp (h.timelines.toList.flatMap fun (a, t) => modifications a t)).toList.map
    fun (s, ms) => ⟨s, e.name, e.id, .modify ms⟩

/-- The root has no name to be renamed to. -/
def rename? (e : Entry) (parent : Option EntryId) (h : History) : Option Update := do
  let s ← h.renamed
  let leaf ← e.name.leaf?
  return ⟨s, e.name, e.id, .rename leaf true e.name.parent? parent⟩

def ofHistory (schema : Schema) (e : Entry) (parent : Option EntryId) (h : History) : Rebuilt where
  updates := sortBy (fun u v => u.stamp ≤ v.stamp)
    ((creation? e parent h).toList ++ modifies e h ++ (rename? e parent h).toList)
  anomalies := anomaliesOf schema e h

def ofEntry (schema : Schema) (e : Entry) (parent : Option EntryId) :
    Except Fact.Malformed Rebuilt :=
  (History.ofEntry e).map (ofHistory schema e parent)

end Rebuilt

end DirectoryHistory
