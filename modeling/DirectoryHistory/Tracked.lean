import DirectoryHistory.History
import DirectoryHistory.Modification
import DirectoryHistory.Schema
import DirectoryHistory.Slot

/-!
# Resolution of requests

An entry together with its history takes changes to single attributes and whole modify requests. A
request is checked as a whole before anything is done. It falls into steps, one value at a time, and
may be abandoned between two steps; what is done by then stays, and `committedPrefix` is the request
that asks for just that.
-/

namespace DirectoryHistory

/-- Why a modification is rejected. -/
inductive Rejection.Reason where
  | noName
  | historyAttribute
  | entrySlot
  | manyValues
  | noValue
  deriving DecidableEq, Repr

def Rejection.Reason.text : Rejection.Reason → String
  | .noName => "empty attribute name"
  | .historyAttribute => "the historical attribute is maintained by the server"
  | .entrySlot => "the name is reserved for entry facts"
  | .manyValues => "multiple values for a single-valued attribute"
  | .noValue => "add without a value"

structure Rejection where
  attr : Attribute
  reason : Rejection.Reason
  deriving DecidableEq, Repr

def Rejection.message (r : Rejection) : String :=
  "invalid modification of " ++ r.attr.text ++ ": " ++ r.reason.text

/-- Attributes that no request may name. -/
def checkTarget (a : Attribute) : Except Rejection Unit :=
  if a.name = "" then .error ⟨a, .noName⟩
  else if a.isHistory then .error ⟨a, .historyAttribute⟩
  else if a.name = Attribute.entrySlot then .error ⟨a, .entrySlot⟩
  else .ok ()

namespace Change

/-- Only a replace can give a single-valued attribute several values at once. -/
def isOvercrowded (single : Bool) : Change → Bool
  | .replace vs => single && decide (1 < vs.length)
  | _ => false

end Change

namespace Modification

def validate (schema : Schema) (m : Modification) : Except Rejection Unit :=
  match checkTarget m.attr with
  | .error e => .error e
  | .ok () =>
    let crowded := schema.isSingle m.attr && decide (1 < m.values.length)
    match m.kind with
    | .add =>
      if m.values = [] then .error ⟨m.attr, .noValue⟩
      else if crowded then .error ⟨m.attr, .manyValues⟩
      else .ok ()
    | .replace => if crowded then .error ⟨m.attr, .manyValues⟩ else .ok ()
    | .delete => .ok ()

def changes (m : Modification) : List Change :=
  match m.kind with
  | .add => m.values.map .add
  | .delete => if m.values = [] then [.clear] else m.values.map .delete
  | .replace => [.replace m.values]

end Modification

def validateAll (schema : Schema) : List Modification → Except Rejection Unit
  | [] => .ok ()
  | m :: rest =>
    match m.validate schema with
    | .error e => .error e
    | .ok () => validateAll schema rest

def requestSteps (mods : List Modification) : List (Attribute × Change) :=
  mods.flatMap fun m => m.changes.map (m.attr, ·)

/-- The part of `mods` that its first `committed` steps come from. -/
def committedPrefix : List Modification → Nat → List Modification
  | [], _ => []
  | _, 0 => []
  | m :: rest, committed =>
    let steps := m.changes.length
    if steps ≤ committed then m :: committedPrefix rest (committed - steps)
    else [{ m with values := m.values.take committed }]

/-- How many steps of a request counted and how many lost. -/
structure Tally where
  applied : Nat
  ignored : Nat
  deriving DecidableEq, Repr

namespace Tally

def zero : Tally :=
  ⟨0, 0⟩

def total (t : Tally) : Nat :=
  t.applied + t.ignored

def count (t : Tally) : Verdict → Tally
  | .ignored => { t with ignored := t.ignored + 1 }
  | _ => { t with applied := t.applied + 1 }

end Tally

/-- The message of a request that was abandoned after the steps counted. -/
def Tally.abandonedMessage (t : Tally) : String :=
  "operation abandoned after " ++ Text.decimal t.total ++ " committed change(s)"

/-- Whether a request ran to its end. -/
inductive Ending where
  | completed
  | abandoned
  deriving DecidableEq, Repr

/-- An entry with its history. -/
structure Tracked where
  entry : Entry
  history : History
  deriving DecidableEq

namespace Tracked

def ofEntry (e : Entry) : Except Fact.Malformed Tracked :=
  (History.ofEntry e).map (⟨e, ·⟩)

def slot (t : Tracked) (a : Attribute) : Slot :=
  ⟨t.entry.values a, t.history.timeline a⟩

/-- Puts the slot of `a` back; the entry is written only if the slot was settled. -/
def setSlot (t : Tracked) (a : Attribute) (r : Resolved) : Tracked where
  entry := if r.settled then t.entry.setValues a r.slot.held else t.entry
  history := t.history.setTimeline a r.slot.timeline

def resolve (schema : Schema) (a : Attribute) (c : Change) (stamp : Stamp) (t : Tracked) :
    Except Rejection (Verdict × Tracked) :=
  match checkTarget a with
  | .error e => .error e
  | .ok () =>
    let single := schema.isSingle a
    if c.isOvercrowded single then .error ⟨a, .manyValues⟩
    else
      let r := (t.slot a).resolve single t.history.created stamp c
      .ok (r.verdict, t.setSlot a r)

/-- Takes the steps one after the other. Before each of them `abandon` is asked, with the number of
steps taken, whether to stop. -/
def applySteps (schema : Schema) (stamp : Stamp) (abandon : Nat → Bool) :
    List (Attribute × Change) → Tally → Tracked → Except Rejection (Ending × Tally × Tracked)
  | [], tally, t => .ok (.completed, tally, t)
  | (a, c) :: rest, tally, t =>
    if abandon tally.total then .ok (.abandoned, tally, t)
    else
      match t.resolve schema a c stamp with
      | .error e => .error e
      | .ok (verdict, t) => applySteps schema stamp abandon rest (tally.count verdict) t

def applyRequest (schema : Schema) (mods : List Modification) (stamp : Stamp)
    (abandon : Nat → Bool) (t : Tracked) : Except Rejection (Ending × Tally × Tracked) :=
  match validateAll schema mods with
  | .error e => .error e
  | .ok () => applySteps schema stamp abandon (requestSteps mods) .zero t

/-- The entry with its history written into it, less what is past the retention. -/
def store (t : Tracked) (now : UInt64) (retention : Option Nat) : Entry :=
  t.entry.setHistory (t.history.expire now retention).encode

end Tracked

end DirectoryHistory
