import DirectoryHistory.Entry
import DirectoryHistory.Timeline

/-!
# Resolution of one attribute

A slot is one attribute of an entry: the values it holds and its timeline. Every change is merged
into the timeline and the held values are read back from it, so that slots that saw the same
changes agree, whatever the order of arrival.

* A replace or a delete of the whole attribute counts unless a newer one is recorded.
* A delete of a value counts if it is newer than the mark about that value.
* An add counts unless a newer mark about the value or a newer reset is recorded.
* Of the adds that count, the oldest holds a single-valued attribute. The others stay recorded, and
  one of them takes over when the holder is deleted.
-/

namespace DirectoryHistory

/-- A change to one attribute, one value at a time but for `replace`. -/
inductive Change where
  | add (value : Octets)
  | delete (value : Octets)
  | clear
  | replace (values : List Octets)
  deriving DecidableEq, Repr

/-- What became of a change: it counted, it lost to what is recorded, or it counted by displacing
the value that a single-valued attribute held. -/
inductive Verdict where
  | applied
  | ignored
  | appliedAs (value : Octets)
  deriving DecidableEq, Repr

structure Slot where
  held : List Octets
  timeline : Timeline
  deriving DecidableEq, Repr

/-- A slot after a change. It is settled when its held values were read back from the timeline, and
otherwise they were left alone. -/
structure Resolved where
  verdict : Verdict
  slot : Slot
  settled : Bool
  deriving DecidableEq, Repr

namespace Slot

/-- Held values without a mark. They are older than all that is recorded and stay until a reset. -/
def unrecorded (s : Slot) : List Octets :=
  s.held.filter fun v => (s.timeline.mark? v).isNone

/-- An unrecorded value keeps its place, or else the oldest value that the timeline asserts. -/
def settleSingle (s : Slot) : Slot :=
  { s with held := (s.unrecorded.head?.or (s.timeline.asserted.head?.map (·.value))).toList }

/-- The unrecorded values and all that the timeline asserts. -/
def settleMulti (s : Slot) : Slot :=
  { s with held := Entry.distinct (s.unrecorded ++ s.timeline.asserted.map (·.value)) }

def settle (single : Bool) (s : Slot) : Slot :=
  if single then s.settleSingle else s.settleMulti

/-- The values that earlier steps of the change at `stamp` added and that are not among `vs`. -/
def superseded (t : Timeline) (stamp : Stamp) (vs : List Octets) : List Octets :=
  (t.marks.filter fun m => m.stamp == stamp && m.sense == .added && !vs.contains m.value).map
    (·.value)

/-- Turns the values that the same change added before into deleted ones, then adds `vs`. The flag
tells whether anything was news. -/
def noteReplace (t : Timeline) (stamp : Stamp) (vs : List Octets) : Timeline × Bool :=
  let gone := superseded t stamp vs
  vs.foldl (fun (t, news) v => (t.note ⟨v, .added, stamp⟩, news || t.isNews ⟨v, .added, stamp⟩))
    (gone.foldl (fun t v => t.amend ⟨v, .deleted, stamp⟩) t, !gone.isEmpty)

/-- A replace that a newer reset overrides leaves only marks behind. -/
def replace (single : Bool) (stamp : Stamp) (vs : List Octets) (s : Slot) : Resolved :=
  let raised := s.timeline.admitsReset stamp
  let t := s.timeline.reset stamp
  if t.lastReset = some stamp then
    let held := if raised then s.held.filter fun v => (t.mark? v).isSome else s.held
    let (t, news) := noteReplace t stamp vs
    ⟨if raised || news then .applied else .ignored, settle single ⟨held, t⟩, true⟩
  else
    ⟨.ignored, { s with timeline := vs.foldl (fun t v => t.record ⟨v, .added, stamp⟩) t }, false⟩

/-- A delete from before the creation of the entry is dropped unless the value has a mark. -/
def delete (single : Bool) (created : Option Stamp) (stamp : Stamp) (v : Octets) (s : Slot) :
    Resolved :=
  let m : Mark := ⟨v, .deleted, stamp⟩
  if created.any (stamp ≤ ·) && (s.timeline.mark? v).isNone then ⟨.ignored, s, false⟩
  else if s.timeline.isNews m then
    let s : Slot := { s with timeline := s.timeline.note m }
    ⟨if s.timeline.lastReset.any (stamp < ·) then .ignored else .applied,
      if single then s.settleSingle else { s with held := s.held.filter (· != v) }, true⟩
  else ⟨.ignored, s, false⟩

def addMulti (stamp : Stamp) (v : Octets) (s : Slot) : Resolved :=
  let m : Mark := ⟨v, .added, stamp⟩
  if s.timeline.isNews m then
    let t := s.timeline.note m
    if t.asserts v then
      ⟨.applied, ⟨if s.held.contains v then s.held else s.held ++ [v], t⟩, true⟩
    else ⟨.ignored, ⟨s.held.filter (· != v), t⟩, true⟩
  else ⟨.ignored, s, false⟩

/-- The verdict on adding `v`, from what a single-valued attribute held before and holds now. -/
def verdictOfHolder (v : Octets) (before now : Option Octets) : Verdict :=
  match now with
  | none => .ignored
  | some w =>
    if w ≠ v then .ignored
    else if before.any (· != v) then .appliedAs v
    else .applied

def addSingle (stamp : Stamp) (v : Octets) (s : Slot) : Resolved :=
  let m : Mark := ⟨v, .added, stamp⟩
  if s.timeline.isNews m then
    let s' := settleSingle { s with timeline := s.timeline.note m }
    ⟨verdictOfHolder v s.held.head? s'.held.head?, s', true⟩
  else ⟨.ignored, s, false⟩

/-- Merges one change made at `stamp` into a slot of an entry created at `created`. -/
def resolve (single : Bool) (created : Option Stamp) (stamp : Stamp) (c : Change) (s : Slot) :
    Resolved :=
  match c with
  | .add v => if single then s.addSingle stamp v else s.addMulti stamp v
  | .delete v => s.delete single created stamp v
  | .clear => s.replace single stamp []
  | .replace vs => s.replace single stamp vs

end Slot

end DirectoryHistory
