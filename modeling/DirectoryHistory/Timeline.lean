import DirectoryHistory.Octets
import DirectoryHistory.Stamp

/-!
# Timelines

The history of one attribute: when it was last reset as a whole, and the newest mark about each of
its values. Marks that a later reset overrides stay until they are purged, so that replicas that saw
the same changes hold the same timeline, whatever the order of delivery.
-/

namespace DirectoryHistory

/-- Whether a value was added or deleted. -/
inductive Sense where
  | added
  | deleted
  deriving DecidableEq, Repr

/-- What happened to one value, and when. -/
structure Mark where
  value : Octets
  sense : Sense
  stamp : Stamp
  deriving DecidableEq, Repr

/-- Marks are listed by stamp, those of one stamp by value. -/
def Mark.precedes (m n : Mark) : Bool :=
  decide (m.stamp < n.stamp) || (m.stamp == n.stamp && decide (m.value < n.value))

structure Timeline where
  lastReset : Option Stamp
  marks : List Mark
  deriving DecidableEq, Repr

namespace Timeline

def empty : Timeline :=
  ⟨none, []⟩

instance : Inhabited Timeline := ⟨empty⟩

def isEmpty (t : Timeline) : Bool :=
  t.lastReset.isNone && t.marks.isEmpty

def mark? (t : Timeline) (v : Octets) : Option Mark :=
  t.marks.find? (·.value == v)

/-- The newest stamp of the timeline; its marks end with their newest. -/
def latest (t : Timeline) : Option Stamp :=
  Stamp.newest (t.marks.getLast?.map (·.stamp)) t.lastReset

/-- Whether a reset at `s` is newer than the recorded one. -/
def admitsReset (t : Timeline) (s : Stamp) : Bool :=
  s.passes t.lastReset

def reset (t : Timeline) (s : Stamp) : Timeline :=
  if t.admitsReset s then { t with lastReset := some s } else t

/-- Puts `m` before the first mark that does not precede it. -/
def insertMark (m : Mark) : List Mark → List Mark
  | [] => [m]
  | n :: rest => if n.precedes m then n :: insertMark m rest else m :: n :: rest

def put (t : Timeline) (m : Mark) : Timeline :=
  { t with marks := insertMark m (t.marks.filter (·.value != m.value)) }

/-- Whether `m` is newer than the recorded mark about its value. -/
def admits (t : Timeline) (m : Mark) : Bool :=
  m.stamp.passes ((t.mark? m.value).map (·.stamp))

def record (t : Timeline) (m : Mark) : Timeline :=
  if t.admits m then t.put m else t

/-- Whether `m` turns the recorded mark of the same change around. The steps of one request share a
stamp, and a later step may undo an earlier one. -/
def amends (t : Timeline) (m : Mark) : Bool :=
  (t.mark? m.value).any fun n => n.stamp == m.stamp && n.sense != m.sense

def amend (t : Timeline) (m : Mark) : Timeline :=
  if t.amends m then t.put m else t

/-- Whether `m` is news: newer than the recorded mark, or an amendment to it. -/
def isNews (t : Timeline) (m : Mark) : Bool :=
  t.admits m || t.amends m

def note (t : Timeline) (m : Mark) : Timeline :=
  if t.isNews m then t.put m else t

/-- Whether `m` is an addition that no later reset overrides. -/
def upholds (t : Timeline) (m : Mark) : Bool :=
  m.sense == .added && t.lastReset.all (· ≤ m.stamp)

/-- The marks of the values that the timeline says are present. -/
def asserted (t : Timeline) : List Mark :=
  t.marks.filter t.upholds

def asserts (t : Timeline) (v : Octets) : Bool :=
  (t.mark? v).any t.upholds

/-- The last reset, unless a value added at its stamp carries it. -/
def bareReset? (t : Timeline) : Option Stamp :=
  t.lastReset.filter fun s => !t.marks.any fun m => m.stamp == s && m.sense == .added

def size (t : Timeline) : Nat :=
  t.marks.length + (if t.bareReset?.isSome then 1 else 0)

def purge (t : Timeline) (cutoff : Stamp) : Timeline :=
  ⟨t.lastReset.filter (cutoff ≤ ·), t.marks.filter (cutoff ≤ ·.stamp)⟩

end Timeline

end DirectoryHistory
