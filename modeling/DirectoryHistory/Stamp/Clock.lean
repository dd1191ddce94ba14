import DirectoryHistory.Stamp

/-!
# The clock of a replica

A clock issues strictly rising stamps for one replica. It follows the wall clock while that moves
ahead of everything issued or witnessed; otherwise it counts the sequence number up, which carries
into the time.
-/

namespace DirectoryHistory

/-- The highest time and sequence number that the replica has issued or witnessed. -/
structure Clock where
  replica : UInt16
  time : UInt64
  sequence : UInt32
  deriving DecidableEq, Repr

namespace Clock

def start (replica : UInt16) : Clock :=
  ⟨replica, 0, 0⟩

/-- Moves to the next time and sequence number when the wall clock reads `now`. -/
def tick (c : Clock) (now : UInt64) : Clock :=
  if c.time < now then { c with time := now, sequence := 0 }
  else if c.sequence.toNat + 1 < UInt32.size then { c with sequence := c.sequence + 1 }
  else { c with time := c.time + 1, sequence := 0 }

def stamp (c : Clock) : Stamp :=
  ⟨c.time, c.sequence, c.replica⟩

/-- The clock after a stamp from elsewhere; the replica that issued it does not matter. -/
def witness (c : Clock) (seen : Stamp) : Clock :=
  if c.time < seen.time ∨ c.time = seen.time ∧ c.sequence < seen.sequence then
    { c with time := seen.time, sequence := seen.sequence }
  else c

end Clock

end DirectoryHistory
