import DirectoryHistory.EntryId

/-!
# Entry locks

The lock table of a replica: the entries that someone holds. Different entries never block each
other.
-/

namespace DirectoryHistory

structure Locks where
  held : List EntryId
  deriving DecidableEq

namespace Locks

def empty : Locks :=
  ⟨[]⟩

def isHeld (l : Locks) (id : EntryId) : Bool :=
  l.held.contains id

def lock? (l : Locks) (id : EntryId) : Option Locks :=
  if l.isHeld id then none else some ⟨id :: l.held⟩

def release (l : Locks) (id : EntryId) : Locks :=
  ⟨l.held.filter (· != id)⟩

def size (l : Locks) : Nat :=
  l.held.length

end Locks

end DirectoryHistory
