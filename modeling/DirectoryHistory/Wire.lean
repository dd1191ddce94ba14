import DirectoryHistory.Octets

/-!
# The wire format

Numbers are written seven bits an octet, the lowest first, with the high bit on all octets but the
last. Strings and lists are led by their length, optional values and cases of a union by a number.
A reader takes values off the front of the input, and the first problem is its error.
-/

namespace DirectoryHistory.Wire

/-- Why an input cannot be read. -/
inductive Flaw where
  | endOfInput
  | number
  | bool
  | option
  | text
  | value
  deriving DecidableEq, Repr

def Flaw.reason : Flaw → String
  | .endOfInput => "Hit the end of buffer, expected more data"
  | .number => "Found a varint that didn't terminate. Is the usize too big for this platform?"
  | .bool => "Found a bool that wasn't 0 or 1"
  | .option => "Found an Option discriminant that wasn't 0 or 1"
  | .text => "Tried to parse invalid utf-8"
  | .value => "Serde Deserialization Error"

def Flaw.message (e : Flaw) : String :=
  "message serialization error: " ++ e.reason

abbrev Reader := StateT Octets (Except Flaw)

def number (n : Nat) : Octets :=
  if n < 0x80 then [UInt8.ofNat n] else UInt8.ofNat (0x80 + n % 0x80) :: number (n / 0x80)
termination_by n
decreasing_by omega

def bytes (o : Octets) : Octets :=
  number o.length ++ o

def string (s : String) : Octets :=
  bytes (Octets.ofText s)

def bool (b : Bool) : Octets :=
  [if b then 1 else 0]

def option {α : Type} (item : α → Octets) : Option α → Octets
  | none => [0]
  | some a => 1 :: item a

def list {α : Type} (item : α → Octets) (l : List α) : Octets :=
  number l.length ++ l.flatMap item

def readOctet : Reader UInt8 := fun
  | [] => .error .endOfInput
  | b :: rest => .ok (b, rest)

def readOctets (n : Nat) : Reader Octets := fun o =>
  if o.length < n then .error .endOfInput else .ok (o.take n, o.drop n)

/-- Reads a number of at most `left` octets; an octet in the last place is at most `last`. -/
def readNumberFrom (last : Nat) : Nat → Nat → Nat → Reader Nat
  | 0, _, _ => throw .number
  | left + 1, scale, sum => do
    let b ← readOctet
    let sum := sum + b.toNat % 0x80 * scale
    if b.toNat < 0x80 then
      if left = 0 ∧ last < b.toNat then throw .number else return sum
    else readNumberFrom last left (scale * 0x80) sum

def readUInt16 : Reader UInt16 :=
  UInt16.ofNat <$> readNumberFrom 3 3 1 0

def readUInt32 : Reader UInt32 :=
  UInt32.ofNat <$> readNumberFrom 15 5 1 0

def readUInt64 : Reader UInt64 :=
  UInt64.ofNat <$> readNumberFrom 1 10 1 0

def readSize : Reader Nat :=
  readNumberFrom 1 10 1 0

def readBytes : Reader Octets := do
  readOctets (← readSize)

def readString : Reader String := do
  match Octets.text? (← readBytes) with
  | some s => return s
  | none => throw .text

def readBool : Reader Bool := do
  match ← readOctet with
  | 0 => return false
  | 1 => return true
  | _ => throw .bool

def readOption {α : Type} (item : Reader α) : Reader (Option α) := do
  match ← readOctet with
  | 0 => return none
  | 1 => return some (← item)
  | _ => throw .option

def readTimes {α : Type} (item : Reader α) : Nat → Reader (List α)
  | 0 => return []
  | n + 1 => do
    let a ← item
    return a :: (← readTimes item n)

def readList {α : Type} (item : Reader α) : Reader (List α) := do
  readTimes item (← readSize)

/-- Reads text and makes a value of it; text that has no value is a flaw of its own. -/
def readVia {α ε : Type} (parse : String → Except ε α) : Reader α := do
  match parse (← readString) with
  | .ok a => return a
  | .error _ => throw .value

end DirectoryHistory.Wire
