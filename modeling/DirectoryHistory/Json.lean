import DirectoryHistory.Octets
import DirectoryHistory.Text.Decimal

/-!
# JSON values

A value keeps what its text says: numbers as they were written, and strings by code point, so that
a lone surrogate can be told from a character. Readers of a value decide what they accept. A string
that stands for text has to be well formed, one that stands for octets need not be, and a value
that nobody reads may hold lone surrogates but no bare control character.
-/

namespace DirectoryHistory

/-- The code points of a string, and whether it holds a control character that is not escaped. -/
structure Json.Text where
  points : List Nat
  bare : Bool
  deriving DecidableEq, Repr

inductive Json where
  | null
  | bool (b : Bool)
  | number (chars : List Char)
  | string (t : Json.Text)
  | array (items : List Json)
  | object (members : List (Json.Text × Json))

namespace Json

def isSurrogate (n : Nat) : Bool :=
  decide (0xd800 ≤ n) && decide (n < 0xe000)

/-- The octets of one code point; a lone surrogate is written like any other. -/
def pointOctets (n : Nat) : Octets :=
  if n < 0x80 then [UInt8.ofNat n]
  else if n < 0x800 then [UInt8.ofNat (0xc0 + n / 0x40), UInt8.ofNat (0x80 + n % 0x40)]
  else if n < 0x10000 then
    [UInt8.ofNat (0xe0 + n / 0x1000), UInt8.ofNat (0x80 + n / 0x40 % 0x40),
      UInt8.ofNat (0x80 + n % 0x40)]
  else
    [UInt8.ofNat (0xf0 + n / 0x40000), UInt8.ofNat (0x80 + n / 0x1000 % 0x40),
      UInt8.ofNat (0x80 + n / 0x40 % 0x40), UInt8.ofNat (0x80 + n % 0x40)]

namespace Text

def ofString (s : String) : Text :=
  ⟨s.toList.map Char.toNat, false⟩

def string? (t : Text) : Option String :=
  if t.bare || t.points.any isSurrogate then none
  else some (String.ofList (t.points.map Char.ofNat))

def octets (t : Text) : Octets :=
  t.points.flatMap pointOctets

end Text

def str (s : String) : Json :=
  .string (Text.ofString s)

def nat (n : Nat) : Json :=
  .number (DirectoryHistory.Text.decimal n).toList

def record (members : List (String × Json)) : Json :=
  .object (members.map fun (key, value) => (Text.ofString key, value))

def octetArray (o : Octets) : Json :=
  .array (o.map fun b => nat b.toNat)

def ofOption {α : Type} (f : α → Json) : Option α → Json
  | some a => f a
  | none => .null

mutual

/-- Whether a value may stand where nobody reads it. -/
def isSkippable : Json → Bool
  | .string t => !t.bare
  | .array items => areSkippable items
  | .object members => membersSkippable members
  | _ => true

def areSkippable : List Json → Bool
  | [] => true
  | j :: rest => isSkippable j && areSkippable rest

def membersSkippable : List (Text × Json) → Bool
  | [] => true
  | (key, j) :: rest => !key.bare && isSkippable j && membersSkippable rest

end

def nat? : Json → Option Nat
  | .number chars => DirectoryHistory.Text.readDigits? chars
  | _ => none

/-- A number of at most `bound`. -/
def natUpTo? (bound : Nat) (j : Json) : Option Nat :=
  j.nat?.filter (· ≤ bound)

def string? : Json → Option String
  | .string t => t.string?
  | _ => none

def bool? : Json → Option Bool
  | .bool b => some b
  | _ => none

def array? : Json → Option (List Json)
  | .array items => some items
  | _ => none

/-- Octets are written as a string or as an array of numbers. -/
def octets? : Json → Option Octets
  | .string t => some t.octets
  | .array items => items.mapM fun j => (j.natUpTo? 255).map UInt8.ofNat
  | _ => none

def optional? {α : Type} (f : Json → Option α) : Json → Option (Option α)
  | .null => some none
  | j => (f j).map some

/-- The members of an object with their keys as text; an ill-formed key spoils the whole. -/
def members? : Json → Option (List (String × Json))
  | .object members => members.mapM fun (key, j) => key.string?.map (·, j)
  | _ => none

/-- The one value under `name`: `some none` if there is none, `none` if there are several. -/
def single? (name : String) (members : List (String × Json)) : Option (Option Json) :=
  match members.filter (·.1 == name) with
  | [] => some none
  | [(_, j)] => some (some j)
  | _ => none

/-- The fields of a record in the order of `names`. A record is an object, whose other members are
skipped, or an array of exactly its fields. -/
def fields? (names : List String) : Json → Option (List (Option Json))
  | .array items => if items.length = names.length then some (items.map some) else none
  | j => do
    let members ← j.members?
    if members.all fun (key, j) => names.contains key || j.isSkippable then
      names.mapM (single? · members)
    else none

/-- A case of a union: its name alone, or an object with the name as its only key. -/
def case? : Json → Option (String × Option Json)
  | .string t => t.string?.map (·, none)
  | .object [(key, j)] => key.string?.map (·, some j)
  | _ => none

end Json

end DirectoryHistory
