import DirectoryHistory.Json
import DirectoryHistory.Text.Hex

/-!
# Reading JSON text

The grammar of JSON over the list of remaining characters. The fuel of the readers bounds how many
values and separators they take, and the length of the text is always enough.
-/

namespace DirectoryHistory.Json

def isBlank (c : Char) : Bool :=
  c == ' ' || c == '\n' || c == '\t' || c == '\r'

def skipBlank (cs : List Char) : List Char :=
  cs.dropWhile isBlank

/-- A leading and a trailing surrogate that follow each other are one character. -/
def joinSurrogates : List Nat → List Nat
  | [] => []
  | [n] => [n]
  | m :: n :: rest =>
    if 0xd800 ≤ m ∧ m < 0xdc00 ∧ 0xdc00 ≤ n ∧ n < 0xe000 then
      (0x10000 + (m - 0xd800) * 0x400 + (n - 0xdc00)) :: joinSurrogates rest
    else m :: joinSurrogates (n :: rest)

def unescaped? (c : Char) : Option Nat :=
  if c = '"' ∨ c = '\\' ∨ c = '/' then some c.toNat
  else if c = 'b' then some 8
  else if c = 'f' then some 12
  else if c = 'n' then some 10
  else if c = 'r' then some 13
  else if c = 't' then some 9
  else none

/-- The rest of a string behind its opening quote; `read` holds its code points in reverse. -/
def readString (read : List Nat) (bare : Bool) : List Char → Option (Text × List Char)
  | [] => none
  | '"' :: rest => some (⟨joinSurrogates read.reverse, bare⟩, rest)
  | '\\' :: 'u' :: a :: b :: c :: d :: rest =>
    match DirectoryHistory.Text.readHex? [a, b, c, d] with
    | some n => readString (n :: read) bare rest
    | none => none
  | '\\' :: c :: rest =>
    match unescaped? c with
    | some n => readString (n :: read) bare rest
    | none => none
  | c :: rest => readString (c.toNat :: read) (bare || decide (c.toNat < 0x20)) rest

def takeDigits (cs : List Char) : List Char × List Char :=
  cs.span DirectoryHistory.Text.isDecimalDigit

def readFraction : List Char → Option (List Char × List Char)
  | '.' :: rest =>
    match takeDigits rest with
    | ([], _) => none
    | (digits, rest) => some ('.' :: digits, rest)
  | cs => some ([], cs)

def readExponentDigits (start cs : List Char) : Option (List Char × List Char) :=
  match takeDigits cs with
  | ([], _) => none
  | (digits, rest) => some (start ++ digits, rest)

def readExponent : List Char → Option (List Char × List Char)
  | c :: sign :: rest =>
    if c = 'e' ∨ c = 'E' then
      if sign = '+' ∨ sign = '-' then readExponentDigits [c, sign] rest
      else readExponentDigits [c] (sign :: rest)
    else some ([], c :: sign :: rest)
  | [c] => if c = 'e' ∨ c = 'E' then none else some ([], [c])
  | [] => some ([], [])

/-- A number without its sign; only zero itself begins with a zero. -/
def readUnsigned (cs : List Char) : Option (List Char × List Char) := do
  let (whole, rest) := takeDigits cs
  if whole = [] ∨ (whole.head? = some '0' ∧ whole.length ≠ 1) then failure
  let (fraction, rest) ← readFraction rest
  let (exponent, rest) ← readExponent rest
  return (whole ++ fraction ++ exponent, rest)

def readNumber : List Char → Option (List Char × List Char)
  | '-' :: rest => (readUnsigned rest).map fun (digits, rest) => ('-' :: digits, rest)
  | cs => readUnsigned cs

mutual

def readValue : Nat → List Char → Option (Json × List Char)
  | 0, _ => none
  | fuel + 1, cs =>
    match skipBlank cs with
    | 'n' :: 'u' :: 'l' :: 'l' :: rest => some (.null, rest)
    | 't' :: 'r' :: 'u' :: 'e' :: rest => some (.bool true, rest)
    | 'f' :: 'a' :: 'l' :: 's' :: 'e' :: rest => some (.bool false, rest)
    | '"' :: rest => (readString [] false rest).map fun (t, rest) => (.string t, rest)
    | '[' :: rest =>
      match skipBlank rest with
      | ']' :: rest => some (.array [], rest)
      | rest => readItems fuel [] rest
    | '\x7b' :: rest =>
      match skipBlank rest with
      | '\x7d' :: rest => some (.object [], rest)
      | rest => readMembers fuel [] rest
    | cs => (readNumber cs).map fun (chars, rest) => (.number chars, rest)

/-- The rest of an array from an item on; `read` holds the items before in reverse. -/
def readItems : Nat → List Json → List Char → Option (Json × List Char)
  | 0, _, _ => none
  | fuel + 1, read, cs => do
    let (j, rest) ← readValue fuel cs
    match skipBlank rest with
    | ',' :: rest => readItems fuel (j :: read) rest
    | ']' :: rest => return (.array (j :: read).reverse, rest)
    | _ => failure

/-- The rest of an object from a key on; `read` holds the members before in reverse. -/
def readMembers : Nat → List (Text × Json) → List Char → Option (Json × List Char)
  | 0, _, _ => none
  | fuel + 1, read, cs =>
    match skipBlank cs with
    | '"' :: rest => do
      let (key, rest) ← readString [] false rest
      match skipBlank rest with
      | ':' :: rest =>
        let (j, rest) ← readValue fuel rest
        match skipBlank rest with
        | ',' :: rest => readMembers fuel ((key, j) :: read) rest
        | '\x7d' :: rest => return (.object ((key, j) :: read).reverse, rest)
        | _ => failure
      | _ => failure
    | _ => none

end

/-- One value with nothing but blanks around it. -/
def parse? (s : String) : Option Json := do
  let cs := s.toList
  let (j, rest) ← readValue (2 * cs.length + 2) cs
  if skipBlank rest = [] then return j else failure

end DirectoryHistory.Json
