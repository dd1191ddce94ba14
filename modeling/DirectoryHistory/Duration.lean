import DirectoryHistory.Text.Blank
import DirectoryHistory.Text.Decimal
import DirectoryHistory.Text.Quoted

/-!
# Durations

A duration is written as a number with a unit, such as `12h`, and kept in milliseconds, which is
also the unit of a bare number.
-/

namespace DirectoryHistory.Duration

/-- Why a text is no duration; blanks around it are left out. -/
inductive Malformed where
  | number (input : String)
  | range (input : String)
  deriving DecidableEq, Repr

def Malformed.message : Malformed → String
  | .number input => "invalid duration " ++ Text.quoted input
  | .range input => "duration " ++ Text.quoted input ++ " is out of range"

def splitUnit (cs : List Char) : List Char × Nat :=
  match cs.reverse with
  | 's' :: 'm' :: rest => (rest.reverse, 1)
  | 's' :: rest => (rest.reverse, 1000)
  | 'm' :: rest => (rest.reverse, 60 * 1000)
  | 'h' :: rest => (rest.reverse, 60 * 60 * 1000)
  | 'd' :: rest => (rest.reverse, 24 * 60 * 60 * 1000)
  | _ => (cs, 1)

def parse (s : String) : Except Malformed Nat :=
  let cs := Text.trimChars s.toList
  let (number, unit) := splitUnit cs
  match Text.readDecimal? (Text.trimChars number) with
  | none => .error (.number (String.ofList cs))
  | some n =>
    if UInt64.size ≤ n then .error (.number (String.ofList cs))
    else if UInt64.size ≤ n * unit then .error (.range (String.ofList cs))
    else .ok (n * unit)

end DirectoryHistory.Duration
