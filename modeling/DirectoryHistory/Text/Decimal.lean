/-!
# Decimal numbers
-/

namespace DirectoryHistory.Text

def decimalValue? (c : Char) : Option Nat :=
  if '0' ≤ c ∧ c ≤ '9' then some (c.toNat - 0x30) else none

def isDecimalDigit (c : Char) : Bool :=
  (decimalValue? c).isSome

/-- The number written by one digit or more. -/
def readDigits? : List Char → Option Nat
  | [] => none
  | cs => cs.foldl (fun acc c => acc.bind fun n => (decimalValue? c).map (10 * n + ·)) (some 0)

/-- A decimal number, which a plus sign may lead. -/
def readDecimal? : List Char → Option Nat
  | '+' :: cs => readDigits? cs
  | cs => readDigits? cs

def decimal (n : Nat) : String :=
  Nat.repr n

end DirectoryHistory.Text
