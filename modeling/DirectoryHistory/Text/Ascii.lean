/-!
# ASCII letters and digits

Attribute names and options ignore case for ASCII letters only, and values that name an entry are
compared up to the case of ASCII letters.
-/

namespace DirectoryHistory.Text

def lowerAsciiChar (c : Char) : Char :=
  if 'A' ≤ c ∧ c ≤ 'Z' then Char.ofNat (c.toNat + 32) else c

def lowerAscii (s : String) : String :=
  String.ofList (s.toList.map lowerAsciiChar)

def lowerAsciiByte (b : UInt8) : UInt8 :=
  if 65 ≤ b ∧ b ≤ 90 then b + 32 else b

def isAlphanumeric (c : Char) : Bool :=
  ('a' ≤ c && c ≤ 'z') || ('A' ≤ c && c ≤ 'Z') || ('0' ≤ c && c ≤ '9')

end DirectoryHistory.Text
