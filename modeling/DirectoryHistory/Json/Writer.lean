import DirectoryHistory.Json
import DirectoryHistory.Text.Hex

/-!
# Writing JSON text

Two layouts: compact, without any blank, and pretty, with one item or member a line and two spaces
for every level. Characters other than quotes, backslashes and controls are written as they are.
-/

namespace DirectoryHistory.Json

def escaped (n : Nat) : List Char :=
  if n = 0x22 then ['\\', '"']
  else if n = 0x5c then ['\\', '\\']
  else if n = 8 then ['\\', 'b']
  else if n = 9 then ['\\', 't']
  else if n = 10 then ['\\', 'n']
  else if n = 12 then ['\\', 'f']
  else if n = 13 then ['\\', 'r']
  else if n < 0x20 ∨ isSurrogate n then '\\' :: 'u' :: DirectoryHistory.Text.fixedHex 4 n
  else [Char.ofNat n]

def Text.literal (t : Text) : String :=
  String.ofList ('"' :: t.points.flatMap escaped ++ ['"'])

mutual

def compact : Json → String
  | .null => "null"
  | .bool b => if b then "true" else "false"
  | .number chars => String.ofList chars
  | .string t => t.literal
  | .array items => "[" ++ compactItems items
  | .object members => "\x7b" ++ compactMembers members

def compactItems : List Json → String
  | [] => "]"
  | [j] => compact j ++ "]"
  | j :: k :: rest => compact j ++ "," ++ compactItems (k :: rest)

def compactMembers : List (Text × Json) → String
  | [] => "\x7d"
  | [(key, j)] => key.literal ++ ":" ++ compact j ++ "\x7d"
  | (key, j) :: next :: rest =>
    key.literal ++ ":" ++ compact j ++ "," ++ compactMembers (next :: rest)

end

def newline (level : Nat) : String :=
  String.ofList ('\n' :: List.replicate (2 * level) ' ')

mutual

def prettyAt (level : Nat) : Json → String
  | .array items => "[" ++ prettyItems level items
  | .object members => "\x7b" ++ prettyMembers level members
  | .null => "null"
  | .bool b => if b then "true" else "false"
  | .number chars => String.ofList chars
  | .string t => t.literal

def prettyItems (level : Nat) : List Json → String
  | [] => "]"
  | [j] => newline (level + 1) ++ prettyAt (level + 1) j ++ newline level ++ "]"
  | j :: k :: rest =>
    newline (level + 1) ++ prettyAt (level + 1) j ++ "," ++ prettyItems level (k :: rest)

def prettyMembers (level : Nat) : List (Text × Json) → String
  | [] => "\x7d"
  | [(key, j)] =>
    newline (level + 1) ++ key.literal ++ ": " ++ prettyAt (level + 1) j ++ newline level ++ "\x7d"
  | (key, j) :: next :: rest =>
    newline (level + 1) ++ key.literal ++ ": " ++ prettyAt (level + 1) j ++ "," ++
      prettyMembers level (next :: rest)

end

def pretty (j : Json) : String :=
  prettyAt 0 j

end DirectoryHistory.Json
