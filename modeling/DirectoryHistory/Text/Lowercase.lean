import DirectoryHistory.Text.Ascii
import DirectoryHistory.Text.CaseTable

/-!
# Full lower case

Every character is mapped on its own, except two: a dotted capital I becomes an i with a combining
dot, and a capital sigma takes its final form at the end of a word.
-/

namespace DirectoryHistory.Text

def isCased (c : Char) : Bool :=
  casedRanges.holds c

def isCaseIgnorable (c : Char) : Bool :=
  caseIgnorableRanges.holds c

def lowerCharIn (n : Nat) : List (Nat × Nat × Nat × Nat) → Nat
  | [] => n
  | (first, last, step, target) :: rest =>
    if first ≤ n && n ≤ last && (n - first) % step == 0 then target + (n - first)
    else lowerCharIn n rest

def lowerChar (c : Char) : Char :=
  if c.toNat < 0x80 then lowerAsciiChar c
  else Char.ofNat (lowerCharIn c.toNat lowercaseRuns.toList)

/-- Past the case-ignorable characters the first one is cased. -/
def startsCased (cs : List Char) : Bool :=
  match cs.dropWhile isCaseIgnorable with
  | [] => false
  | c :: _ => isCased c

/-- Lower case of `cs`, where `before` holds the characters to its left, nearest first. -/
def lowercaseAfter (before : List Char) : List Char → List Char
  | [] => []
  | c :: rest =>
    let lowered :=
      if c = '\u03a3' then
        [if startsCased before && !startsCased rest then '\u03c2' else '\u03c3']
      else if c = '\u0130' then ['i', '\u0307']
      else [lowerChar c]
    lowered ++ lowercaseAfter (c :: before) rest

def lowercase (s : String) : String :=
  String.ofList (lowercaseAfter [] s.toList)

end DirectoryHistory.Text
