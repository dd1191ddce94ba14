import DirectoryHistory.Text.Ascii
import DirectoryHistory.Text.Blank
import DirectoryHistory.Text.Lowercase
import DirectoryHistory.Text.Split

/-!
# Relative names

One component of a distinguished name: an attribute and a value. The attribute is kept in lower
case; the value keeps its case, but two names are the same when their folded forms are.
-/

namespace DirectoryHistory

/-- One component `attribute=value` of a distinguished name. -/
structure RelativeName where
  attr : String
  value : String
  deriving DecidableEq, Repr

namespace RelativeName

def make (attr value : String) : RelativeName :=
  ⟨Text.lowerAscii (Text.trim attr), value⟩

/-- The form that decides which names are the same and how they are ordered. -/
def folded (n : RelativeName) : List String :=
  [n.attr, Text.lowercase n.value]

def same (m n : RelativeName) : Bool :=
  m.folded == n.folded

instance : Ord RelativeName :=
  ⟨compareOn folded⟩

def isSpecial (c : Char) : Bool :=
  c == ',' || c == '\\' || c == '=' || c == '+'

def chars (n : RelativeName) : List Char :=
  n.attr.toList ++ '=' :: Text.escape isSpecial n.value.toList

def text (n : RelativeName) : String :=
  String.ofList n.chars

/-- What keeps a text from being a relative name. -/
inductive Flaw where
  | noEquals
  | noAttribute
  | noValue
  deriving DecidableEq, Repr

def Flaw.reason : Flaw → String
  | .noEquals => "RDN is missing '='"
  | .noAttribute => "RDN has an empty attribute type"
  | .noValue => "RDN has an empty value"

/-- Everything behind the first equals sign that is not escaped belongs to the value. -/
def ofChars (cs : List Char) : Except Flaw RelativeName :=
  match Text.cutUnescaped '=' cs with
  | none => .error .noEquals
  | some (before, behind) =>
    let attr := Text.trimChars before
    let value := Text.unescape (Text.trimChars behind)
    if attr = [] then .error .noAttribute
    else if value = [] then .error .noValue
    else .ok (make (String.ofList attr) (String.ofList value))

end RelativeName

end DirectoryHistory
