import DirectoryHistory.Text.Ascii
import DirectoryHistory.Text.Blank
import DirectoryHistory.Text.Quoted
import DirectoryHistory.Text.Split

/-!
# Attribute descriptions

The name of an attribute with its options, such as a language tag. Both are kept in lower case and
the options form a set, listed in ascending order.
-/

namespace DirectoryHistory

structure Attribute where
  name : String
  options : List String
  deriving DecidableEq, Repr

namespace Attribute

/-- First by name, then by the options in their order. -/
instance : Ord Attribute :=
  ⟨compareLex (compareOn name) (compareOn options)⟩

instance : Std.TransOrd Attribute :=
  inferInstanceAs (Std.TransCmp (compareLex (compareOn name) (compareOn options)))

instance : Std.LawfulEqOrd Attribute where
  eq_of_compare {a b} h := by
    have h : (compare a.name b.name).then (compare a.options b.options) = .eq := h
    rw [Ordering.then_eq_eq] at h
    cases a
    cases b
    simp_all

def make (name : String) : Attribute :=
  ⟨Text.lowerAscii (Text.trim name), []⟩

/-- Adds `option` to an ascending list unless it is there. -/
def insertOption (option : String) : List String → List String
  | [] => [option]
  | first :: rest =>
    if option < first then option :: first :: rest
    else if option = first then first :: rest
    else first :: insertOption option rest

def withOption (a : Attribute) (option : String) : Attribute :=
  { a with options := insertOption (Text.lowerAscii (Text.trim option)) a.options }

/-- The operational attribute that carries the history of an entry. -/
def history : Attribute :=
  make "ds-sync-hist"

def isHistory (a : Attribute) : Bool :=
  a.name == "ds-sync-hist"

/-- The name that stands for the entry itself in the text of a fact. -/
def entrySlot : String :=
  "dn"

def chars (a : Attribute) : List Char :=
  a.name.toList ++ a.options.flatMap fun option => ';' :: option.toList

def text (a : Attribute) : String :=
  String.ofList a.chars

/-- What keeps a text from being an attribute description. -/
inductive Malformed where
  | noName (input : String)
  | badName (name : String)
  | emptyOption (input : String)
  deriving DecidableEq, Repr

def Malformed.message : Malformed → String
  | .noName input => "empty attribute name in " ++ Text.quoted input
  | .badName name => "invalid attribute name " ++ Text.quoted name
  | .emptyOption input => "empty option in " ++ Text.quoted input

def isNameChar (c : Char) : Bool :=
  Text.isAlphanumeric c || c == '-' || c == '.'

def addOptions (input : String) (a : Attribute) : List (List Char) → Except Malformed Attribute
  | [] => .ok a
  | option :: rest =>
    if Text.trimChars option = [] then .error (.emptyOption input)
    else addOptions input (a.withOption (String.ofList option)) rest

def parse (s : String) : Except Malformed Attribute :=
  match Text.split ';' s.toList with
  | [] => .error (.noName s)
  | first :: options =>
    let name := Text.trimChars first
    if name = [] then .error (.noName s)
    else if name.all isNameChar then addOptions s (make (String.ofList name)) options
    else .error (.badName (String.ofList name))

end Attribute

end DirectoryHistory
