import DirectoryHistory.Attribute

/-!
# Schemas

The one property of the schema that resolution depends on: which attributes hold one value at most.
Options of a description do not matter.
-/

namespace DirectoryHistory

structure Schema where
  singleValued : List String
  deriving DecidableEq, Repr

namespace Schema

def ofNames (names : List String) : Schema :=
  ⟨names.map fun n => Text.lowerAscii (Text.trim n)⟩

def insert (s : Schema) (name : String) : Schema :=
  ⟨Text.lowerAscii (Text.trim name) :: s.singleValued⟩

def standard : Schema :=
  ofNames ["displayname", "employeenumber", "preferredlanguage", "uidnumber", "gidnumber",
    "homedirectory", "loginshell"]

def isSingle (s : Schema) (a : Attribute) : Bool :=
  s.singleValued.contains a.name

end Schema

end DirectoryHistory
