import DirectoryHistory.RelativeName
import DirectoryHistory.Text.Quoted

/-!
# Distinguished names

The name of an entry: its components from the leaf up to the suffix. The name without components
is the root of the tree.
-/

namespace DirectoryHistory

/-- The components of a name, leaf first. -/
structure DistinguishedName where
  parts : List RelativeName
  deriving DecidableEq, Repr

namespace DistinguishedName

def root : DistinguishedName :=
  ⟨[]⟩

def isRoot (d : DistinguishedName) : Bool :=
  d.parts.isEmpty

def leaf? (d : DistinguishedName) : Option RelativeName :=
  d.parts.head?

def parent? (d : DistinguishedName) : Option DistinguishedName :=
  match d.parts with
  | [] => none
  | _ :: above => some ⟨above⟩

def child (d : DistinguishedName) (leaf : RelativeName) : DistinguishedName :=
  ⟨leaf :: d.parts⟩

/-- The form that decides which names are the same and how they are ordered. -/
def folded (d : DistinguishedName) : List String :=
  d.parts.flatMap RelativeName.folded

def same (d e : DistinguishedName) : Bool :=
  d.folded == e.folded

instance : Ord DistinguishedName :=
  ⟨compareOn folded⟩

/-- Whether `d` lies strictly below `above`. -/
def isBelow (d above : DistinguishedName) : Bool :=
  decide (above.parts.length < d.parts.length) && above.folded.isSuffixOf d.folded

def chars (d : DistinguishedName) : List Char :=
  [','].intercalate (d.parts.map RelativeName.chars)

def text (d : DistinguishedName) : String :=
  String.ofList d.chars

/-- The rejected text and the flaw of its first component that has one. -/
structure Malformed where
  input : String
  flaw : RelativeName.Flaw
  deriving DecidableEq, Repr

def Malformed.message (e : Malformed) : String :=
  "invalid DN " ++ Text.quoted e.input ++ ": " ++ e.flaw.reason

/-- A blank text names the root. -/
def parse (s : String) : Except Malformed DistinguishedName :=
  if Text.trimChars s.toList = [] then .ok root
  else
    match (Text.splitUnescaped ',' s.toList).mapM RelativeName.ofChars with
    | .ok parts => .ok ⟨parts⟩
    | .error flaw => .error ⟨s, flaw⟩

end DistinguishedName

/-- A relative name on its own; the whole text is quoted when it is malformed. -/
def RelativeName.parse (s : String) : Except DistinguishedName.Malformed RelativeName :=
  match RelativeName.ofChars s.toList with
  | .ok n => .ok n
  | .error flaw => .error ⟨s, flaw⟩

end DirectoryHistory
