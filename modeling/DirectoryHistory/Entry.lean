import DirectoryHistory.Attribute
import DirectoryHistory.EntryId
import DirectoryHistory.Table

/-!
# Entries

A named node of the directory with its attributes. The values of one attribute form a set in order
of arrival, and an attribute that loses its last value is dropped.
-/

namespace DirectoryHistory

structure Entry where
  name : DistinguishedName
  id : EntryId
  attributes : Table Attribute (List Octets)
  deriving DecidableEq

namespace Entry

def make (name : DistinguishedName) (id : EntryId) : Entry :=
  ⟨name, id, .empty⟩

def values (e : Entry) (a : Attribute) : List Octets :=
  (e.attributes.get? a).getD []

def hasValue (e : Entry) (a : Attribute) (v : Octets) : Bool :=
  (e.values a).contains v

/-- Keeps the first of equal values. -/
def distinct (vs : List Octets) : List Octets :=
  vs.foldl (fun kept v => if kept.contains v then kept else kept ++ [v]) []

theorem mem_distinct {v : Octets} {vs : List Octets} : v ∈ Entry.distinct vs ↔ v ∈ vs := by
  have go : ∀ (vs kept : List Octets), v ∈ vs.foldl
      (fun kept w => if kept.contains w then kept else kept ++ [w]) kept ↔ v ∈ kept ∨ v ∈ vs := by
    intro vs
    induction vs with
    | nil => simp
    | cons w ws ih =>
      intro kept
      rw [List.foldl_cons, ih]
      split
      · next hw =>
        have : w ∈ kept := by simpa using hw
        constructor
        · rintro (h | h)
          · exact .inl h
          · exact .inr (.tail _ h)
        · rintro (h | h)
          · exact .inl h
          · rcases List.mem_cons.mp h with rfl | h
            · exact .inl this
            · exact .inr h
      · simp [or_assoc]
  have h := go vs []
  rwa [or_iff_right List.not_mem_nil] at h

/-- Gives `a` the values `vs` as they stand; none drops the attribute. -/
def setValues (e : Entry) (a : Attribute) (vs : List Octets) : Entry :=
  { e with attributes := if vs = [] then e.attributes.erase a else e.attributes.insert a vs }

@[simp] theorem values_setValues_self (e : Entry) (a : Attribute) (vs : List Octets) :
    (e.setValues a vs).values a = vs := by
  by_cases h : vs = [] <;> simp [values, setValues, h]

theorem values_setValues_of_ne (e : Entry) {a b : Attribute} (h : b ≠ a) (vs : List Octets) :
    (e.setValues a vs).values b = e.values b := by
  simp only [values, setValues]
  split
  · rw [Table.get?_erase_of_ne _ h]
  · rw [Table.get?_insert_of_ne _ h]

def replaceValues (e : Entry) (a : Attribute) (vs : List Octets) : Entry :=
  e.setValues a (distinct vs)

def addValue (e : Entry) (a : Attribute) (v : Octets) : Entry :=
  if e.hasValue a v then e else e.setValues a (e.values a ++ [v])

def removeValue (e : Entry) (a : Attribute) (v : Octets) : Entry :=
  e.setValues a ((e.values a).filter (· != v))

/-- Everything but the attribute that carries history. -/
def userAttributes (e : Entry) : Table Attribute (List Octets) :=
  e.attributes.filter fun a _ => !a.isHistory

def historyValues (e : Entry) : List Octets :=
  e.values .history

def setHistory (e : Entry) (encoded : List Octets) : Entry :=
  e.replaceValues .history encoded

end Entry

end DirectoryHistory
