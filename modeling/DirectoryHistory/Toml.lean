/-!
# TOML values

A document is a tree of tables. While it is read, a table knows how it came about: a header defines
it, a longer header or a dotted key implies it. A table is defined only once, and dotted keys
neither extend a table that a header defines nor the other way round.
-/

namespace DirectoryHistory

/-- Floats, booleans and times are told apart from the rest but not kept. -/
inductive Toml where
  | string (s : String)
  | integer (n : Int)
  | float
  | bool
  | time
  | array (items : List Toml)
  | table (members : List (String × Toml))

namespace Toml

/-- What stands under a key of an open document. -/
inductive Item where
  | value (v : Toml)
  | table (implied dotted : Bool) (items : List (String × Item))
  | tables (elements : List (List (String × Item)))

abbrev Items := List (String × Item)

mutual

def Item.close : Item → Toml
  | .value v => v
  | .table _ _ items => .table (closeItems items)
  | .tables elements => .array (closeElements elements)

def closeItems : List (String × Item) → List (String × Toml)
  | [] => []
  | (key, item) :: rest => (key, item.close) :: closeItems rest

def closeElements : List (List (String × Item)) → List Toml
  | [] => []
  | items :: rest => .table (closeItems items) :: closeElements rest

end

def find? (key : String) (items : Items) : Option Item :=
  items.lookup key

def set (key : String) (item : Item) : Items → Items
  | [] => [(key, item)]
  | (k, i) :: rest => if k = key then (k, item) :: rest else (k, i) :: set key item rest

/-- Enters a value under a dotted key; `path` leads to its table. -/
def enter (key : String) (v : Toml) : List String → Items → Option Items
  | [], items =>
    match find? key items with
    | none => some (items ++ [(key, .value v)])
    | some _ => none
  | [last], items =>
    match find? last items with
    | none => (enter key v [] []).map fun inner => set last (.table true true inner) items
    | some (.table true true inner) =>
      (enter key v [] inner).map fun inner => set last (.table true true inner) items
    | some _ => none
  | k :: next :: rest, items =>
    match find? k items with
    | none =>
      (enter key v (next :: rest) []).map fun inner => set k (.table true true inner) items
    | some (.table true dotted inner) =>
      (enter key v (next :: rest) inner).map fun inner =>
        set k (.table true dotted inner) items
    | some (.tables elements) =>
      match elements.reverse with
      | [] => none
      | last :: before =>
        (enter key v (next :: rest) last).map fun inner =>
          set k (.tables (inner :: before).reverse) items
    | some _ => none

def within (f : Items → Option Items) : List String → Items → Option Items
  | [], items => f items
  | k :: rest, items =>
    match find? k items with
    | none => (within f rest []).map fun inner => set k (.table true false inner) items
    | some (.table implied dotted inner) =>
      (within f rest inner).map fun inner => set k (.table implied dotted inner) items
    | some (.tables elements) =>
      match elements.reverse with
      | [] => none
      | last :: before =>
        (within f rest last).map fun inner => set k (.tables (inner :: before).reverse) items
    | some (.value _) => none

/-- Opens the table of a header: a new one, or one that longer headers have implied. -/
def openTable (key : String) (items : Items) : Option Items :=
  match find? key items with
  | none => some (items ++ [(key, .table false false [])])
  | some (.table true false inner) => some (set key (.table false false inner) items)
  | some _ => none

/-- Opens one more table of an array of tables. -/
def openElement (key : String) (items : Items) : Option Items :=
  match find? key items with
  | none => some (items ++ [(key, .tables [[]])])
  | some (.tables elements) => some (set key (.tables (elements ++ [[]])) items)
  | some _ => none

end Toml

end DirectoryHistory
