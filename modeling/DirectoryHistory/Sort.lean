/-!
# Stable sorting

Insertion sort by a relation, in a form that evaluates inside proofs, as core's merge sort does not.
Elements that stand in the relation both ways keep their order.
-/

namespace DirectoryHistory

variable {α : Type}

/-- Puts `x` before the first element that it may stand before. -/
def insertBy (le : α → α → Bool) (x : α) : List α → List α
  | [] => [x]
  | y :: rest => if le x y then x :: y :: rest else y :: insertBy le x rest

def sortBy (le : α → α → Bool) (xs : List α) : List α :=
  xs.foldr (insertBy le) []

end DirectoryHistory
