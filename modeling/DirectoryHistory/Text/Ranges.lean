/-!
# Sets of characters given by ranges
-/

namespace DirectoryHistory.Text

/-- Inclusive ranges of code points. -/
abbrev Ranges := Array (Nat × Nat)

def Ranges.holds (r : Ranges) (c : Char) : Bool :=
  r.any fun (first, last) => first ≤ c.toNat && c.toNat ≤ last

end DirectoryHistory.Text
