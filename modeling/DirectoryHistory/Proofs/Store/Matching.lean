import DirectoryHistory.Proofs.Store.Index

/-!
# Matching stores

Two stores match when they hold the same entries under the same identifiers. The names of the entries
are the same then, though each store may write them in its own case. A name leads to entries that
match in both stores, and storing or removing entries that match keeps it so.
-/

namespace DirectoryHistory

/-- The entries are the same, up to the case that their names are written in. -/
structure Entry.Matches (e f : Entry) : Prop where
  id : f.id = e.id
  name : f.name.folded = e.name.folded
  values : f.values = e.values

/-- The stores hold entries that match under the same identifiers. -/
def Store.Matches (s s' : Store) : Prop :=
  ∀ id, Option.Rel Entry.Matches (s.get? id) (s'.get? id)

variable {e f : Entry} {id : EntryId}

theorem Entry.Matches.refl (e : Entry) : e.Matches e :=
  ⟨rfl, rfl, rfl⟩

theorem Entry.Matches.symm (h : e.Matches f) : f.Matches e :=
  ⟨h.id.symm, h.name.symm, h.values.symm⟩

namespace Store.Matches

variable {s s' t t' : Store} {name name' : DistinguishedName}

theorem refl (s : Store) : s.Matches s := by
  intro id
  cases s.get? id with
  | none => exact .none
  | some e => exact .some (.refl e)

theorem symm (h : s.Matches s') : s'.Matches s := by
  intro id
  have both := h id
  generalize s.get? id = x at both ⊢
  generalize s'.get? id = y at both ⊢
  cases both with
  | some alike => exact .some alike.symm
  | none => exact .none

theorem exists_get? (h : s.Matches s') (stored : s.get? id = some e) :
    ∃ f, s'.get? id = some f ∧ e.Matches f := by
  have both := h id
  rw [stored] at both
  generalize s'.get? id = y at both ⊢
  cases both with
  | some alike => exact ⟨_, rfl, alike⟩

theorem get?_eq_none (h : s.Matches s') (absent : s.get? id = none) : s'.get? id = none := by
  have both := h id
  rw [absent] at both
  generalize s'.get? id = y at both ⊢
  cases both with
  | none => rfl

theorem exists_find? (h : s.Matches s') (indexed : s.IsIndexed) (indexed' : s'.IsIndexed)
    (same : name'.folded = name.folded) (found : s.find? name = some e) :
    ∃ f, s'.find? name' = some f ∧ e.Matches f := by
  obtain ⟨stored, named⟩ := indexed.find?_eq_some_iff.mp found
  obtain ⟨f, stored', alike⟩ := h.exists_get? stored
  refine ⟨f, indexed'.find?_eq_some_iff.mpr ⟨alike.id.symm ▸ stored', ?_⟩, alike⟩
  exact alike.name.trans (named.trans same.symm)

theorem find?_eq_none (h : s.Matches s') (indexed : s.IsIndexed) (indexed' : s'.IsIndexed)
    (same : name'.folded = name.folded) (absent : s.find? name = none) :
    s'.find? name' = none := by
  cases found : s'.find? name' with
  | none => rfl
  | some f =>
    obtain ⟨e, found', -⟩ := h.symm.exists_find? indexed' indexed same.symm found
    cases absent.symm.trans found'

theorem put_iff (h : s.Matches s') (put : s.put e = .ok t) (put' : s'.put f = .ok t')
    (own : f.id = e.id) : t.Matches t' ↔ e.Matches f := by
  have stored := get?_put put
  have stored' := get?_put put'
  constructor
  · intro after
    have both := after e.id
    rw [stored, stored', if_pos rfl, if_pos own.symm] at both
    cases both with
    | some alike => exact alike
  · intro alike id
    rw [stored, stored', own]
    split
    · exact .some alike
    · exact h id

theorem remove (h : s.Matches s') (id : EntryId) : (s.remove id).Matches (s'.remove id) := by
  intro id'
  rw [get?_remove, get?_remove]
  split
  · exact .none
  · exact h id'

end Store.Matches

end DirectoryHistory
