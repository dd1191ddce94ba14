import DirectoryHistory.Proofs.Store.Index

/-!
# Runs of writes

A store that was empty at first is given entries to store and identifiers to remove, in any order. An
entry may come for the first time, in the place of its older form, under another name, or under a name
that is in use, which is refused. Whatever comes, the index of names and the stored entries stay
inverse to each other.
-/

namespace DirectoryHistory.Store

/-- What a store is asked to do. -/
inductive Write where
  | put (e : Entry)
  | remove (id : EntryId)

/-- The store after a write. An entry that is refused leaves it alone. -/
def write (s : Store) : Write → Store
  | .put e =>
    match s.put e with
    | .ok s' => s'
    | .error _ => s
  | .remove id => s.remove id

def writeAll (s : Store) (run : List Write) : Store :=
  run.foldl write s

variable {s : Store} {e : Entry}

theorem write_of_put_eq_error {cause : NameInUse} (refused : s.put e = .error cause) :
    s.write (.put e) = s := by
  simp only [write, refused]

theorem IsIndexed.write (h : s.IsIndexed) (w : Write) : (s.write w).IsIndexed := by
  cases w with
  | put e =>
    cases result : s.put e with
    | error cause => exact (write_of_put_eq_error result).symm ▸ h
    | ok s' =>
      have after : s.write (.put e) = s' := by simp only [Store.write, result]
      exact after.symm ▸ h.put result
  | remove id => exact h.remove id

theorem IsIndexed.writeAll (h : s.IsIndexed) (run : List Write) : (s.writeAll run).IsIndexed := by
  induction run generalizing s with
  | nil => exact h
  | cons w rest ih => exact ih (h.write w)

/-- An entry is refused exactly if another one has its name. -/
theorem IsIndexed.put_eq_error_iff (h : s.IsIndexed) {cause : NameInUse} :
    s.put e = .error cause ↔
      cause = ⟨e.name⟩ ∧ ∃ id f, s.get? id = some f ∧ id ≠ e.id ∧ f.name.folded = e.name.folded := by
  have taken : (s.names.get? e.name.folded).any (· != e.id) = true ↔
      ∃ id f, s.get? id = some f ∧ id ≠ e.id ∧ f.name.folded = e.name.folded := by
    simp only [Option.any_eq_true, bne_iff_ne]
    constructor
    · rintro ⟨id, listed, other⟩
      obtain ⟨f, stored, named⟩ := h.stored _ id listed
      exact ⟨id, f, stored, other, named⟩
    · rintro ⟨id, f, stored, other, named⟩
      exact ⟨id, named ▸ h.listed id f stored, other⟩
  rw [← taken]
  simp only [Store.put]
  split
  · next used => simp [used, eq_comm]
  · next unused => simp [unused]

/-- Whatever is stored in an empty store and removed from it, the names and the stored entries lead
to each other, an entry is stored under its own identifier and shares its name with no other, the
identifiers are listed once each and in order, and an entry is refused exactly if another one has its
name, which leaves the store as it is. -/
theorem consistent_writeAll (run : List Write) :
    let s := empty.writeAll run
    (∀ k id, s.names.get? k = some id ↔ ∃ e, s.get? id = some e ∧ e.name.folded = k) ∧
      (∀ name e, s.find? name = some e ↔ ∃ id, s.get? id = some e ∧ e.name.IsSpelling name) ∧
      (∀ id id' e f, s.get? id = some e → s.get? id' = some f → e.name.IsSpelling f.name →
        id = id') ∧
      (∀ id e, s.get? id = some e → e.id = id) ∧
      s.ids.Pairwise (fun id id' => compare id id' = .lt) ∧ s.ids.length = s.size ∧
      (∀ id, id ∈ s.ids ↔ ∃ e, s.get? id = some e) ∧
      (∀ e cause, s.put e = .error cause ↔ cause = ⟨e.name⟩ ∧
        ∃ id f, s.get? id = some f ∧ id ≠ e.id ∧ f.name.IsSpelling e.name) ∧
      ∀ e cause, s.put e = .error cause → s.write (.put e) = s := by
  intro s
  have indexed : s.IsIndexed := isIndexed_empty.writeAll run
  refine ⟨fun k id => ⟨indexed.stored k id, ?_⟩, fun name e => ?_, fun id id' e f he hf same => ?_,
    indexed.keyed, s.entries.ascending_keys, by simp [ids, size, Table.keys, Table.size],
    fun id => Table.mem_keys_iff, fun e cause => ?_, fun e cause => write_of_put_eq_error⟩
  · rintro ⟨e, stored, rfl⟩
    exact indexed.listed id e stored
  · rw [indexed.find?_eq_some_iff, DistinguishedName.folded_eq_iff]
    constructor
    · rintro ⟨stored, same⟩
      exact ⟨e.id, stored, same⟩
    · rintro ⟨id, stored, same⟩
      exact ⟨indexed.keyed id e stored ▸ stored, same⟩
  · have one := indexed.eq_of_folded_eq he hf (DistinguishedName.folded_eq_iff.mpr same)
    rw [← indexed.keyed id e he, one, indexed.keyed id' f hf]
  · simp only [indexed.put_eq_error_iff, DistinguishedName.folded_eq_iff]

/-- An entry is stored again under its name in capitals and under another name, for which a second
entry comes too late. -/
theorem consistent_writeAll_renamed :
    let named (s : String) : DistinguishedName := ⟨[⟨"cn", s⟩, ⟨"o", "test"⟩]⟩
    let entry (b : UInt8) (s : String) : Entry := ⟨named s, .uniform b, .empty⟩
    let s := empty.writeAll [.put (entry 1 "a"), .put (entry 1 "A"), .put (entry 2 "c"),
      .put (entry 1 "b"), .put (entry 2 "B"), .remove (.uniform 3)]
    s.find? (named "B") = some (entry 1 "b") ∧
      s.put (entry 2 "B") = .error ⟨named "B"⟩ ∧ s.write (.put (entry 2 "B")) = s := by
  intro named entry s
  obtain ⟨-, finds, -, -, -, -, -, refuses, leaves⟩ := consistent_writeAll
    [.put (entry 1 "a"), .put (entry 1 "A"), .put (entry 2 "c"), .put (entry 1 "b"),
      .put (entry 2 "B"), .remove (.uniform 3)]
  have stored : s.get? (.uniform 1) = some (entry 1 "b") := by decide +kernel
  have same : (entry 1 "b").name.IsSpelling (named "B") := by decide +kernel
  have refused : s.put (entry 2 "B") = .error ⟨named "B"⟩ :=
    (refuses _ _).mpr ⟨rfl, _, _, stored, by decide +kernel, same⟩
  exact ⟨(finds _ _).mpr ⟨_, stored, same⟩, refused, leaves _ _ refused⟩

end DirectoryHistory.Store
