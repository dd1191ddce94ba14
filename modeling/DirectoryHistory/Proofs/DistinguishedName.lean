import DirectoryHistory.DistinguishedName
import Mathlib.Data.List.Forall2

/-!
# Names in the tree

Names that are the same up to case have the same parents and lie below the same names. What lies right
below a name lies below everything that the name lies below, and below nothing else.
-/

namespace DirectoryHistory.DistinguishedName

variable {d e p b : DistinguishedName} {l : RelativeName}

@[simp] theorem same_iff : d.same e = true ↔ d.folded = e.folded := by
  simp [same]

theorem length_folded (d : DistinguishedName) : d.folded.length = 2 * d.parts.length := by
  rw [folded, List.length_flatMap]
  induction d.parts with
  | nil => rfl
  | cons leaf above ih =>
    rw [List.map_cons, List.sum_cons, ih, List.length_cons]
    simp only [RelativeName.folded, List.length_cons, List.length_nil]
    omega

theorem length_parts_eq (h : d.folded = e.folded) : d.parts.length = e.parts.length := by
  have length := congrArg List.length h
  rw [length_folded, length_folded] at length
  omega

/-- The names have the same attributes and, up to case, the same values. -/
def IsSpelling (d e : DistinguishedName) : Prop :=
  List.Forall₂ (fun m n => m.attr = n.attr ∧ Text.lowercase m.value = Text.lowercase n.value)
    d.parts e.parts

theorem folded_eq_iff : d.folded = e.folded ↔ d.IsSpelling e := by
  obtain ⟨parts⟩ := d
  obtain ⟨parts'⟩ := e
  simp only [folded, IsSpelling]
  induction parts generalizing parts' with
  | nil => cases parts' <;> simp [RelativeName.folded]
  | cons m above ih =>
    cases parts' with
    | nil => simp [RelativeName.folded]
    | cons n above' => simp [RelativeName.folded, ih, and_assoc]

instance (d e : DistinguishedName) : Decidable (d.IsSpelling e) :=
  decidable_of_iff _ folded_eq_iff

theorem folded_child (d : DistinguishedName) (l : RelativeName) :
    (d.child l).folded = l.folded ++ d.folded := rfl

theorem eq_child (leaf : d.leaf? = some l) (parent : d.parent? = some p) : d = p.child l := by
  obtain ⟨parts⟩ := d
  cases parts with
  | nil => cases leaf
  | cons n rest =>
    obtain rfl := Option.some.inj leaf
    obtain rfl := Option.some.inj parent
    rfl

theorem folded_parent?_congr (same : d.folded = e.folded) :
    d.parent?.map folded = e.parent?.map folded := by
  obtain ⟨_ | ⟨m, above⟩⟩ := d <;> obtain ⟨_ | ⟨n, above'⟩⟩ := e
  · rfl
  · simp [folded, RelativeName.folded] at same
  · simp [folded, RelativeName.folded] at same
  · simp only [folded, List.flatMap_cons, RelativeName.folded, List.cons_append, List.nil_append,
      List.cons.injEq] at same
    exact congrArg some same.2.2

/-- The name `d` lies right below `p`. -/
def IsChildOf (d p : DistinguishedName) : Prop :=
  d.parent?.map folded = some p.folded

instance (d p : DistinguishedName) : Decidable (d.IsChildOf p) :=
  inferInstanceAs (Decidable (_ = _))

theorem isChildOf_child (p : DistinguishedName) (l : RelativeName) : (p.child l).IsChildOf p := rfl

theorem isChildOf_congr_left (same : d.folded = e.folded) : d.IsChildOf p ↔ e.IsChildOf p := by
  rw [IsChildOf, IsChildOf, folded_parent?_congr same]

theorem isChildOf_congr_right (same : p.folded = b.folded) : d.IsChildOf p ↔ d.IsChildOf b := by
  rw [IsChildOf, IsChildOf, same]

theorem IsChildOf.exists_child (h : d.IsChildOf p) :
    ∃ above l, d = child above l ∧ above.folded = p.folded := by
  obtain ⟨_ | ⟨l, above⟩⟩ := d
  · cases h
  · exact ⟨⟨above⟩, l, rfl, Option.some.inj h⟩

theorem IsChildOf.length_eq (h : d.IsChildOf p) : d.parts.length = p.parts.length + 1 := by
  obtain ⟨above, l, rfl, same⟩ := h.exists_child
  rw [child, List.length_cons, length_parts_eq same]

theorem isBelow_iff :
    d.isBelow b = true ↔ b.parts.length < d.parts.length ∧ b.folded <:+ d.folded := by
  simp [isBelow]

theorem isBelow_congr (same : d.folded = e.folded) (above : b.folded = p.folded) :
    d.isBelow b = e.isBelow p := by
  rw [isBelow, isBelow, same, above, length_parts_eq same, length_parts_eq above]

theorem child_isBelow_iff : (p.child l).isBelow b = true ↔ p.folded = b.folded ∨ p.isBelow b = true := by
  have deeper : (p.child l).parts.length = p.parts.length + 1 := List.length_cons
  have long := length_folded p
  have long' := length_folded b
  simp only [isBelow_iff, deeper, folded_child]
  constructor
  · rintro ⟨length, ends⟩
    have ends : b.folded <:+ p.folded :=
      List.suffix_of_suffix_length_le ends (List.suffix_append ..) (by omega)
    rcases Nat.lt_or_ge b.parts.length p.parts.length with shorter | longer
    · exact .inr ⟨shorter, ends⟩
    · exact .inl (ends.eq_of_length_le (by omega)).symm
  · rintro (same | ⟨shorter, ends⟩)
    · have length := length_parts_eq same
      exact ⟨by omega, same ▸ List.suffix_append ..⟩
    · exact ⟨by omega, ends.trans (List.suffix_append ..)⟩

theorem IsChildOf.isBelow_iff (h : d.IsChildOf p) :
    d.isBelow b = true ↔ p.folded = b.folded ∨ p.isBelow b = true := by
  obtain ⟨above, l, rfl, same⟩ := h.exists_child
  rw [child_isBelow_iff, same, isBelow_congr same rfl]

theorem isChildOf_iff_of_isBelow (below : d.isBelow b = true) :
    d.IsChildOf p ↔ p.folded = (d.parent?.getD .root).folded := by
  obtain ⟨_ | ⟨l, above⟩⟩ := d
  · simp [isBelow] at below
  · simp [IsChildOf, parent?, eq_comm]

end DirectoryHistory.DistinguishedName
