import DirectoryHistory.Proofs.Stamp.Order
import DirectoryHistory.Timeline
import Mathlib.Data.List.Sort
import Mathlib.Tactic.Tauto

/-!
# The marks of a timeline

A timeline that grew by records lists its marks in strictly ascending order, with one mark at most
for each value. Such a timeline is given by its last reset and by its mark about every value, so
that changes are followed value by value.
-/

namespace DirectoryHistory

namespace Mark

theorem precedes_iff {m n : Mark} : m.precedes n = true ↔
    m.stamp < n.stamp ∨ m.stamp = n.stamp ∧ m.value < n.value := by
  simp [precedes]

theorem precedes_trans {m n o : Mark} (h : m.precedes n = true) (h' : n.precedes o = true) :
    m.precedes o = true := by
  rw [precedes_iff] at *
  rcases h with h | ⟨h, hv⟩
  · rcases h' with h' | ⟨h', -⟩
    · exact .inl (h.trans h')
    · exact .inl (h' ▸ h)
  · rcases h' with h' | ⟨h', hv'⟩
    · exact .inl (h ▸ h')
    · exact .inr ⟨h.trans h', Std.lt_trans hv hv'⟩

theorem not_precedes_self (m : Mark) : m.precedes m = false := by
  rw [Bool.eq_false_iff, Ne, precedes_iff]
  rintro (h | ⟨-, h⟩)
  · exact lt_irrefl _ h
  · exact Std.lt_irrefl h

instance : Std.Irrefl fun m n : Mark => m.precedes n = true where
  irrefl m := by simp [not_precedes_self]

instance : Std.Antisymm fun m n : Mark => m.precedes n = true where
  antisymm m n h h' := by simpa [not_precedes_self] using precedes_trans h h'

theorem stamp_le_of_precedes {m n : Mark} (h : n = m ∨ m.precedes n = true) :
    m.stamp ≤ n.stamp := by
  rcases h with rfl | h
  · exact le_rfl
  · exact (precedes_iff.mp h).elim le_of_lt fun h => h.1.le

theorem eq_of_precedes {m n : Mark} (h : n = m ∨ m.precedes n = true)
    (h' : m = n ∨ n.precedes m = true) : m = n := by
  rcases h with rfl | h
  · rfl
  · exact h'.resolve_right fun h' => by simpa [not_precedes_self] using precedes_trans h h'

theorem precedes_total {m n : Mark} (hv : m.value ≠ n.value) :
    m.precedes n = true ∨ n.precedes m = true := by
  simp only [precedes_iff]
  rcases lt_trichotomy m.stamp n.stamp with h | h | h
  · exact .inl (.inl h)
  · rcases Std.lt_trichotomy m.value n.value with hlt | heq | hgt
    · exact .inl (.inr ⟨h, hlt⟩)
    · exact absurd heq hv
    · exact .inr (.inr ⟨h.symm, hgt⟩)
  · exact .inr (.inl h)

end Mark

namespace Timeline

theorem mem_insertMark {m n : Mark} {l : List Mark} : n ∈ insertMark m l ↔ n = m ∨ n ∈ l := by
  induction l with
  | nil => simp [insertMark]
  | cons o rest ih =>
    simp only [insertMark]
    split
    · simp only [List.mem_cons, ih]
      tauto
    · exact List.mem_cons

theorem pairwise_insertMark {m : Mark} {l : List Mark} (h : l.Pairwise (·.precedes ·))
    (hm : ∀ n ∈ l, n.value ≠ m.value) : (insertMark m l).Pairwise (·.precedes ·) := by
  induction l with
  | nil => simp [insertMark]
  | cons o rest ih =>
    obtain ⟨first, tail⟩ := List.pairwise_cons.mp h
    simp only [insertMark]
    split
    · next ho =>
      refine List.pairwise_cons.mpr ⟨fun n hn => ?_, ih tail fun n hn => hm n (.tail _ hn)⟩
      rcases mem_insertMark.mp hn with rfl | hn
      · exact ho
      · exact first n hn
    · next ho =>
      have hmo : m.precedes o = true :=
        (Mark.precedes_total (hm o (.head _))).resolve_left ho
      refine List.pairwise_cons.mpr ⟨fun n hn => ?_, h⟩
      rcases List.mem_cons.mp hn with rfl | hn
      · exact hmo
      · exact Mark.precedes_trans hmo (first n hn)

theorem eq_empty_of_isEmpty {t : Timeline} (h : t.isEmpty = true) : t = .empty := by
  rcases t with ⟨_ | r, marks⟩ <;> simp_all [isEmpty, empty]

/-- The marks ascend, and each value has one at most. -/
structure Ordered (t : Timeline) : Prop where
  ascending : t.marks.Pairwise (·.precedes ·)
  distinct : ∀ m ∈ t.marks, ∀ n ∈ t.marks, m.value = n.value → m = n

theorem ordered_empty : Ordered .empty :=
  ⟨.nil, by simp [empty]⟩

theorem mark?_value {t : Timeline} {v : Octets} {m : Mark} (h : t.mark? v = some m) :
    m.value = v := by
  simpa using List.find?_some h

theorem mem_of_mark? {t : Timeline} {v : Octets} {m : Mark} (h : t.mark? v = some m) :
    m ∈ t.marks :=
  List.mem_of_find?_eq_some h

@[simp] theorem mark?_empty (v : Octets) : mark? .empty v = none := rfl

theorem Ordered.mark?_eq_some_iff {t : Timeline} (ht : t.Ordered) {v : Octets} {m : Mark} :
    t.mark? v = some m ↔ m ∈ t.marks ∧ m.value = v := by
  constructor
  · intro h
    exact ⟨mem_of_mark? h, mark?_value h⟩
  · rintro ⟨hm, rfl⟩
    cases h : t.mark? m.value with
    | none => simpa using List.find?_eq_none.mp h m hm
    | some n => rw [ht.distinct n (mem_of_mark? h) m hm (mark?_value h)]

theorem Ordered.put {t : Timeline} (ht : t.Ordered) (m : Mark) : (t.put m).Ordered := by
  have others : ∀ n ∈ t.marks.filter (·.value != m.value), n ∈ t.marks ∧ n.value ≠ m.value := by
    intro n hn
    simpa using hn
  constructor
  · exact pairwise_insertMark (ht.ascending.filter _) fun n hn => (others n hn).2
  · intro n hn o ho hv
    rcases mem_insertMark.mp hn with rfl | hn <;> rcases mem_insertMark.mp ho with rfl | ho
    · rfl
    · exact absurd hv.symm (others o ho).2
    · exact absurd hv (others n hn).2
    · exact ht.distinct n (others n hn).1 o (others o ho).1 hv

theorem find?_insertMark_self (m : Mark) (l : List Mark) (hl : ∀ n ∈ l, n.value ≠ m.value) :
    (insertMark m l).find? (·.value == m.value) = some m := by
  induction l with
  | nil => simp [insertMark]
  | cons o rest ih =>
    simp only [insertMark]
    split
    · rw [List.find?_cons_of_neg (by simpa using hl o (.head _))]
      exact ih fun n hn => hl n (.tail _ hn)
    · simp

theorem find?_insertMark_of_ne {m : Mark} {v : Octets} (h : m.value ≠ v) (l : List Mark) :
    (insertMark m l).find? (·.value == v) = l.find? (·.value == v) := by
  induction l with
  | nil => simp [insertMark, h]
  | cons o rest ih =>
    simp only [insertMark]
    split
    · simp only [List.find?_cons, ih]
    · rw [List.find?_cons_of_neg (by simpa using h)]

theorem mark?_put (t : Timeline) (m : Mark) (v : Octets) :
    (t.put m).mark? v = if v = m.value then some m else t.mark? v := by
  split
  · next h =>
    subst h
    exact find?_insertMark_self m _ (by simp)
  · next h =>
    have hv : ∀ n : Mark, (n.value == v) = true → (n.value != m.value) = true := by
      intro n hn
      simp only [beq_iff_eq] at hn
      simpa [hn] using h
    simp only [mark?, put]
    rw [find?_insertMark_of_ne (Ne.symm h), List.find?_filter]
    congr 1
    funext n
    cases hn : n.value == v
    · simp
    · simp [hv n hn]

/-- Two ordered timelines with the same last reset and the same marks are equal. -/
theorem Ordered.ext {t u : Timeline} (ht : t.Ordered) (hu : u.Ordered)
    (reset : t.lastReset = u.lastReset) (marks : ∀ v, t.mark? v = u.mark? v) : t = u := by
  have mem : ∀ m, m ∈ t.marks ↔ m ∈ u.marks := by
    intro m
    have h := ht.mark?_eq_some_iff (v := m.value) (m := m)
    rw [marks, hu.mark?_eq_some_iff] at h
    simpa using h.symm
  have lists : t.marks = u.marks := ht.ascending.eq_of_mem_iff hu.ascending mem
  cases t
  cases u
  simp_all

end Timeline

end DirectoryHistory
