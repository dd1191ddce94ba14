import DirectoryHistory.Sort
import Mathlib.Data.List.Sort

/-!
# Sorting and filtering

The sort is the insertion sort of lists, from which it takes its order and its elements. As it is
stable, it makes no difference whether elements are left out before it or after it.
-/

namespace DirectoryHistory

variable {α : Type} {le : α → α → Bool} {p : α → Bool} {x : α} {xs : List α}

theorem insertBy_eq_orderedInsert (le : α → α → Bool) (x : α) (xs : List α) :
    insertBy le x xs = xs.orderedInsert (fun x y => le x y = true) x := by
  induction xs with
  | nil => rfl
  | cons y rest ih => rw [insertBy, ih, List.orderedInsert_cons]

theorem sortBy_eq_insertionSort (le : α → α → Bool) (xs : List α) :
    sortBy le xs = xs.insertionSort fun x y => le x y = true := by
  rw [sortBy, List.insertionSort]
  exact congrArg (xs.foldr · []) (funext₂ (insertBy_eq_orderedInsert le))

theorem sortBy_perm (le : α → α → Bool) (xs : List α) : (sortBy le xs).Perm xs := by
  rw [sortBy_eq_insertionSort]
  exact List.perm_insertionSort _ xs

theorem pairwise_sortBy (total : ∀ x y, le x y = true ∨ le y x = true)
    (trans : ∀ x y z, le x y = true → le y z = true → le x z = true) (xs : List α) :
    (sortBy le xs).Pairwise fun x y => le x y = true := by
  have : Std.Total fun x y => le x y = true := ⟨total⟩
  have : IsTrans α fun x y => le x y = true := ⟨trans⟩
  rw [sortBy_eq_insertionSort]
  exact List.pairwise_insertionSort _ xs

theorem insertBy_eq_cons (h : ∀ y ∈ xs, le x y = true) : insertBy le x xs = x :: xs := by
  cases xs with
  | nil => rfl
  | cons y rest => rw [insertBy, if_pos (h y (.head _))]

theorem filter_insertBy_of_neg (hx : ¬p x = true) (xs : List α) :
    (insertBy le x xs).filter p = xs.filter p := by
  rw [insertBy_eq_orderedInsert, List.orderedInsert_eq_take_drop, List.filter_append,
    List.filter_cons_of_neg hx, ← List.filter_append, List.takeWhile_append_dropWhile]

theorem filter_insertBy_of_pos (trans : ∀ x y z, le x y = true → le y z = true → le x z = true)
    (hx : p x = true) (sorted : xs.Pairwise fun x y => le x y = true) :
    (insertBy le x xs).filter p = insertBy le x (xs.filter p) := by
  induction xs with
  | nil => simp [insertBy, hx]
  | cons y rest ih =>
    obtain ⟨first, tail⟩ := List.pairwise_cons.mp sorted
    simp only [insertBy]
    split
    · next hxy =>
      -- The filter may leave `y` out, but `x` may stand before all that follows it.
      have before : ∀ z ∈ (y :: rest).filter p, le x z = true := fun z hz => by
        rcases List.mem_cons.mp (List.mem_filter.mp hz).1 with rfl | hz
        · exact hxy
        · exact trans x y z hxy (first z hz)
      rw [List.filter_cons_of_pos hx, insertBy_eq_cons before]
    · next hxy =>
      rw [List.filter_cons, List.filter_cons, ih tail]
      split
      · rw [insertBy, if_neg hxy]
      · rfl

/-- Sorting keeps the order of the elements that a filter leaves. -/
theorem filter_sortBy (total : ∀ x y, le x y = true ∨ le y x = true)
    (trans : ∀ x y z, le x y = true → le y z = true → le x z = true) (p : α → Bool)
    (xs : List α) : (sortBy le xs).filter p = sortBy le (xs.filter p) := by
  induction xs with
  | nil => rfl
  | cons x rest ih =>
    have cons : sortBy le (x :: rest) = insertBy le x (sortBy le rest) := rfl
    by_cases hx : p x = true
    · rw [cons, filter_insertBy_of_pos trans hx (pairwise_sortBy total trans rest), ih,
        List.filter_cons_of_pos hx]
      rfl
    · rw [cons, filter_insertBy_of_neg hx, ih, List.filter_cons_of_neg hx]

end DirectoryHistory
