import DirectoryHistory.Proofs.Timeline.Marks

/-!
# Searching the place of a mark

The place of a mark may be searched by halving instead of walking over the marks before it. Halving
finds the place only where a predicate holds of the marks in front and of no others, and it does so in
an ordered timeline, where whatever stands before a mark that precedes `m` precedes `m` too.
-/

namespace DirectoryHistory.Timeline

/-- Searches the first mark that `p` does not hold of among the `size` marks from `base` on. -/
def bisectFrom (p : Mark → Bool) (l : List Mark) (base size : Nat) : Nat :=
  if size ≤ 1 then if l[base]?.any p then base + 1 else base
  else
    let middle := base + size / 2
    bisectFrom p l (if l[middle]?.any p then middle else base) (size - size / 2)
termination_by size

def bisect (p : Mark → Bool) (l : List Mark) : Nat :=
  bisectFrom p l 0 l.length

/-- Puts `m` in the place of the mark about the same value, where a search finds that place. -/
def putBisected (t : Timeline) (m : Mark) : Timeline :=
  let others := t.marks.filter (·.value != m.value)
  let place := bisect (·.precedes m) others
  { t with marks := others.take place ++ m :: others.drop place }

def place (m : Mark) (l : List Mark) : Nat :=
  (l.takeWhile (·.precedes m)).length

variable {p : Mark → Bool} {l : List Mark} {m n : Mark}

theorem place_cons_of_pos (h : n.precedes m = true) (l : List Mark) :
    place m (n :: l) = place m l + 1 := by
  rw [place, List.takeWhile_cons, if_pos h, List.length_cons, place]

theorem place_cons_of_neg (h : ¬n.precedes m = true) (l : List Mark) : place m (n :: l) = 0 := by
  rw [place, List.takeWhile_cons, if_neg h, List.length_nil]

/-- Of ordered marks those that precede `m` stand in front. -/
theorem any_precedes_iff (ascending : l.Pairwise (·.precedes ·)) (m : Mark) (i : Nat) :
    l[i]?.any (·.precedes m) = true ↔ i < place m l := by
  induction l generalizing i with
  | nil => simp [place]
  | cons n rest ih =>
    obtain ⟨first, ascending⟩ := List.pairwise_cons.mp ascending
    by_cases hn : n.precedes m = true
    · rw [place_cons_of_pos hn]
      cases i with
      | zero => simp [hn]
      | succ i => simpa using ih ascending i
    · rw [place_cons_of_neg hn]
      refine iff_of_false (fun found => ?_) (Nat.not_lt_zero i)
      obtain ⟨o, ho, preceding⟩ := (Option.any_eq_true _ _).mp found
      rcases List.mem_cons.mp (List.mem_of_getElem? ho) with rfl | ho
      · exact hn preceding
      · exact hn (Mark.precedes_trans (first o ho) preceding)

/-- Where `p` holds of the first `k` marks and of no others, `k` stays between the ends that halving
leaves. -/
theorem bisectFrom_eq {base size k : Nat} (front : ∀ i, l[i]?.any p = true ↔ i < k)
    (low : base ≤ k) (high : k ≤ base + size) : bisectFrom p l base size = k := by
  induction size using Nat.strong_induction_on generalizing base with
  | h size ih =>
    rw [bisectFrom]
    split
    · split
      · next holds =>
        have := (front base).mp holds
        omega
      · next fails =>
        have := mt (front base).mpr fails
        omega
    · next large =>
      dsimp only
      split
      · next holds =>
        have := (front _).mp holds
        exact ih _ (by omega) (by omega) (by omega)
      · next fails =>
        have := mt (front _).mpr fails
        exact ih _ (by omega) low (by omega)

theorem bisect_eq (ascending : l.Pairwise (·.precedes ·)) (m : Mark) :
    bisect (·.precedes m) l = place m l := by
  refine bisectFrom_eq (any_precedes_iff ascending m) (Nat.zero_le _) ?_
  rw [Nat.zero_add]
  exact (List.takeWhile_sublist _).length_le

theorem insertMark_eq (m : Mark) (l : List Mark) :
    insertMark m l = l.take (place m l) ++ m :: l.drop (place m l) := by
  induction l with
  | nil => rfl
  | cons n rest ih =>
    rw [insertMark]
    split
    · next hn =>
      rw [place_cons_of_pos hn, List.take_succ_cons, List.drop_succ_cons, List.cons_append, ← ih]
    · next hn => rw [place_cons_of_neg hn, List.take_zero, List.drop_zero, List.nil_append]

/-- In an ordered timeline the search finds the place of every mark. -/
theorem Ordered.putBisected_eq {t : Timeline} (ht : t.Ordered) (m : Mark) :
    t.putBisected m = t.put m := by
  have ascending := ht.ascending.filter (·.value != m.value)
  rw [putBisected, Timeline.put, bisect_eq ascending, insertMark_eq]

end DirectoryHistory.Timeline
