import DirectoryHistory.Stamp
import Mathlib.Order.Defs.LinearOrder
import Mathlib.Tactic.Order

/-!
# The order of stamps

Stamps are linearly ordered by their ranks, and the comparison by parts decides that order. The
newest of two optional stamps is their maximum.
-/

namespace DirectoryHistory.Stamp

theorem compare_eq_lt_iff {s t : Stamp} : compare s t = .lt ↔ s < t := by
  have h : compare s t = (compare s.time t.time).then
    ((compare s.sequence t.sequence).then (compare s.replica t.replica)) := rfl
  rw [h, lt_iff]
  simp only [Ordering.then_eq_lt, Std.compare_eq_lt, Std.LawfulEqCmp.compare_eq_iff_eq]

instance : LinearOrder Stamp where
  le_refl s := Nat.le_refl s.rank
  le_trans s t u := Nat.le_trans (n := s.rank) (m := t.rank) (k := u.rank)
  lt_iff_le_not_ge s t := Nat.lt_iff_le_and_not_ge (m := s.rank) (n := t.rank)
  le_antisymm s t hst hts := rank_inj.mp (Nat.le_antisymm hst hts)
  le_total s t := Nat.le_total s.rank t.rank
  toDecidableLE := inferInstance
  toDecidableLT := inferInstance
  toDecidableEq := inferInstance
  compare_eq_compareOfLessAndEq s t := by
    simp only [compareOfLessAndEq]
    split
    · next h => exact compare_eq_lt_iff.mpr h
    · next h =>
      split
      · next he => exact Std.LawfulEqCmp.compare_eq_iff_eq.mpr he
      · next he =>
        cases hc : compare s t with
        | lt => exact absurd (compare_eq_lt_iff.mp hc) h
        | eq => exact absurd (Std.LawfulEqCmp.compare_eq_iff_eq.mp hc) he
        | gt => rfl

theorem floorAt_le_iff {time : UInt64} {s : Stamp} : floorAt time ≤ s ↔ time ≤ s.time := by
  rw [← not_lt, lt_iff]
  simp only [floorAt, UInt64.le_iff_toNat_le, UInt64.lt_iff_toNat_lt, UInt32.lt_iff_toNat_lt,
    UInt16.lt_iff_toNat_lt, UInt32.toNat_zero, UInt16.toNat_zero]
  omega

@[simp] theorem newest_none (s : Option Stamp) : newest s none = s := by
  cases s <;> rfl

@[simp] theorem newest_some (s t : Stamp) : newest (some s) (some t) = some (max s t) := rfl

@[simp] theorem none_newest (s : Option Stamp) : newest none s = s := by
  cases s <;> rfl

theorem newest_some_spec (o : Option Stamp) (s : Stamp) : ∃ n, newest o (some s) = some n ∧
    s ≤ n ∧ (∀ r ∈ o, r ≤ n) ∧ (n = s ∨ o = some n) := by
  cases o with
  | none => exact ⟨s, rfl, le_rfl, by simp, .inl rfl⟩
  | some r =>
    refine ⟨max r s, rfl, le_max_right r s, by simp, ?_⟩
    rcases le_total r s with h | h
    · exact .inl (max_eq_right h)
    · exact .inr (congrArg some (max_eq_left h).symm)

end DirectoryHistory.Stamp
