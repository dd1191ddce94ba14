import DirectoryHistory.Text.Decimal
import Mathlib.Data.List.Basic
import Mathlib.Data.Nat.Basic

/-!
# Decimal numbers are read as they were written

The digits of a number are read back as that number, and only zero itself begins with a zero.
-/

namespace DirectoryHistory.Text

theorem toList_decimal (n : Nat) : (decimal n).toList = Nat.toDigits 10 n :=
  Nat.toList_repr

theorem decimalValue?_digitChar {d : Nat} (h : d < 10) : decimalValue? d.digitChar = some d := by
  have all : ∀ m ∈ List.range 10, decimalValue? m.digitChar = some m := by decide
  exact all d (List.mem_range.mpr h)

theorem isDecimalDigit_of_mem_decimal {n : Nat} {c : Char} (h : c ∈ (decimal n).toList) :
    isDecimalDigit c = true := by
  rw [toList_decimal] at h
  have digit := Nat.isDigit_of_mem_toDigits (by decide) le_rfl h
  simp only [Char.isDigit, Bool.and_eq_true, decide_eq_true_eq] at digit
  have range : '0' ≤ c ∧ c ≤ '9' := digit
  simp [isDecimalDigit, decimalValue?, range]

theorem toDigits_of_ge {n : Nat} (h : 10 ≤ n) :
    Nat.toDigits 10 n = Nat.toDigits 10 (n / 10) ++ [(n % 10).digitChar] := by
  rw [Nat.toDigits_eq_if (by decide), if_neg (by omega)]

theorem readDigits?_decimal (n : Nat) : readDigits? (decimal n).toList = some n := by
  have fold : (Nat.toDigits 10 n).foldl
      (fun acc c => acc.bind fun n => (decimalValue? c).map (10 * n + ·)) (some 0) = some n := by
    induction n using Nat.strong_induction_on with
    | _ n ih =>
      by_cases small : n < 10
      · rw [Nat.toDigits_of_lt_base small]
        simp [decimalValue?_digitChar small]
      · have last : n % 10 < 10 := Nat.mod_lt _ (by decide)
        rw [toDigits_of_ge (by omega), List.foldl_append, ih (n / 10) (by omega)]
        simp [decimalValue?_digitChar last, Nat.div_add_mod]
  rw [toList_decimal]
  cases digits : Nat.toDigits 10 n with
  | nil => exact absurd digits Nat.toDigits_ne_nil
  | cons c rest =>
    rw [digits] at fold
    exact fold

theorem eq_zero_of_head?_decimal {n : Nat} (h : (decimal n).toList.head? = some '0') : n = 0 := by
  rw [toList_decimal] at h
  induction n using Nat.strong_induction_on with
  | _ n ih =>
    by_cases small : n < 10
    · rw [Nat.toDigits_of_lt_base small] at h
      have value := decimalValue?_digitChar small
      rw [Option.some.inj h] at value
      exact (Option.some.inj value).symm
    · rw [toDigits_of_ge (by omega), List.head?_append_of_ne_nil _ Nat.toDigits_ne_nil] at h
      have := ih (n / 10) (by omega) h
      omega

end DirectoryHistory.Text
