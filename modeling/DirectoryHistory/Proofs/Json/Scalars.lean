import DirectoryHistory.Json.Reader
import DirectoryHistory.Json.Writer
import DirectoryHistory.Proofs.Stamp.Text
import DirectoryHistory.Proofs.Text.Decimal
import Mathlib.Data.List.TakeDrop

/-!
# Strings and numbers as JSON

A string is read back from its literal, whatever its characters are and whatever follows it. A number
is read back if what follows it cannot be taken for a part of it.
-/

namespace DirectoryHistory.Json

theorem not_isSurrogate (c : Char) : isSurrogate c.toNat = false := by
  have valid : c.toNat < 0xd800 ∨ 0xdfff < c.toNat ∧ c.toNat < 0x110000 := c.valid
  simp only [isSurrogate, Bool.and_eq_false_iff, decide_eq_false_iff_not]
  omega

theorem joinSurrogates_eq_self {l : List Nat} (h : ∀ n ∈ l, isSurrogate n = false) :
    joinSurrogates l = l := by
  fun_induction joinSurrogates l with
  | case1 => rfl
  | case2 n => rfl
  | case3 m n rest pair =>
    have lead := h m (.head _)
    simp only [isSurrogate, Bool.and_eq_false_iff, decide_eq_false_iff_not] at lead
    omega
  | case4 m n rest _ ih => rw [ih fun k hk => h k (.tail _ hk)]

variable {rest : List Char}

theorem readString_escaped (c : Char) (read : List Nat) :
    readString read false (escaped c.toNat ++ rest) = readString (c.toNat :: read) false rest := by
  have short : ∀ n ∈ [0x22, 0x5c, 8, 9, 10, 12, 13], readString read false (escaped n ++ rest) =
      readString (n :: read) false rest := by
    simp only [List.forall_mem_cons]
    exact ⟨rfl, rfl, rfl, rfl, rfl, rfl, rfl, List.forall_mem_nil _⟩
  by_cases isShort : c.toNat ∈ [0x22, 0x5c, 8, 9, 10, 12, 13]
  · exact short _ isShort
  · simp only [List.mem_cons, List.not_mem_nil, or_false, not_or] at isShort
    obtain ⟨quote, backslash, long⟩ := isShort
    by_cases control : c.toNat < 0x20
    · have written : escaped c.toNat = '\\' :: 'u' :: Text.fixedHex 4 c.toNat := by
        simp [escaped, quote, backslash, long, control]
      have digits : Text.readHex? (Text.fixedHex 4 c.toNat) = some c.toNat := by
        rw [Text.readHex?_fixedHex, Nat.mod_eq_of_lt (by omega)]
      simp only [Text.fixedHex, List.nil_append, List.cons_append] at digits
      simp only [written, Text.fixedHex, List.nil_append, List.cons_append, readString, digits]
    · have written : escaped c.toNat = [c] := by
        simp [escaped, quote, backslash, long, control, not_isSurrogate]
      have notQuote : c ≠ '"' := fun same => quote (congrArg Char.toNat same)
      have notBackslash : c ≠ '\\' := fun same => backslash (congrArg Char.toNat same)
      rw [written, List.singleton_append, readString, decide_eq_false control, Bool.or_false]
      all_goals simp [notQuote, notBackslash]

theorem readString_chars (cs : List Char) (read : List Nat) :
    readString read false ((cs.map Char.toNat).flatMap escaped ++ '"' :: rest) =
      some (⟨joinSurrogates (read.reverse ++ cs.map Char.toNat), false⟩, rest) := by
  induction cs generalizing read with
  | nil => simp [readString]
  | cons c cs ih =>
    rw [List.map_cons, List.flatMap_cons, List.append_assoc, readString_escaped, ih]
    simp

theorem toList_literal (t : Text) :
    t.literal.toList = '"' :: (t.points.flatMap escaped ++ ['"']) := by
  simp [Text.literal]

/-- A string is read back from its literal. -/
theorem readString_literal (s : String) :
    readString [] false ((s.toList.map Char.toNat).flatMap escaped ++ '"' :: rest) =
      some (Text.ofString s, rest) := by
  rw [readString_chars, List.reverse_nil, List.nil_append, joinSurrogates_eq_self]
  · rfl
  · exact List.forall_mem_map.mpr fun c _ => not_isSurrogate c

@[simp] theorem string?_ofString (s : String) : (Text.ofString s).string? = some s := by
  have whole : (s.toList.map Char.toNat).any isSurrogate = false := by
    simp [not_isSurrogate]
  simp [Text.string?, Text.ofString, whole, Function.comp_def]

/-- What follows a value in the pretty layout. -/
def Ends (rest : List Char) : Prop :=
  ∀ c ∈ rest.head?, c = ',' ∨ c = '\n'

theorem takeDigits_decimal (ends : Ends rest) (n : Nat) :
    takeDigits ((Text.decimal n).toList ++ rest) = ((Text.decimal n).toList, rest) := by
  have digits : ∀ c ∈ (Text.decimal n).toList, Text.isDecimalDigit c = true := fun c hc =>
    Text.isDecimalDigit_of_mem_decimal hc
  have stops : rest.takeWhile Text.isDecimalDigit = [] ∧
      rest.dropWhile Text.isDecimalDigit = rest := by
    cases rest with
    | nil => exact ⟨rfl, rfl⟩
    | cons c rest => rcases ends c rfl with rfl | rfl <;> exact ⟨rfl, rfl⟩
  rw [takeDigits, List.span_eq_takeWhile_dropWhile, List.takeWhile_append_of_pos digits,
    List.dropWhile_append_of_pos digits, stops.1, stops.2, List.append_nil]

theorem readFraction_of_ends (ends : Ends rest) : readFraction rest = some ([], rest) := by
  cases rest with
  | nil => rfl
  | cons c rest => rcases ends c rfl with rfl | rfl <;> rfl

theorem readExponent_of_ends (ends : Ends rest) : readExponent rest = some ([], rest) := by
  cases rest with
  | nil => rfl
  | cons c rest => rcases ends c rfl with rfl | rfl <;> cases rest <;> rfl

theorem readUnsigned_decimal (ends : Ends rest) (n : Nat) :
    readUnsigned ((Text.decimal n).toList ++ rest) = some ((Text.decimal n).toList, rest) := by
  have wellFormed : ¬((Text.decimal n).toList = [] ∨
      (Text.decimal n).toList.head? = some '0' ∧ (Text.decimal n).toList.length ≠ 1) := by
    rintro (none | ⟨zero, long⟩)
    · exact Nat.toDigits_ne_nil (Text.toList_decimal n ▸ none)
    · rw [Text.eq_zero_of_head?_decimal zero] at long
      exact long rfl
  simp only [readUnsigned, takeDigits_decimal ends, if_neg wellFormed, readFraction_of_ends ends]
  simp [readExponent_of_ends ends]

theorem readNumber_decimal (ends : Ends rest) (n : Nat) :
    readNumber ((Text.decimal n).toList ++ rest) = some ((Text.decimal n).toList, rest) := by
  rw [← readUnsigned_decimal ends n]
  cases digits : (Text.decimal n).toList with
  | nil => exact absurd (Text.toList_decimal n ▸ digits) Nat.toDigits_ne_nil
  | cons c cs =>
    have digit : Text.isDecimalDigit c = true := Text.isDecimalDigit_of_mem_decimal (n := n) (by simp [digits])
    have positive : c ≠ '-' := by
      rintro rfl
      cases digit
    rw [List.cons_append, readNumber]
    simpa using positive

end DirectoryHistory.Json
