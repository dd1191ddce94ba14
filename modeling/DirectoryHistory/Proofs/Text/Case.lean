import DirectoryHistory.Proofs.Text.Pieces
import DirectoryHistory.Replica

/-!
# Names up to case

Full lower case does not see the case of ASCII letters. So a rename to a leaf whose value equals that
of the old one up to the case of ASCII letters is no change of name, as long as the attributes of both
leaves stand as they do in every leaf that is made from text.
-/

namespace DirectoryHistory

namespace Text

theorem toNat_lowerAsciiByte (b : UInt8) : (lowerAsciiByte b).toNat =
    if 65 ≤ b.toNat ∧ b.toNat ≤ 90 then b.toNat + 32 else b.toNat := by
  have upper : 65 ≤ b ∧ b ≤ 90 ↔ 65 ≤ b.toNat ∧ b.toNat ≤ 90 := Iff.rfl
  simp only [lowerAsciiByte, upper]
  split
  · next h =>
    rw [UInt8.toNat_add]
    exact Nat.mod_eq_of_lt (by simp; omega)
  · rfl

theorem lowerAsciiByte_of_lt {b : UInt8} (h : 90 < b.toNat) : lowerAsciiByte b = b := by
  apply UInt8.toNat_inj.mp
  rw [toNat_lowerAsciiByte, if_neg (by omega)]

theorem lowerAsciiChar_of_lt {c : Char} (h : 90 < c.toNat) : lowerAsciiChar c = c := by
  apply Char.toNat_inj.mp
  rw [toNat_lowerAsciiChar, if_neg (by omega)]

theorem le_toNat_of_mem_utf8EncodeChar {c : Char} (h : 128 ≤ c.toNat) {b : UInt8}
    (hb : b ∈ String.utf8EncodeChar c) : 128 ≤ b.toNat := by
  have h : ¬c.val.toNat ≤ 127 := by
    have : 128 ≤ c.val.toNat := h
    omega
  simp only [String.utf8EncodeChar, if_neg h] at hb
  split at hb
  · simp only [List.mem_cons, List.not_mem_nil, or_false] at hb
    rcases hb with rfl | rfl
    all_goals
      rw [UInt8.toNat_ofNat']
      omega
  split at hb
  · simp only [List.mem_cons, List.not_mem_nil, or_false] at hb
    rcases hb with rfl | rfl | rfl
    all_goals
      rw [UInt8.toNat_ofNat']
      omega
  · simp only [List.mem_cons, List.not_mem_nil, or_false] at hb
    rcases hb with rfl | rfl | rfl | rfl
    all_goals
      rw [UInt8.toNat_ofNat']
      omega

theorem map_lowerAsciiByte_utf8EncodeChar (c : Char) :
    (String.utf8EncodeChar c).map lowerAsciiByte = String.utf8EncodeChar (lowerAsciiChar c) := by
  by_cases h : c.toNat < 128
  · have lower := toNat_lowerAsciiChar c
    have small : (lowerAsciiChar c).toNat < 128 := by
      split at lower <;> omega
    rw [utf8EncodeChar_of_lt h, utf8EncodeChar_of_lt small, List.map_singleton]
    refine congrArg (fun b => [b]) (UInt8.toNat_inj.mp ?_)
    have fits : ∀ {n}, n < 128 → (UInt8.ofNat n).toNat = n := fun hn => by
      rw [UInt8.toNat_ofNat']
      omega
    rw [toNat_lowerAsciiByte, fits h, fits small, lower]
  · have high : ∀ b ∈ String.utf8EncodeChar c, lowerAsciiByte b = b := fun b hb => by
      have := le_toNat_of_mem_utf8EncodeChar (Nat.not_lt.mp h) hb
      exact lowerAsciiByte_of_lt (by omega)
    rw [lowerAsciiChar_of_lt (by omega), List.map_congr_left high, List.map_id']

theorem map_lowerAsciiByte_ofText (s : String) :
    (Octets.ofText s).map lowerAsciiByte = Octets.ofText (lowerAscii s) := by
  have text : Octets.ofText s = s.toList.flatMap String.utf8EncodeChar := by
    rw [← Octets.ofText_ofList, String.ofList_toList]
  rw [text, lowerAscii, Octets.ofText_ofList, List.map_flatMap, List.flatMap_map]
  simp only [map_lowerAsciiByte_utf8EncodeChar]

theorem Ranges.holds_iff {r : Ranges} {c : Char} :
    r.holds c = true ↔ ∃ p ∈ r.toList, p.1 ≤ c.toNat ∧ c.toNat ≤ p.2 := by
  simp only [holds, ← Array.any_toList, List.any_eq_true, Bool.and_eq_true, decide_eq_true_eq]

theorem isCased_of_letter {c : Char}
    (h : 65 ≤ c.toNat ∧ c.toNat ≤ 90 ∨ 97 ≤ c.toNat ∧ c.toNat ≤ 122) : isCased c = true := by
  have ranges : (65, 90) ∈ casedRanges.toList ∧ (97, 122) ∈ casedRanges.toList := by
    decide +kernel
  exact Ranges.holds_iff.mpr (h.elim (fun upper => ⟨_, ranges.1, upper⟩)
    fun lower => ⟨_, ranges.2, lower⟩)

theorem isCaseIgnorable_of_letter {c : Char}
    (h : 65 ≤ c.toNat ∧ c.toNat ≤ 90 ∨ 97 ≤ c.toNat ∧ c.toNat ≤ 122) :
    isCaseIgnorable c = false := by
  have beside : ∀ p ∈ caseIgnorableRanges.toList, p.2 < 65 ∨ 90 < p.1 ∧ p.2 < 97 ∨ 122 < p.1 := by
    decide +kernel
  rw [isCaseIgnorable, Bool.eq_false_iff, Ne, Ranges.holds_iff]
  rintro ⟨p, hp, within⟩
  have := beside p hp
  omega

theorem isCased_lowerAsciiChar (c : Char) : isCased (lowerAsciiChar c) = isCased c ∧
    isCaseIgnorable (lowerAsciiChar c) = isCaseIgnorable c := by
  by_cases h : 65 ≤ c.toNat ∧ c.toNat ≤ 90
  · have lower := toNat_lowerAsciiChar c
    rw [if_pos h] at lower
    have lowered : 97 ≤ (lowerAsciiChar c).toNat ∧ (lowerAsciiChar c).toNat ≤ 122 := by
      omega
    rw [isCased_of_letter (.inl h), isCased_of_letter (.inr lowered),
      isCaseIgnorable_of_letter (.inl h), isCaseIgnorable_of_letter (.inr lowered)]
    exact ⟨rfl, rfl⟩
  · have same : lowerAsciiChar c = c := by
      apply Char.toNat_inj.mp
      rw [toNat_lowerAsciiChar, if_neg h]
    rw [same]
    exact ⟨rfl, rfl⟩

theorem startsCased_map_lowerAsciiChar (cs : List Char) :
    startsCased (cs.map lowerAsciiChar) = startsCased cs := by
  induction cs with
  | nil => rfl
  | cons c cs ih =>
    obtain ⟨cased, ignorable⟩ := isCased_lowerAsciiChar c
    cases seen : isCaseIgnorable c with
    | true =>
      rw [seen] at ignorable
      simpa [startsCased, seen, ignorable] using ih
    | false =>
      rw [seen] at ignorable
      simp [startsCased, seen, ignorable, cased]

theorem lowerChar_lowerAsciiChar (c : Char) : lowerChar (lowerAsciiChar c) = lowerChar c := by
  by_cases h : c.toNat < 0x80
  · have lower := toNat_lowerAsciiChar c
    have small : (lowerAsciiChar c).toNat < 0x80 := by
      split at lower <;> omega
    rw [lowerChar, lowerChar, if_pos h, if_pos small, lowerAsciiChar_lowerAsciiChar]
  · rw [lowerAsciiChar_of_lt (by omega)]

theorem lowercaseAfter_map_lowerAsciiChar (before cs : List Char) :
    lowercaseAfter (before.map lowerAsciiChar) (cs.map lowerAsciiChar) = lowercaseAfter before cs := by
  induction cs generalizing before with
  | nil => rfl
  | cons c cs ih =>
    have beyond : ∀ d : Char, 0x80 ≤ d.toNat → (lowerAsciiChar c = d ↔ c = d) := by
      intro d hd
      constructor
      · intro h
        have value := congrArg Char.toNat h
        rw [toNat_lowerAsciiChar] at value
        rw [← h, lowerAsciiChar_of_lt]
        split at value <;> omega
      · rintro rfl
        exact lowerAsciiChar_of_lt (by omega)
    have rest := ih (c :: before)
    rw [List.map_cons] at rest
    simp only [List.map_cons, lowercaseAfter, beyond '\u03a3' (by decide),
      beyond '\u0130' (by decide), startsCased_map_lowerAsciiChar, lowerChar_lowerAsciiChar, rest]

theorem lowercase_lowerAscii (s : String) : lowercase (lowerAscii s) = lowercase s := by
  rw [lowercase, lowercase, lowerAscii, String.toList_ofList]
  exact congrArg String.ofList (lowercaseAfter_map_lowerAsciiChar [] s.toList)

end Text

namespace RelativeName

/-- The attribute stands as it does in every name that is made from text. -/
def IsTidy (n : RelativeName) : Prop :=
  Attribute.make n.attr = ⟨n.attr, []⟩

instance : DecidablePred IsTidy := fun _ =>
  inferInstanceAs (Decidable (_ = _))

theorem same_of_sameIgnoringCase {m n : RelativeName} (attr : m.attr = n.attr)
    (value : Replica.sameIgnoringCase (.ofText m.value) (.ofText n.value) = true) :
    m.same n = true := by
  rw [Replica.sameIgnoringCase, beq_iff_eq, Text.map_lowerAsciiByte_ofText,
    Text.map_lowerAsciiByte_ofText, Octets.ofText_inj] at value
  have lowered : Text.lowercase m.value = Text.lowercase n.value := by
    rw [← Text.lowercase_lowerAscii, value, Text.lowercase_lowerAscii]
  simp only [same, folded, attr, lowered, BEq.rfl]

end RelativeName

end DirectoryHistory
