import DirectoryHistory.Proofs.Text.Ascii
import DirectoryHistory.Stamp
import Mathlib.Algebra.Group.Nat.Defs

/-!
# Reading stamps back

The 28 digits of a stamp give back its three parts.
-/

namespace DirectoryHistory

namespace Text

theorem hexDigit_spec {n : Nat} (h : n < 16) :
    (hexDigit n).toNat < 128 ∧ isAlphanumeric (hexDigit n) = true := by
  have all : ∀ m ∈ List.range 16,
      (hexDigit m).toNat < 128 ∧ isAlphanumeric (hexDigit m) = true := by decide
  exact all n (List.mem_range.mpr h)

theorem fixedHex_spec {width n : Nat} {c : Char} (h : c ∈ fixedHex width n) :
    c.toNat < 128 ∧ isAlphanumeric c = true := by
  induction width generalizing n with
  | zero => simp [fixedHex] at h
  | succ width ih =>
    rcases List.mem_append.mp h with h | h
    · exact ih h
    · rw [List.mem_singleton.mp h]
      exact hexDigit_spec (Nat.mod_lt _ (by decide))

theorem readHex?_fixedHex (width n : Nat) :
    readHex? (fixedHex width n) = some (n % 16 ^ width) := by
  induction width generalizing n with
  | zero => simp [fixedHex, readHex?, Nat.mod_one]
  | succ width ih =>
    have front := ih (n / 16)
    have digit := hexValue?_hexDigit (Nat.mod_lt n (by decide : 0 < 16))
    have parts : n % 16 ^ (width + 1) = 16 * (n / 16 % 16 ^ width) + n % 16 := by
      rw [Nat.pow_succ, Nat.mul_comm, Nat.mod_mul, Nat.add_comm]
    rw [readHex?] at front ⊢
    rw [fixedHex, List.foldl_append, front, parts]
    simp [digit]

end Text

namespace Stamp

theorem chars_spec (s : Stamp) {c : Char} (h : c ∈ s.text.toList) :
    c.toNat < 128 ∧ Text.isAlphanumeric c = true := by
  rw [text, String.toList_ofList, List.mem_append, List.mem_append] at h
  rcases h with (h | h) | h <;> exact Text.fixedHex_spec h

theorem colonless_text (s : Stamp) : ':' ∉ s.text.toList := fun hc => by
  have := (s.chars_spec hc).2
  revert this
  decide

/-- A stamp is read back from its text. -/
theorem parse_text (s : Stamp) : parse s.text = .ok s := by
  have time := Text.length_fixedHex 16 s.time.toNat
  have replica := Text.length_fixedHex 4 s.replica.toNat
  have sequence := Text.length_fixedHex 8 s.sequence.toNat
  have size : s.text.utf8ByteSize = 28 := by
    have ascii : ∀ c ∈ s.text.toList, c.toNat < 128 := fun c hc => (s.chars_spec hc).1
    rw [← String.ofList_toList (s := s.text), Text.utf8ByteSize_ofList ascii]
    simp [text, time, replica, sequence]
  rw [parse, if_neg (by simp [size])]
  have digits : s.text.toList = Text.fixedHex 16 s.time.toNat ++
      (Text.fixedHex 4 s.replica.toNat ++ Text.fixedHex 8 s.sequence.toNat) := by
    simp [text]
  have first : s.text.toList.take 16 = Text.fixedHex 16 s.time.toNat := by
    rw [digits, List.take_left' time]
  have second : (s.text.toList.drop 16).take 4 = Text.fixedHex 4 s.replica.toNat := by
    rw [digits, List.drop_left' time, List.take_left' replica]
  have third : s.text.toList.drop 20 = Text.fixedHex 8 s.sequence.toNat := by
    have : s.text.toList.drop 20 = (s.text.toList.drop 16).drop 4 := by rw [List.drop_drop]
    rw [this, digits, List.drop_left' time, List.drop_left' replica]
  have htime := s.time.toNat_lt
  have hreplica := s.replica.toNat_lt
  have hsequence := s.sequence.toNat_lt
  simp only [first, second, third, Text.readHex?_fixedHex]
  rw [Nat.mod_eq_of_lt (by omega), Nat.mod_eq_of_lt (by omega), Nat.mod_eq_of_lt (by omega),
    UInt64.ofNat_toNat, UInt32.ofNat_toNat, UInt16.ofNat_toNat]

end Stamp

end DirectoryHistory
