import DirectoryHistory.Proofs.Stamp.Text
import DirectoryHistory.Proofs.Text.Pieces
import Mathlib.Data.List.Induction

/-!
# Which texts are stamps

A text is read as a stamp exactly if it is 28 octets long and each of them is a hexadecimal digit.
The stamp is then written as the text in lower case, so that no two stamps share a text and a text
gives all three parts, up to the greatest.
-/

namespace DirectoryHistory

namespace Text

/-- The octets of hexadecimal digits, in either case. -/
def isHexOctet (b : UInt8) : Bool :=
  (0x30 ≤ b && b ≤ 0x39) || (0x61 ≤ b && b ≤ 0x66) || (0x41 ≤ b && b ≤ 0x46)

theorem isHexOctet_iff {b : UInt8} : isHexOctet b = true ↔ 48 ≤ b.toNat ∧ b.toNat ≤ 57 ∨
    97 ≤ b.toNat ∧ b.toNat ≤ 102 ∨ 65 ≤ b.toNat ∧ b.toNat ≤ 70 := by
  simp only [isHexOctet, Bool.or_eq_true, Bool.and_eq_true, decide_eq_true_eq, or_assoc,
    UInt8.le_iff_toNat_le]
  exact Iff.rfl

theorem hexValue?_eq (c : Char) : hexValue? c =
    if 48 ≤ c.toNat ∧ c.toNat ≤ 57 then some (c.toNat - 48)
    else if 97 ≤ c.toNat ∧ c.toNat ≤ 102 then some (c.toNat - 87)
    else if 65 ≤ c.toNat ∧ c.toNat ≤ 70 then some (c.toNat - 55)
    else none := by
  have digit : '0' ≤ c ∧ c ≤ '9' ↔ 48 ≤ c.toNat ∧ c.toNat ≤ 57 := Iff.rfl
  have lower : 'a' ≤ c ∧ c ≤ 'f' ↔ 97 ≤ c.toNat ∧ c.toNat ≤ 102 := Iff.rfl
  have upper : 'A' ≤ c ∧ c ≤ 'F' ↔ 65 ≤ c.toNat ∧ c.toNat ≤ 70 := Iff.rfl
  simp only [hexValue?, digit, lower, upper]

theorem isSome_hexValue?_iff {c : Char} : (hexValue? c).isSome = true ↔
    48 ≤ c.toNat ∧ c.toNat ≤ 57 ∨ 97 ≤ c.toNat ∧ c.toNat ≤ 102 ∨ 65 ≤ c.toNat ∧ c.toNat ≤ 70 := by
  rw [hexValue?_eq]
  split_ifs <;> simp_all

theorem toNat_hexDigit {n : Nat} (h : n < 16) :
    (hexDigit n).toNat = if n < 10 then 48 + n else 87 + n := by
  rw [hexDigit]
  split <;> exact toNat_ofNat (by omega)

/-- The digit that stands for the value of `c` is `c` in lower case. -/
theorem hexDigit_of_hexValue? {c : Char} {n : Nat} (h : hexValue? c = some n) :
    n < 16 ∧ hexDigit n = lowerAsciiChar c := by
  have value : n < 16 ∧ (if n < 10 then 48 + n else 87 + n) =
      if 65 ≤ c.toNat ∧ c.toNat ≤ 90 then c.toNat + 32 else c.toNat := by
    rw [hexValue?_eq] at h
    split_ifs at h <;> cases h <;> split_ifs <;> omega
  refine ⟨value.1, Char.toNat_inj.mp ?_⟩
  rw [toNat_hexDigit value.1, toNat_lowerAsciiChar, value.2]

/-- Beyond ASCII the leading octet of a character is none of ASCII. -/
theorem exists_mem_utf8EncodeChar {c : Char} (h : 128 ≤ c.toNat) :
    ∃ b ∈ String.utf8EncodeChar c, 128 ≤ b.toNat := by
  have large : ¬c.val.toNat ≤ 0x7f := Nat.not_le.mpr h
  have leading : ∀ n, 128 ≤ n → n < 256 → 128 ≤ (UInt8.ofNat n).toNat := by
    intro n low high
    rwa [UInt8.toNat_ofNat', Nat.mod_eq_of_lt high]
  simp only [String.utf8EncodeChar, if_neg large]
  split_ifs <;> exact ⟨_, .head _, leading _ (by omega) (by omega)⟩

theorem forall_mem_utf8EncodeChar_iff {c : Char} :
    (∀ b ∈ String.utf8EncodeChar c, isHexOctet b = true) ↔ (hexValue? c).isSome = true := by
  by_cases ascii : c.toNat < 128
  · rw [utf8EncodeChar_of_lt ascii, List.forall_mem_singleton, isHexOctet_iff, isSome_hexValue?_iff,
      UInt8.toNat_ofNat', Nat.mod_eq_of_lt (by omega)]
  · refine iff_of_false (fun all => ?_) (fun digit => ?_)
    · obtain ⟨b, hb, large⟩ := exists_mem_utf8EncodeChar (Nat.not_lt.mp ascii)
      have := isHexOctet_iff.mp (all b hb)
      omega
    · have := isSome_hexValue?_iff.mp digit
      omega

theorem forall_mem_ofText_iff (cs : List Char) :
    (∀ b ∈ Octets.ofText (String.ofList cs), isHexOctet b = true) ↔
      ∀ c ∈ cs, (hexValue? c).isSome = true := by
  rw [Octets.ofText_ofList, List.forall_mem_flatMap]
  exact forall₂_congr fun c _ => forall_mem_utf8EncodeChar_iff

theorem readHex?_append (cs : List Char) (c : Char) : readHex? (cs ++ [c]) =
    (readHex? cs).bind fun n => (hexValue? c).map (16 * n + ·) := by
  simp [readHex?]

theorem isSome_readHex?_iff {cs : List Char} :
    (readHex? cs).isSome = true ↔ ∀ c ∈ cs, (hexValue? c).isSome = true := by
  induction cs using List.reverseRecOn with
  | nil => simp [readHex?]
  | append_singleton cs c ih =>
    rw [readHex?_append, List.forall_mem_append, List.forall_mem_singleton, ← ih]
    cases readHex? cs <;> simp

theorem fixedHex_of_readHex? {cs : List Char} {n : Nat} (width : Nat) (length : cs.length = width)
    (h : readHex? cs = some n) :
    n < 16 ^ width ∧ fixedHex width n = cs.map lowerAsciiChar := by
  subst length
  induction cs using List.reverseRecOn generalizing n with
  | nil =>
    cases h
    exact ⟨Nat.one_pos, rfl⟩
  | append_singleton cs c ih =>
    rw [readHex?_append, Option.bind_eq_some_iff] at h
    obtain ⟨front, read, last⟩ := h
    obtain ⟨value, digit, rfl⟩ := Option.map_eq_some_iff.mp last
    obtain ⟨bound, written⟩ := ih read
    obtain ⟨small, lower⟩ := hexDigit_of_hexValue? digit
    have quotient : (16 * front + value) / 16 = front := by omega
    have remainder : (16 * front + value) % 16 = value := by omega
    rw [List.length_append, List.length_singleton, Nat.pow_succ]
    refine ⟨by omega, ?_⟩
    rw [fixedHex, quotient, remainder, written, lower, List.map_append, List.map_singleton]

end Text

namespace Stamp

/-- Whether the text is 28 octets long and made of hexadecimal digits. -/
def IsLegible (t : String) : Prop :=
  (Octets.ofText t).length = 28 ∧ ∀ b ∈ Octets.ofText t, Text.isHexOctet b = true

variable {t : String}

theorem isLegible_iff : IsLegible t ↔
    t.utf8ByteSize = 28 ∧ ∀ c ∈ t.toList, (Text.hexValue? c).isSome = true := by
  have octets := Text.forall_mem_ofText_iff t.toList
  rw [String.ofList_toList] at octets
  rw [IsLegible, octets]
  exact Iff.rfl

theorem IsLegible.length_toList (h : IsLegible t) : t.toList.length = 28 := by
  obtain ⟨size, digits⟩ := isLegible_iff.mp h
  have ascii : ∀ c ∈ t.toList, c.toNat < 128 := by
    intro c hc
    have := Text.isSome_hexValue?_iff.mp (digits c hc)
    omega
  rw [← Text.utf8ByteSize_ofList ascii, String.ofList_toList, size]

theorem append_fields (cs : List Char) :
    cs.take 16 ++ ((cs.drop 16).take 4 ++ cs.drop 20) = cs := by
  have behind : cs.drop 20 = (cs.drop 16).drop 4 := by rw [List.drop_drop]
  rw [behind, List.take_append_drop, List.take_append_drop]

/-- A text of 28 digits is read, and written again in lower case. -/
theorem IsLegible.exists_parse_eq_ok (h : IsLegible t) :
    ∃ s, parse t = .ok s ∧ s.text = Text.lowerAscii t := by
  obtain ⟨size, digits⟩ := isLegible_iff.mp h
  have field : ∀ cs : List Char, cs ⊆ t.toList → ∃ n, Text.readHex? cs = some n := fun cs part =>
    Option.isSome_iff_exists.mp (Text.isSome_readHex?_iff.mpr fun c hc => digits c (part hc))
  obtain ⟨time, readTime⟩ := field (t.toList.take 16) (List.take_subset ..)
  obtain ⟨replica, readReplica⟩ := field ((t.toList.drop 16).take 4)
    (List.Subset.trans (List.take_subset ..) (List.drop_subset ..))
  obtain ⟨sequence, readSequence⟩ := field (t.toList.drop 20) (List.drop_subset ..)
  refine ⟨⟨UInt64.ofNat time, UInt32.ofNat sequence, UInt16.ofNat replica⟩, ?_, ?_⟩
  · rw [parse, if_neg (not_not.mpr size)]
    simp only [readTime, readReplica, readSequence]
  · have length := h.length_toList
    obtain ⟨boundTime, writtenTime⟩ :=
      Text.fixedHex_of_readHex? 16 (by simp [length]) readTime
    obtain ⟨boundReplica, writtenReplica⟩ :=
      Text.fixedHex_of_readHex? 4 (by simp [length]) readReplica
    obtain ⟨boundSequence, writtenSequence⟩ :=
      Text.fixedHex_of_readHex? 8 (by simp [length]) readSequence
    rw [text, UInt64.toNat_ofNat', UInt16.toNat_ofNat', UInt32.toNat_ofNat',
      Nat.mod_eq_of_lt (by omega), Nat.mod_eq_of_lt (by omega), Nat.mod_eq_of_lt (by omega),
      writtenTime, writtenReplica, writtenSequence, ← List.map_append, ← List.map_append,
      List.append_assoc, append_fields, Text.lowerAscii]

theorem parse_of_size (h : (Octets.ofText t).length ≠ 28) : parse t = .error ⟨t, .size⟩ :=
  if_pos h

theorem parse_of_digit {b : UInt8} (size : (Octets.ofText t).length = 28)
    (hb : b ∈ Octets.ofText t) (other : Text.isHexOctet b = false) :
    parse t = .error ⟨t, .digit⟩ := by
  have illegible : ¬IsLegible t := fun h => by simp [h.2 b hb] at other
  have fields : ¬((Text.readHex? (t.toList.take 16)).isSome = true ∧
      (Text.readHex? ((t.toList.drop 16).take 4)).isSome = true ∧
      (Text.readHex? (t.toList.drop 20)).isSome = true) := by
    intro all
    rw [Text.isSome_readHex?_iff, Text.isSome_readHex?_iff, Text.isSome_readHex?_iff,
      ← List.forall_mem_append, ← List.forall_mem_append, append_fields] at all
    exact illegible (isLegible_iff.mpr ⟨size, all⟩)
  have size : ¬t.utf8ByteSize ≠ 28 := not_not.mpr size
  rw [parse, if_neg size]
  dsimp only
  split
  · next time replica sequence => simp [time, replica, sequence] at fields
  · rfl

theorem text_inj {s s' : Stamp} : s.text = s'.text ↔ s = s' := by
  refine ⟨fun same => ?_, congrArg text⟩
  have read := parse_text s
  rw [same, parse_text] at read
  exact (Except.ok.inj read).symm

theorem parse_cases (t : String) :
    (IsLegible t ∧ ∃ s, parse t = .ok s ∧ s.text = Text.lowerAscii t) ∨
      ((Octets.ofText t).length ≠ 28 ∧ parse t = .error ⟨t, .size⟩) ∨
      ((Octets.ofText t).length = 28 ∧ (∃ b ∈ Octets.ofText t, Text.isHexOctet b = false) ∧
        parse t = .error ⟨t, .digit⟩) := by
  by_cases size : (Octets.ofText t).length = 28
  · by_cases digits : ∀ b ∈ Octets.ofText t, Text.isHexOctet b = true
    · exact .inl ⟨⟨size, digits⟩, IsLegible.exists_parse_eq_ok ⟨size, digits⟩⟩
    · simp only [not_forall, Bool.not_eq_true] at digits
      obtain ⟨b, hb, other⟩ := digits
      exact .inr (.inr ⟨size, ⟨b, hb, other⟩, parse_of_digit size hb other⟩)
  · exact .inr (.inl ⟨size, parse_of_size size⟩)

theorem parse_eq_ok_iff {s : Stamp} :
    parse t = .ok s ↔ IsLegible t ∧ s.text = Text.lowerAscii t := by
  rcases parse_cases t with ⟨legible, r, read, written⟩ | ⟨size, read⟩ | ⟨-, ⟨b, hb, other⟩, read⟩
  · rw [read, ← written, text_inj, Except.ok.injEq, eq_comm, and_iff_right legible]
  · exact iff_of_false (by simp [read]) fun h => size h.1.1
  · exact iff_of_false (by simp [read]) fun h => by simp [h.1.2 b hb] at other

theorem parse_eq_size_iff : parse t = .error ⟨t, .size⟩ ↔ (Octets.ofText t).length ≠ 28 := by
  rcases parse_cases t with ⟨legible, r, read, -⟩ | ⟨size, read⟩ | ⟨size, -, read⟩
  · simp [read, legible.1]
  · exact iff_of_true read size
  · simp [read, size]

theorem parse_eq_digit_iff : parse t = .error ⟨t, .digit⟩ ↔
    (Octets.ofText t).length = 28 ∧ ∃ b ∈ Octets.ofText t, Text.isHexOctet b = false := by
  rcases parse_cases t with ⟨legible, r, read, -⟩ | ⟨size, read⟩ | ⟨size, other, read⟩
  · refine iff_of_false (by simp [read]) ?_
    rintro ⟨-, b, hb, other⟩
    simp [legible.2 b hb] at other
  · simp [read, size]
  · exact iff_of_true read ⟨size, other⟩

/-- Every stamp is read back from its text. A text is read exactly if it is 28 octets long and made
of hexadecimal digits, as the stamp that is written as the text in lower case; otherwise its size is
the flaw or, when that is right, an octet that is no digit. -/
theorem parse_iff_isLegible :
    (∀ s : Stamp, parse s.text = .ok s) ∧
    ∀ t : String, ((∃ s, parse t = .ok s) ↔ IsLegible t) ∧
      (∀ s, parse t = .ok s ↔ IsLegible t ∧ s.text = Text.lowerAscii t) ∧
      (parse t = .error ⟨t, .size⟩ ↔ (Octets.ofText t).length ≠ 28) ∧
      (parse t = .error ⟨t, .digit⟩ ↔ (Octets.ofText t).length = 28 ∧
        ∃ b ∈ Octets.ofText t, Text.isHexOctet b = false) := by
  refine ⟨parse_text, fun t => ⟨⟨?_, ?_⟩, fun s => parse_eq_ok_iff, parse_eq_size_iff,
    parse_eq_digit_iff⟩⟩
  · rintro ⟨s, read⟩
    exact (parse_eq_ok_iff.mp read).1
  · intro legible
    obtain ⟨s, read, -⟩ := legible.exists_parse_eq_ok
    exact ⟨s, read⟩

/-- Digits of both cases give the greatest parts. -/
example : parse "ffffFFFFffffFFFFfFfFffffFFFF" = .ok ⟨0xffffffffffffffff, 0xffffffff, 0xffff⟩ := by
  cbv

end Stamp

end DirectoryHistory
