import DirectoryHistory.Fact
import DirectoryHistory.Proofs.Attribute
import DirectoryHistory.Proofs.Stamp.Text
import DirectoryHistory.Proofs.Text.Base64

/-!
# Reading facts back

A fact is read back from its text if its attribute is in normal form, does not stand for the entry
itself and has no colon in an option.
-/

namespace DirectoryHistory

/-- Whether facts about the attribute can be told apart from all others. -/
structure Attribute.IsSlot (a : Attribute) : Prop where
  normal : a.IsNormal
  colonless : ':' ∉ a.chars
  notEntry : a.text ≠ entrySlot

/-- Whether the attribute was read from text and has no colon in an option. -/
def Attribute.IsPlain (a : Attribute) : Prop :=
  (∃ s, parse s = .ok a) ∧ ∀ o ∈ a.options, ':' ∉ o.toList

theorem Attribute.isPlain_iff {a : Attribute} :
    a.IsPlain ↔ parse a.text = .ok a ∧ ∀ o ∈ a.options, ':' ∉ o.toList := by
  constructor
  · rintro ⟨⟨s, parsed⟩, options⟩
    exact ⟨(isNormal_of_parse parsed).parse_text, options⟩
  · rintro ⟨parsed, options⟩
    exact ⟨⟨a.text, parsed⟩, options⟩

instance : DecidablePred Attribute.IsPlain := fun _ =>
  decidable_of_iff _ Attribute.isPlain_iff.symm

theorem Attribute.IsPlain.isNormal {a : Attribute} (h : a.IsPlain) : a.IsNormal := by
  obtain ⟨⟨s, parsed⟩, -⟩ := h
  exact isNormal_of_parse parsed

theorem Attribute.IsPlain.colonless {a : Attribute} (h : a.IsPlain) : ':' ∉ a.chars := by
  simp only [chars, List.mem_append, List.mem_flatMap, List.mem_cons, not_or, not_exists, not_and]
  refine ⟨fun hc => ?_, fun o ho => ⟨by decide, h.2 o ho⟩⟩
  have := isNameChar_iff.mp (h.isNormal.letters ':' hc)
  revert this
  decide

/-- Of the attributes called as the entry is in the text of a fact, only the one without options is
mistaken for it. -/
theorem Attribute.IsPlain.isSlot_of_ne {a : Attribute} (h : a.IsPlain)
    (notEntry : a ≠ ⟨entrySlot, []⟩) : a.IsSlot where
  normal := h.isNormal
  colonless := h.colonless
  notEntry := by
    intro he
    have chars := congrArg String.toList he
    rw [text, String.toList_ofList, Attribute.chars] at chars
    obtain ⟨name, options⟩ := a
    cases options with
    | nil =>
      rw [List.flatMap_nil, List.append_nil] at chars
      have same : name = entrySlot := String.toList_inj.mp chars
      exact notEntry (by rw [same])
    | cons o rest =>
      have : ';' ∈ entrySlot.toList := by
        rw [← chars]
        simp
      revert this
      decide

theorem Attribute.IsPlain.isSlot {a : Attribute} (h : a.IsPlain) (notEntry : a.name ≠ entrySlot) :
    a.IsSlot :=
  h.isSlot_of_ne fun he => notEntry (congrArg name he)

namespace Fact

/-- Whether the fact is of a form that is read back. -/
def IsReadable : Fact → Prop
  | created _ | renamed _ => True
  | about a _ kind value => a.IsSlot ∧ (value.isSome = true ↔ kind ≠ .deleteAttribute)

theorem ofText_base64Chars (v : Octets) :
    Octets.ofText (String.ofList (base64Chars v)) = Text.Base64.encode v :=
  Text.ofText_of_lt (Text.Base64.encode_lt v)

theorem decodeValue_base64Chars (v : Octets) : decodeValue (':' :: base64Chars v) = .ok v := by
  simp only [decodeValue, ofText_base64Chars, Text.Base64.decode_encode]
  rfl

theorem decodeValue_of_head {cs : List Char} (h : cs.head? ≠ some ':') :
    decodeValue cs = .ok (Octets.ofText (String.ofList cs)) := by
  cases cs with
  | nil => rfl
  | cons c rest =>
    have hc : c ≠ ':' := by simpa using h
    rw [decodeValue]
    rintro encoded he
    cases he
    exact hc rfl

theorem decodeValue_valueChars (v : Octets) : decodeValue (valueChars v) = .ok v := by
  rw [valueChars]
  split
  · next s hs =>
    split
    · exact decodeValue_base64Chars v
    · next plain =>
      have head : s.toList.head? ≠ some ':' := by
        intro he
        simp [needsBase64, he] at plain
      rw [decodeValue_of_head head, String.ofList_toList, Octets.text?_eq_some_iff.mp hs]
  · exact decodeValue_base64Chars v

theorem kindAndValue_word {word : List Char} (h : ':' ∉ word) :
    kindAndValue word = (String.ofList word, none) := by
  simp [kindAndValue, Text.cut_eq_none h]

theorem kindAndValue_value {word : List Char} (h : ':' ∉ word) (value : List Char) :
    kindAndValue (word ++ ':' :: value) = (String.ofList word, some value) := by
  simp [kindAndValue, Text.cut_append h]

theorem Kind.colonless (kind : Kind) : ':' ∉ kind.word.toList := by
  cases kind <;> decide

theorem Kind.ofWord?_word (kind : Kind) : ofWord? kind.word = some kind := by
  cases kind <;> decide

/-- A text falls into its slot, its stamp and the rest. -/
theorem ofChars_eq {slot : List Char} (h : ':' ∉ slot) (s : Stamp) (behind : List Char) :
    ofChars (slot ++ ':' :: (s.text.toList ++ ':' :: behind)) =
      if slot = Attribute.entrySlot.toList then
        ofEntrySlot s (kindAndValue behind).1 (kindAndValue behind).2
      else ofAttributeSlot slot s (kindAndValue behind).1 (kindAndValue behind).2 := by
  simp only [ofChars, Text.cut_append h, Text.cut_append s.colonless_text, String.ofList_toList,
    Stamp.parse_text]

theorem ofAttributeSlot_eq {a : Attribute} (h : a.IsSlot) (s : Stamp) {kind : Kind}
    {value : Option Octets} (hv : value.isSome = true ↔ kind ≠ .deleteAttribute) :
    ofAttributeSlot a.chars s kind.word (value.map valueChars) = .ok (about a s kind value) := by
  have attr : Attribute.parse (String.ofList a.chars) = .ok a := h.normal.parse_text
  simp only [ofAttributeSlot, attr, Except.mapError, Kind.ofWord?_word, bind, Except.bind, pure,
    Except.pure]
  cases value with
  | none =>
    cases kind <;> simp_all
  | some v =>
    have read := decodeValue_valueChars v
    cases kind <;> simp_all

/-- A readable fact is read back from its text. -/
theorem decode_encode_of_isReadable {f : Fact} (h : f.IsReadable) : decode f.encode = .ok f := by
  have chars : ofChars f.text.toList = .ok f := by
    rw [text, String.toList_ofList]
    cases f with
    | created s =>
      have slot : ':' ∉ Attribute.entrySlot.toList := by decide
      have eq := ofChars_eq slot s "add".toList
      rw [if_pos rfl, kindAndValue_word (by decide)] at eq
      simpa [Fact.chars, ofEntrySlot] using eq
    | renamed s =>
      have slot : ':' ∉ Attribute.entrySlot.toList := by decide
      have eq := ofChars_eq slot s "moddn".toList
      rw [if_pos rfl, kindAndValue_word (by decide)] at eq
      simpa [Fact.chars, ofEntrySlot] using eq
    | about a s kind value =>
      obtain ⟨slot, hv⟩ := h
      have notEntry : a.chars ≠ Attribute.entrySlot.toList := fun he =>
        slot.notEntry (String.toList_inj.mp (by simpa [Attribute.text] using he))
      have read := ofAttributeSlot_eq slot s hv
      cases value with
      | none =>
        have eq := ofChars_eq slot.colonless s kind.word.toList
        rw [if_neg notEntry, kindAndValue_word kind.colonless, String.ofList_toList] at eq
        simpa [Fact.chars] using eq.trans read
      | some v =>
        have eq := ofChars_eq slot.colonless s (kind.word.toList ++ ':' :: valueChars v)
        rw [if_neg notEntry, kindAndValue_value kind.colonless, String.ofList_toList] at eq
        simpa [Fact.chars] using eq.trans read
  rw [decode, encode, Octets.text?_ofText]
  simp only [chars]
  rfl

/-- Every fact about the entry is read back from its octets, and every fact about a plain attribute
whose text does not stand for the entry, with a value unless the attribute was deleted as a whole.
The value may be any octets. -/
theorem decode_encode_of_isPlain (s : Stamp) :
    decode (created s).encode = .ok (created s) ∧ decode (renamed s).encode = .ok (renamed s) ∧
    ∀ (a : Attribute) (kind : Kind) (value : Option Octets), a.IsPlain →
      a.text ≠ Attribute.entrySlot → (value.isSome = true ↔ kind ≠ .deleteAttribute) →
      decode (about a s kind value).encode = .ok (about a s kind value) := by
  refine ⟨decode_encode_of_isReadable trivial, decode_encode_of_isReadable trivial, ?_⟩
  intro a kind value plain notEntry valued
  have slot : a.IsSlot := ⟨plain.isNormal, plain.colonless, notEntry⟩
  exact decode_encode_of_isReadable ⟨slot, valued⟩

/-- The attribute is called as the entry is but has an option, and the value begins with a colon,
spans lines and is no text. -/
theorem decode_encode_of_isPlain_octets :
    let a : Attribute := ⟨"dn", ["lang-en"]⟩
    let value : Option Octets := some [0x3a, 0x0a, 0xff, 0x3a]
    a.IsPlain ∧ a.text ≠ Attribute.entrySlot ∧
      decode (about a ⟨5, 7, 2⟩ .delete value).encode = .ok (about a ⟨5, 7, 2⟩ .delete value) := by
  intro a value
  have plain : a.IsPlain := by decide
  have notEntry : a.text ≠ Attribute.entrySlot := by decide
  obtain ⟨-, -, readBack⟩ := decode_encode_of_isPlain ⟨5, 7, 2⟩
  exact ⟨plain, notEntry, readBack a .delete value plain notEntry (by decide)⟩

end Fact

end DirectoryHistory
