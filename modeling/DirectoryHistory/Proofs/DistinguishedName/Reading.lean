import DirectoryHistory.Proofs.DistinguishedName
import DirectoryHistory.Proofs.Text.Escaping

/-!
# The text of names

Names are read from text component by component. A component that was read is found again in the text
of its name, but two things get lost on the way: a blank at an end of the value, as text cannot tell
it from the blanks around a value, and the end of an attribute whose last backslash escaped a blank
that was trimmed, as it then escapes the equals sign. Names without either are read back, and so are
all names made of sound components, whatever their values hold.
-/

namespace DirectoryHistory

namespace Text

theorem length_lowercaseAfter (before cs : List Char) :
    (lowercaseAfter before cs).length = cs.length + cs.count '\u0130' := by
  induction cs generalizing before with
  | nil => rfl
  | cons c rest ih =>
    rw [lowercaseAfter, List.length_append, ih, List.length_cons, List.count_cons]
    by_cases sigma : c = '\u03a3'
    · subst sigma
      simp
      omega
    · by_cases dotted : c = '\u0130'
      · simp [dotted]
        omega
      · simp [sigma, dotted]
        omega

theorem trimChars_sublist (cs : List Char) : (trimChars cs).Sublist cs :=
  (List.rdropWhile_prefix isBlank (trimStart cs)).sublist.trans
    (List.dropWhile_suffix isBlank).sublist

/-- Lower case shows whether a text was trimmed. -/
theorem lowercase_trim_eq_iff {s : String} : lowercase (trim s) = lowercase s ↔ trim s = s := by
  constructor
  · intro same
    have lengths := congrArg (fun t : String => t.toList.length) same
    simp only [lowercase, trim, String.toList_ofList, length_lowercaseAfter] at lengths
    have shorter := trimChars_sublist s.toList
    have fewer := shorter.count_le '\u0130'
    have whole : trimChars s.toList = s.toList := shorter.eq_of_length_le (by omega)
    rw [trim, whole, String.ofList_toList]
  · intro whole
    rw [whole]

theorem cutUnescaped_map_lowerAsciiChar {sep : Char} (hs : sep.toNat < 97) {cs : List Char}
    (h : cutUnescaped sep cs = none) : cutUnescaped sep (cs.map lowerAsciiChar) = none := by
  have backslash : lowerAsciiChar '\\' = '\\' := by decide
  induction cs using escaped_induction with
  | nil => rfl
  | lone => simp [backslash, cutUnescaped]
  | escaped c rest ih =>
    rw [cutUnescaped_escaped_eq_none_iff] at h
    rw [List.map_cons, List.map_cons, backslash, cutUnescaped_escaped_eq_none_iff, ih h]
  | plain c rest hc ih =>
    have plain : lowerAsciiChar c ≠ '\\' := fun he => hc (eq_of_lowerAsciiChar_eq (by decide) he)
    obtain ⟨other, h⟩ := (cutUnescaped_cons_eq_none_iff hc rest).mp h
    rw [List.map_cons, cutUnescaped_cons_eq_none_iff plain]
    exact ⟨fun he => other (eq_of_lowerAsciiChar_eq hs he), ih h⟩

end Text

namespace RelativeName

open Text

variable {m n : RelativeName}

/-- The form of the components that are read from text. -/
structure IsNormal (n : RelativeName) : Prop where
  named : n.attr ≠ ""
  trimmed : trim n.attr = n.attr
  lower : lowerAscii n.attr = n.attr
  commaless : cutUnescaped ',' n.attr.toList = none
  equalless : cutUnescaped '=' n.attr.toList = none

/-- The component without the blanks around its value. -/
def trimmed (n : RelativeName) : RelativeName :=
  ⟨n.attr, trim n.value⟩

/-- No backslash at the end of the attribute escapes nothing, and no blank stands at an end of the
value. -/
structure IsLegible (n : RelativeName) : Prop where
  closed : dangles n.attr.toList = false
  trimmed : trim n.value = n.value

theorem isSpecial_iff {c : Char} : isSpecial c = true ↔ c = ',' ∨ c = '\\' ∨ c = '=' ∨ c = '+' := by
  simp [isSpecial, or_assoc]

theorem isBlank_of_isSpecial (c : Char) (h : isSpecial c = true) : isBlank c = false := by
  rcases isSpecial_iff.mp h with rfl | rfl | rfl | rfl <;> decide

theorem closed_value {sep : Char} (h : isSpecial sep = true) (value : String) :
    dangles (escape isSpecial value.toList) = false ∧
      cutUnescaped sep (escape isSpecial value.toList) = none :=
  closed_escape rfl h value.toList

theorem isNormal_of_ofChars {cs : List Char} (h : ofChars cs = .ok n)
    (commaless : cutUnescaped ',' cs = none) : n.IsNormal ∧ n.value ≠ "" := by
  simp only [ofChars] at h
  split at h
  · cases h
  next before behind cut =>
  obtain ⟨rfl, -, equalless⟩ := of_cutUnescaped_eq_some cut
  split at h
  · cases h
  next named =>
  split at h
  · cases h
  next valued =>
  obtain rfl := Except.ok.inj h
  have attr : (make (String.ofList (trimChars before))
      (String.ofList (unescape (trimChars behind)))).attr.toList =
        (trimChars before).map lowerAsciiChar := by
    simp [make, lowerAscii, trim, trimChars_trimChars]
  have bare : ∀ sep : Char, sep.toNat < 97 → cutUnescaped sep before = none →
      cutUnescaped sep ((trimChars before).map lowerAsciiChar) = none := fun sep hs h =>
    cutUnescaped_map_lowerAsciiChar hs (cutUnescaped_trimChars h)
  refine ⟨⟨fun nothing => named ?_, trim_lowerAscii_trim _, lowerAscii_lowerAscii _, ?_, ?_⟩,
    fun nothing => valued ?_⟩
  · rw [nothing] at attr
    simpa using attr.symm
  · rw [attr]
    exact bare ',' (by decide) (cutUnescaped_eq_none_of_append commaless)
  · rw [attr]
    exact bare '=' (by decide) equalless
  · simpa [make] using congrArg String.toList nothing

namespace IsNormal

variable (h : n.IsNormal)
include h

theorem make_eq (value : String) : make n.attr value = ⟨n.attr, value⟩ := by
  rw [make, h.trimmed, h.lower]

theorem trimChars_attr : trimChars n.attr.toList = n.attr.toList := by
  have whole := congrArg String.toList h.trimmed
  simpa [trim] using whole

/-- The text of a component stands before a comma as one piece, however its attribute ends. -/
theorem closed_chars : dangles n.chars = false ∧ cutUnescaped ',' n.chars = none := by
  obtain ⟨closed, bare⟩ := closed_value (by decide : isSpecial ',' = true) n.value
  cases ends : dangles n.attr.toList with
  | true =>
    obtain ⟨same, iff⟩ := append_cons_of_dangles ends h.commaless '=' (escape isSpecial n.value.toList)
    exact ⟨same.trans closed, iff.mpr bare⟩
  | false =>
    constructor
    · rw [chars, dangles_append ends, dangles_cons (by decide), closed]
    · rw [chars, cutUnescaped_append ends h.commaless, cutUnescaped_cons (by decide), bare]
      rfl

/-- A component is read from its text unless its last backslash escapes the equals sign or nothing
but blanks are left of its value. -/
theorem ofChars_chars_eq_ok_iff : ofChars n.chars = .ok m ↔
    (dangles n.attr.toList = false ∧ trim n.value ≠ "") ∧ m = n.trimmed := by
  cases ends : dangles n.attr.toList with
  | true =>
    obtain ⟨-, bare⟩ := closed_value (by decide : isSpecial '=' = true) n.value
    obtain ⟨-, iff⟩ := append_cons_of_dangles ends h.equalless '=' (escape isSpecial n.value.toList)
    have uncut : cutUnescaped '=' n.chars = none := iff.mpr bare
    simp [ofChars, uncut]
  | false =>
    have cut : cutUnescaped '=' n.chars = some (n.attr.toList, escape isSpecial n.value.toList) :=
      cutUnescaped_append_sep (by decide) ends h.equalless _
    have value : unescape (trimChars (escape isSpecial n.value.toList)) =
        (trim n.value).toList := by
      rw [trimChars_escape isBlank_of_isSpecial, unescape_escape rfl, trim, String.toList_ofList]
    simp only [ofChars, cut, h.trimChars_attr, value, String.toList_eq_nil_iff, if_neg h.named,
      String.ofList_toList, h.make_eq]
    split
    · next nothing => simp [nothing]
    · next visible => simp [visible, RelativeName.trimmed, eq_comm]

end IsNormal

end RelativeName

namespace DistinguishedName

open Text RelativeName

variable {d e : DistinguishedName}

theorem isNormal_of_parse {s : String} (h : parse s = .ok d) :
    ∀ n ∈ d.parts, n.IsNormal ∧ n.value ≠ "" := by
  simp only [parse] at h
  split at h
  · cases h
    exact nofun
  · split at h
    · next parts read =>
      cases h
      intro n hn
      obtain ⟨piece, member, read⟩ := (of_mapM_eq_ok read).1 n hn
      exact isNormal_of_ofChars read (cutUnescaped_of_mem_splitUnescaped member)
    · cases h

theorem mapM_chars_eq_ok_iff {parts : List RelativeName} (normal : ∀ n ∈ parts, n.IsNormal)
    (parts' : List RelativeName) : (parts.map RelativeName.chars).mapM ofChars = .ok parts' ↔
      (∀ n ∈ parts, dangles n.attr.toList = false ∧ trim n.value ≠ "") ∧
        parts' = parts.map RelativeName.trimmed := by
  rw [mapM_eq_ok_iff, List.forall₂_map_left_iff]
  induction parts generalizing parts' with
  | nil => simp
  | cons n rest ih =>
    have first := fun m => (normal n (.head _)).ofChars_chars_eq_ok_iff (m := m)
    have behind := ih fun n hn => normal n (.tail _ hn)
    simp only [List.forall₂_cons_left_iff, first, behind, List.forall_mem_cons, List.map_cons]
    constructor
    · rintro ⟨m, ms, ⟨sound, rfl⟩, ⟨sound', rfl⟩, rfl⟩
      exact ⟨⟨sound, sound'⟩, rfl⟩
    · rintro ⟨⟨sound, sound'⟩, rfl⟩
      exact ⟨_, _, ⟨sound, rfl⟩, ⟨sound', rfl⟩, rfl⟩

/-- What a name that was read or made is read as from its text, and when it is read at all. -/
theorem parse_text_eq_ok_iff (normal : ∀ n ∈ d.parts, n.IsNormal) : parse d.text = .ok e ↔
    (∀ n ∈ d.parts, dangles n.attr.toList = false ∧ trim n.value ≠ "") ∧
      e.parts = d.parts.map RelativeName.trimmed := by
  obtain ⟨parts⟩ := d
  obtain ⟨parts'⟩ := e
  have read := mapM_chars_eq_ok_iff normal parts'
  cases parts with
  | nil =>
    have root : parse (text ⟨[]⟩) = .ok ⟨[]⟩ := rfl
    rw [root]
    constructor
    · intro same
      cases same
      exact ⟨nofun, rfl⟩
    · rintro ⟨-, rfl⟩
      rfl
  | cons first rest =>
    have pieces : splitUnescaped ',' (chars ⟨first :: rest⟩) =
        (first :: rest).map RelativeName.chars := by
      refine splitUnescaped_intercalate (by decide) (by simp) ?_
      rw [List.forall_mem_map]
      exact fun n hn => (normal n hn).closed_chars
    have equals : '=' ∈ chars ⟨first :: rest⟩ := by
      cases rest <;> simp [chars, List.intercalate, RelativeName.chars]
    have seen : trimChars (chars ⟨first :: rest⟩) ≠ [] := by
      rw [Ne, trimChars_eq_nil_iff]
      exact fun blank => absurd (blank '=' equals) (by decide)
    rw [parse, text, String.toList_ofList, if_neg seen, pieces, ← read]
    cases (List.map RelativeName.chars (first :: rest)).mapM ofChars with
    | error flaw => simp
    | ok parts => simp

/-- A name is read back from its text if all its components are legible. -/
theorem parse_text (normal : ∀ n ∈ d.parts, n.IsNormal ∧ n.value ≠ "")
    (legible : ∀ n ∈ d.parts, n.IsLegible) : parse d.text = .ok d := by
  rw [parse_text_eq_ok_iff fun n hn => (normal n hn).1]
  constructor
  · intro n hn
    rw [(legible n hn).trimmed]
    exact ⟨(legible n hn).closed, (normal n hn).2⟩
  · refine (List.map_id d.parts).symm.trans (List.map_congr_left fun n hn => ?_)
    rw [RelativeName.trimmed, (legible n hn).trimmed]
    rfl

/-- A name without the blanks around its values is another one unless there are none. -/
theorem same_trimmed_iff (trimmed : e.parts = d.parts.map RelativeName.trimmed) :
    e.same d = true ↔ ∀ n ∈ d.parts, trim n.value = n.value := by
  rw [same_iff, folded_eq_iff, IsSpelling, trimmed, List.forall₂_map_left_iff, List.forall₂_same]
  refine forall₂_congr fun n _ => ?_
  simp [RelativeName.trimmed, lowercase_trim_eq_iff]

/-- A name that was read from some text is read again from its own text unless a backslash at the end
of an attribute escapes nothing or a value is blank; then the values come without the blanks around
them. So its text is read as an equal name exactly if all its components are legible. -/
theorem reads_back_iff_of_parse {s : String} (h : parse s = .ok d) :
    (∀ e, parse d.text = .ok e ↔
      (∀ n ∈ d.parts, dangles n.attr.toList = false ∧ trim n.value ≠ "") ∧
        e.parts = d.parts.map RelativeName.trimmed) ∧
    ((∃ e, parse d.text = .ok e ∧ e.same d = true) ↔ ∀ n ∈ d.parts, n.IsLegible) := by
  have normal := isNormal_of_parse h
  have read := fun e => parse_text_eq_ok_iff (e := e) fun n hn => (normal n hn).1
  refine ⟨read, ?_, fun legible => ⟨d, parse_text normal legible, by simp⟩⟩
  rintro ⟨e, again, same⟩ n hn
  obtain ⟨sound, trimmed⟩ := (read e).mp again
  exact ⟨(sound n hn).1, (same_trimmed_iff trimmed).mp same n hn⟩

/-- The attribute holds escaped separators, and the value separators that are not escaped, an escaped
blank inside and a backslash at the end. -/
theorem reads_back_iff_of_parse_separators :
    let d : DistinguishedName := ⟨[⟨"a\\,\\=b", "x=y\\ z\\"⟩, ⟨"o", "test"⟩]⟩
    parse " A\\,\\=B = x=y\\\\\\ z\\\\ ,o=test" = .ok d ∧ ∃ e, parse d.text = .ok e ∧ e.same d = true := by
  intro d
  have read : parse " A\\,\\=B = x=y\\\\\\ z\\\\ ,o=test" = .ok d := by decide
  obtain ⟨-, iff⟩ := reads_back_iff_of_parse read
  refine ⟨read, iff.mpr fun n hn => ?_⟩
  rcases List.mem_cons.mp hn with rfl | hn
  · exact ⟨by decide, by decide⟩
  · obtain rfl := List.mem_singleton.mp hn
    exact ⟨by decide, by decide⟩

/-- A blank that is escaped in front of a value is kept, and written without its backslash. -/
theorem parse_text_escaped_blank :
    ¬∀ s d, parse s = .ok d → ∃ e, parse d.text = .ok e ∧ e.same d = true := by
  intro all
  have read : parse "cn=\\ x,o=t" = .ok ⟨[⟨"cn", " x"⟩, ⟨"o", "t"⟩]⟩ := by decide
  obtain ⟨e, again, same⟩ := all _ _ read
  have other : parse (text ⟨[⟨"cn", " x"⟩, ⟨"o", "t"⟩]⟩) = .ok ⟨[⟨"cn", "x"⟩, ⟨"o", "t"⟩]⟩ := by
    decide
  rw [other] at again
  cases again
  revert same
  decide

/-- A blank that is escaped behind an attribute is trimmed, and its backslash is kept. -/
example : parse "\\ =x" = .ok ⟨[⟨"\\", "x"⟩]⟩ ∧
    parse (text ⟨[⟨"\\", "x"⟩]⟩) = .error ⟨"\\=x", .noEquals⟩ := by
  decide

/-- The attribute is not blank and holds no character that the text of a name is cut at, and the
value is neither empty nor blank at an end. -/
structure IsSound (attr value : String) : Prop where
  named : trim attr ≠ ""
  commaless : ',' ∉ attr.toList
  equalless : '=' ∉ attr.toList
  plain : '\\' ∉ attr.toList
  valued : value ≠ ""
  trimmed : trim value = value

/-- The name of the components with these attributes and values, leaf first. -/
def ofComponents (pairs : List (String × String)) : DistinguishedName :=
  ⟨pairs.map fun (attr, value) => .make attr value⟩

theorem IsSound.isNormal {attr value : String} (h : IsSound attr value) :
    (RelativeName.make attr value).IsNormal ∧ (RelativeName.make attr value).IsLegible := by
  have held : ∀ c : Char, c.toNat < 97 → c ∉ attr.toList →
      c ∉ (RelativeName.make attr value).attr.toList := fun c hc outside inside => by
    refine outside (mem_of_mem_lowerAscii_trim hc ?_)
    rwa [String.ofList_toList]
  have plain := held '\\' (by decide) h.plain
  obtain ⟨closed, commaless⟩ := closed_of_not_mem plain (held ',' (by decide) h.commaless)
  obtain ⟨-, equalless⟩ := closed_of_not_mem plain (held '=' (by decide) h.equalless)
  have named : (RelativeName.make attr value).attr ≠ "" := by
    intro nothing
    have chars := congrArg String.toList nothing
    refine h.named (String.toList_eq_nil_iff.mp ?_)
    simpa [RelativeName.make, lowerAscii] using chars
  exact ⟨⟨named, trim_lowerAscii_trim _, lowerAscii_lowerAscii _, commaless, equalless⟩,
    ⟨closed, h.trimmed⟩⟩

/-- A name made of sound components is read from its text as it is, with the case of its values, so
that different ones have different texts. -/
theorem parse_text_of_isSound {pairs : List (String × String)}
    (sound : ∀ p ∈ pairs, IsSound p.1 p.2) :
    parse (ofComponents pairs).text = .ok (ofComponents pairs) ∧
    ∀ pairs', (∀ p ∈ pairs', IsSound p.1 p.2) →
      ofComponents pairs ≠ ofComponents pairs' →
        (ofComponents pairs).text ≠ (ofComponents pairs').text := by
  have reads : ∀ pairs, (∀ p ∈ pairs, IsSound p.1 p.2) →
      parse (ofComponents pairs).text = .ok (ofComponents pairs) := by
    intro pairs sound
    refine parse_text ?_ ?_
    · rw [ofComponents, List.forall_mem_map]
      exact fun p hp => ⟨(sound p hp).isNormal.1, (sound p hp).valued⟩
    · rw [ofComponents, List.forall_mem_map]
      exact fun p hp => (sound p hp).isNormal.2
  refine ⟨reads pairs sound, fun pairs' sound' other same => other ?_⟩
  have read := reads pairs sound
  rw [same, reads pairs' sound'] at read
  exact (Except.ok.inj read).symm

/-- Separators and backslashes in a row, up to the end of a component. -/
theorem parse_text_of_isSound_backslashes :
    let pairs := [(" CN ", "\\,\\=+ \u00c9\\\\"), ("ou", ",=\\"), ("O", "Test")]
    (ofComponents pairs).text = "cn=\\\\\\,\\\\\\=\\+ \u00c9\\\\\\\\,ou=\\,\\=\\\\,o=Test" ∧
      parse (ofComponents pairs).text = .ok (ofComponents pairs) := by
  intro pairs
  have sound : ∀ p ∈ pairs, IsSound p.1 p.2 := by
    have each : ∀ p ∈ pairs, trim p.1 ≠ "" ∧ ',' ∉ p.1.toList ∧ '=' ∉ p.1.toList ∧
        '\\' ∉ p.1.toList ∧ p.2 ≠ "" ∧ trim p.2 = p.2 := by
      decide
    intro p hp
    obtain ⟨named, commaless, equalless, plain, valued, trimmed⟩ := each p hp
    exact ⟨named, commaless, equalless, plain, valued, trimmed⟩
  exact ⟨by decide, (parse_text_of_isSound sound).1⟩

end DistinguishedName

end DirectoryHistory
