import DirectoryHistory.Text.Hex

/-!
# Octet strings

Attribute values are strings of octets, most of which are text. `Octets.text?` reads them back when
they are, and `Octets.lossyText` shows the rest with a replacement character for every maximal
piece that cannot start or continue a character.
-/

namespace DirectoryHistory

abbrev Octets := List UInt8

namespace Octets

def ofText (s : String) : Octets :=
  s.toByteArray.data.toList

def text? (o : Octets) : Option String :=
  String.fromUTF8? ⟨o.toArray⟩

theorem text?_eq_some_iff {o : Octets} {s : String} : text? o = some s ↔ ofText s = o := by
  constructor
  · intro h
    simp only [text?, String.fromUTF8?, Option.dite_none_right_eq_some, Option.some.injEq] at h
    obtain ⟨h, rfl⟩ := h
    simp [ofText, String.fromUTF8]
  · rintro rfl
    have h : (⟨(ofText s).toArray⟩ : ByteArray) = s.toByteArray := by simp [ofText]
    have hs := s.isValidUTF8
    simp only [text?, String.fromUTF8?, h, hs, dite_true, Option.some.injEq]
    exact String.toByteArray_inj.mp rfl

@[simp] theorem text?_ofText (s : String) : text? (ofText s) = some s :=
  text?_eq_some_iff.mpr rfl

theorem ofText_inj {s t : String} : ofText s = ofText t ↔ s = t := by
  constructor
  · intro h
    have := text?_ofText s
    rw [h, text?_ofText] at this
    exact (Option.some.inj this).symm
  · rintro rfl
    rfl

/-- The octets that may follow a leading octet: how many, and the range of the first of them. -/
def continuation (lead : UInt8) : Option (Nat × UInt8 × UInt8) :=
  if lead < 0x80 then some (0, 0x80, 0xbf)
  else if lead < 0xc2 then none
  else if lead < 0xe0 then some (1, 0x80, 0xbf)
  else if lead = 0xe0 then some (2, 0xa0, 0xbf)
  else if lead = 0xed then some (2, 0x80, 0x9f)
  else if lead < 0xf0 then some (2, 0x80, 0xbf)
  else if lead = 0xf0 then some (3, 0x90, 0xbf)
  else if lead < 0xf4 then some (3, 0x80, 0xbf)
  else if lead = 0xf4 then some (3, 0x80, 0x8f)
  else none

/-- The octets at the front of `rest` that continue a character, `count` of them at most. -/
def continued (count : Nat) (low high : UInt8) : Octets → Octets
  | [] => []
  | b :: rest =>
    match count with
    | 0 => []
    | count + 1 =>
      if low ≤ b ∧ b ≤ high then b :: continued count 0x80 0xbf rest else []

def codePoint (lead : UInt8) (tail : Octets) : Nat :=
  let first :=
    match tail.length with
    | 0 => lead.toNat
    | 1 => lead.toNat % 0x20
    | 2 => lead.toNat % 0x10
    | _ => lead.toNat % 8
  tail.foldl (fun n b => n * 0x40 + b.toNat % 0x40) first

/-- The first character and the number of octets behind the leading one that it takes up. -/
def lossyChar (lead : UInt8) (rest : Octets) : Char × Nat :=
  match continuation lead with
  | none => ('\ufffd', 0)
  | some (count, low, high) =>
    let tail := continued count low high rest
    (if tail.length = count then Char.ofNat (codePoint lead tail) else '\ufffd', tail.length)

def lossyChars : Octets → List Char
  | [] => []
  | lead :: rest =>
    (lossyChar lead rest).1 :: lossyChars (rest.drop (lossyChar lead rest).2)
termination_by o => o.length
decreasing_by simp only [List.length_cons, List.length_drop]; omega

def lossyText (o : Octets) : String :=
  String.ofList (lossyChars o)

def hexText (o : Octets) : String :=
  String.ofList (o.flatMap fun b => Text.fixedHex 2 b.toNat)

def ofHexChars? : List Char → Option Octets
  | [] => some []
  | [_] => none
  | a :: b :: rest => do
    let high ← Text.hexValue? a
    let low ← Text.hexValue? b
    return UInt8.ofNat (16 * high + low) :: (← ofHexChars? rest)

def ofHex? (s : String) : Option Octets :=
  ofHexChars? s.toList

end Octets

end DirectoryHistory
