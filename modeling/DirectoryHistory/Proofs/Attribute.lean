import DirectoryHistory.Attribute
import DirectoryHistory.Proofs.Text.Pieces
import Mathlib.Data.String.Basic

/-!
# The normal form of attribute descriptions

A description that was read from text is in normal form: trimmed, in lower case, with its options in
ascending order. A description in normal form is read back from its own text.
-/

namespace DirectoryHistory.Attribute

open Text

theorem isNameChar_iff {c : Char} : isNameChar c = true ↔
    97 ≤ c.toNat ∧ c.toNat ≤ 122 ∨ 65 ≤ c.toNat ∧ c.toNat ≤ 90 ∨ 48 ≤ c.toNat ∧ c.toNat ≤ 57 ∨
      c.toNat = 45 ∨ c.toNat = 46 := by
  have hyphen : c = '-' ↔ c.toNat = 45 := Char.toNat_inj.symm
  have dot : c = '.' ↔ c.toNat = 46 := Char.toNat_inj.symm
  simp only [isNameChar, isAlphanumeric, Bool.or_eq_true, Bool.and_eq_true, decide_eq_true_eq,
    beq_iff_eq, hyphen, dot, or_assoc]
  exact Iff.rfl

theorem isNameChar_lowerAsciiChar {c : Char} (h : isNameChar c = true) :
    isNameChar (lowerAsciiChar c) = true := by
  rw [isNameChar_iff] at *
  have lower := toNat_lowerAsciiChar c
  split at lower <;> omega

theorem isBlank_of_isNameChar {c : Char} (h : isNameChar c = true) : isBlank c = false := by
  rw [isNameChar_iff] at h
  simp [isBlank]
  omega

theorem ne_semicolon_of_isNameChar {c : Char} (h : isNameChar c = true) : c ≠ ';' := by
  rintro rfl
  revert h
  decide

/-- An option in normal form. -/
structure IsOption (o : String) : Prop where
  nonempty : o ≠ ""
  trimmed : trim o = o
  lower : lowerAscii o = o
  single : ';' ∉ o.toList

/-- The form of the descriptions that are read from text. -/
structure IsNormal (a : Attribute) : Prop where
  named : a.name ≠ ""
  letters : ∀ c ∈ a.name.toList, isNameChar c = true
  lower : lowerAscii a.name = a.name
  options : ∀ o ∈ a.options, IsOption o
  ascending : a.options.Pairwise (· < ·)

theorem mem_insertOption {o p : String} {os : List String} (h : p ∈ insertOption o os) :
    p = o ∨ p ∈ os := by
  induction os with
  | nil => simpa [insertOption] using h
  | cons first rest ih =>
    simp only [insertOption] at h
    split at h
    · simpa using h
    · split at h
      · exact .inr h
      · rcases List.mem_cons.mp h with rfl | h
        · exact .inr (.head _)
        · exact (ih h).imp_right (.tail _)

theorem pairwise_insertOption (o : String) {os : List String} (h : os.Pairwise (· < ·)) :
    (insertOption o os).Pairwise (· < ·) := by
  induction os with
  | nil => simp [insertOption]
  | cons first rest ih =>
    obtain ⟨below, tail⟩ := List.pairwise_cons.mp h
    simp only [insertOption]
    split
    · next lt =>
      refine List.pairwise_cons.mpr ⟨fun p hp => ?_, h⟩
      rcases List.mem_cons.mp hp with rfl | hp
      · exact lt
      · exact lt_trans lt (below p hp)
    · next above =>
      split
      · exact h
      · next ne =>
        refine List.pairwise_cons.mpr ⟨fun p hp => ?_, ih tail⟩
        rcases mem_insertOption hp with rfl | hp
        · exact lt_of_le_of_ne (not_lt.mp above) (Ne.symm ne)
        · exact below p hp

theorem insertOption_of_forall_lt {o : String} {os : List String} (h : ∀ p ∈ os, p < o) :
    insertOption o os = os ++ [o] := by
  induction os with
  | nil => rfl
  | cons first rest ih =>
    have lt := h first (.head _)
    rw [insertOption, if_neg lt.not_gt, if_neg lt.ne', ih fun p hp => h p (.tail _ hp)]
    rfl

theorem isOption_of_trimChars {cs : List Char} (h : trimChars cs ≠ []) (hs : ';' ∉ cs) :
    IsOption (lowerAscii (trim (String.ofList cs))) where
  nonempty := by
    intro he
    have := congrArg String.toList he
    simp [lowerAscii, trim, h] at this
  trimmed := by
    have trimmed := trimChars_map_lowerAsciiChar (trimChars_trimChars cs)
    simp [trim, lowerAscii, trimmed]
  lower := lowerAscii_lowerAscii _
  single hm := hs (mem_of_mem_lowerAscii_trim (by decide) hm)

theorem isNormal_of_addOptions {input : String} {a b : Attribute} {raws : List (List Char)}
    (ha : a.IsNormal) (hs : ∀ raw ∈ raws, ';' ∉ raw) (h : addOptions input a raws = .ok b) :
    b.IsNormal := by
  induction raws generalizing a with
  | nil =>
    cases h
    exact ha
  | cons raw rest ih =>
    simp only [addOptions] at h
    split at h
    · cases h
    · next nonempty =>
      refine ih ?_ (fun r hr => hs r (.tail _ hr)) h
      refine ⟨ha.named, ha.letters, ha.lower, fun o ho => ?_, pairwise_insertOption _ ha.ascending⟩
      rcases mem_insertOption ho with rfl | ho
      · exact isOption_of_trimChars nonempty (hs raw (.head _))
      · exact ha.options o ho

theorem lowerAscii_name_make (name : String) : lowerAscii (make name).name = (make name).name :=
  lowerAscii_lowerAscii (trim name)

theorem isNormal_of_parse {s : String} {a : Attribute} (h : parse s = .ok a) : a.IsNormal := by
  simp only [parse] at h
  split at h
  · cases h
  · next first options pieces =>
    split at h
    · cases h
    · next nonempty =>
      split at h
      · next letters =>
        have name : (make (String.ofList (trimChars first))).name.toList =
            (trimChars first).map lowerAsciiChar := by
          simp [make, lowerAscii, trim, trimChars_trimChars]
        refine isNormal_of_addOptions
          ⟨?_, ?_, lowerAscii_name_make _, List.forall_mem_nil _, .nil⟩ ?_ h
        · intro he
          rw [he] at name
          simp [nonempty] at name
        · rw [name, List.forall_mem_map]
          exact fun c hc => isNameChar_lowerAsciiChar (List.all_eq_true.mp letters c hc)
        · intro raw hr hc
          have piece : raw ∈ split ';' s.toList := by
            rw [pieces]
            exact .tail _ hr
          exact (of_mem_split piece ';' hc).1 rfl
      · cases h

theorem addOptions_of_isOption {input : String} {name : String} {front os : List String}
    (h : ∀ o ∈ os, IsOption o) (ascending : (front ++ os).Pairwise (· < ·)) :
    addOptions input ⟨name, front⟩ (os.map String.toList) = .ok ⟨name, front ++ os⟩ := by
  induction os generalizing front with
  | nil => simp [addOptions]
  | cons o rest ih =>
    obtain ⟨nonempty, trimmed, lower, -⟩ := h o (.head _)
    have chars : trimChars o.toList ≠ [] := by
      intro he
      apply nonempty
      rw [← trimmed, trim, he]
    have last : ∀ p ∈ front, p < o := fun p hp =>
      (List.pairwise_append.mp ascending).2.2 p hp o (.head _)
    have next : (⟨name, front⟩ : Attribute).withOption (String.ofList o.toList) =
        ⟨name, front ++ [o]⟩ := by
      rw [withOption, String.ofList_toList, trimmed, lower, insertOption_of_forall_lt last]
    rw [List.map_cons, addOptions, if_neg chars, next, ih fun p hp => h p (.tail _ hp)]
    · simp
    · simpa using ascending

/-- A description in normal form is read back from its text. -/
theorem IsNormal.parse_text {a : Attribute} (h : a.IsNormal) : parse a.text = .ok a := by
  have pieces : split ';' a.text.toList = a.name.toList :: a.options.map String.toList := by
    have joined : a.text.toList =
        a.name.toList ++ (a.options.map String.toList).flatMap (';' :: ·) := by
      simp [text, chars, List.flatMap_map]
    rw [joined]
    apply split_join (fun hc => ne_semicolon_of_isNameChar (h.letters _ hc) rfl)
    rw [List.forall_mem_map]
    exact fun o ho => (h.options o ho).single
  have trimmed : trimChars a.name.toList = a.name.toList := by
    refine trimChars_eq_self fun c hc => isBlank_of_isNameChar (h.letters c ?_)
    exact hc.elim List.mem_of_mem_head? List.mem_of_getLast?
  have nonempty : a.name.toList ≠ [] := by
    simpa [String.toList_eq_nil_iff] using h.named
  have letters : a.name.toList.all isNameChar = true := List.all_eq_true.mpr h.letters
  have name : make (String.ofList a.name.toList) = ⟨a.name, []⟩ := by
    rw [make, String.ofList_toList, trim, trimmed, String.ofList_toList, h.lower]
  simp only [parse, pieces, trimmed, if_neg nonempty, letters, if_true, name]
  exact addOptions_of_isOption h.options h.ascending

end DirectoryHistory.Attribute
