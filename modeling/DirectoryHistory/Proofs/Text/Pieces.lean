import DirectoryHistory.Proofs.Text.Ascii
import DirectoryHistory.Text.Blank
import DirectoryHistory.Text.Split
import Mathlib.Data.List.Basic
import Mathlib.Data.List.Forall2

/-!
# Pieces of texts

What is joined by a separator that the pieces do not contain is split and cut into the same pieces
again. Pieces are read if each of them is. Trimming and lower case leave alone what went through them
before, and trimming does not see the case of letters.
-/

namespace DirectoryHistory.Text

theorem cut_eq_none {sep : Char} {cs : List Char} (h : sep ∉ cs) : cut sep cs = none := by
  induction cs with
  | nil => rfl
  | cons c rest ih =>
    simp only [List.mem_cons, not_or] at h
    simp [cut, Ne.symm h.1, ih h.2]

theorem cut_append {sep : Char} {front : List Char} (h : sep ∉ front) (behind : List Char) :
    cut sep (front ++ sep :: behind) = some (front, behind) := by
  induction front with
  | nil => simp [cut]
  | cons c rest ih =>
    simp only [List.mem_cons, not_or] at h
    simp [cut, Ne.symm h.1, ih h.2]

theorem split_ne_nil (sep : Char) (cs : List Char) : split sep cs ≠ [] := by
  cases cs with
  | nil => simp [split]
  | cons c rest =>
    simp only [split]
    split
    · simp
    · cases split sep rest <;> simp [prepend]

theorem split_append {sep : Char} {front : List Char} (h : sep ∉ front) (behind : List Char) :
    split sep (front ++ behind) = prepend front (split sep behind) := by
  induction front with
  | nil =>
    cases hb : split sep behind with
    | nil => exact absurd hb (split_ne_nil sep behind)
    | cons part parts => simp [hb, prepend]
  | cons c rest ih =>
    simp only [List.mem_cons, not_or] at h
    rw [List.cons_append, split, if_neg (Ne.symm h.1), ih h.2]
    cases split sep behind <;> simp [prepend]

/-- Pieces without the separator are split apart where it joins them. -/
theorem split_join {sep : Char} {first : List Char} {rest : List (List Char)} (h : sep ∉ first)
    (hr : ∀ piece ∈ rest, sep ∉ piece) :
    split sep (first ++ rest.flatMap (sep :: ·)) = first :: rest := by
  induction rest generalizing first with
  | nil => simpa [split, prepend] using split_append h []
  | cons piece rest ih =>
    have behind := ih (hr piece (.head _)) fun p hp => hr p (.tail _ hp)
    rw [split_append h, List.flatMap_cons, List.cons_append, split, if_pos rfl, behind]
    simp [prepend]

theorem of_mem_split {sep : Char} {cs piece : List Char} (h : piece ∈ split sep cs) :
    ∀ c ∈ piece, c ≠ sep ∧ c ∈ cs := by
  induction cs generalizing piece with
  | nil =>
    simp only [split, List.mem_singleton] at h
    simp [h]
  | cons d rest ih =>
    simp only [split] at h
    split at h
    · rcases List.mem_cons.mp h with rfl | h
      · simp
      · exact fun c hc => (ih h c hc).imp_right (List.mem_cons_of_mem d)
    · next hd =>
      cases hs : split sep rest with
      | nil => exact absurd hs (split_ne_nil sep rest)
      | cons part parts =>
        rw [hs] at h ih
        simp only [prepend, List.cons_append, List.nil_append, List.mem_cons] at h
        rcases h with rfl | h
        · intro c hc
          rcases List.mem_cons.mp hc with rfl | hc
          · exact ⟨hd, .head _⟩
          · exact (ih (.head _) c hc).imp_right (List.mem_cons_of_mem d)
        · exact fun c hc => (ih (.tail _ h) c hc).imp_right (List.mem_cons_of_mem d)

theorem mapM_eq_ok_iff {α β ε : Type} {read : α → Except ε β} {pieces : List α} {items : List β} :
    pieces.mapM read = .ok items ↔
      List.Forall₂ (fun piece item => read piece = .ok item) pieces items := by
  induction pieces generalizing items with
  | nil => simp [pure, Except.pure, eq_comm]
  | cons piece rest ih =>
    rw [List.mapM_cons, List.forall₂_cons_left_iff]
    cases first : read piece with
    | error e => simp [bind, Except.bind]
    | ok item =>
      cases behind : rest.mapM read with
      | error e => simp [behind, ← ih, bind, Except.bind]
      | ok more => simp [behind, ← ih, bind, Except.bind, pure, Except.pure, eq_comm]

theorem of_mapM_eq_ok {α β ε : Type} {read : α → Except ε β} {pieces : List α} {items : List β}
    (h : pieces.mapM read = .ok items) :
    (∀ item ∈ items, ∃ piece ∈ pieces, read piece = .ok item) ∧
      ∀ piece ∈ pieces, ∃ item ∈ items, read piece = .ok item := by
  have pairs := mapM_eq_ok_iff.mp h
  clear h
  induction pairs with
  | nil => exact ⟨nofun, nofun⟩
  | cons first _ ih =>
    simp only [List.forall_mem_cons, List.exists_mem_cons_iff]
    exact ⟨⟨.inl first, fun item hi => .inr (ih.1 item hi)⟩,
      ⟨.inl first, fun piece hp => .inr (ih.2 piece hp)⟩⟩

theorem mem_of_mem_trimChars {cs : List Char} {c : Char} (h : c ∈ trimChars cs) : c ∈ cs := by
  rw [trimChars, trimEnd, List.mem_reverse] at h
  have h := (List.dropWhile_suffix isBlank).subset h
  rw [List.mem_reverse] at h
  exact (List.dropWhile_suffix isBlank).subset h

theorem isBlank_of_head?_dropWhile {cs : List Char} {c : Char}
    (h : (cs.dropWhile isBlank).head? = some c) : isBlank c = false := by
  have := List.head?_dropWhile_not isBlank cs
  rwa [h] at this

theorem ends_trimChars {cs : List Char} {c : Char}
    (h : (trimChars cs).head? = some c ∨ (trimChars cs).getLast? = some c) :
    isBlank c = false := by
  rcases h with h | h
  · -- What is dropped at the end does not change the head.
    have front : trimChars cs <+: trimStart cs := by
      have := List.dropWhile_suffix isBlank (l := (trimStart cs).reverse)
      rw [← List.reverse_prefix, List.reverse_reverse] at this
      exact this
    obtain ⟨back, hback⟩ := front
    have head : (cs.dropWhile isBlank).head? = some c := by
      rw [trimStart] at hback
      rw [← hback, List.head?_append, h]
      rfl
    exact isBlank_of_head?_dropWhile head
  · rw [trimChars, trimEnd, List.getLast?_reverse] at h
    exact isBlank_of_head?_dropWhile h

theorem trimStart_eq_self {cs : List Char} (h : ∀ c, cs.head? = some c → isBlank c = false) :
    trimStart cs = cs := by
  cases cs with
  | nil => rfl
  | cons c rest => simp [trimStart, h c rfl]

theorem trimChars_eq_self {cs : List Char}
    (h : ∀ c, cs.head? = some c ∨ cs.getLast? = some c → isBlank c = false) :
    trimChars cs = cs := by
  have back : trimStart cs.reverse = cs.reverse :=
    trimStart_eq_self fun c hc => h c (.inr (by simpa using hc))
  rw [trimChars, trimStart_eq_self fun c hc => h c (.inl hc), trimEnd, ← trimStart, back,
    List.reverse_reverse]

theorem trimChars_trimChars (cs : List Char) : trimChars (trimChars cs) = trimChars cs :=
  trimChars_eq_self fun _ => ends_trimChars

theorem toNat_lowerAsciiChar (c : Char) : (lowerAsciiChar c).toNat =
    if 65 ≤ c.toNat ∧ c.toNat ≤ 90 then c.toNat + 32 else c.toNat := by
  have upper : 'A' ≤ c ∧ c ≤ 'Z' ↔ 65 ≤ c.toNat ∧ c.toNat ≤ 90 := Iff.rfl
  simp only [lowerAsciiChar, upper]
  split
  · next h => exact toNat_ofNat (by omega)
  · rfl

theorem lowerAsciiChar_lowerAsciiChar (c : Char) :
    lowerAsciiChar (lowerAsciiChar c) = lowerAsciiChar c := by
  have lower := toNat_lowerAsciiChar c
  apply Char.toNat_inj.mp
  rw [toNat_lowerAsciiChar, if_neg]
  split at lower <;> omega

theorem eq_of_lowerAsciiChar_eq {c d : Char} (hd : d.toNat < 97) (h : lowerAsciiChar c = d) :
    c = d := by
  apply Char.toNat_inj.mp
  have h := congrArg Char.toNat h
  rw [toNat_lowerAsciiChar] at h
  split at h <;> omega

/-- Trimming and lower case bring in nothing but letters. -/
theorem mem_of_mem_lowerAscii_trim {cs : List Char} {c : Char} (hc : c.toNat < 97)
    (h : c ∈ (lowerAscii (trim (String.ofList cs))).toList) : c ∈ cs := by
  simp only [lowerAscii, trim, String.toList_ofList, List.mem_map] at h
  obtain ⟨d, hd, he⟩ := h
  rw [eq_of_lowerAsciiChar_eq hc he] at hd
  exact mem_of_mem_trimChars hd

theorem isBlank_lowerAsciiChar (c : Char) : isBlank (lowerAsciiChar c) = isBlank c := by
  by_cases h : 65 ≤ c.toNat ∧ c.toNat ≤ 90
  · have letter : ∀ n, 65 ≤ n ∧ n ≤ 122 → ∀ d : Char, d.toNat = n → isBlank d = false := by
      rintro n hn d rfl
      simp [isBlank]
      omega
    have lower := toNat_lowerAsciiChar c
    rw [if_pos h] at lower
    rw [letter _ (by omega) c rfl, letter _ (by omega) (lowerAsciiChar c) lower]
  · have : lowerAsciiChar c = c := by
      apply Char.toNat_inj.mp
      rw [toNat_lowerAsciiChar, if_neg h]
    rw [this]

theorem lowerAscii_lowerAscii (s : String) : lowerAscii (lowerAscii s) = lowerAscii s := by
  simp [lowerAscii, Function.comp_def, lowerAsciiChar_lowerAsciiChar]

/-- Lower case does not make a trimmed text trimmable. -/
theorem trimChars_map_lowerAsciiChar {cs : List Char} (h : trimChars cs = cs) :
    trimChars (cs.map lowerAsciiChar) = cs.map lowerAsciiChar := by
  refine trimChars_eq_self fun c hc => ?_
  rw [List.head?_map, List.getLast?_map, Option.map_eq_some_iff, Option.map_eq_some_iff] at hc
  have ends : ∀ d, cs.head? = some d ∨ cs.getLast? = some d → isBlank d = false := by
    intro d hd
    rw [← h] at hd
    exact ends_trimChars hd
  rcases hc with ⟨d, hd, rfl⟩ | ⟨d, hd, rfl⟩
  · rw [isBlank_lowerAsciiChar, ends d (.inl hd)]
  · rw [isBlank_lowerAsciiChar, ends d (.inr hd)]

theorem trim_lowerAscii_trim (s : String) :
    trim (lowerAscii (trim s)) = lowerAscii (trim s) := by
  have trimmed := trimChars_map_lowerAsciiChar (trimChars_trimChars s.toList)
  simp [trim, lowerAscii, trimmed]

end DirectoryHistory.Text
