import DirectoryHistory.Proofs.Text.Pieces
import Mathlib.Data.List.DropRight

/-!
# Escaped texts

A text is read character by character, an escaped one together with its backslash. Only a backslash
at the very end escapes nothing. What has no such backslash and no separator but escaped ones is
found again wherever separators join it to other texts, and what was escaped is such a text.
-/

namespace DirectoryHistory.Text

variable {sep : Char} {special : Char → Bool}

/-- Whether the last character is a backslash that escapes nothing. -/
def dangles : List Char → Bool
  | [] => false
  | ['\\'] => true
  | '\\' :: _ :: rest => dangles rest
  | _ :: rest => dangles rest

/-- Induction over a text, an escaped character together with its backslash. -/
@[elab_as_elim]
theorem escaped_induction {motive : List Char → Prop} (nil : motive []) (lone : motive ['\\'])
    (escaped : ∀ c rest, motive rest → motive ('\\' :: c :: rest))
    (plain : ∀ c rest, c ≠ '\\' → motive rest → motive (c :: rest)) (cs : List Char) :
    motive cs := by
  fun_induction dangles cs with
  | case1 => exact nil
  | case2 => exact lone
  | case3 c rest ih => exact escaped c rest ih
  | case4 c rest last more ih =>
    refine plain c rest (fun hc => ?_) ih
    cases rest with
    | nil => exact last hc rfl
    | cons d rest => exact more d rest hc rfl

section Steps

variable {c : Char} (h : c ≠ '\\') (rest : List Char)
include h

theorem dangles_cons : dangles (c :: rest) = dangles rest := by
  rw [dangles] <;> simp [h]

theorem cutUnescaped_cons : cutUnescaped sep (c :: rest) = if c = sep then some ([], rest)
    else (cutUnescaped sep rest).map fun (before, behind) => (c :: before, behind) := by
  rw [cutUnescaped] <;> simp [h]

theorem cutUnescaped_cons_eq_none_iff :
    cutUnescaped sep (c :: rest) = none ↔ c ≠ sep ∧ cutUnescaped sep rest = none := by
  rw [cutUnescaped_cons h]
  by_cases same : c = sep <;> simp [same]

theorem splitUnescaped_cons : splitUnescaped sep (c :: rest) =
    if c = sep then [] :: splitUnescaped sep rest else prepend [c] (splitUnescaped sep rest) := by
  rw [splitUnescaped] <;> simp [h]

theorem unescape_cons : unescape (c :: rest) = c :: unescape rest := by
  rw [unescape] <;> simp [h]

end Steps

theorem cutUnescaped_escaped_eq_none_iff (c : Char) (rest : List Char) :
    cutUnescaped sep ('\\' :: c :: rest) = none ↔ cutUnescaped sep rest = none := by
  simp [cutUnescaped]

theorem dangles_append {front : List Char} (closed : dangles front = false) (behind : List Char) :
    dangles (front ++ behind) = dangles behind := by
  induction front using escaped_induction with
  | nil => rfl
  | lone => cases closed
  | escaped c rest ih => exact ih closed
  | plain c rest hc ih =>
    rw [dangles_cons hc] at closed
    rw [List.cons_append, dangles_cons hc, ih closed]

/-- What is cut off in front holds the separator only escaped, and ends with no backslash that could
escape the separator behind it. -/
theorem of_cutUnescaped_eq_some {cs front behind : List Char}
    (h : cutUnescaped sep cs = some (front, behind)) :
    cs = front ++ sep :: behind ∧ dangles front = false ∧ cutUnescaped sep front = none := by
  induction cs using escaped_induction generalizing front with
  | nil | lone => cases h
  | escaped c rest ih =>
    obtain ⟨⟨before, after⟩, cut, he⟩ := Option.map_eq_some_iff.mp h
    cases he
    obtain ⟨rfl, closed, bare⟩ := ih cut
    exact ⟨rfl, closed, (cutUnescaped_escaped_eq_none_iff c before).mpr bare⟩
  | plain c rest hc ih =>
    rw [cutUnescaped_cons hc] at h
    split at h
    · next same =>
      cases h
      exact ⟨by rw [same, List.nil_append], rfl, rfl⟩
    · next other =>
      obtain ⟨⟨before, after⟩, cut, he⟩ := Option.map_eq_some_iff.mp h
      cases he
      obtain ⟨rfl, closed, bare⟩ := ih cut
      exact ⟨rfl, by rw [dangles_cons hc, closed],
        (cutUnescaped_cons_eq_none_iff hc before).mpr ⟨other, bare⟩⟩

theorem cutUnescaped_append {front : List Char} (closed : dangles front = false)
    (bare : cutUnescaped sep front = none) (behind : List Char) :
    cutUnescaped sep (front ++ behind) =
      (cutUnescaped sep behind).map fun (before, behind) => (front ++ before, behind) := by
  induction front using escaped_induction with
  | nil => simp
  | lone => cases closed
  | escaped c rest ih =>
    rw [cutUnescaped_escaped_eq_none_iff] at bare
    simp [cutUnescaped, ih closed bare, Function.comp_def]
  | plain c rest hc ih =>
    rw [dangles_cons hc] at closed
    obtain ⟨other, bare⟩ := (cutUnescaped_cons_eq_none_iff hc rest).mp bare
    rw [List.cons_append, cutUnescaped_cons hc, if_neg other, ih closed bare]
    simp [Function.comp_def]

theorem cutUnescaped_append_sep {front : List Char} (hs : sep ≠ '\\')
    (closed : dangles front = false) (bare : cutUnescaped sep front = none) (behind : List Char) :
    cutUnescaped sep (front ++ sep :: behind) = some (front, behind) := by
  rw [cutUnescaped_append closed bare, cutUnescaped_cons hs, if_pos rfl]
  simp

theorem cutUnescaped_eq_none_of_append {front behind : List Char}
    (h : cutUnescaped sep (front ++ behind) = none) : cutUnescaped sep front = none := by
  induction front using escaped_induction with
  | nil | lone => rfl
  | escaped c rest ih =>
    rw [List.cons_append, List.cons_append, cutUnescaped_escaped_eq_none_iff] at h
    exact (cutUnescaped_escaped_eq_none_iff c rest).mpr (ih h)
  | plain c rest hc ih =>
    rw [List.cons_append, cutUnescaped_cons_eq_none_iff hc] at h
    exact (cutUnescaped_cons_eq_none_iff hc rest).mpr ⟨h.1, ih h.2⟩

/-- A text whose last backslash escapes nothing is one without it and that backslash. -/
theorem exists_eq_append_of_dangles {front : List Char} (h : dangles front = true) :
    ∃ before, front = before ++ ['\\'] ∧ dangles before = false := by
  induction front using escaped_induction with
  | nil => cases h
  | lone => exact ⟨[], rfl, rfl⟩
  | escaped c rest ih =>
    obtain ⟨before, rfl, closed⟩ := ih h
    exact ⟨'\\' :: c :: before, rfl, closed⟩
  | plain c rest hc ih =>
    rw [dangles_cons hc] at h
    obtain ⟨before, rfl, closed⟩ := ih h
    exact ⟨c :: before, rfl, by rw [dangles_cons hc, closed]⟩

/-- Behind a backslash that escapes nothing yet, one more character is passed over. -/
theorem append_cons_of_dangles {front : List Char} (hanging : dangles front = true)
    (bare : cutUnescaped sep front = none) (c : Char) (behind : List Char) :
    dangles (front ++ c :: behind) = dangles behind ∧
      (cutUnescaped sep (front ++ c :: behind) = none ↔ cutUnescaped sep behind = none) := by
  obtain ⟨before, rfl, closed⟩ := exists_eq_append_of_dangles hanging
  have bare := cutUnescaped_eq_none_of_append bare
  rw [List.append_assoc, List.singleton_append]
  constructor
  · rw [dangles_append closed]
    rfl
  · rw [cutUnescaped_append closed bare]
    simp [cutUnescaped]

theorem closed_of_not_mem {cs : List Char} (plain : '\\' ∉ cs) (h : sep ∉ cs) :
    dangles cs = false ∧ cutUnescaped sep cs = none := by
  induction cs with
  | nil => exact ⟨rfl, rfl⟩
  | cons c rest ih =>
    simp only [List.mem_cons, not_or] at plain h
    obtain ⟨closed, bare⟩ := ih plain.2 h.2
    have hc := Ne.symm plain.1
    rw [dangles_cons hc, cutUnescaped_cons_eq_none_iff hc]
    exact ⟨closed, Ne.symm h.1, bare⟩

theorem cutUnescaped_of_mem_splitUnescaped {cs piece : List Char}
    (h : piece ∈ splitUnescaped sep cs) : cutUnescaped sep piece = none := by
  have front : ∀ {first : List Char} {pieces : List (List Char)},
      (∀ piece, cutUnescaped sep piece = none → cutUnescaped sep (first ++ piece) = none) →
      (∀ piece ∈ pieces, cutUnescaped sep piece = none) →
        ∀ piece ∈ prepend first pieces, cutUnescaped sep piece = none := by
    intro first pieces grows all piece member
    cases pieces with
    | nil =>
      obtain rfl := List.mem_singleton.mp member
      simpa using grows [] rfl
    | cons head tail =>
      rcases List.mem_cons.mp member with rfl | member
      · exact grows head (all head (.head _))
      · exact all piece (.tail _ member)
  induction cs using escaped_induction generalizing piece with
  | nil | lone =>
    obtain rfl := List.mem_singleton.mp h
    rfl
  | escaped c rest ih =>
    exact front (fun piece => (cutUnescaped_escaped_eq_none_iff c piece).mpr) (fun _ => ih) piece h
  | plain c rest hc ih =>
    rw [splitUnescaped_cons hc] at h
    split at h
    · rcases List.mem_cons.mp h with rfl | h
      · rfl
      · exact ih h
    · next other =>
      exact front (fun piece bare => (cutUnescaped_cons_eq_none_iff hc piece).mpr ⟨other, bare⟩)
        (fun _ => ih) piece h

theorem prepend_ne_nil (front : List Char) (pieces : List (List Char)) :
    prepend front pieces ≠ [] := by
  cases pieces <;> simp [prepend]

theorem splitUnescaped_ne_nil (sep : Char) (cs : List Char) : splitUnescaped sep cs ≠ [] := by
  fun_cases splitUnescaped sep cs with
  | case1 | case2 | case4 => exact List.cons_ne_nil _ _
  | case3 | case5 => exact prepend_ne_nil _ _

theorem splitUnescaped_append {front : List Char} (closed : dangles front = false)
    (bare : cutUnescaped sep front = none) (behind : List Char) :
    splitUnescaped sep (front ++ behind) = prepend front (splitUnescaped sep behind) := by
  have twice : ∀ (first second : List Char) {pieces : List (List Char)}, pieces ≠ [] →
      prepend first (prepend second pieces) = prepend (first ++ second) pieces := by
    intro first second pieces some
    cases pieces with
    | nil => exact absurd rfl some
    | cons head tail => simp [prepend]
  have some := splitUnescaped_ne_nil sep behind
  induction front using escaped_induction with
  | nil =>
    cases pieces : splitUnescaped sep behind with
    | nil => exact absurd pieces some
    | cons head tail => simp [pieces, prepend]
  | lone => cases closed
  | escaped c rest ih =>
    rw [cutUnescaped_escaped_eq_none_iff] at bare
    simp only [List.cons_append, splitUnescaped, ih closed bare, twice _ _ some, List.nil_append]
  | plain c rest hc ih =>
    rw [dangles_cons hc] at closed
    obtain ⟨other, bare⟩ := (cutUnescaped_cons_eq_none_iff hc rest).mp bare
    rw [List.cons_append, splitUnescaped_cons hc, if_neg other, ih closed bare, twice _ _ some,
      List.singleton_append]

/-- Texts that hold the separator only escaped are split apart where it joins them. -/
theorem splitUnescaped_intercalate (hs : sep ≠ '\\') {pieces : List (List Char)}
    (some : pieces ≠ [])
    (h : ∀ piece ∈ pieces, dangles piece = false ∧ cutUnescaped sep piece = none) :
    splitUnescaped sep ([sep].intercalate pieces) = pieces := by
  induction pieces with
  | nil => exact absurd rfl some
  | cons first rest ih =>
    obtain ⟨closed, bare⟩ := h first (.head _)
    cases rest with
    | nil =>
      have split := splitUnescaped_append closed bare []
      simpa [splitUnescaped, prepend, List.intercalate] using split
    | cons second rest =>
      have behind := ih (List.cons_ne_nil _ _) fun piece hp => h piece (.tail _ hp)
      have joined : [sep].intercalate (first :: second :: rest) =
          first ++ sep :: [sep].intercalate (second :: rest) := by
        simp [List.intercalate]
      rw [joined, splitUnescaped_append closed bare, splitUnescaped_cons hs, if_pos rfl, behind]
      simp [prepend]

theorem unescape_escape (backslash : special '\\' = true) (cs : List Char) :
    unescape (escape special cs) = cs := by
  induction cs with
  | nil => rfl
  | cons c rest ih =>
    by_cases hc : special c = true
    · simp [escape, hc, unescape, ih]
    · have plain : c ≠ '\\' := fun he => hc (he ▸ backslash)
      rw [escape, if_neg hc, unescape_cons plain, ih]

/-- What was escaped can stand before a separator. -/
theorem closed_escape (backslash : special '\\' = true) (hs : special sep = true) (cs : List Char) :
    dangles (escape special cs) = false ∧ cutUnescaped sep (escape special cs) = none := by
  induction cs with
  | nil => exact ⟨rfl, rfl⟩
  | cons c rest ih =>
    obtain ⟨closed, bare⟩ := ih
    by_cases hc : special c = true
    · rw [escape, if_pos hc, cutUnescaped_escaped_eq_none_iff]
      exact ⟨closed, bare⟩
    · have plain : c ≠ '\\' := fun he => hc (he ▸ backslash)
      have other : c ≠ sep := fun he => hc (he ▸ hs)
      rw [escape, if_neg hc, dangles_cons plain, cutUnescaped_cons_eq_none_iff plain]
      exact ⟨closed, other, bare⟩

theorem escape_append (xs ys : List Char) :
    escape special (xs ++ ys) = escape special xs ++ escape special ys := by
  induction xs with
  | nil => rfl
  | cons c rest ih => by_cases hc : special c = true <;> simp [escape, hc, ih]

theorem trimStart_cons (c : Char) (rest : List Char) :
    trimStart (c :: rest) = if isBlank c then trimStart rest else c :: rest := by
  simp [trimStart, List.dropWhile_cons]

theorem trimEnd_concat (front : List Char) (c : Char) :
    trimEnd (front ++ [c]) = if isBlank c then trimEnd front else front ++ [c] :=
  List.rdropWhile_concat isBlank front c

theorem trimChars_eq_nil_iff {cs : List Char} :
    trimChars cs = [] ↔ ∀ c ∈ cs, isBlank c = true := by
  rw [← List.dropWhile_eq_nil_iff, trimChars]
  constructor
  · intro nothing
    have blank := List.rdropWhile_eq_nil_iff.mp nothing
    cases kept : trimStart cs with
    | nil => exact kept
    | cons c rest =>
      have first : (cs.dropWhile isBlank).head? = some c := by
        rw [← trimStart, kept]
        rfl
      have seen := isBlank_of_head?_dropWhile first
      rw [blank c (kept ▸ .head _)] at seen
      cases seen
  · intro nothing
    rw [trimStart, nothing]
    rfl

/-- Trimming does not reach the characters that are escaped, so it may come before escaping. -/
theorem trimChars_escape (seen : ∀ c, special c = true → isBlank c = false) (cs : List Char) :
    trimChars (escape special cs) = escape special (trimChars cs) := by
  have start : ∀ cs, trimStart (escape special cs) = escape special (trimStart cs) := by
    intro cs
    induction cs with
    | nil => rfl
    | cons c rest ih =>
      by_cases hc : special c = true
      · have backslash : isBlank '\\' = false := by decide
        simp [escape, hc, trimStart_cons, backslash, seen c hc]
      · by_cases blank : isBlank c = true <;> simp [escape, hc, trimStart_cons, blank, ih]
  have last : ∀ cs, trimEnd (escape special cs) = escape special (trimEnd cs) := by
    intro cs
    induction cs using List.reverseRecOn with
    | nil => rfl
    | append_singleton front c ih =>
      rw [escape_append, trimEnd_concat]
      by_cases hc : special c = true
      · have kept := trimEnd_concat (escape special front ++ ['\\']) c
        rw [seen c hc] at kept
        simpa [escape, hc, seen c hc, escape_append] using kept
      · have whole := trimEnd_concat (escape special front) c
        by_cases blank : isBlank c = true <;> simp [escape, hc, blank, ih, escape_append] at whole ⊢
        all_goals exact whole
  rw [trimChars, trimChars, start, last]

theorem cutUnescaped_trimChars {cs : List Char} (h : cutUnescaped sep cs = none) :
    cutUnescaped sep (trimChars cs) = none := by
  have start : cutUnescaped sep (trimStart cs) = none := by
    induction cs with
    | nil => rfl
    | cons c rest ih =>
      rw [trimStart_cons]
      split
      · next blank =>
        have plain : c ≠ '\\' := by
          rintro rfl
          revert blank
          decide
        exact ih ((cutUnescaped_cons_eq_none_iff plain rest).mp h).2
      · exact h
  obtain ⟨back, hback⟩ := List.rdropWhile_prefix isBlank (trimStart cs)
  rw [← hback] at start
  exact cutUnescaped_eq_none_of_append start

end DirectoryHistory.Text
