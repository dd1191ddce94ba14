import DirectoryHistory.Proofs.Json.Scalars
import Mathlib.Data.List.DropRight

/-!
# JSON is read as it was laid out

A value made of well-formed strings and natural numbers is read back from its pretty layout. Every
value and every separator takes up a character of the text, so that the fuel of the readers suffices.
-/

namespace DirectoryHistory.Json

variable {rest cs : List Char} {j : Json}

theorem toList_newline (level : Nat) :
    (newline level).toList = '\n' :: List.replicate (2 * level) ' ' := by
  simp [newline]

theorem skipBlank_newline (level : Nat) (cs : List Char) :
    skipBlank ((newline level).toList ++ cs) = skipBlank cs := by
  refine List.dropWhile_append_of_pos fun c hc => ?_
  rw [toList_newline] at hc
  rcases List.mem_cons.mp hc with rfl | hc
  · rfl
  · rw [List.eq_of_mem_replicate hc]
    rfl

theorem ends_newline (level : Nat) (cs : List Char) : Ends ((newline level).toList ++ cs) := by
  rw [toList_newline]
  rintro c (rfl | _)
  exact .inr rfl

theorem ends_comma (cs : List Char) : Ends (',' :: cs) := by
  rintro c (rfl | _)
  exact .inl rfl

theorem skipBlank_skipBlank (cs : List Char) : skipBlank (skipBlank cs) = skipBlank cs :=
  List.dropWhile_idempotent (p := isBlank) cs

/-- The readers skip the blanks in front themselves. -/
theorem readValue_congr {fuel : Nat} {cs' : List Char} (same : skipBlank cs = skipBlank cs') :
    readValue fuel cs = readValue fuel cs' := by
  cases fuel with
  | zero => rfl
  | succ fuel => simp only [readValue, same]

theorem readItems_congr {fuel : Nat} {done : List Json} {cs' : List Char}
    (same : skipBlank cs = skipBlank cs') : readItems fuel done cs = readItems fuel done cs' := by
  cases fuel with
  | zero => rfl
  | succ fuel => simp only [readItems, readValue_congr same]

theorem readMembers_congr {fuel : Nat} {done : List (Text × Json)} {cs' : List Char}
    (same : skipBlank cs = skipBlank cs') :
    readMembers fuel done cs = readMembers fuel done cs' := by
  cases fuel with
  | zero => rfl
  | succ fuel => simp only [readMembers, same]

/-- The value is read back from its layout at every level, with as much fuel as the text is long. -/
def IsReadable (j : Json) : Prop :=
  ∀ level fuel rest, (prettyAt level j).toList.length ≤ fuel → Ends rest →
    readValue fuel ((prettyAt level j).toList ++ rest) = some (j, rest)

theorem toList_prettyItems_singleton (level : Nat) (j : Json) :
    (prettyItems level [j]).toList = (newline (level + 1)).toList ++
      ((prettyAt (level + 1) j).toList ++ ((newline level).toList ++ [']'])) := by
  simp [prettyItems]

theorem toList_prettyItems_cons (level : Nat) (j k : Json) (items : List Json) :
    (prettyItems level (j :: k :: items)).toList = (newline (level + 1)).toList ++
      ((prettyAt (level + 1) j).toList ++ ',' :: (prettyItems level (k :: items)).toList) := by
  simp [prettyItems]

/-- One item of an array is taken, and what comes behind it decides how to go on. -/
theorem readItems_item {fuel : Nat} {done : List Json} {after : List Char}
    (value : readValue fuel cs = some (j, after)) (level : Nat) :
    readItems (fuel + 1) done ((newline level).toList ++ cs) =
      match skipBlank after with
      | ',' :: rest => readItems fuel (j :: done) rest
      | ']' :: rest => some (.array (j :: done).reverse, rest)
      | _ => none := by
  rw [← readValue_congr (skipBlank_newline level cs)] at value
  simp only [readItems, value, Option.bind_eq_bind, Option.bind_some]
  rfl

theorem readItems_pretty {items : List Json} (readable : ∀ j ∈ items, j.IsReadable)
    (nonempty : items ≠ []) (level : Nat) {fuel : Nat} (done : List Json)
    (enough : (prettyItems level items).toList.length ≤ fuel) (rest : List Char) :
    readItems fuel done ((prettyItems level items).toList ++ rest) =
      some (.array (done.reverse ++ items), rest) := by
  induction items generalizing fuel done with
  | nil => exact absurd rfl nonempty
  | cons j items ih =>
    have readable' := readable j (.head _) (level + 1)
    cases items with
    | nil =>
      rw [toList_prettyItems_singleton] at enough ⊢
      simp only [List.length_append, List.length_cons, List.length_nil] at enough
      obtain ⟨fuel, rfl⟩ : ∃ f, fuel = f + 1 := ⟨fuel - 1, by omega⟩
      have first := readable' fuel ((newline level).toList ++ ']' :: rest) (by omega)
        (ends_newline level _)
      simp only [List.append_assoc, List.cons_append, List.nil_append]
      rw [readItems_item first, skipBlank_newline]
      simp [skipBlank, isBlank]
    | cons k items =>
      rw [toList_prettyItems_cons] at enough ⊢
      simp only [List.length_append, List.length_cons] at enough
      obtain ⟨fuel, rfl⟩ : ∃ f, fuel = f + 1 := ⟨fuel - 1, by omega⟩
      have first := readable' fuel (',' :: ((prettyItems level (k :: items)).toList ++ rest))
        (by omega) (ends_comma _)
      have others : readItems fuel (j :: done) ((prettyItems level (k :: items)).toList ++ rest) =
          some (.array ((j :: done).reverse ++ k :: items), rest) :=
        ih (fun j hj => readable j (.tail _ hj)) (by simp) (j :: done) (by omega)
      have comma : ∀ cs, skipBlank (',' :: cs) = ',' :: cs := fun _ => rfl
      simp only [List.append_assoc, List.cons_append]
      rw [readItems_item first]
      simp only [comma]
      rw [others]
      simp

theorem readItems_bracket {fuel : Nat} {done : List Json} (closes : skipBlank cs = ']' :: rest) :
    readItems fuel done cs = none := by
  have none : ∀ fuel, readValue fuel cs = none := by
    intro fuel
    cases fuel with
    | zero => rfl
    | succ fuel =>
      simp only [readValue, closes]
      rfl
  cases fuel with
  | zero => rfl
  | succ fuel => simp only [readItems, none, Option.bind_eq_bind, Option.bind_none]

theorem readValue_array {fuel : Nat} {j : Json} (items : readItems fuel [] cs = some (j, rest)) :
    readValue (fuel + 1) ('[' :: cs) = some (j, rest) := by
  rw [readItems_congr (skipBlank_skipBlank cs).symm] at items
  have open' : skipBlank ('[' :: cs) = '[' :: cs := rfl
  simp only [readValue, open']
  split
  · next closes =>
    rw [readItems_bracket (skipBlank_skipBlank cs ▸ closes)] at items
    cases items
  · exact items

theorem isReadable_array {items : List Json} (readable : ∀ j ∈ items, j.IsReadable) :
    (Json.array items).IsReadable := by
  intro level fuel rest enough ends
  have layout : (prettyAt level (.array items)).toList = '[' :: (prettyItems level items).toList := by
    simp [prettyAt]
  rw [layout, List.length_cons] at enough
  obtain ⟨fuel, rfl⟩ : ∃ f, fuel = f + 1 := ⟨fuel - 1, by omega⟩
  rw [layout, List.cons_append]
  cases items with
  | nil =>
    have close : (prettyItems level []).toList = [']'] := by simp [prettyItems]
    rw [close]
    rfl
  | cons j items =>
    exact readValue_array (readItems_pretty readable (by simp) level [] (by omega) rest)

def keyed (members : List (String × Json)) : List (Text × Json) :=
  members.map fun (key, j) => (Text.ofString key, j)

theorem toList_prettyMembers_singleton (level : Nat) (key : String) (j : Json) :
    (prettyMembers level (keyed [(key, j)])).toList = (newline (level + 1)).toList ++
      '"' :: ((key.toList.map Char.toNat).flatMap escaped ++ '"' :: ':' :: ' ' ::
        ((prettyAt (level + 1) j).toList ++ ((newline level).toList ++ ['\x7d']))) := by
  simp [prettyMembers, keyed, toList_literal, Text.ofString]

theorem toList_prettyMembers_cons (level : Nat) (key : String) (j : Json) (next : String × Json)
    (members : List (String × Json)) :
    (prettyMembers level (keyed ((key, j) :: next :: members))).toList =
      (newline (level + 1)).toList ++ '"' :: ((key.toList.map Char.toNat).flatMap escaped ++
        '"' :: ':' :: ' ' :: ((prettyAt (level + 1) j).toList ++
          ',' :: (prettyMembers level (keyed (next :: members))).toList)) := by
  simp [prettyMembers, keyed, toList_literal, Text.ofString]

theorem readMembers_member {fuel : Nat} {done : List (Text × Json)} {key : String}
    {after : List Char} (value : readValue fuel cs = some (j, after)) (level : Nat) :
    readMembers (fuel + 1) done ((newline level).toList ++
        '"' :: ((key.toList.map Char.toNat).flatMap escaped ++ '"' :: ':' :: cs)) =
      match skipBlank after with
      | ',' :: rest => readMembers fuel ((Text.ofString key, j) :: done) rest
      | '\x7d' :: rest => some (.object ((Text.ofString key, j) :: done).reverse, rest)
      | _ => none := by
  have quote : ∀ cs, skipBlank ('"' :: cs) = '"' :: cs := fun _ => rfl
  have colon : skipBlank (':' :: cs) = ':' :: cs := rfl
  simp only [readMembers, skipBlank_newline, quote, readString_literal, Option.bind_eq_bind,
    Option.bind_some, colon, value]
  rfl

theorem readMembers_pretty {members : List (String × Json)}
    (readable : ∀ p ∈ members, p.2.IsReadable) (nonempty : members ≠ []) (level : Nat) {fuel : Nat}
    (done : List (Text × Json))
    (enough : (prettyMembers level (keyed members)).toList.length ≤ fuel) (rest : List Char) :
    readMembers fuel done ((prettyMembers level (keyed members)).toList ++ rest) =
      some (.object (done.reverse ++ keyed members), rest) := by
  induction members generalizing fuel done with
  | nil => exact absurd rfl nonempty
  | cons p members ih =>
    obtain ⟨key, j⟩ := p
    have readable' : j.IsReadable := readable (key, j) (.head _)
    have spaced : ∀ cs, skipBlank (' ' :: cs) = skipBlank cs := fun _ => rfl
    cases members with
    | nil =>
      rw [toList_prettyMembers_singleton] at enough ⊢
      simp only [List.length_append, List.length_cons, List.length_nil] at enough
      obtain ⟨fuel, rfl⟩ : ∃ f, fuel = f + 1 := ⟨fuel - 1, by omega⟩
      have first := readable' (level + 1) fuel ((newline level).toList ++ '\x7d' :: rest) (by omega)
        (ends_newline level _)
      rw [← readValue_congr (spaced _)] at first
      simp only [List.append_assoc, List.cons_append, List.nil_append]
      rw [readMembers_member first, skipBlank_newline]
      simp [skipBlank, isBlank, keyed]
    | cons next members =>
      rw [toList_prettyMembers_cons] at enough ⊢
      simp only [List.length_append, List.length_cons] at enough
      obtain ⟨fuel, rfl⟩ : ∃ f, fuel = f + 1 := ⟨fuel - 1, by omega⟩
      have first := readable' (level + 1) fuel
        (',' :: ((prettyMembers level (keyed (next :: members))).toList ++ rest)) (by omega)
        (ends_comma _)
      have others : readMembers fuel ((Text.ofString key, j) :: done)
          ((prettyMembers level (keyed (next :: members))).toList ++ rest) = some (.object
            (((Text.ofString key, j) :: done).reverse ++ keyed (next :: members)), rest) :=
        ih (fun p hp => readable p (.tail _ hp)) (by simp) _ (by omega)
      rw [← readValue_congr (spaced _)] at first
      simp only [List.append_assoc, List.cons_append]
      rw [readMembers_member first]
      have comma : ∀ cs, skipBlank (',' :: cs) = ',' :: cs := fun _ => rfl
      simp only [comma]
      rw [others]
      simp [keyed]

theorem isReadable_record {members : List (String × Json)}
    (readable : ∀ p ∈ members, p.2.IsReadable) : (record members).IsReadable := by
  intro level fuel rest enough ends
  have layout : (prettyAt level (record members)).toList =
      '\x7b' :: (prettyMembers level (keyed members)).toList := by
    simp [prettyAt, record, keyed]
  rw [layout, List.length_cons] at enough
  obtain ⟨fuel, rfl⟩ : ∃ f, fuel = f + 1 := ⟨fuel - 1, by omega⟩
  rw [layout, List.cons_append]
  cases members with
  | nil =>
    have close : (prettyMembers level (keyed [])).toList = ['\x7d'] := by
      simp [prettyMembers, keyed]
    rw [close]
    rfl
  | cons p members =>
    have read : readMembers fuel [] ((prettyMembers level (keyed (p :: members))).toList ++ rest) =
        some (.object (keyed (p :: members)), rest) :=
      readMembers_pretty readable (by simp) level [] (by omega) rest
    obtain ⟨cs, front⟩ : ∃ cs, skipBlank
        ((prettyMembers level (keyed (p :: members))).toList ++ rest) = '"' :: cs := by
      cases members with
      | nil =>
        rw [toList_prettyMembers_singleton, List.append_assoc, skipBlank_newline]
        exact ⟨_, rfl⟩
      | cons next members =>
        rw [toList_prettyMembers_cons, List.append_assoc, skipBlank_newline]
        exact ⟨_, rfl⟩
    have open' : ∀ cs, skipBlank ('\x7b' :: cs) = '\x7b' :: cs := fun _ => rfl
    rw [← readMembers_congr (skipBlank_skipBlank _), front] at read
    simp only [readValue, open', front]
    exact read

/-- The values that are made of natural numbers and well-formed strings. -/
inductive IsPlain : Json → Prop
  | null : IsPlain .null
  | bool (b : Bool) : IsPlain (.bool b)
  | nat (n : Nat) : IsPlain (.nat n)
  | str (s : String) : IsPlain (.str s)
  | array {items : List Json} (h : ∀ j ∈ items, IsPlain j) : IsPlain (.array items)
  | record {members : List (String × Json)} (h : ∀ p ∈ members, IsPlain p.2) :
    IsPlain (.record members)

theorem isReadable_word (c : Char) (word : List Char)
    (layout : ∀ level, (prettyAt level j).toList = c :: word)
    (read : ∀ fuel rest, readValue (fuel + 1) (c :: word ++ rest) = some (j, rest)) :
    j.IsReadable := by
  intro level fuel rest enough ends
  rw [layout, List.length_cons] at enough
  obtain ⟨fuel, rfl⟩ : ∃ f, fuel = f + 1 := ⟨fuel - 1, by omega⟩
  rw [layout, read]

theorem readValue_digit {c : Char} (digit : DirectoryHistory.Text.isDecimalDigit c = true)
    (fuel : Nat) (cs : List Char) : readValue (fuel + 1) (c :: cs) =
      (readNumber (c :: cs)).map fun (chars, rest) => (.number chars, rest) := by
  have visible : skipBlank (c :: cs) = c :: cs := by
    refine List.dropWhile_cons_of_neg fun blank => ?_
    simp only [isBlank, Bool.or_eq_true, beq_iff_eq, or_assoc] at blank
    rcases blank with rfl | rfl | rfl | rfl <;> cases digit
  simp only [readValue, visible]
  split
  case h_7 => rfl
  all_goals
    next same =>
    cases same
    cases digit

theorem isReadable_nat (n : Nat) : (nat n).IsReadable := by
  intro level fuel rest enough ends
  have read := readNumber_decimal ends n
  have layout : (prettyAt level (nat n)).toList = (DirectoryHistory.Text.decimal n).toList := by
    simp [prettyAt, nat]
  rw [layout] at enough ⊢
  cases digits : (DirectoryHistory.Text.decimal n).toList with
  | nil => exact absurd (DirectoryHistory.Text.toList_decimal n ▸ digits) Nat.toDigits_ne_nil
  | cons c cs =>
    have digit := DirectoryHistory.Text.isDecimalDigit_of_mem_decimal (n := n) (c := c) (by simp [digits])
    rw [digits, List.length_cons] at enough
    obtain ⟨fuel, rfl⟩ : ∃ f, fuel = f + 1 := ⟨fuel - 1, by omega⟩
    rw [digits] at read
    rw [List.cons_append, readValue_digit digit, ← List.cons_append, read, nat, digits]
    rfl

theorem isReadable_str (s : String) : (str s).IsReadable := by
  refine isReadable_word '"' ((s.toList.map Char.toNat).flatMap escaped ++ ['"'])
    (fun level => by simp [prettyAt, str, toList_literal, Text.ofString]) fun fuel rest => ?_
  have quote : ∀ cs, skipBlank ('"' :: cs) = '"' :: cs := fun _ => rfl
  rw [List.cons_append, List.append_assoc, List.singleton_append]
  simp only [readValue, quote, readString_literal]
  rfl

theorem IsPlain.isReadable (h : j.IsPlain) : j.IsReadable := by
  induction h with
  | null => exact isReadable_word 'n' ['u', 'l', 'l'] (by simp [prettyAt]) fun _ _ => rfl
  | bool b =>
    cases b with
    | true => exact isReadable_word 't' ['r', 'u', 'e'] (by simp [prettyAt]) fun _ _ => rfl
    | false => exact isReadable_word 'f' ['a', 'l', 's', 'e'] (by simp [prettyAt]) fun _ _ => rfl
  | nat n => exact isReadable_nat n
  | str s => exact isReadable_str s
  | array _ ih => exact isReadable_array ih
  | record _ ih => exact isReadable_record ih

/-- A plain value is read back from its pretty layout. -/
theorem IsPlain.parse?_pretty (h : j.IsPlain) : parse? j.pretty = some j := by
  have read := h.isReadable 0 (2 * j.pretty.toList.length + 2) [] (by simp only [pretty]; omega)
    nofun
  rw [List.append_nil] at read
  change readValue (2 * j.pretty.toList.length + 2) j.pretty.toList = some (j, []) at read
  simp only [parse?, read, Option.bind_eq_bind, Option.bind_some]
  rfl

end DirectoryHistory.Json
