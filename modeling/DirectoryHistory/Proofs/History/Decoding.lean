import DirectoryHistory.Proofs.History.Writing

/-!
# Histories that were decoded

A fact that was decoded is about a plain attribute. That may be one that is called as the entry is,
so the fact need not be read back. Different facts have different texts all the same, and a decoded
history is written without repetitions.
-/

namespace DirectoryHistory

namespace Text

theorem not_mem_of_cut_eq_some {sep : Char} {cs front behind : List Char}
    (h : cut sep cs = some (front, behind)) : sep ∉ front := by
  induction cs generalizing front with
  | nil => cases h
  | cons c rest ih =>
    simp only [cut] at h
    split at h
    · cases h
      exact List.not_mem_nil
    · next other =>
      obtain ⟨⟨before, after⟩, hcut, he⟩ := Option.map_eq_some_iff.mp h
      cases he
      exact List.not_mem_cons_of_ne_of_not_mem (Ne.symm other) (ih hcut)

end Text

namespace Attribute

theorem colonless_of_addOptions {input : String} {a b : Attribute} {raws : List (List Char)}
    (ha : ∀ o ∈ a.options, ':' ∉ o.toList) (hs : ∀ raw ∈ raws, ':' ∉ raw)
    (h : addOptions input a raws = .ok b) : ∀ o ∈ b.options, ':' ∉ o.toList := by
  induction raws generalizing a with
  | nil =>
    cases h
    exact ha
  | cons raw rest ih =>
    simp only [addOptions] at h
    split at h
    · cases h
    · refine ih (fun o ho => ?_) (fun r hr => hs r (.tail _ hr)) h
      rcases mem_insertOption ho with rfl | ho
      · exact fun hm => hs raw (.head _) (Text.mem_of_mem_lowerAscii_trim (by decide) hm)
      · exact ha o ho

theorem isPlain_of_parse {s : String} {a : Attribute} (h : parse s = .ok a)
    (colonless : ':' ∉ s.toList) : a.IsPlain := by
  refine ⟨⟨s, h⟩, ?_⟩
  simp only [parse] at h
  split at h
  · cases h
  · next first options pieces =>
    split at h
    · cases h
    · split at h
      · refine colonless_of_addOptions (List.forall_mem_nil _) (fun raw hr hc => ?_) h
        have piece : raw ∈ Text.split ';' s.toList := by
          rw [pieces]
          exact .tail _ hr
        exact colonless (Text.of_mem_split piece ':' hc).2
      · cases h

theorem IsPlain.eq_of_chars_eq {a b : Attribute} (ha : a.IsPlain) (hb : b.IsPlain)
    (same : a.chars = b.chars) : a = b := by
  have left := ha.isNormal.parse_text
  rw [text, same] at left
  exact (Except.ok.inj (hb.isNormal.parse_text.symm.trans left)).symm

end Attribute

namespace Fact

/-- The fact is about a plain attribute or the entry, and has a value if its kind asks for one. -/
def IsPlain : Fact → Prop
  | created _ | renamed _ => True
  | about a _ kind value => a.IsPlain ∧ (value.isSome = true ↔ kind ≠ .deleteAttribute)

theorem isPlain_of_ofAttributeSlot {slot : List Char} {s : Stamp} {word : String}
    {value : Option (List Char)} {f : Fact} (colonless : ':' ∉ slot)
    (h : ofAttributeSlot slot s word value = .ok f) : f.IsPlain := by
  simp only [ofAttributeSlot, bind, Except.bind] at h
  split at h
  · cases h
  · next a parsed =>
    have plain : a.IsPlain := by
      cases hp : Attribute.parse (String.ofList slot) with
      | error e => simp [hp, Except.mapError] at parsed
      | ok b =>
        obtain rfl : b = a := by simpa [hp, Except.mapError] using parsed
        exact Attribute.isPlain_of_parse hp (by simpa using colonless)
    have valued : ∀ kind : Kind, kind ≠ .deleteAttribute → ∀ v : Octets,
        IsPlain (.about a s kind (some v)) := fun kind other v => ⟨plain, by simpa using other⟩
    cases known : Kind.ofWord? word with
    | none => simp [known, throw, throwThe, MonadExceptOf.throw] at h
    | some kind =>
      rw [known] at h
      cases value with
      | none =>
        cases kind <;> cases h
        exact ⟨plain, by simp⟩
      | some v =>
        cases read : decodeValue v with
        | error e => cases kind <;> simp [read, throw, throwThe, MonadExceptOf.throw] at h
        | ok o =>
          cases kind <;> simp only [read] at h <;> cases h <;> exact valued _ (by decide) o

theorem isPlain_of_ofChars {cs : List Char} {f : Fact} (h : ofChars cs = .ok f) : f.IsPlain := by
  simp only [ofChars] at h
  split at h
  · cases h
  next slot behind hslot =>
  split at h
  · cases h
  split at h
  · cases h
  split at h
  · simp only [ofEntrySlot] at h
    split at h
    · cases h
    split at h
    · cases h
      trivial
    split at h
    · cases h
      trivial
    · cases h
  · exact isPlain_of_ofAttributeSlot (Text.not_mem_of_cut_eq_some hslot) h

theorem isPlain_of_decode {raw : Octets} {f : Fact} (h : decode raw = .ok f) : f.IsPlain := by
  simp only [decode] at h
  split at h
  · cases h
  next s _ =>
  cases chars : ofChars s.toList with
  | error e => simp [chars, Except.mapError] at h
  | ok g =>
    obtain rfl : g = f := by simpa [chars, Except.mapError] using h
    exact isPlain_of_ofChars chars

def slotChars : Fact → List Char
  | created _ | renamed _ => Attribute.entrySlot.toList
  | about a _ _ _ => a.chars

def change : Fact → String × Option (List Char)
  | created _ => ("add", none)
  | renamed _ => ("moddn", none)
  | about _ _ kind value => (kind.word, value.map valueChars)

/-- The text of a fact falls into its slot, its stamp and its change. -/
theorem exists_chars_eq (f : Fact) : ∃ behind,
    f.chars = f.slotChars ++ ':' :: (f.stamp.text.toList ++ ':' :: behind) ∧
      kindAndValue behind = f.change := by
  cases f with
  | created s => exact ⟨"add".toList, by simp [chars, slotChars, stamp],
      kindAndValue_word (by decide)⟩
  | renamed s => exact ⟨"moddn".toList, by simp [chars, slotChars, stamp],
      kindAndValue_word (by decide)⟩
  | about a s kind value =>
    cases value with
    | none =>
      refine ⟨kind.word.toList, by simp [chars, slotChars, stamp], ?_⟩
      rw [kindAndValue_word kind.colonless, String.ofList_toList]
      rfl
    | some v =>
      refine ⟨kind.word.toList ++ ':' :: valueChars v, by simp [chars, slotChars, stamp], ?_⟩
      rw [kindAndValue_value kind.colonless, String.ofList_toList]
      rfl

theorem IsPlain.colonless {f : Fact} (h : f.IsPlain) : ':' ∉ f.slotChars := by
  cases f with
  | created s | renamed s =>
    simp only [slotChars]
    decide
  | about a s kind value => exact h.1.colonless

theorem valueChars_injective {v w : Octets} (same : valueChars v = valueChars w) : v = w := by
  have read := decodeValue_valueChars v
  rw [same, decodeValue_valueChars] at read
  exact (Except.ok.inj read).symm

theorem IsPlain.ext {f g : Fact} (hf : f.IsPlain) (hg : g.IsPlain)
    (slots : f.slotChars = g.slotChars) (stamps : f.stamp = g.stamp)
    (changes : f.change = g.change) : f = g := by
  have word : ∀ {kind : Kind} {o : Option Octets} {w : String},
      (o.isSome = true ↔ kind ≠ .deleteAttribute) → (kind.word, o.map valueChars) = (w, none) →
        w = "attrDel" := by
    intro kind o w valued he
    cases o with
    | some v => cases he
    | none =>
      obtain rfl : kind = .deleteAttribute := by simpa using valued
      exact (congrArg Prod.fst he).symm
  cases f with
  | created s =>
    cases g with
    | created r => exact congrArg created stamps
    | renamed r => exact absurd changes (by simp [change])
    | about b r kind value => exact absurd (word hg.2 changes.symm) (by decide)
  | renamed s =>
    cases g with
    | created r => exact absurd changes (by simp [change])
    | renamed r => exact congrArg renamed stamps
    | about b r kind value => exact absurd (word hg.2 changes.symm) (by decide)
  | about a s kind value =>
    cases g with
    | created r | renamed r => exact absurd (word hf.2 changes) (by decide)
    | about b r kind' value' =>
      obtain rfl : a = b := hf.1.eq_of_chars_eq hg.1 slots
      obtain rfl : s = r := stamps
      obtain ⟨words, values⟩ := Prod.mk.inj changes
      have kinds : some kind = some kind' := by
        rw [← Kind.ofWord?_word, words, Kind.ofWord?_word]
      obtain rfl := Option.some.inj kinds
      rw [Option.map_injective (fun _ _ => valueChars_injective) values]

/-- Different plain facts have different texts. -/
theorem IsPlain.eq_of_encode_eq {f g : Fact} (hf : f.IsPlain) (hg : g.IsPlain)
    (same : f.encode = g.encode) : f = g := by
  have texts : f.text = g.text := Octets.ofText_inj.mp same
  have chars : f.chars = g.chars := by
    simpa [text] using congrArg String.toList texts
  obtain ⟨behind, hbehind, change⟩ := f.exists_chars_eq
  obtain ⟨behind', hbehind', change'⟩ := g.exists_chars_eq
  rw [hbehind, hbehind'] at chars
  have slots := Text.cut_append hf.colonless (f.stamp.text.toList ++ ':' :: behind)
  rw [chars, Text.cut_append hg.colonless] at slots
  obtain ⟨slots, rest⟩ := Prod.mk.inj (Option.some.inj slots)
  have stamps := Text.cut_append f.stamp.colonless_text behind
  rw [← rest, Text.cut_append g.stamp.colonless_text] at stamps
  obtain ⟨stamps, changes⟩ := Prod.mk.inj (Option.some.inj stamps)
  have read := Stamp.parse_text f.stamp
  rw [← String.toList_inj.mp stamps, Stamp.parse_text] at read
  refine hf.ext hg slots.symm (Except.ok.inj read).symm ?_
  rw [← change, ← change', changes]

end Fact

namespace History

variable {g h : History}

/-- The attributes that have a timeline are plain. -/
def IsPlain (h : History) : Prop :=
  ∀ a, h.timeline a ≠ .empty → a.IsPlain

theorem IsPlain.absorb (plain : g.IsPlain) {f : Fact} (hf : f.IsPlain) : (g.absorb f).IsPlain := by
  cases f with
  | created s | renamed s => exact plain
  | about a s kind value =>
    intro b content
    by_cases hb : b = a
    · exact hb ▸ hf.1
    · rw [timeline_absorb_of_ne g hb] at content
      exact plain b content

theorem isPlain_ofFacts {fs : List Fact} (all : ∀ f ∈ fs, f.IsPlain) : (ofFacts fs).IsPlain :=
  List.foldlRecOn (motive := IsPlain) fs History.absorb (fun _ content => absurd rfl content)
    fun _ plain f hf => plain.absorb (all f hf)

theorem isPlain_of_mem_facts (ordered : h.IsOrdered) (plain : h.IsPlain) {f : Fact}
    (hf : f ∈ h.facts) : f.IsPlain := by
  cases f with
  | created s | renamed s => trivial
  | about a s kind value =>
    obtain ⟨content, valued⟩ := about_of_mem_facts ordered hf
    exact ⟨plain a content, valued⟩

theorem isPlain_of_ofEntry {e : Entry} (read : ofEntry e = .ok h) : h.IsOrdered ∧ h.IsPlain := by
  simp only [ofEntry, ofValues] at read
  cases decoded : e.historyValues.mapM Fact.decode with
  | error cause => simp [decoded, Except.map] at read
  | ok fs =>
    obtain rfl : ofFacts fs = h := by simpa [decoded, Except.map] using read
    refine ⟨isOrdered_ofFacts fs, isPlain_ofFacts fun f hf => ?_⟩
    obtain ⟨raw, -, hraw⟩ := (Text.of_mapM_eq_ok decoded).1 f hf
    exact Fact.isPlain_of_decode hraw

theorem nodup_map_encode_of_ofEntry {e : Entry} (read : ofEntry e = .ok h) :
    (h.facts.map Fact.encode).Nodup := by
  obtain ⟨ordered, plain⟩ := isPlain_of_ofEntry read
  refine List.Nodup.map_on (fun f hf g hg same => ?_) (nodup_facts ordered)
  exact (isPlain_of_mem_facts ordered plain hf).eq_of_encode_eq
    (isPlain_of_mem_facts ordered plain hg) same

end History

end DirectoryHistory
