import DirectoryHistory.Proofs.Entry.Json
import DirectoryHistory.Proofs.History.Rewriting

/-!
# Attributes by their texts

Texts that differ in the case of ASCII letters, in blanks around their pieces, and in the order and
the repetition of options are read as one description, and no others are. The text that a description
is written as stands for all of them: it is read as the same description, and it tells the description
apart from every other one. So nothing is merged and nothing is split where the text is the key, be it
in a table, in the JSON of an entry or in the slots of a history.
-/

namespace DirectoryHistory

namespace Attribute

open Text

/-- The pieces of a text between semicolons, without the blanks at their ends and in lower case: the
name, and then the options as often and in the order as they are given. -/
def pieces (s : String) : List String :=
  (split ';' s.toList).map fun cs => lowerAscii (trim (String.ofList cs))

/-- The texts give the same name and the same set of options. -/
structure AreAlike (s t : String) : Prop where
  name : (pieces s).head? = (pieces t).head?
  options : ∀ o, o ∈ (pieces s).tail ↔ o ∈ (pieces t).tail

variable {a b : Attribute} {s t : String}

theorem mem_insertOption_iff {o p : String} {os : List String} :
    p ∈ insertOption o os ↔ p = o ∨ p ∈ os := by
  refine ⟨mem_insertOption, ?_⟩
  induction os with
  | nil => simp [insertOption]
  | cons first rest ih =>
    rw [insertOption]
    split
    · exact List.mem_cons.mpr
    · split
      · next same => exact fun h => h.elim (fun h => h ▸ same ▸ .head _) id
      · rintro (h | h)
        · exact .tail _ (ih (.inl h))
        · exact (List.mem_cons.mp h).elim (fun h => h ▸ .head _) fun h => .tail _ (ih (.inr h))

theorem of_addOptions {input : String} {raws : List (List Char)}
    (h : addOptions input a raws = .ok b) : b.name = a.name ∧ ∀ o, o ∈ b.options ↔
      o ∈ a.options ∨ o ∈ raws.map fun cs => lowerAscii (trim (String.ofList cs)) := by
  induction raws generalizing a with
  | nil =>
    cases h
    simp
  | cons raw rest ih =>
    simp only [addOptions] at h
    split at h
    · cases h
    · obtain ⟨name, options⟩ := ih h
      refine ⟨name, fun o => ?_⟩
      rw [options, withOption, mem_insertOption_iff, List.map_cons, List.mem_cons, or_assoc,
        or_left_comm]

/-- The description has the name and the options that the pieces of its text give. -/
theorem of_parse (read : parse s = .ok a) : (pieces s).head? = some a.name ∧
    ∀ o, o ∈ a.options ↔ o ∈ (pieces s).tail := by
  simp only [parse] at read
  split at read
  · cases read
  · next first options found =>
    split at read
    · cases read
    · split at read
      · obtain ⟨name, members⟩ := of_addOptions read
        rw [pieces, found, List.map_cons, List.head?_cons, List.tail_cons, name]
        refine ⟨?_, fun o => by simp [members, make]⟩
        simp [make, trim, trimChars_trimChars]
      · cases read

/-- A description in normal form is given by its name and the set of its options. -/
theorem IsNormal.ext (ha : a.IsNormal) (hb : b.IsNormal) (name : a.name = b.name)
    (options : ∀ o, o ∈ a.options ↔ o ∈ b.options) : a = b := by
  have lists : a.options = b.options := ha.ascending.eq_of_mem_iff hb.ascending options
  cases a
  cases b
  simp_all

/-- Which texts are read as one description. -/
theorem eq_iff_areAlike (read : parse s = .ok a) (read' : parse t = .ok b) :
    a = b ↔ AreAlike s t := by
  obtain ⟨name, options⟩ := of_parse read
  obtain ⟨name', options'⟩ := of_parse read'
  constructor
  · rintro rfl
    exact ⟨name.trans name'.symm, fun o => (options o).symm.trans (options' o)⟩
  · rintro ⟨sameName, sameOptions⟩
    rw [name, name'] at sameName
    exact (isNormal_of_parse read).ext (isNormal_of_parse read') (Option.some.inj sameName)
      fun o => (options o).trans ((sameOptions o).trans (options' o).symm)

theorem IsNormal.text_inj (ha : a.IsNormal) (hb : b.IsNormal) : a.text = b.text ↔ a = b := by
  refine ⟨fun same => ?_, congrArg text⟩
  have read := ha.parse_text
  rw [same, hb.parse_text] at read
  exact (Except.ok.inj read).symm

variable {ν : Type} {table : Table Attribute ν}

/-- The pairs of a table, with the texts of the attributes for keys. -/
def byText (table : Table Attribute ν) : List (String × ν) :=
  table.toList.map fun p => (p.1.text, p.2)

theorem nodup_byText (normal : ∀ c ∈ table.keys, c.IsNormal) : ((byText table).map (·.1)).Nodup := by
  have keys : (byText table).map (·.1) = table.keys.map text := by
    simp [byText, Table.keys]
  rw [keys]
  exact List.Nodup.map_on (fun c hc d hd same => ((normal c hc).text_inj (normal d hd)).mp same)
    table.nodup_keys

/-- Under the text of an attribute stands what stands under the attribute. -/
theorem lookup_byText (normal : ∀ c ∈ table.keys, c.IsNormal) (ha : a.IsNormal) :
    (byText table).lookup a.text = table.get? a := by
  have walk : ∀ l : List (Attribute × ν), (∀ p ∈ l, p.1.IsNormal) →
      (l.map fun p => (p.1.text, p.2)).lookup a.text = Table.lookup a l := by
    intro l hl
    induction l with
    | nil => rfl
    | cons p rest ih =>
      have same : (a.text == p.1.text) = true ↔ compare a p.1 = .eq := by
        rw [beq_iff_eq, ha.text_inj (hl p (.head _)), Std.LawfulEqCmp.compare_eq_iff_eq]
      rw [List.map_cons, List.lookup_cons, ih fun q hq => hl q (.tail _ hq), Table.lookup]
      by_cases found : compare a p.1 = .eq
      · simp [found, same.mpr found]
      · simp [found, Bool.eq_false_iff.mpr (mt same.mp found)]
  exact walk table.toList fun p hp => normal p.1 (List.mem_map_of_mem hp)

theorem mem_keys_of_mem_facts {h : History} {f : Fact} (hf : f ∈ h.facts) (about : f.attr? = some a) :
    a ∈ h.timelines.keys := by
  rcases History.mem_facts.mp hf with ⟨r, -, rfl⟩ | ⟨c, hc⟩ | ⟨r, -, rfl⟩
  · cases about
  · obtain ⟨r, kind, value, rfl⟩ := History.about_of_mem_timelineFacts hc
    obtain rfl : c = a := Option.some.inj about
    rw [Table.mem_keys_iff]
    cases there : h.timelines.get? c with
    | some u => exact ⟨u, rfl⟩
    | none => simp [History.timeline, there, History.timelineFacts_empty] at hc
  · cases about

theorem filter_facts_text {h : History} (normal : ∀ c ∈ h.timelines.keys, c.IsNormal)
    (ha : a.IsNormal) : h.facts.filter (fun f => f.attr?.map text = some a.text) =
      h.facts.filter fun f => f.attr? = some a := by
  refine List.filter_congr fun f hf => decide_eq_decide.mpr ?_
  cases about : f.attr? with
  | none => simp
  | some c =>
    rw [Option.map_some, Option.some.injEq, Option.some.injEq]
    exact (normal c (mem_keys_of_mem_facts hf about)).text_inj ha

/-- A description that was read is read again from its own text. Descriptions that were read are the
same exactly if their texts are, and exactly if the texts that they were read from give the same name
and the same set of options. Tables may be keyed by these texts: no text occurs twice, under the text
of an attribute stands what stands under the attribute, the attributes of an entry are read back from
their JSON, and the facts of a history in the slot of an attribute are those about the attribute. -/
theorem parse_text_of_parse (read : parse s = .ok a) :
    parse a.text = .ok a ∧
    (∀ t b, parse t = .ok b → (a = b ↔ a.text = b.text) ∧ (a = b ↔ AreAlike s t)) ∧
    (∀ (ν : Type) (table : Table Attribute ν), (∀ c ∈ table.keys, ∃ t, parse t = .ok c) →
      ((byText table).map (·.1)).Nodup ∧ (byText table).lookup a.text = table.get? a) ∧
    (∀ table : Table Attribute (List Octets), (∀ c ∈ table.keys, ∃ t, parse t = .ok c) →
      tableOfJson? (tableToJson table) = some table) ∧
    ∀ h : History, (∀ c ∈ h.timelines.keys, ∃ t, parse t = .ok c) →
      h.facts.filter (fun f => f.attr?.map text = some a.text) =
        h.facts.filter fun f => f.attr? = some a := by
  have normal := isNormal_of_parse read
  have ofKeys : ∀ {cs : List Attribute}, (∀ c ∈ cs, ∃ t, parse t = .ok c) → ∀ c ∈ cs, c.IsNormal := by
    intro cs keys c hc
    obtain ⟨t, read⟩ := keys c hc
    exact isNormal_of_parse read
  refine ⟨normal.parse_text, fun t b read' => ⟨?_, eq_iff_areAlike read read'⟩,
    fun ν table keys => ⟨nodup_byText (ofKeys keys), lookup_byText (ofKeys keys) normal⟩,
    fun table keys => tableOfJson?_tableToJson (ofKeys keys),
    fun h keys => filter_facts_text (ofKeys keys) normal⟩
  exact (normal.text_inj (isNormal_of_parse read')).symm

/-- Two spellings of one attribute, with a blank beyond ASCII and a letter that keeps its case, and the
look-up of it beside the attribute without options. -/
theorem parse_text_of_parse_respelled :
    let s := " CN ;Lang-ÄB;x-1 ; lang-Äb;X-1"
    let t := "cn;X-1;\u00a0LANG-ÄB"
    let a : Attribute := ⟨"cn", ["lang-Äb", "x-1"]⟩
    let plain : Attribute := ⟨"cn", []⟩
    let table : Table Attribute Nat := (Table.empty.insert a 1).insert plain 2
    parse s = .ok a ∧ parse t = .ok a ∧ parse a.text = .ok a ∧ AreAlike s t ∧
      a.text ≠ plain.text ∧ (byText table).lookup a.text = some 1 := by
  intro s t a plain table
  have read : parse s = .ok a := by decide +revert +kernel
  have read' : parse t = .ok a := by decide +revert +kernel
  have readPlain : parse "cn" = .ok plain := by decide +revert +kernel
  have keys : ∀ c ∈ table.keys, ∃ t, parse t = .ok c := by
    have listed : table.keys = [plain, a] := by decide +kernel
    rw [listed]
    simp only [List.forall_mem_cons]
    exact ⟨⟨_, readPlain⟩, ⟨_, read⟩, List.forall_mem_nil _⟩
  obtain ⟨again, alike, tables, -⟩ := parse_text_of_parse read
  refine ⟨read, read', again, (alike t a read').2.mp rfl, fun same => ?_,
    (tables Nat table keys).2.trans (by decide +kernel)⟩
  exact absurd ((alike "cn" plain readPlain).1.mpr same) (by decide)

end Attribute

end DirectoryHistory
