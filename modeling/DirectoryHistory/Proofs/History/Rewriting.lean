import DirectoryHistory.Proofs.History.Decoding
import DirectoryHistory.Proofs.History.Recording

/-!
# Rewriting what was decoded

A fact that was decoded is decoded again from what it is written as, however it was spelled at first,
unless it is about the attribute that is called as the entry is. That attribute is written in lower
case and without blanks, in the slot of the entry itself, where a fact about an attribute is refused.
The history of an entry can be rewritten, whole or purged, as long as no such fact is left in it.
-/

namespace DirectoryHistory

namespace Fact

variable {f : Fact}

def attr? : Fact → Option Attribute
  | created _ | renamed _ => none
  | about a _ _ _ => some a

/-- Of the plain facts, only those in the slot of the entry itself are not readable. -/
theorem IsPlain.isReadable (h : f.IsPlain) (other : f.attr? ≠ some ⟨Attribute.entrySlot, []⟩) :
    f.IsReadable := by
  cases f with
  | created s | renamed s => trivial
  | about a s kind value => exact ⟨h.1.isSlot_of_ne fun he => other (congrArg some he), h.2⟩

/-- In the slot of the entry itself a value is refused, and so is the word for a reset. -/
theorem ofEntrySlot_change {a : Attribute} {s : Stamp} {kind : Kind} {value : Option Octets}
    (h : IsPlain (about a s kind value)) :
    ∃ flaw, ofEntrySlot s (about a s kind value).change.1 (about a s kind value).change.2 =
      .error flaw := by
  cases value with
  | some v => exact ⟨.entryValue, rfl⟩
  | none =>
    obtain rfl : kind = .deleteAttribute := by simpa using h.2
    exact ⟨.entryKind "attrDel", rfl⟩

theorem IsPlain.exists_decode_encode_eq_error (h : f.IsPlain)
    (mistaken : f.attr? = some ⟨Attribute.entrySlot, []⟩) :
    ∃ flaw, decode f.encode = .error ⟨f.encode, flaw⟩ := by
  cases f with
  | created s | renamed s => cases mistaken
  | about a s kind value =>
    obtain rfl : a = ⟨Attribute.entrySlot, []⟩ := Option.some.inj mistaken
    obtain ⟨flaw, refused⟩ := ofEntrySlot_change h
    obtain ⟨behind, chars, change⟩ := exists_chars_eq (about ⟨Attribute.entrySlot, []⟩ s kind value)
    have slot : Attribute.chars ⟨Attribute.entrySlot, []⟩ = Attribute.entrySlot.toList := rfl
    have read := ofChars_eq h.1.colonless s behind
    rw [if_pos slot, change, refused] at read
    have whole : ofChars (about ⟨Attribute.entrySlot, []⟩ s kind value).text.toList = .error flaw := by
      rw [text, String.toList_ofList, chars]
      exact read
    refine ⟨flaw, ?_⟩
    rw [decode, encode, Octets.text?_ofText]
    simp only [whole, Except.mapError]

theorem IsPlain.decode_encode_iff (h : f.IsPlain) :
    decode f.encode = .ok f ↔ f.attr? ≠ some ⟨Attribute.entrySlot, []⟩ := by
  constructor
  · intro read mistaken
    obtain ⟨flaw, refused⟩ := h.exists_decode_encode_eq_error mistaken
    rw [read] at refused
    cases refused
  · exact fun other => decode_encode_of_isReadable (h.isReadable other)

end Fact

namespace History

variable {h : History} {a : Attribute}

theorem exists_mem_timelineFacts {t : Timeline} (content : t ≠ .empty) :
    ∃ f, f ∈ timelineFacts a t := by
  obtain ⟨reset, marks⟩ := t
  cases marks with
  | cons m rest => exact ⟨_, List.mem_append_right _ (.head _)⟩
  | nil =>
    cases reset with
    | none => exact absurd rfl content
    | some s => exact ⟨.about a s .deleteAttribute none, .head _⟩

theorem exists_mem_facts (content : h.timeline a ≠ .empty) : ∃ f ∈ h.facts, f.attr? = some a := by
  obtain ⟨f, hf⟩ := exists_mem_timelineFacts (a := a) content
  obtain ⟨s, kind, value, rfl⟩ := about_of_mem_timelineFacts hf
  exact ⟨_, mem_facts.mpr (.inr (.inl ⟨a, hf⟩)), rfl⟩

theorem exists_ofValues_eq_error {raws : List Octets} {raw : Octets} {e : Fact.Malformed}
    (member : raw ∈ raws) (refused : Fact.decode raw = .error e) :
    ∃ cause, ofValues raws = .error cause := by
  rw [ofValues]
  cases decoded : raws.mapM Fact.decode with
  | error cause => exact ⟨cause, rfl⟩
  | ok fs =>
    obtain ⟨f, -, read⟩ := (Text.of_mapM_eq_ok decoded).2 raw member
    rw [read] at refused
    cases refused

theorem IsPlain.expire (plain : h.IsPlain) (now : UInt64) (retention : Option Nat) :
    (h.expire now retention).IsPlain := by
  cases retention with
  | none => exact plain
  | some delay =>
    intro a content
    refine plain a fun nothing => content ?_
    rw [History.expire, timeline_purge, nothing]
    rfl

/-- A history of plain facts is read back from what it is written as unless it says something about
the attribute that is called as the entry is. -/
theorem IsPlain.ofEntry_setHistory_iff (plain : h.IsPlain) (ordered : h.IsOrdered) (e : Entry) :
    ((∃ g, ofEntry (e.setHistory h.encode) = .ok g ∧ g.Agrees h) ↔
      h.timeline ⟨Attribute.entrySlot, []⟩ = .empty) ∧
    (h.timeline ⟨Attribute.entrySlot, []⟩ ≠ .empty →
      ∃ cause, ofEntry (e.setHistory h.encode) = .error cause) := by
  have refused : h.timeline ⟨Attribute.entrySlot, []⟩ ≠ .empty →
      ∃ cause, ofEntry (e.setHistory h.encode) = .error cause := by
    intro content
    obtain ⟨f, hf, mistaken⟩ := exists_mem_facts content
    obtain ⟨flaw, hflaw⟩ :=
      (isPlain_of_mem_facts ordered plain hf).exists_decode_encode_eq_error mistaken
    have member : f.encode ∈ (e.setHistory h.encode).historyValues := by
      rw [Entry.historyValues, Entry.setHistory, Entry.replaceValues, Entry.values_setValues_self,
        Entry.mem_distinct]
      exact List.mem_map_of_mem hf
    exact exists_ofValues_eq_error member hflaw
  refine ⟨⟨?_, fun nothing => ?_⟩, refused⟩
  · rintro ⟨g, read, -⟩
    by_contra content
    obtain ⟨cause, hc⟩ := refused content
    rw [read] at hc
    cases hc
  · have readable : h.IsReadable := fun a content =>
      (plain a content).isSlot_of_ne fun he => content (he ▸ nothing)
    exact exists_ofEntry_setHistory ordered readable (fun _ => Iff.rfl) e

/-- A fact that was decoded from any octets is decoded again from what it is written as, unless it is
about the attribute that is called as the entry is; then what it is written as is no fact. So when
the history of an entry is rewritten, whole or after a retention, it is read back and says the same,
unless something is left in it about that attribute; then it cannot be read at all. -/
theorem reads_back_iff_of_decode (raw : Octets) (e : Entry) (now : UInt64)
    (retention : Option Nat) :
    (∀ f, Fact.decode raw = .ok f →
      (Fact.decode f.encode = .ok f ↔ f.attr? ≠ some ⟨Attribute.entrySlot, []⟩) ∧
      (f.attr? = some ⟨Attribute.entrySlot, []⟩ →
        ∃ flaw, Fact.decode f.encode = .error ⟨f.encode, flaw⟩)) ∧
    ∀ h, ofEntry e = .ok h →
      let kept := h.expire now retention
      ((∃ g, ofEntry (e.setHistory kept.encode) = .ok g ∧ g.Agrees kept) ↔
        kept.timeline ⟨Attribute.entrySlot, []⟩ = .empty) ∧
      (kept.timeline ⟨Attribute.entrySlot, []⟩ ≠ .empty →
        ∃ cause, ofEntry (e.setHistory kept.encode) = .error cause) := by
  constructor
  · intro f decoded
    have plain := Fact.isPlain_of_decode decoded
    exact ⟨plain.decode_encode_iff, plain.exists_decode_encode_eq_error⟩
  · intro h read kept
    obtain ⟨ordered, plain⟩ := isPlain_of_ofEntry read
    exact (plain.expire now retention).ofEntry_setHistory_iff (ordered.expire now retention) e

/-- The slot stands in capitals between blanks, the options are out of order and one of them is
given twice, the stamp is in capitals, and a value that is text is written in base 64. -/
theorem reads_back_iff_of_decode_respelled :
    let raw := Octets.ofText " Mail ;X-b;LANG-de; x-B:000000000000000A000100000000:add::AAEC"
    let f := Fact.about ⟨"mail", ["lang-de", "x-b"]⟩ ⟨10, 0, 1⟩ .add (some [0, 1, 2])
    let e := (Entry.make ⟨[⟨"cn", "h"⟩]⟩ (.uniform 7)).setHistory [raw]
    Fact.decode raw = .ok f ∧ f.encode ≠ raw ∧ Fact.decode f.encode = .ok f ∧
      ∃ h, ofEntry e = .ok h ∧ ∃ g, ofEntry (e.setHistory h.encode) = .ok g ∧ g.Agrees h := by
  intro raw f e
  have decoded : Fact.decode raw = .ok f := by decide +kernel
  have read : ofEntry e = .ok (ofFacts [f]) := by decide +kernel
  obtain ⟨rereads, rewrites⟩ := reads_back_iff_of_decode raw e 0 none
  obtain ⟨again, -⟩ := rereads f decoded
  obtain ⟨rewritten, -⟩ := rewrites (ofFacts [f]) read
  exact ⟨decoded, by decide +kernel, again.mpr (by decide), _, read,
    rewritten.mpr (by decide +kernel)⟩

/-- A slot in capitals is taken for an attribute and then written as the one of the entry. -/
theorem decode_encode_capital_slot :
    ¬∀ raw f, Fact.decode raw = .ok f → Fact.decode f.encode = .ok f := by
  intro all
  have decoded : Fact.decode (Octets.ofText "DN:0000000000000005000100000000:add:x") =
      .ok (.about ⟨"dn", []⟩ ⟨5, 0, 1⟩ .add (some [120])) := by
    decide
  have again := all _ _ decoded
  revert again
  decide

end History

end DirectoryHistory
