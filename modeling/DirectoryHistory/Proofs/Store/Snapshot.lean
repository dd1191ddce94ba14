import DirectoryHistory.Proofs.Entry.Json
import DirectoryHistory.Proofs.Store.Consistency
import DirectoryHistory.Store.Snapshot

/-!
# Snapshots are loaded as they were saved

A store that is loaded from the snapshot of another one holds the same entries in the same order, and
finds them under the same identifiers and names. Names come back as their texts are read, so that
entries keep their names up to case, and entries with names of their own still have them.
-/

namespace DirectoryHistory

theorem exists_mem_of_forall₂ {α β : Type} {R : α → β → Prop} {l : List α} {k : List β}
    (h : List.Forall₂ R l k) : ∀ a ∈ l, ∃ b ∈ k, R a b := by
  induction h with
  | nil => exact List.forall_mem_nil _
  | cons related _ ih =>
    refine List.forall_mem_cons.mpr ⟨⟨_, .head _, related⟩, fun a ha => ?_⟩
    obtain ⟨b, hb, related⟩ := ih a ha
    exact ⟨b, .tail _ hb, related⟩

theorem map_eq_map_of_forall₂ {α β γ : Type} {R : α → β → Prop} {l : List α} {k : List β}
    (h : List.Forall₂ R l k) {f : α → γ} {g : β → γ} (same : ∀ a b, R a b → f a = g b) :
    l.map f = k.map g := by
  induction h with
  | nil => rfl
  | cons related _ ih => rw [List.map_cons, List.map_cons, same _ _ related, ih]

theorem rel_of_forall_mem {α β : Type} {R : α → β → Prop} {x : Option α} {y : Option β}
    (h : ∀ a ∈ x, ∃ b ∈ y, R a b) (h' : ∀ b ∈ y, ∃ a ∈ x, R a b) : Option.Rel R x y := by
  cases x with
  | none =>
    cases y with
    | none => exact .none
    | some b =>
      obtain ⟨a, ha, -⟩ := h' b rfl
      cases ha
  | some a =>
    obtain ⟨b, rfl, related⟩ := h a rfl
    exact .some related

namespace Store

variable {s s' : Store} {e f : Entry} {id : EntryId}

/-- Entries with ascending identifiers and with names of their own are stored in a row. -/
theorem exists_foldlM_put (indexed : s.IsIndexed) (es : List Entry)
    (ascending : (s.entries.toList ++ es.map fun e => (e.id, e)).Pairwise
      fun p q => compare p.1 q.1 = .lt)
    (named : ((s.toList ++ es).map (·.name.folded)).Nodup) :
    ∃ s', es.foldlM put s = .ok s' ∧ s'.IsIndexed ∧
      s'.entries.toList = s.entries.toList ++ es.map fun e => (e.id, e) := by
  induction es generalizing s with
  | nil => exact ⟨s, rfl, indexed, (List.append_nil _).symm⟩
  | cons e es ih =>
    cases put : s.put e with
    | error cause =>
      obtain ⟨-, id, f, stored, -, same⟩ := indexed.put_eq_error_iff.mp put
      have apart : f.name.folded ≠ e.name.folded := by
        rw [List.map_append, List.nodup_append] at named
        exact named.2.2 _ (List.mem_map_of_mem (mem_toList.mpr ⟨id, stored⟩)) _ (.head _)
      exact absurd same apart
    | ok t =>
      have last : ∀ p ∈ s.entries.toList, compare e.id p.1 = .gt := fun p hp =>
        Std.OrientedCmp.gt_iff_lt.mpr
          ((List.pairwise_append.mp ascending).2.2 p hp (e.id, e) (.head _))
      have inserted : t.entries.toList = s.entries.toList ++ [(e.id, e)] := by
        have entries : t.entries = s.entries.insert e.id e := by
          simp only [Store.put] at put
          split at put
          · cases put
          · rw [← Except.ok.inj put]
        rw [entries]
        exact Table.insertPair_of_forall_gt e last
      have listed : t.toList = s.toList ++ [e] := by
        simp [toList, Table.values, inserted]
      obtain ⟨s', stored, indexed', entries⟩ := ih (indexed.put put)
        (by simpa [inserted] using ascending) (by simpa [listed] using named)
      refine ⟨s', ?_, indexed', by simp [entries, inserted]⟩
      rw [List.foldlM_cons, put]
      exact stored

/-- A store is built from entries with ascending identifiers and with names of their own, and lists
them as they were given. -/
theorem exists_ofEntries {es : List Entry}
    (ascending : (es.map (·.id)).Pairwise fun id id' => compare id id' = .lt)
    (named : (es.map (·.name.folded)).Nodup) :
    ∃ s, ofEntries es = .ok s ∧ s.IsIndexed ∧ s.toList = es := by
  obtain ⟨s, stored, indexed, entries⟩ := exists_foldlM_put isIndexed_empty es
    (by
      rw [List.pairwise_map] at ascending
      exact List.pairwise_map.mpr ascending) named
  refine ⟨s, stored, indexed, ?_⟩
  rw [toList, Table.values, entries]
  simp [empty, Table.empty, Function.comp_def]

section

variable {R : Entry → Entry → Prop} (h : s.IsIndexed) (h' : s'.IsIndexed)
variable (same : List.Forall₂ R s.toList s'.toList) (ids : ∀ e f, R e f → e.id = f.id)

include h h' same ids

theorem IsIndexed.exists_get? (stored : s.get? id = some e) : ∃ f, s'.get? id = some f ∧ R e f := by
  obtain rfl := h.keyed id e stored
  obtain ⟨f, member, related⟩ := exists_mem_of_forall₂ same e (h.mem_toList_iff.mpr stored)
  have key : f.id = e.id := (ids e f related).symm
  exact ⟨f, key ▸ h'.mem_toList_iff.mp member, related⟩

theorem IsIndexed.exists_find? (names : ∀ e f, R e f → e.name.folded = f.name.folded)
    {name : DistinguishedName} (found : s.find? name = some e) :
    ∃ f, s'.find? name = some f ∧ R e f := by
  obtain ⟨stored, named⟩ := h.find?_eq_some_iff.mp found
  obtain ⟨f, stored, related⟩ := h.exists_get? h' same ids stored
  have key : f.id = e.id := (ids e f related).symm
  exact ⟨f, h'.find?_eq_some_iff.mpr ⟨key ▸ stored, names e f related ▸ named⟩, related⟩

end

/-- Stores that list the same entries, but for the spelling of names, have the same entries under
every identifier and under every name. -/
theorem IsIndexed.rel_of_forall₂ (h : s.IsIndexed) (h' : s'.IsIndexed)
    (same : List.Forall₂ Entry.IsSpelling s.toList s'.toList) :
    (∀ name, Option.Rel Entry.IsSpelling (s.find? name) (s'.find? name)) ∧
      ∀ id, Option.Rel Entry.IsSpelling (s.get? id) (s'.get? id) := by
  have ids (e f : Entry) (spelling : e.IsSpelling f) : e.id = f.id := spelling.id
  have names (e f : Entry) (spelling : e.IsSpelling f) : e.name.folded = f.name.folded :=
    DistinguishedName.folded_eq_iff.mpr spelling.name
  have back : List.Forall₂ (flip Entry.IsSpelling) s'.toList s.toList := List.Forall₂.flip same
  constructor
  · exact fun name => rel_of_forall_mem (fun e => h.exists_find? h' same ids names)
      fun f => h'.exists_find? h back (fun e f r => (ids f e r).symm) fun e f r => (names f e r).symm
  · exact fun id => rel_of_forall_mem (fun e => h.exists_get? h' same ids)
      fun f => h'.exists_get? h back fun e f r => (ids f e r).symm

/-- A snapshot is loaded as it was saved if the names and the attributes of all entries are read back
from their texts. -/
theorem IsIndexed.exists_ofSnapshot_snapshot (h : s.IsIndexed)
    (named : ∀ e ∈ s.toList, ∃ d, DistinguishedName.parse e.name.text = .ok d ∧ d.IsSpelling e.name)
    (normal : ∀ e ∈ s.toList, ∀ a ∈ e.attributes.keys, a.IsNormal) :
    ∃ s', ofSnapshot s.snapshot = .ok s' ∧ s'.IsIndexed ∧
      List.Forall₂ Entry.IsSpelling s'.toList s.toList := by
  have one : ∀ e ∈ s.toList, ∃ f, Entry.ofJson? e.toJson = some f ∧ f.IsSpelling e := by
    intro e he
    obtain ⟨d, parsed, spelling⟩ := named e he
    exact Entry.exists_ofJson?_toJson parsed spelling (normal e he)
  obtain ⟨es, read, same⟩ := exists_mapM_map one
  have plain : (Json.array (s.toList.map Entry.toJson)).IsPlain :=
    .array (List.forall_mem_map.mpr fun e _ => e.isPlain_toJson)
  have ids : es.map (·.id) = s.ids :=
    (map_eq_map_of_forall₂ same fun e f spelling => spelling.id).trans h.map_id_toList
  have names : es.map (·.name.folded) = s.toList.map (·.name.folded) :=
    map_eq_map_of_forall₂ same fun e f spelling =>
      DistinguishedName.folded_eq_iff.mpr spelling.name
  obtain ⟨s', built, indexed, listed⟩ := exists_ofEntries (ids ▸ s.entries.ascending_keys)
    (names ▸ h.nodup_folded)
  refine ⟨s', ?_, indexed, listed ▸ same⟩
  have entries : (Json.parse? s.snapshot).bind entriesOfJson? = some es := by
    rw [snapshot, plain.parse?_pretty]
    simpa [entriesOfJson?, Json.array?] using read
  simp only [ofSnapshot, entries, built]
  rfl

theorem eq_put_of_get?_write {w : Write} (stored : (s.write w).get? id = some e) :
    s.get? id = some e ∨ w = .put e := by
  cases w with
  | put f =>
    cases result : s.put f with
    | error cause =>
      rw [write_of_put_eq_error result] at stored
      exact .inl stored
    | ok s' =>
      have after : s.write (.put f) = s' := by simp only [write, result]
      rw [after, get?_put result] at stored
      split at stored
      · exact .inr (congrArg _ (Option.some.inj stored))
      · exact .inl stored
  | remove id' =>
    have left : (s.remove id').get? id = some e := stored
    rw [get?_remove] at left
    split at left
    · cases left
    · exact .inl left

theorem put_mem_of_get?_writeAll {run : List Write} (stored : (s.writeAll run).get? id = some e) :
    s.get? id = some e ∨ .put e ∈ run := by
  induction run generalizing s with
  | nil => exact .inl stored
  | cons w run ih =>
    rcases ih stored with before | later
    · rcases eq_put_of_get?_write before with before | rfl
      · exact .inl before
      · exact .inr (.head _)
    · exact .inr (.tail _ later)

/-- Whatever was stored in an empty store and removed from it, its snapshot can be loaded, if the
names of the entries that came are read back from their texts, up to case, and their attributes are
such as are read from text. The loaded store lists the same entries in the same order, and has the
same entries under every name and every identifier. -/
theorem exists_ofSnapshot_writeAll (run : List Write)
    (named : ∀ e, .put e ∈ run →
      ∃ d, DistinguishedName.parse e.name.text = .ok d ∧ d.IsSpelling e.name)
    (described : ∀ e, .put e ∈ run → ∀ a ∈ e.attributes.keys, ∃ t, Attribute.parse t = .ok a) :
    let s := empty.writeAll run
    ∃ s', ofSnapshot s.snapshot = .ok s' ∧
      List.Forall₂ Entry.IsSpelling s'.toList s.toList ∧
      (∀ name, Option.Rel Entry.IsSpelling (s'.find? name) (s.find? name)) ∧
      ∀ id, Option.Rel Entry.IsSpelling (s'.get? id) (s.get? id) := by
  intro s
  have indexed : s.IsIndexed := isIndexed_empty.writeAll run
  have came : ∀ e ∈ s.toList, .put e ∈ run := by
    intro e he
    obtain ⟨id, stored⟩ := mem_toList.mp he
    exact (put_mem_of_get?_writeAll stored).resolve_left nofun
  obtain ⟨s', loaded, indexed', same⟩ := indexed.exists_ofSnapshot_snapshot
    (fun e he => named e (came e he)) fun e he a ha => by
      obtain ⟨t, parsed⟩ := described e (came e he) a ha
      exact Attribute.isNormal_of_parse parsed
  exact ⟨s', loaded, same, indexed'.rel_of_forall₂ indexed same⟩

/-- An entry has a name with a comma in it, a value that is no text and an attribute without values.
It has its name from another one that is gone. -/
theorem exists_ofSnapshot_writeAll_comma :
    let attributes : Table Attribute (List Octets) :=
      .ofList [(⟨"cn", []⟩, []), (⟨"mail", ["lang-en"]⟩, [[0, 255], []])]
    let named (s : String) : DistinguishedName := ⟨[⟨"cn", s⟩, ⟨"o", "test"⟩]⟩
    let s := empty.writeAll [.put ⟨named "A,b", .uniform 2, .empty⟩, .remove (.uniform 2),
      .put ⟨named "a,B", .uniform 1, attributes⟩, .put ⟨named "c", .uniform 0, .empty⟩]
    ∃ s', ofSnapshot s.snapshot = .ok s' ∧
      List.Forall₂ Entry.IsSpelling s'.toList s.toList := by
  intro attributes named s
  let run : List Write := [.put ⟨named "A,b", .uniform 2, .empty⟩, .remove (.uniform 2),
    .put ⟨named "a,B", .uniform 1, attributes⟩, .put ⟨named "c", .uniform 0, .empty⟩]
  let entries : List Entry := [⟨named "A,b", .uniform 2, .empty⟩,
    ⟨named "a,B", .uniform 1, attributes⟩, ⟨named "c", .uniform 0, .empty⟩]
  have puts : ∀ e, .put e ∈ run → e ∈ entries := by simp [run, entries]
  have names : ∀ e ∈ entries, DistinguishedName.parse e.name.text = .ok e.name := by
    decide +kernel
  have keys : ∀ e ∈ entries, ∀ a ∈ e.attributes.keys, Attribute.parse a.text = .ok a := by
    decide +kernel
  obtain ⟨s', loaded, same, -⟩ := exists_ofSnapshot_writeAll run
    (fun e he => ⟨_, names e (puts e he), DistinguishedName.folded_eq_iff.mp rfl⟩)
    fun e he a ha => ⟨_, keys e (puts e he) a ha⟩
  exact ⟨s', loaded, same⟩

end Store

end DirectoryHistory
