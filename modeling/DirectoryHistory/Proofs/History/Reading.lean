import DirectoryHistory.Proofs.Fact
import DirectoryHistory.Proofs.History.Parts
import DirectoryHistory.Proofs.Sort

/-!
# Reading a history back

A history whose timelines are ordered and whose attributes are in normal form is read back from what
it is written as, in whatever order the values of the entry stand.
-/

namespace DirectoryHistory.History

/-- The history says what the fact says. -/
def Records (h : History) : Fact → Prop
  | .created s => h.created = some s
  | .renamed s => h.renamed = some s
  | .about a s kind value => (h.timeline a).Records s kind value

/-- The history says nothing but what the other one says. -/
structure IsPart (g h : History) : Prop where
  timelines : ∀ a, (g.timeline a).IsPart (h.timeline a)
  created : ∀ s, g.created = some s → h.created = some s
  renamed : ∀ s, g.renamed = some s → h.renamed = some s

/-- Every timeline grew by records. -/
def IsOrdered (h : History) : Prop :=
  ∀ a, (h.timeline a).Ordered

/-- Facts about the attributes that have a timeline can be read back. -/
def IsReadable (h : History) : Prop :=
  ∀ a, h.timeline a ≠ .empty → a.IsSlot

variable {g h : History}

theorem mem_timelineFacts {a : Attribute} {t : Timeline} {f : Fact} (ht : t.Ordered) :
    f ∈ timelineFacts a t ↔ (∃ s, t.bareReset? = some s ∧ f = .about a s .deleteAttribute none) ∨
      ∃ v m, t.mark? v = some m ∧ f = .about a m.stamp (markKind t m) (some v) := by
  simp only [timelineFacts, List.mem_append, Option.mem_toList, Option.map_eq_some_iff,
    List.mem_map, eq_comm (b := f)]
  refine or_congr Iff.rfl ⟨?_, ?_⟩
  · rintro ⟨m, hm, rfl⟩
    exact ⟨m.value, m, ht.mark?_eq_some_iff.mpr ⟨hm, rfl⟩, rfl⟩
  · rintro ⟨v, m, hm, rfl⟩
    obtain ⟨member, rfl⟩ := ht.mark?_eq_some_iff.mp hm
    exact ⟨m, member, rfl⟩

theorem timelineFacts_empty (a : Attribute) : timelineFacts a .empty = [] := rfl

theorem markKind_ne (t : Timeline) (m : Mark) : markKind t m ≠ .deleteAttribute := by
  rw [markKind]
  split
  · split <;> decide
  · decide

theorem mem_facts {f : Fact} : f ∈ h.facts ↔ (∃ s, h.created = some s ∧ f = .created s) ∨
    (∃ a, f ∈ timelineFacts a (h.timeline a)) ∨ ∃ s, h.renamed = some s ∧ f = .renamed s := by
  rw [facts, (sortBy_perm _ _).mem_iff]
  simp only [unsortedFacts, List.mem_append, Option.mem_toList, Option.map_eq_some_iff,
    List.mem_flatMap, Prod.exists, or_assoc, eq_comm (b := f)]
  refine or_congr Iff.rfl (or_congr ⟨?_, ?_⟩ Iff.rfl)
  · rintro ⟨a, t, ht, hf⟩
    have : h.timeline a = t := by simp [timeline, Table.mem_toList_iff.mp ht]
    exact ⟨a, this ▸ hf⟩
  · rintro ⟨a, hf⟩
    cases ht : h.timelines.get? a with
    | none => simp [timeline, ht, timelineFacts_empty] at hf
    | some t =>
      have : h.timeline a = t := by simp [timeline, ht]
      exact ⟨a, t, Table.mem_toList_iff.mpr ht, this ▸ hf⟩

theorem records_of_mem_facts (ordered : h.IsOrdered) {f : Fact} (hf : f ∈ h.facts) :
    h.Records f := by
  rcases mem_facts.mp hf with ⟨s, hs, rfl⟩ | ⟨a, hf⟩ | ⟨s, hs, rfl⟩
  · exact hs
  · rcases (mem_timelineFacts (ordered a)).mp hf with ⟨s, hs, rfl⟩ | ⟨v, m, hm, rfl⟩
    · exact (Option.filter_eq_some_iff.mp hs).1
    · obtain ⟨w, x, s⟩ := m
      obtain rfl : w = v := Timeline.mark?_value hm
      cases x with
      | deleted => exact hm
      | added =>
        by_cases hr : (h.timeline a).lastReset = some s
        · simp only [Records, markKind, if_pos hr]
          exact ⟨hr, hm⟩
        · simp only [Records, markKind, if_neg hr]
          exact hm
  · exact hs

/-- What records all facts of a history says all that the history says. -/
theorem isPart_of_records (ordered : h.IsOrdered) (all : ∀ f ∈ h.facts, g.Records f) :
    h.IsPart g where
  created s hs := all (.created s) (mem_facts.mpr (.inl ⟨s, hs, rfl⟩))
  renamed s hs := all (.renamed s) (mem_facts.mpr (.inr (.inr ⟨s, hs, rfl⟩)))
  timelines a := by
    have about : ∀ v m, (h.timeline a).mark? v = some m →
        (g.timeline a).Records m.stamp (markKind (h.timeline a) m) (some v) :=
      fun v m hm => all (.about a _ _ _) (mem_facts.mpr (.inr (.inl
        ⟨a, (mem_timelineFacts (ordered a)).mpr (.inr ⟨v, m, hm, rfl⟩)⟩)))
    refine ⟨fun v m hm => ?_, fun r hr => ?_⟩
    · have recorded := about v m hm
      obtain ⟨w, x, s⟩ := m
      obtain rfl : w = v := Timeline.mark?_value hm
      cases x with
      | deleted => exact recorded
      | added =>
        by_cases hs : (h.timeline a).lastReset = some s
        · simp only [markKind, if_pos hs] at recorded
          exact recorded.2
        · simp only [markKind, if_neg hs] at recorded
          exact recorded
    · -- A reset is written by itself or as part of a replace.
      by_cases carried : (h.timeline a).marks.any fun m => m.stamp == r && m.sense == .added
      · obtain ⟨m, hm, hc⟩ := List.any_eq_true.mp carried
        obtain ⟨rfl, hx⟩ : m.stamp = r ∧ m.sense = .added := by simpa using hc
        have recorded := about m.value m ((ordered a).mark?_eq_some_iff.mpr ⟨hm, rfl⟩)
        simp only [markKind, hx, if_pos hr] at recorded
        exact recorded.1
      · have bare : (h.timeline a).bareReset? = some r := by
          simp [Timeline.bareReset?, hr, carried]
        exact all (.about a r .deleteAttribute none) (mem_facts.mpr (.inr (.inl
          ⟨a, (mem_timelineFacts (ordered a)).mpr (.inl ⟨r, bare, rfl⟩)⟩)))

/-- A fact about an attribute comes from a timeline with content, and has a value if its kind asks
for one. -/
theorem about_of_mem_facts (ordered : h.IsOrdered) {a : Attribute} {s : Stamp} {kind : Fact.Kind}
    {value : Option Octets} (hf : .about a s kind value ∈ h.facts) :
    h.timeline a ≠ .empty ∧ (value.isSome = true ↔ kind ≠ .deleteAttribute) := by
  obtain ⟨r, -, he⟩ | ⟨b, hf⟩ | ⟨r, -, he⟩ := mem_facts.mp hf
  · cases he
  · have content : h.timeline b ≠ .empty := fun he => by simp [he, timelineFacts_empty] at hf
    rcases (mem_timelineFacts (ordered b)).mp hf with ⟨r, -, he⟩ | ⟨v, m, -, he⟩
    · cases he
      exact ⟨content, by simp⟩
    · cases he
      exact ⟨content, by simp [markKind_ne]⟩
  · cases he

theorem isReadable_of_mem_facts (ordered : h.IsOrdered) (readable : h.IsReadable) {f : Fact}
    (hf : f ∈ h.facts) : f.IsReadable := by
  cases f with
  | created s | renamed s => trivial
  | about a s kind value =>
    obtain ⟨content, valued⟩ := about_of_mem_facts ordered hf
    exact ⟨readable a content, valued⟩

theorem Records.mono {f : Fact} (part : g.IsPart h) (hf : g.Records f) : h.Records f := by
  cases f with
  | created s => exact part.created s hf
  | renamed s => exact part.renamed s hf
  | about a s kind value => exact Timeline.Records.mono (part.timelines a) hf

theorem IsPart.refl (h : History) : h.IsPart h :=
  ⟨fun a => .refl (h.timeline a), fun _ => id, fun _ => id⟩

theorem IsPart.trans {k : History} (part : k.IsPart g) (part' : g.IsPart h) : k.IsPart h where
  timelines a := (part.timelines a).trans (part'.timelines a)
  created s hs := part'.created s (part.created s hs)
  renamed s hs := part'.renamed s (part.renamed s hs)

theorem timeline_absorb_self (g : History) (a : Attribute) (s : Stamp) (kind : Fact.Kind)
    (value : Option Octets) : (g.absorb (.about a s kind value)).timeline a =
      absorbAttribute (g.timeline a) s kind value :=
  timeline_setTimeline_self ..

theorem timeline_absorb_of_ne (g : History) {a b : Attribute} (hb : b ≠ a) (s : Stamp)
    (kind : Fact.Kind) (value : Option Octets) :
    (g.absorb (.about a s kind value)).timeline b = g.timeline b :=
  timeline_setTimeline_of_ne _ hb _

theorem IsPart.created_absorb (part : g.IsPart h) {s : Stamp} (hs : h.created = some s) :
    (g.absorb (.created s)).created = some s := by
  cases hg : g.created with
  | none => simp [History.absorb, hg, Stamp.oldest]
  | some r =>
    obtain rfl : r = s := Option.some.inj ((part.created r hg).symm.trans hs)
    simp [History.absorb, hg, Stamp.oldest]

theorem IsPart.renamed_absorb (part : g.IsPart h) {s : Stamp} (hs : h.renamed = some s) :
    (g.absorb (.renamed s)).renamed = some s := by
  cases hg : g.renamed with
  | none => simp [History.absorb, hg]
  | some r =>
    obtain rfl : r = s := Option.some.inj ((part.renamed r hg).symm.trans hs)
    simp [History.absorb, hg]

/-- Absorbing a fact of the whole makes a larger part. -/
theorem IsPart.absorb (part : g.IsPart h) {f : Fact} (hf : h.Records f) :
    g.IsPart (g.absorb f) ∧ (g.absorb f).IsPart h ∧ (g.absorb f).Records f := by
  cases f with
  | created s =>
    have absorbed := part.created_absorb hf
    exact ⟨⟨fun a => .refl (g.timeline a), fun r hr => by rw [absorbed, ← hf, part.created r hr],
        fun _ => id⟩,
      ⟨part.timelines, fun r hr => by rw [hf, ← absorbed, hr], part.renamed⟩, absorbed⟩
  | renamed s =>
    have absorbed := part.renamed_absorb hf
    exact ⟨⟨fun a => .refl (g.timeline a), fun _ => id,
        fun r hr => by rw [absorbed, ← hf, part.renamed r hr]⟩,
      ⟨part.timelines, part.created, fun r hr => by rw [hf, ← absorbed, hr]⟩, absorbed⟩
  | about a s kind value =>
    obtain ⟨grown, inside, recorded⟩ := (part.timelines a).absorbAttribute hf
    have self := timeline_absorb_self g a s kind value
    refine ⟨⟨fun b => ?_, fun _ => id, fun _ => id⟩,
      ⟨fun b => ?_, part.created, part.renamed⟩, ?_⟩
    · by_cases hb : b = a
      · subst hb
        exact self ▸ grown
      · exact timeline_absorb_of_ne g hb s kind value ▸ .refl (g.timeline b)
    · by_cases hb : b = a
      · subst hb
        exact self ▸ inside
      · exact timeline_absorb_of_ne g hb s kind value ▸ part.timelines b
    · rw [Records, self]
      exact recorded

theorem IsPart.foldl_absorb (part : g.IsPart h) {fs : List Fact} (hfs : ∀ f ∈ fs, h.Records f) :
    g.IsPart (fs.foldl History.absorb g) ∧ (fs.foldl History.absorb g).IsPart h ∧
      ∀ f ∈ fs, (fs.foldl History.absorb g).Records f := by
  induction fs generalizing g with
  | nil => exact ⟨.refl g, part, nofun⟩
  | cons f rest ih =>
    obtain ⟨grown, inside, recorded⟩ := part.absorb (hfs f (.head _))
    obtain ⟨grown', inside', recorded'⟩ := ih inside fun f' hf' => hfs f' (.tail _ hf')
    refine ⟨grown.trans grown', inside', fun f' hf' => ?_⟩
    rcases List.mem_cons.mp hf' with rfl | hf'
    · exact recorded.mono grown'
    · exact recorded' f' hf'

theorem IsOrdered.absorb (ordered : g.IsOrdered) (f : Fact) : (g.absorb f).IsOrdered := by
  cases f with
  | created s | renamed s => exact ordered
  | about a s kind value =>
    intro b
    by_cases hb : b = a
    · subst hb
      rw [timeline_absorb_self]
      cases kind <;> cases value <;> simp only [absorbAttribute]
      case add.some v => exact (ordered b).record _
      case delete.some v => exact (ordered b).record _
      case replace.some v => exact ((ordered b).reset s).record _
      case deleteAttribute.none => exact (ordered b).reset s
      case deleteAttribute.some v => exact (ordered b).reset s
      all_goals exact ordered b
    · rw [timeline_absorb_of_ne g hb]
      exact ordered b

theorem isOrdered_ofFacts (fs : List Fact) : (ofFacts fs).IsOrdered :=
  List.foldlRecOn (motive := IsOrdered) fs History.absorb (fun _ => Timeline.ordered_empty)
    fun _ ordered f _ => ordered.absorb f

/-- Two histories say the same, though one may list timelines without content. -/
structure Agrees (g h : History) : Prop where
  timelines : ∀ a, g.timeline a = h.timeline a
  created : g.created = h.created
  renamed : g.renamed = h.renamed

theorem Agrees.symm {g h : History} (agrees : g.Agrees h) : h.Agrees g :=
  ⟨fun a => (agrees.timelines a).symm, agrees.created.symm, agrees.renamed.symm⟩

theorem Agrees.trans {g h k : History} (agrees : g.Agrees h) (agrees' : h.Agrees k) : g.Agrees k :=
  ⟨fun a => (agrees.timelines a).trans (agrees'.timelines a),
    agrees.created.trans agrees'.created, agrees.renamed.trans agrees'.renamed⟩

/-- The facts of a history give it back in any order and with any repetitions. -/
theorem agrees_ofFacts (ordered : h.IsOrdered) {fs : List Fact}
    (same : ∀ f, f ∈ fs ↔ f ∈ h.facts) : (ofFacts fs).Agrees h := by
  have start : IsPart empty h :=
    ⟨fun a => Timeline.isPart_empty (h.timeline a), nofun, nofun⟩
  have records : ∀ f ∈ fs, h.Records f := fun f hf =>
    records_of_mem_facts ordered ((same f).mp hf)
  obtain ⟨-, inside, recorded⟩ := start.foldl_absorb records
  have whole : h.IsPart (ofFacts fs) :=
    isPart_of_records ordered fun f hf => recorded f ((same f).mpr hf)
  refine ⟨fun a => ?_, Option.ext fun s => ?_, Option.ext fun s => ?_⟩
  · exact (ordered a).eq_of_isPart (isOrdered_ofFacts fs a) (inside.timelines a)
      (whole.timelines a)
  · exact ⟨inside.created s, whole.created s⟩
  · exact ⟨inside.renamed s, whole.renamed s⟩

theorem mapM_decode {raws : List Octets}
    (texts : ∀ raw ∈ raws, ∃ f : Fact, f.IsReadable ∧ f.encode = raw) :
    ∃ fs : List Fact, raws.mapM Fact.decode = .ok fs ∧ fs.map Fact.encode = raws ∧
      ∀ f ∈ fs, f.IsReadable := by
  induction raws with
  | nil => exact ⟨[], rfl, rfl, nofun⟩
  | cons raw rest ih =>
    obtain ⟨f, readable, rfl⟩ := texts raw (.head _)
    obtain ⟨fs, read, written, all⟩ := ih fun r hr => texts r (.tail _ hr)
    have first := Fact.decode_encode_of_isReadable readable
    refine ⟨f :: fs, ?_, by simp [written], fun f' hf' => ?_⟩
    · simp [List.mapM_cons, first, read, bind, Except.bind, pure, Except.pure]
    · rcases List.mem_cons.mp hf' with rfl | hf'
      · exact readable
      · exact all f' hf'

/-- A history is read back from what it is written as, in any order and with any repetitions. -/
theorem ofValues_of_mem_iff (ordered : h.IsOrdered) (readable : h.IsReadable)
    {raws : List Octets} (same : ∀ raw, raw ∈ raws ↔ raw ∈ h.encode) :
    ∃ g, ofValues raws = .ok g ∧ g.Agrees h := by
  have texts : ∀ raw ∈ raws, ∃ f : Fact, f.IsReadable ∧ f.encode = raw := by
    intro raw hr
    obtain ⟨f, hf, rfl⟩ := List.mem_map.mp ((same raw).mp hr)
    exact ⟨f, isReadable_of_mem_facts ordered readable hf, rfl⟩
  obtain ⟨fs, read, written, all⟩ := mapM_decode texts
  refine ⟨ofFacts fs, by simp [ofValues, read, Except.map], agrees_ofFacts ordered fun f => ?_⟩
  have encoded : ∀ {f g : Fact}, f.IsReadable → g.IsReadable → f.encode = g.encode → f = g := by
    intro f g hf hg he
    have left := Fact.decode_encode_of_isReadable hf
    rw [he, Fact.decode_encode_of_isReadable hg] at left
    exact (Except.ok.inj left).symm
  constructor
  · intro hf
    have raw := (same f.encode).mp (written ▸ List.mem_map_of_mem hf)
    obtain ⟨g, hg, he⟩ := List.mem_map.mp raw
    rwa [encoded (all f hf) (isReadable_of_mem_facts ordered readable hg) he.symm]
  · intro hf
    have raw := (same f.encode).mpr (List.mem_map_of_mem hf)
    rw [← written] at raw
    obtain ⟨g, hg, he⟩ := List.mem_map.mp raw
    rwa [encoded (isReadable_of_mem_facts ordered readable hf) (all g hg) he.symm]

end DirectoryHistory.History
