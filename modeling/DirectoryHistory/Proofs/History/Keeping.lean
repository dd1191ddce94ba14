import DirectoryHistory.Proofs.History.Purging
import DirectoryHistory.Proofs.History.Rewriting
import DirectoryHistory.Proofs.Timeline.Asserted
import DirectoryHistory.Proofs.Timeline.Search
import Mathlib.Order.Bounds.Basic

/-!
# Well-kept timelines

Whatever was recorded, amended and purged, and whatever was read, the marks of a timeline ascend and
no value has two of them. So the first asserted mark is the oldest one, the newest stamp is that of the
last mark or of the last reset, and the search for the place of a mark never goes astray. Recording
lowers no stamp.
-/

namespace DirectoryHistory

namespace Stamp

theorem newest_eq_some_iff {o o' : Option Stamp} {s : Stamp} : newest o o' = some s ↔
    (o = some s ∨ o' = some s) ∧ (∀ r ∈ o, r ≤ s) ∧ ∀ r ∈ o', r ≤ s := by
  cases o with
  | none => cases o' <;> simp +contextual
  | some r =>
    cases o' with
    | none => simp +contextual
    | some r' =>
      simp only [newest_some, Option.some.injEq, Option.mem_some_iff, forall_eq', max_eq_iff]
      constructor
      · rintro (⟨rfl, le⟩ | ⟨rfl, le⟩)
        · exact ⟨.inl rfl, le_rfl, le⟩
        · exact ⟨.inr rfl, le, le_rfl⟩
      · rintro ⟨rfl | rfl, le, le'⟩
        · exact .inl ⟨rfl, le'⟩
        · exact .inr ⟨rfl, le⟩

theorem newest_eq_none_iff {o o' : Option Stamp} : newest o o' = none ↔ o = none ∧ o' = none := by
  cases o <;> cases o' <;> simp

end Stamp

namespace Timeline

/-- The stamps of the last reset and of all marks. -/
def stamps (t : Timeline) : Set Stamp :=
  {s | t.lastReset = some s ∨ ∃ m ∈ t.marks, m.stamp = s}

/-- What is relied on wherever a timeline is used. -/
structure IsWellKept (t : Timeline) : Prop where
  /-- The marks ascend by stamp, those of one stamp by value. -/
  ascending : t.marks.Pairwise fun m n =>
    m.stamp < n.stamp ∨ m.stamp = n.stamp ∧ m.value < n.value
  /-- Each value has one mark at most. -/
  distinct : (t.marks.map (·.value)).Nodup
  /-- The first asserted mark is the oldest of them, the value deciding among those of one stamp. -/
  first : ∀ m, t.asserted.head? = some m ↔ m ∈ t.asserted ∧ ∀ n ∈ t.asserted,
    n = m ∨ m.stamp < n.stamp ∨ m.stamp = n.stamp ∧ m.value < n.value
  latest : ∀ s, t.latest = some s ↔ IsGreatest t.stamps s
  blank : t.latest = none ↔ t = .empty
  /-- The size is the number of facts that any history with this timeline is written as. -/
  size : ∀ (h : History) (a : Attribute), h.timeline a = t →
    (h.facts.filter fun f => f.attr? = some a).length = t.size

variable {t : Timeline} {s : Stamp}

theorem Ordered.stamp_le_last (ht : t.Ordered) {m n : Mark} (last : t.marks.getLast? = some m)
    (hn : n ∈ t.marks) : n.stamp ≤ m.stamp := by
  obtain ⟨front, split⟩ := List.getLast?_eq_some_iff.mp last
  have ascending := ht.ascending
  rw [split] at ascending hn
  rcases List.mem_append.mp hn with hn | hn
  · exact Mark.stamp_le_of_precedes
      (.inr ((List.pairwise_append.mp ascending).2.2 n hn m (.head _)))
  · exact (List.mem_singleton.mp hn ▸ le_rfl)

/-- The newest stamp is that of the last reset or of the last mark. -/
theorem Ordered.latest_eq_some_iff (ht : t.Ordered) :
    t.latest = some s ↔ IsGreatest t.stamps s := by
  rw [Timeline.latest, Stamp.newest_eq_some_iff]
  constructor
  · rintro ⟨member, marks, reset⟩
    refine ⟨?_, ?_⟩
    · rcases member with mark | reset
      · obtain ⟨m, last, rfl⟩ := Option.map_eq_some_iff.mp mark
        exact .inr ⟨m, List.mem_of_getLast? last, rfl⟩
      · exact .inl reset
    · rintro r (hr | ⟨n, hn, rfl⟩)
      · exact reset r hr
      · cases last : t.marks.getLast? with
        | none => simp [List.getLast?_eq_none_iff.mp last] at hn
        | some m => exact (ht.stamp_le_last last hn).trans (marks m.stamp (by simp [last]))
  · rintro ⟨member, upper⟩
    have marks : ∀ r ∈ t.marks.getLast?.map (·.stamp), r ≤ s := by
      intro r hr
      obtain ⟨m, last, rfl⟩ := Option.map_eq_some_iff.mp hr
      exact upper (.inr ⟨m, List.mem_of_getLast? last, rfl⟩)
    refine ⟨?_, marks, fun r hr => upper (.inl hr)⟩
    rcases member with reset | ⟨n, hn, rfl⟩
    · exact .inr reset
    · -- No mark is older than the one with the newest stamp, so this is the last one's stamp.
      cases last : t.marks.getLast? with
      | none => simp [List.getLast?_eq_none_iff.mp last] at hn
      | some m =>
        have newest := marks m.stamp (by simp [last])
        exact .inl (congrArg some (le_antisymm newest (ht.stamp_le_last last hn)))

theorem latest_eq_none_iff : t.latest = none ↔ t = .empty := by
  rw [latest, Stamp.newest_eq_none_iff, Option.map_eq_none_iff, List.getLast?_eq_none_iff]
  constructor
  · rintro ⟨marks, reset⟩
    cases t
    exact congr (congrArg Timeline.mk reset) marks
  · rintro rfl
    exact ⟨rfl, rfl⟩

end Timeline

namespace History

variable {a : Attribute}

theorem attr?_of_mem_timelineFacts {t : Timeline} {f : Fact} (hf : f ∈ timelineFacts a t) :
    f.attr? = some a := by
  obtain ⟨s, kind, value, rfl⟩ := about_of_mem_timelineFacts hf
  rfl

theorem filter_flatMap_timelineFacts (h : History) (a : Attribute) :
    (h.timelines.toList.flatMap fun (a, t) => timelineFacts a t).filter (fun f => f.attr? = some a) =
      timelineFacts a (h.timeline a) := by
  -- Facts of other attributes come from other timelines only, so a key may stand for `attr?`.
  let key : Fact → Attribute := fun f => f.attr?.getD .history
  have own : ∀ p : Attribute × Timeline, ∀ f ∈ timelineFacts p.1 p.2, key f = p.1 := by
    intro p f hf
    simp [key, attr?_of_mem_timelineFacts hf]
  refine (List.filter_congr fun f hf => ?_).trans
    ((Table.filter_flatMap_toList own h.timelines a).trans ?_)
  · obtain ⟨p, -, hf⟩ := List.mem_flatMap.mp hf
    simp [key, attr?_of_mem_timelineFacts hf]
  · rw [timeline]
    cases h.timelines.get? a with
    | none => rfl
    | some t => simp

/-- The facts about an attribute are those that its timeline is written as. -/
theorem perm_filter_attr?_facts (h : History) (a : Attribute) :
    (h.facts.filter fun f => f.attr? = some a).Perm (timelineFacts a (h.timeline a)) := by
  have others : ∀ (o : Option Stamp) (f : Stamp → Fact), (∀ s, (f s).attr? = none) →
      ((o.map f).toList.filter fun f => f.attr? = some a) = [] := by
    intro o f hf
    cases o <;> simp [hf]
  refine ((sortBy_perm _ _).filter _).trans (.of_eq ?_)
  rw [unsortedFacts, List.filter_append, List.filter_append, others _ .created fun _ => rfl,
    others _ .renamed fun _ => rfl, List.nil_append, List.append_nil, filter_flatMap_timelineFacts]

theorem length_filter_attr?_facts (h : History) (a : Attribute) :
    (h.facts.filter fun f => f.attr? = some a).length = (h.timeline a).size := by
  rw [(perm_filter_attr?_facts h a).length_eq, length_timelineFacts]

end History

namespace Timeline

variable {t u w : Timeline} {r : Recording} {run : List Recording}

theorem Ordered.isWellKept (ht : t.Ordered) : t.IsWellKept where
  ascending := ht.ascending.imp Mark.precedes_iff.mp
  distinct := List.Nodup.map_on (fun m hm n hn => ht.distinct m hm n hn) ht.ascending.nodup
  first m := by
    rw [ht.head?_asserted_iff]
    simp only [Mark.precedes_iff]
  latest s := ht.latest_eq_some_iff
  blank := latest_eq_none_iff
  size h a same := by rw [History.length_filter_attr?_facts, same]

/-- Like `after`, with a search for the places of marks. -/
def afterBisected (t : Timeline) : Recording → Timeline
  | .reset s => t.reset s
  | .record m => if t.admits m then t.putBisected m else t
  | .amend m => if t.amends m then t.putBisected m else t
  | .purge cutoff => t.purge cutoff

theorem Ordered.afterBisected_eq (ht : t.Ordered) (r : Recording) :
    t.afterBisected r = t.after r := by
  cases r with
  | reset s => rfl
  | record m => rw [afterBisected, ht.putBisected_eq, Timeline.after, Timeline.record]
  | amend m => rw [afterBisected, ht.putBisected_eq, Timeline.after, Timeline.amend]
  | purge cutoff => rfl

theorem Ordered.foldl_after (ht : t.Ordered) (run : List Recording) :
    (run.foldl Timeline.after t).Ordered ∧
      run.foldl afterBisected t = run.foldl Timeline.after t := by
  induction run generalizing t with
  | nil => exact ⟨ht, rfl⟩
  | cons r rest ih =>
    rw [List.foldl_cons, List.foldl_cons, ht.afterBisected_eq]
    exact ih (ht.after r)

/-- The last reset and the mark about each value are no older in `u` than in `t`. -/
structure IsNoNewerThan (t u : Timeline) : Prop where
  reset : ∀ r ∈ t.lastReset, ∃ r' ∈ u.lastReset, r ≤ r'
  marks : ∀ v, ∀ m ∈ t.mark? v, ∃ n ∈ u.mark? v, m.stamp ≤ n.stamp

theorem IsNoNewerThan.refl (t : Timeline) : t.IsNoNewerThan t where
  reset r hr := ⟨r, hr, le_rfl⟩
  marks _ m hm := ⟨m, hm, le_rfl⟩

theorem IsNoNewerThan.trans (h : t.IsNoNewerThan u) (h' : u.IsNoNewerThan w) :
    t.IsNoNewerThan w where
  reset r hr := by
    obtain ⟨r', hr', le⟩ := h.reset r hr
    obtain ⟨r'', hr'', le'⟩ := h'.reset r' hr'
    exact ⟨r'', hr'', le.trans le'⟩
  marks v m hm := by
    obtain ⟨n, hn, le⟩ := h.marks v m hm
    obtain ⟨o, ho, le'⟩ := h'.marks v n hn
    exact ⟨o, ho, le.trans le'⟩

theorem isNoNewerThan_reset (t : Timeline) (s : Stamp) : t.IsNoNewerThan (t.reset s) where
  reset r hr := by
    obtain ⟨n, hn, -, le, -⟩ := Stamp.newest_some_spec t.lastReset s
    exact ⟨n, (lastReset_reset t s).trans hn, le r hr⟩
  marks v m hm := ⟨m, (mark?_reset t s v).trans hm, le_rfl⟩

theorem isNoNewerThan_put {m : Mark} (newer : ∀ n ∈ t.mark? m.value, n.stamp ≤ m.stamp) :
    t.IsNoNewerThan (t.put m) where
  reset r hr := ⟨r, hr, le_rfl⟩
  marks v n hn := by
    rw [mark?_put]
    split
    · next same => exact ⟨m, rfl, newer n (same ▸ hn)⟩
    · exact ⟨n, hn, le_rfl⟩

theorem isNoNewerThan_record (t : Timeline) (m : Mark) : t.IsNoNewerThan (t.record m) := by
  rw [record]
  split
  · next admitted => exact isNoNewerThan_put fun n hn => (admits_iff.mp admitted n hn).le
  · exact .refl t

theorem isNoNewerThan_amend (t : Timeline) (m : Mark) : t.IsNoNewerThan (t.amend m) := by
  rw [amend]
  split
  · next amended =>
    obtain ⟨n, hn, same, -⟩ := amends_iff.mp amended
    refine isNoNewerThan_put fun n' hn' => ?_
    obtain rfl : n = n' := Option.some.inj (hn.symm.trans hn')
    exact same.le
  · exact .refl t

/-- Whether something may be dropped. -/
def Recording.isPurge : Recording → Bool
  | .purge _ => true
  | _ => false

theorem isNoNewerThan_after (t : Timeline) (kept : r.isPurge = false) :
    t.IsNoNewerThan (t.after r) := by
  cases r with
  | reset s => exact isNoNewerThan_reset t s
  | record m => exact isNoNewerThan_record t m
  | amend m => exact isNoNewerThan_amend t m
  | purge cutoff => cases kept

theorem isNoNewerThan_foldl_after (t : Timeline) (kept : ∀ r ∈ run, r.isPurge = false) :
    t.IsNoNewerThan (run.foldl after t) := by
  induction run generalizing t with
  | nil => exact .refl t
  | cons r rest ih =>
    exact (isNoNewerThan_after t (kept r (.head _))).trans
      (ih (t.after r) fun r' hr' => kept r' (.tail _ hr'))

end Timeline

namespace History

def kindRecordings (s : Stamp) : Fact.Kind → Option Octets → List Timeline.Recording
  | .deleteAttribute, _ => [.reset s]
  | .replace, some v => [.reset s, .record ⟨v, .added, s⟩]
  | .add, some v => [.record ⟨v, .added, s⟩]
  | .delete, some v => [.record ⟨v, .deleted, s⟩]
  | _, none => []

def recordings (a : Attribute) : Fact → List Timeline.Recording
  | .created _ | .renamed _ => []
  | .about b s kind value => if b = a then kindRecordings s kind value else []

theorem absorbAttribute_eq (t : Timeline) (s : Stamp) (kind : Fact.Kind) (value : Option Octets) :
    absorbAttribute t s kind value = (kindRecordings s kind value).foldl Timeline.after t := by
  cases kind <;> cases value <;> rfl

theorem timeline_absorb (g : History) (f : Fact) (a : Attribute) :
    (g.absorb f).timeline a = (recordings a f).foldl Timeline.after (g.timeline a) := by
  cases f with
  | created s | renamed s => rfl
  | about b s kind value =>
    rw [recordings]
    split
    · next same => rw [same, timeline_absorb_self, absorbAttribute_eq]
    · next other => rw [timeline_absorb_of_ne g (Ne.symm other), List.foldl_nil]

/-- The timelines of a history that is read are what its facts record, one after the other. -/
theorem timeline_foldl_absorb (g : History) (fs : List Fact) (a : Attribute) :
    (fs.foldl absorb g).timeline a =
      (fs.flatMap (recordings a)).foldl Timeline.after (g.timeline a) := by
  induction fs generalizing g with
  | nil => rfl
  | cons f rest ih => rw [List.foldl_cons, ih, timeline_absorb, List.flatMap_cons, List.foldl_append]

theorem timeline_ofFacts (fs : List Fact) (a : Attribute) :
    (ofFacts fs).timeline a = (fs.flatMap (recordings a)).foldl Timeline.after .empty :=
  timeline_foldl_absorb empty fs a

theorem isPurge_of_mem_recordings {f : Fact} : ∀ r ∈ recordings a f, r.isPurge = false := by
  cases f with
  | created s | renamed s => exact List.forall_mem_nil _
  | about b s kind value =>
    rw [recordings]
    split
    · cases kind <;> cases value <;> simp [kindRecordings, Timeline.Recording.isPurge]
    · exact List.forall_mem_nil _

theorem isNoNewerThan_ofFacts_append (fs gs : List Fact) (a : Attribute) :
    ((ofFacts fs).timeline a).IsNoNewerThan ((ofFacts (fs ++ gs)).timeline a) := by
  rw [ofFacts, ofFacts, List.foldl_append, timeline_foldl_absorb _ gs]
  refine Timeline.isNoNewerThan_foldl_after _ fun r hr => ?_
  obtain ⟨f, -, hr⟩ := List.mem_flatMap.mp hr
  exact isPurge_of_mem_recordings r hr

/-- A fresh timeline is well-kept after every run of recordings and purges, and so are all timelines of
a history that was read from any facts. It makes no difference to either that the places of marks are
searched by halving. Recordings lower no stamp as long as nothing is purged, be it one by one, in a run
or when facts are read. -/
theorem isWellKept_after_run :
    (∀ run : List Timeline.Recording, (run.foldl Timeline.after .empty).IsWellKept ∧
      run.foldl Timeline.afterBisected .empty = run.foldl Timeline.after .empty) ∧
    (∀ (fs : List Fact) (a : Attribute), ((ofFacts fs).timeline a).IsWellKept ∧
      (fs.flatMap (recordings a)).foldl Timeline.afterBisected .empty = (ofFacts fs).timeline a) ∧
    (∀ (t : Timeline) (run : List Timeline.Recording), (∀ r ∈ run, r.isPurge = false) →
      t.IsNoNewerThan (run.foldl Timeline.after t)) ∧
    ∀ (fs gs : List Fact) (a : Attribute),
      ((ofFacts fs).timeline a).IsNoNewerThan ((ofFacts (fs ++ gs)).timeline a) := by
  have fresh : ∀ run : List Timeline.Recording, (run.foldl Timeline.after .empty).IsWellKept ∧
      run.foldl Timeline.afterBisected .empty = run.foldl Timeline.after .empty := by
    intro run
    obtain ⟨ordered, same⟩ := Timeline.ordered_empty.foldl_after run
    exact ⟨ordered.isWellKept, same⟩
  refine ⟨fresh, fun fs a => ?_, fun t run kept => Timeline.isNoNewerThan_foldl_after t kept,
    isNoNewerThan_ofFacts_append⟩
  rw [timeline_ofFacts]
  exact fresh _

/-- Marks of one stamp recorded out of order and one of them turned around in the same change; then an
older reset, an older mark and a newer one. The newer mark moves behind the others. -/
theorem isWellKept_after_run_amended :
    let run : List Timeline.Recording := [.record ⟨[98], .added, ⟨3, 0, 1⟩⟩, .reset ⟨3, 0, 1⟩,
      .record ⟨[99], .added, ⟨1, 0, 1⟩⟩, .record ⟨[97], .added, ⟨3, 0, 1⟩⟩,
      .amend ⟨[98], .deleted, ⟨3, 0, 1⟩⟩]
    let more : List Timeline.Recording := [.reset ⟨2, 0, 9⟩, .record ⟨[97], .deleted, ⟨2, 7, 1⟩⟩,
      .record ⟨[99], .added, ⟨3, 0, 2⟩⟩]
    let t := run.foldl Timeline.after .empty
    let u := more.foldl Timeline.after t
    t.marks = [⟨[99], .added, ⟨1, 0, 1⟩⟩, ⟨[97], .added, ⟨3, 0, 1⟩⟩, ⟨[98], .deleted, ⟨3, 0, 1⟩⟩] ∧
      u.marks = [⟨[97], .added, ⟨3, 0, 1⟩⟩, ⟨[98], .deleted, ⟨3, 0, 1⟩⟩, ⟨[99], .added, ⟨3, 0, 2⟩⟩] ∧
      t.IsWellKept ∧ (∀ r ∈ more, r.isPurge = false) ∧ t.IsNoNewerThan u ∧
      run.foldl Timeline.afterBisected .empty = t := by
  intro run more t u
  obtain ⟨runs, -, raises, -⟩ := isWellKept_after_run
  have kept : ∀ r ∈ more, r.isPurge = false := by decide
  exact ⟨by decide, by decide, (runs run).1, kept, raises t more kept, (runs run).2⟩

end History

end DirectoryHistory
