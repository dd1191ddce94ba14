import DirectoryHistory.Proofs.History.Writing
import DirectoryHistory.Proofs.Timeline.Purging

/-!
# Purged histories

A purged history is written as the facts of the whole one that are no older than the cutoff, in the
same order, and the count of a purge is the number of the others.
-/

namespace DirectoryHistory

variable {cutoff : Stamp}

namespace Timeline

theorem bareReset?_purge (t : Timeline) (cutoff : Stamp) :
    (t.purge cutoff).bareReset? = t.bareReset?.filter (cutoff ≤ ·) := by
  have carried : ∀ s, cutoff ≤ s →
      ((t.marks.filter (cutoff ≤ ·.stamp)).any fun m => m.stamp == s && m.sense == .added) =
        t.marks.any fun m => m.stamp == s && m.sense == .added := by
    intro s recent
    rw [List.any_filter]
    congr 1
    funext m
    by_cases hm : m.stamp = s
    · simp [hm, recent]
    · simp [hm]
  ext s
  simp only [bareReset?, purge, Option.filter_eq_some_iff, decide_eq_true_eq]
  constructor
  · rintro ⟨⟨reset, recent⟩, bare⟩
    exact ⟨⟨reset, carried s recent ▸ bare⟩, recent⟩
  · rintro ⟨⟨reset, bare⟩, recent⟩
    exact ⟨⟨reset, recent⟩, (carried s recent).symm ▸ bare⟩

end Timeline

namespace History

theorem markKind_purge {t : Timeline} {m : Mark} (recent : cutoff ≤ m.stamp) :
    markKind (t.purge cutoff) m = markKind t m := by
  have reset : (t.purge cutoff).lastReset = some m.stamp ↔ t.lastReset = some m.stamp := by
    simp [Timeline.purge, Option.filter_eq_some_iff, recent]
  simp only [markKind, reset]

theorem timelineFacts_purge (a : Attribute) (t : Timeline) (cutoff : Stamp) :
    timelineFacts a (t.purge cutoff) = (timelineFacts a t).filter (cutoff ≤ ·.stamp) := by
  have marks : ((t.purge cutoff).marks.map fun m =>
        Fact.about a m.stamp (markKind (t.purge cutoff) m) (some m.value)) =
      (t.marks.map fun m => Fact.about a m.stamp (markKind t m) (some m.value)).filter
        (cutoff ≤ ·.stamp) := by
    rw [List.filter_map]
    refine List.map_congr_left fun m hm => ?_
    rw [markKind_purge (by simpa using (List.mem_filter.mp hm).2)]
  have reset : ((t.purge cutoff).bareReset?.map fun s =>
        Fact.about a s .deleteAttribute none).toList =
      (t.bareReset?.map fun s => Fact.about a s .deleteAttribute none).toList.filter
        (cutoff ≤ ·.stamp) := by
    rw [Timeline.bareReset?_purge]
    cases t.bareReset? with
    | none => rfl
    | some s => by_cases hs : cutoff ≤ s <;> simp [Option.filter, Fact.stamp, hs]
  rw [timelineFacts, timelineFacts, marks, reset, List.filter_append]

/-- The facts of all timelines; those without content have none. -/
theorem flatMap_timelineFacts_purge (h : History) (cutoff : Stamp) :
    (h.purge cutoff).timelines.toList.flatMap (fun (a, t) => timelineFacts a t) =
      (h.timelines.toList.flatMap fun (a, t) => timelineFacts a t).filter
        (cutoff ≤ ·.stamp) := by
  simp only [purge, Table.filterMap]
  induction h.timelines.toList with
  | nil => rfl
  | cons p rest ih =>
    obtain ⟨a, t⟩ := p
    rw [List.flatMap_cons, List.filter_append, ← ih, ← timelineFacts_purge]
    by_cases nothing : (t.purge cutoff).isEmpty = true
    · have gone : t.purge cutoff = .empty := Timeline.eq_empty_of_isEmpty nothing
      rw [List.filterMap_cons_none (by simp [nothing]), gone, timelineFacts_empty, List.nil_append]
    · simp [nothing]

theorem unsortedFacts_purge (h : History) (cutoff : Stamp) :
    (h.purge cutoff).unsortedFacts = h.unsortedFacts.filter (cutoff ≤ ·.stamp) := by
  have stamped : ∀ (f : Stamp → Fact), (∀ s, (f s).stamp = s) → ∀ o : Option Stamp,
      ((o.filter (cutoff ≤ ·)).map f).toList = (o.map f).toList.filter (cutoff ≤ ·.stamp) := by
    intro f hf o
    cases o with
    | none => rfl
    | some s => by_cases hs : cutoff ≤ s <;> simp [Option.filter, hf, hs]
  rw [unsortedFacts, unsortedFacts, flatMap_timelineFacts_purge, List.filter_append,
    List.filter_append, ← stamped .created fun _ => rfl, ← stamped .renamed fun _ => rfl]
  rfl

/-- A purged history is written as the facts that are no older than the cutoff. -/
theorem facts_purge (h : History) (cutoff : Stamp) :
    (h.purge cutoff).facts = h.facts.filter (cutoff ≤ ·.stamp) := by
  rw [facts, facts, unsortedFacts_purge, filter_sortBy]
  · exact fun f g => by simpa using le_total f.stamp g.stamp
  · exact fun f g k => by simpa using le_trans

theorem length_timelineFacts (a : Attribute) (t : Timeline) :
    (timelineFacts a t).length = t.size := by
  rw [timelineFacts, Timeline.size, List.length_append, List.length_map, Nat.add_comm]
  cases t.bareReset? <;> rfl

theorem size_purge (a : Attribute) (t : Timeline) (cutoff : Stamp) :
    (t.purge cutoff).size = (timelineFacts a t).countP (cutoff ≤ ·.stamp) := by
  rw [← length_timelineFacts a, timelineFacts_purge, List.countP_eq_length_filter]

theorem size_purge_le (t : Timeline) (cutoff : Stamp) : (t.purge cutoff).size ≤ t.size := by
  rw [size_purge .history, ← length_timelineFacts .history t]
  exact List.countP_le_length

theorem size_sub_size_purge (a : Attribute) (t : Timeline) (cutoff : Stamp) :
    t.size - (t.purge cutoff).size = (timelineFacts a t).countP (·.stamp < cutoff) := by
  have parts := List.length_eq_countP_add_countP (fun f : Fact => decide (cutoff ≤ f.stamp))
    (l := timelineFacts a t)
  have old : (timelineFacts a t).countP (fun f => decide ¬decide (cutoff ≤ f.stamp) = true) =
      (timelineFacts a t).countP (·.stamp < cutoff) := by
    simp only [decide_eq_true_eq, not_le]
  rw [← length_timelineFacts a t, size_purge a]
  omega

theorem lostStamp_eq {f : Stamp → Fact} (hf : ∀ s, (f s).stamp = s) (o : Option Stamp) :
    lostStamp cutoff o = (o.map f).toList.countP (·.stamp < cutoff) := by
  cases o with
  | none => rfl
  | some s => by_cases hs : s < cutoff <;> simp [lostStamp, hf, hs]

/-- The count of a purge is the number of facts that are older than the cutoff. -/
theorem purgeCount_eq (h : History) (cutoff : Stamp) :
    h.purgeCount cutoff = h.facts.countP (·.stamp < cutoff) := by
  have timelines : ∀ l : List (Attribute × Timeline),
      (l.map (·.2)).foldr (fun t n => t.size - (t.purge cutoff).size + n) 0 =
        (l.flatMap fun (a, t) => timelineFacts a t).countP (·.stamp < cutoff) := by
    intro l
    induction l with
    | nil => rfl
    | cons p rest ih =>
      rw [List.map_cons, List.foldr_cons, ih, size_sub_size_purge p.1, List.flatMap_cons,
        List.countP_append]
  rw [facts, (sortBy_perm _ _).countP_eq, unsortedFacts, List.countP_append, List.countP_append,
    ← lostStamp_eq (f := .created) fun _ => rfl, ← lostStamp_eq (f := .renamed) fun _ => rfl,
    ← timelines, purgeCount, Table.values]
  omega

theorem purgeCount_add_length_facts_purge (h : History) (cutoff : Stamp) :
    h.purgeCount cutoff + (h.purge cutoff).facts.length = h.facts.length := by
  have old : h.facts.countP (·.stamp < cutoff) =
      h.facts.countP (fun f => decide ¬decide (cutoff ≤ f.stamp) = true) := by
    simp only [decide_eq_true_eq, not_le]
  rw [purgeCount_eq, facts_purge, ← List.countP_eq_length_filter, old, Nat.add_comm]
  exact (List.length_eq_countP_add_countP _).symm

/-- A purge leaves the facts that are no older than the cutoff, in their order and of their kinds,
and counts the others; no timeline has a greater size afterwards, so that no subtraction in the
count is cut off. A retention purges at the least stamp of the time that lies so far back, or else
of time zero, so that a fact stays exactly if its time is not earlier. Without a retention
everything stays. -/
theorem facts_purge_expire (h : History) :
    (∀ cutoff, (h.purge cutoff).facts = h.facts.filter (cutoff ≤ ·.stamp) ∧
      h.purgeCount cutoff + (h.purge cutoff).facts.length = h.facts.length ∧
      ∀ t : Timeline, (t.purge cutoff).size ≤ t.size) ∧
    (∀ now delay, ∃ cutoff : Stamp,
      cutoff.time.toNat = now.toNat - delay ∧ cutoff.sequence = 0 ∧ cutoff.replica = 0 ∧
      h.expire now (some delay) = h.purge cutoff ∧
      h.expireCount now (some delay) = h.purgeCount cutoff ∧
      (h.expire now (some delay)).encode =
        (h.facts.filter (now.toNat - delay ≤ ·.stamp.time.toNat)).map Fact.encode) ∧
    ∀ now, h.expire now none = h ∧ h.expireCount now none = 0 := by
  refine ⟨fun cutoff => ⟨facts_purge h cutoff, purgeCount_add_length_facts_purge h cutoff,
    fun t => size_purge_le t cutoff⟩, fun now delay => ?_, fun now => ⟨rfl, rfl⟩⟩
  have hnow := now.toNat_lt
  have time : (horizon now delay).time.toNat = now.toNat - delay := by
    rw [horizon, Stamp.floorAt, UInt64.toNat_ofNat', Nat.mod_eq_of_lt (by omega)]
  have kept : (h.expire now (some delay)).facts =
      h.facts.filter (now.toNat - delay ≤ ·.stamp.time.toNat) := by
    simp only [expire, facts_purge, horizon_le_iff]
  exact ⟨horizon now delay, time, rfl, rfl, rfl, rfl, congrArg (List.map Fact.encode) kept⟩

/-- The creation and an old addition are dropped; the value that carries the reset still does. -/
example :
    let mail : Attribute := ⟨"mail", []⟩
    let h := (ofCreation ⟨1, 0, 1⟩).setTimeline mail
      ⟨some ⟨3, 0, 1⟩, [⟨[1], .added, ⟨2, 0, 1⟩⟩, ⟨[2], .added, ⟨3, 0, 1⟩⟩]⟩
    (h.purge ⟨3, 0, 0⟩).facts = [.about mail ⟨3, 0, 1⟩ .replace (some [2])] ∧
      h.purgeCount ⟨3, 0, 0⟩ = 2 := by
  decide

end History

end DirectoryHistory
