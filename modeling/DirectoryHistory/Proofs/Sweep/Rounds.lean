import DirectoryHistory.Proofs.Sweep.Pass

/-!
# Rounds of passes

A pass that is out of time leaves a cursor, and the next pass goes on behind it. The passes up to
the first one that gets to the end make a round. It visits the entries in the order of their
identifiers, whatever comes into the store or leaves it in between, and every entry that stays is
visited once.
-/

namespace DirectoryHistory.Sweep

variable {s : Sweep} {o : Occasion} {os : List Occasion} {ids more : List EntryId}
variable {a b id last : EntryId}

/-- The identifiers behind the cursor. -/
def due (s : Sweep) (ids : List EntryId) : List EntryId :=
  ids.filter (isBehind s.cursor)

def processed (s : Sweep) (o : Occasion) : List EntryId :=
  visited o.outOfTime 0 (s.due o.store.ids)

theorem isBehind_some_iff : isBehind (some a) b = true ↔ compare a b = .lt := by
  simp [isBehind]

theorem isBehind_trans {cursor : Option EntryId} (h : isBehind cursor a = true)
    (h' : compare a b = .lt) : isBehind cursor b = true := by
  cases cursor with
  | none => rfl
  | some c => exact isBehind_some_iff.mpr (Std.TransCmp.lt_trans (isBehind_some_iff.mp h) h')

theorem ascending_due (s : Sweep) (o : Occasion) :
    (s.due o.store.ids).Pairwise fun a b => compare a b = .lt :=
  o.store.entries.ascending_keys.filter _

theorem processed_prefix_due (s : Sweep) (o : Occasion) :
    s.processed o <+: s.due o.store.ids :=
  isPrefix_visited ..

theorem ascending_processed (s : Sweep) (o : Occasion) :
    (s.processed o).Pairwise fun a b => compare a b = .lt :=
  (ascending_due s o).sublist (processed_prefix_due s o).sublist

theorem isBehind_of_mem_processed (h : id ∈ s.processed o) : isBehind s.cursor id = true :=
  (List.mem_filter.mp ((processed_prefix_due s o).subset h)).2

/-- The pass gets to the end of the store. -/
structure Completes (s : Sweep) (o : Occasion) : Prop where
  processed : s.processed o = s.due o.store.ids
  isComplete : (s.passOn o).1.isComplete = true
  cursor : (s.passOn o).2.1.cursor = none

/-- The pass is out of time behind `last` and leaves `more` to the next one. -/
structure StopsAt (s : Sweep) (o : Occasion) (last : EntryId) (more : List EntryId) : Prop where
  due : s.due o.store.ids = s.processed o ++ more
  left : more ≠ []
  reached : last ∈ s.processed o
  front : ∀ a ∈ s.processed o, a = last ∨ compare a last = .lt
  behind : ∀ a ∈ more, compare last a = .lt
  isComplete : (s.passOn o).1.isComplete = false
  cursor : (s.passOn o).2.1.cursor = some last

/-- A pass gets to the end, or it stops at an identifier behind which there are more. -/
theorem completes_or_stopsAt (s : Sweep) (o : Occasion) :
    s.Completes o ∨ ∃ last more, s.StopsAt o last more := by
  have report : (s.passOn o).1.resumeAfter = stop (s.processed o) (s.due o.store.ids) := by
    rw [passOn, pass_eq]
    rfl
  have cursor : (s.passOn o).2.1.cursor = stop (s.processed o) (s.due o.store.ids) := by
    rw [passOn, pass_eq]
    rfl
  by_cases all : s.processed o = s.due o.store.ids
  · have none : stop (s.processed o) (s.due o.store.ids) = none := if_pos all
    exact .inl ⟨all, by rw [Report.isComplete, report, none]; rfl, cursor.trans none⟩
  · right
    obtain ⟨more, due⟩ := processed_prefix_due s o
    have left : more ≠ [] := by
      rintro rfl
      exact all (by simpa using due)
    have some_due : s.due o.store.ids ≠ [] := by
      rw [← due]
      exact List.append_ne_nil_of_right_ne_nil _ left
    obtain ⟨front, last, seen⟩ :=
      (List.eq_nil_or_concat' (s.processed o)).resolve_left (visited_ne_nil some_due)
    have stopped : stop (s.processed o) (s.due o.store.ids) = some last := by
      rw [stop, if_neg all, seen, List.getLast?_concat]
    have reached : last ∈ s.processed o := by simp [seen]
    have ordered := ascending_due s o
    rw [← due, List.pairwise_append] at ordered
    refine ⟨last, more, due.symm, left, reached, fun a ha => ?_, ordered.2.2 last reached,
      by rw [Report.isComplete, report, stopped]; rfl, cursor.trans stopped⟩
    have before := ascending_processed s o
    rw [seen, List.pairwise_append] at before
    rw [seen] at ha
    rcases List.mem_append.mp ha with ha | ha
    · exact .inr (before.2.2 a ha last (.head _))
    · exact .inl (List.mem_singleton.mp ha)

/-- The passes up to the first one that gets to the end, each with the sweep that makes it. -/
def round (s : Sweep) : List Occasion → List (Sweep × Occasion)
  | [] => []
  | o :: rest =>
    let (r, s', _) := s.passOn o
    if r.isComplete then [(s, o)] else (s, o) :: round s' rest

/-- The identifiers that the passes visit, in their order. -/
def visits (passes : List (Sweep × Occasion)) : List EntryId :=
  passes.flatMap fun p => p.1.processed p.2

/-- Whether one of the passes gets to the end. -/
def Ends (passes : List (Sweep × Occasion)) : Prop :=
  ∃ p ∈ passes, (p.1.passOn p.2).1.isComplete = true

theorem Completes.round_eq (h : s.Completes o) (rest : List Occasion) :
    s.round (o :: rest) = [(s, o)] :=
  if_pos h.isComplete

theorem StopsAt.round_eq (h : s.StopsAt o last more) (rest : List Occasion) :
    s.round (o :: rest) = (s, o) :: (s.passOn o).2.1.round rest :=
  if_neg (ne_true_of_eq_false h.isComplete)

theorem isBehind_of_mem_visits (h : id ∈ visits (s.round os)) : isBehind s.cursor id = true := by
  induction os generalizing s with
  | nil => cases h
  | cons o rest ih =>
    obtain whole | ⟨last, more, stopped⟩ := completes_or_stopsAt s o
    · rw [whole.round_eq, visits, List.flatMap_singleton] at h
      exact isBehind_of_mem_processed h
    · rw [stopped.round_eq, visits, List.flatMap_cons] at h
      rcases List.mem_append.mp h with h | h
      · exact isBehind_of_mem_processed h
      · have behind := ih h
        rw [stopped.cursor, isBehind_some_iff] at behind
        exact isBehind_trans (isBehind_of_mem_processed stopped.reached) behind

theorem ascending_visits (s : Sweep) (os : List Occasion) :
    (visits (s.round os)).Pairwise fun a b => compare a b = .lt := by
  induction os generalizing s with
  | nil => exact .nil
  | cons o rest ih =>
    obtain whole | ⟨last, more, stopped⟩ := completes_or_stopsAt s o
    · rw [whole.round_eq, visits, List.flatMap_singleton]
      exact ascending_processed s o
    · rw [stopped.round_eq, visits, List.flatMap_cons]
      refine List.pairwise_append.mpr ⟨ascending_processed s o, ih _, fun a ha b hb => ?_⟩
      have behind := isBehind_of_mem_visits hb
      rw [stopped.cursor, isBehind_some_iff] at behind
      rcases stopped.front a ha with rfl | before
      · exact behind
      · exact Std.TransCmp.lt_trans before behind

/-- A round that ends visits everything behind its cursor that is in the store at all its passes. -/
theorem mem_visits (ends : Ends (s.round os)) (stays : ∀ p ∈ s.round os, id ∈ p.2.store.ids)
    (behind : isBehind s.cursor id = true) : id ∈ visits (s.round os) := by
  induction os generalizing s with
  | nil =>
    obtain ⟨p, hp, -⟩ := ends
    cases hp
  | cons o rest ih =>
    obtain whole | ⟨last, more, stopped⟩ := completes_or_stopsAt s o
    · rw [whole.round_eq] at stays ⊢
      rw [visits, List.flatMap_singleton, whole.processed]
      exact List.mem_filter.mpr ⟨stays _ (.head _), behind⟩
    · rw [stopped.round_eq] at ends stays ⊢
      rw [visits, List.flatMap_cons, List.mem_append]
      have due : id ∈ s.due o.store.ids := List.mem_filter.mpr ⟨stays _ (.head _), behind⟩
      rw [stopped.due, List.mem_append] at due
      refine due.imp_right fun later => ih ?_ (fun p hp => stays p (.tail _ hp)) ?_
      · obtain ⟨p, hp, complete⟩ := ends
        rcases List.mem_cons.mp hp with rfl | hp
        · simp [stopped.isComplete] at complete
        · exact ⟨p, hp, complete⟩
      · rw [stopped.cursor, isBehind_some_iff]
        exact stopped.behind id later

/-- While the identifiers stay the same, what a pass leaves is due at the next one. -/
theorem StopsAt.due_passOn (h : s.StopsAt o last more) :
    (s.passOn o).2.1.due o.store.ids = more := by
  have nested : (s.passOn o).2.1.due o.store.ids =
      (s.due o.store.ids).filter (isBehind (some last)) := by
    rw [Sweep.due, Sweep.due, List.filter_filter, h.cursor]
    refine List.filter_congr fun id _ => ?_
    cases behind : isBehind (some last) id with
    | false => rfl
    | true =>
      have before := isBehind_of_mem_processed h.reached
      exact (isBehind_trans before (isBehind_some_iff.mp behind)).symm
  have kept : more.filter (isBehind (some last)) = more :=
    List.filter_eq_self.mpr fun id hid => isBehind_some_iff.mpr (h.behind id hid)
  have gone : (s.processed o).filter (isBehind (some last)) = [] := by
    refine List.filter_eq_nil_iff.mpr fun a ha => ?_
    rw [isBehind_some_iff]
    rcases h.front a ha with rfl | before
    · simp
    · rw [Std.OrientedCmp.gt_of_lt before]
      decide
  rw [nested, h.due, List.filter_append, gone, kept, List.nil_append]

/-- If the identifiers stay the same a round takes at most one pass for each that is due, and no
less than one. -/
theorem length_round_le (same : ∀ o ∈ os, o.store.ids = ids) :
    (s.round os).length ≤ max (s.due ids).length 1 ∧
      (max (s.due ids).length 1 ≤ os.length → Ends (s.round os)) := by
  induction os generalizing s with
  | nil =>
    refine ⟨Nat.zero_le _, fun enough => ?_⟩
    rw [List.length_nil] at enough
    omega
  | cons o rest ih =>
    obtain rfl := same o (.head _)
    obtain whole | ⟨last, more, stopped⟩ := completes_or_stopsAt s o
    · rw [whole.round_eq]
      exact ⟨Nat.le_max_right _ 1, fun _ => ⟨(s, o), .head _, whole.isComplete⟩⟩
    · obtain ⟨short, ends⟩ := ih (s := (s.passOn o).2.1) fun o' ho => same o' (.tail _ ho)
      rw [stopped.due_passOn] at short ends
      have fewer : more.length + 1 ≤ (s.due o.store.ids).length := by
        rw [stopped.due, List.length_append, Nat.add_comm]
        exact Nat.add_le_add_right (List.length_pos_of_mem stopped.reached) _
      have some : 1 ≤ more.length := List.length_pos_of_ne_nil stopped.left
      rw [stopped.round_eq, List.length_cons, List.length_cons]
      refine ⟨by omega, fun enough => ?_⟩
      obtain ⟨p, hp, complete⟩ := ends (by omega)
      exact ⟨p, .tail _ hp, complete⟩

/-- One pass visits its identifiers one after the other. If it is interrupted it leaves a cursor
behind the one that it found, and otherwise it leaves none. -/
structure Advances (s : Sweep) (o : Occasion) (r : Report) (s' : Sweep) (store : Store) : Prop where
  visited : (r, store) =
    let p := visitEach (History.horizon (max s.latest o.now) s.delay) (s.processed o) .empty o.store
    ({ p.1 with resumeAfter := s'.cursor }, p.2)
  complete : r.isComplete = true → s'.cursor = none
  interrupted : r.isComplete = false →
    ∃ id, s'.cursor = some id ∧ ∀ c, s.cursor = some c → compare c id = .lt

theorem advances_passOn (s : Sweep) (o : Occasion) :
    Advances s o (s.passOn o).1 (s.passOn o).2.1 (s.passOn o).2.2 where
  visited := by
    rw [passOn, pass_eq]
    rfl
  complete done := by
    obtain whole | ⟨last, more, stopped⟩ := completes_or_stopsAt s o
    · exact whole.cursor
    · simp [stopped.isComplete] at done
  interrupted partly := by
    obtain whole | ⟨last, more, stopped⟩ := completes_or_stopsAt s o
    · simp [whole.isComplete] at partly
    · refine ⟨last, stopped.cursor, fun c hc => ?_⟩
      exact isBehind_some_iff.mp (hc ▸ isBehind_of_mem_processed stopped.reached)

/-- The passes of a round visit in ascending order, and once, every entry that is in the store at
all of them, though others may come and go in between. While the entries are the same `n` a round
takes no more than `max n 1` passes. -/
theorem round_covers (fresh : s.cursor = none) (os : List Occasion) :
    let passes := s.round os
    (∀ p ∈ passes, ∃ r s' store, p.1.passOn p.2 = (r, s', store) ∧ Advances p.1 p.2 r s' store) ∧
      (visits passes).Pairwise (fun a b => compare a b = .lt) ∧
      (Ends passes → ∀ id, (∀ p ∈ passes, id ∈ p.2.store.ids) → (visits passes).count id = 1) ∧
      ∀ ids, (∀ o ∈ os, o.store.ids = ids) → passes.length ≤ max ids.length 1 ∧
        (max ids.length 1 ≤ os.length → Ends passes) := by
  have ordered := ascending_visits s os
  have once : (visits (s.round os)).Nodup := Table.nodup_of_ascending ordered
  refine ⟨fun p _ => ⟨_, _, _, rfl, advances_passOn p.1 p.2⟩, ordered, fun ends id stays => ?_,
    fun ids same => ?_⟩
  · refine List.count_eq_one_of_mem once (mem_visits ends stays ?_)
    rw [fresh]
    rfl
  · have all : s.due ids = ids := by rw [due, fresh, filter_isBehind_none]
    have bound := length_round_le (s := s) same
    rwa [all] at bound

/-- With time for one entry only a pass stops behind each. One entry leaves behind the cursor and
one before it, one enters on either side, and the one that stays is visited once. Over three entries
that all stay the round ends with the third pass. -/
theorem round_covers_changed :
    let store (members : List (String × UInt8)) : Store :=
      (Store.ofEntries (members.map fun m =>
        .make ⟨[⟨"cn", m.1⟩]⟩ (.uniform m.2))).toOption.getD .empty
    let occasion (members : List (String × UInt8)) : Occasion := ⟨0, fun _ => true, store members⟩
    let first := occasion [("a", 1), ("b", 3), ("c", 5)]
    let os := [first, occasion [("d", 0), ("b", 3), ("e", 4)], occasion [("b", 3), ("e", 4)]]
    visits ((start 0).round os) = [.uniform 1, .uniform 3, .uniform 4] ∧
      (visits ((start 0).round os)).count (.uniform 3) = 1 ∧
      ((start 0).round [first, first, first]).length ≤ 3 ∧
      Ends ((start 0).round [first, first, first]) := by
  intro store occasion first os
  have fresh : (start 0).cursor = none := rfl
  obtain ⟨-, -, once, -⟩ := round_covers fresh os
  obtain ⟨-, -, -, short⟩ := round_covers fresh [first, first, first]
  have ends : Ends ((start 0).round os) := by
    unfold Ends
    decide +kernel
  have stays : ∀ p ∈ (start 0).round os, .uniform 3 ∈ p.2.store.ids := by decide +kernel
  have three : first.store.ids = [.uniform 1, .uniform 3, .uniform 5] := by decide +kernel
  obtain ⟨short, ends'⟩ := short _ (by simpa using three)
  exact ⟨by decide +kernel, once ends _ stays, short, ends' (by decide)⟩

end DirectoryHistory.Sweep
