import DirectoryHistory.Proofs.Replica.Taking
import DirectoryHistory.Proofs.Stamp.Clock

/-!
# The course of an entry

No operation moves the clock back. So the requests that one replica takes to an entry, with anything
else in between that leaves the entry alone, carry ascending stamps, and the entry is what they make
of it one after the other.
-/

namespace DirectoryHistory.Replica

variable {r r' r'' : Replica} {now : Readings} {t : Tracked} {u : Update} {id : EntryId}
variable {name : DistinguishedName} {attributes : Table Attribute (List Octets)}
variable {mods : List Modification} {leaf : RelativeName} {deleteOld : Bool}
variable {superior : Option DistinguishedName}

theorem clock_persist {now : UInt64} (h : r.persist now t = .ok r') : r'.clock = r.clock := by
  rw [(of_persist_eq_ok h).2]

theorem clock_modify_of_findTracked {mods : List Modification} {abandon : Nat → Bool}
    (found : r.findTracked name = .ok t) :
    (r.modify now name mods abandon).2.clock = r.clock.tick now.issuing := by
  simp only [modify, found]
  split
  · rfl
  · split
    · rfl
    · next written => exact clock_persist written
  · split
    · rfl
    split
    · rfl
    · next written => exact clock_persist written

theorem clock_perform (r : Replica) (now : Readings) (op : Operation) :
    (r.perform now op).clock = r.clock ∨ (r.perform now op).clock = r.clockAt now op := by
  cases r.answered_perform now op with
  | declined declines only moved => exact moved
  | removed done id only | wrote done t writes put only => exact .inr (by rw [only])

theorem clock_perform_of_done {op : Operation} (done : (r.answer now op).declines = false) :
    (r.perform now op).clock = r.clockAt now op := by
  cases r.answered_perform now op with
  | declined declines only moved => simp [done] at declines
  | removed done id only | wrote done t writes put only => rw [only]

theorem advances_clockAt (going : ¬r.clock.IsExhausted) (now : Readings) (op : Operation) :
    r.clock.Advances (r.clockAt now op) := by
  cases op with
  | replay u => exact Clock.advances_witness r.clock u.stamp
  | _ => exact Clock.advances_tick going now.issuing

/-- No operation moves the clock back, unless the clock stands at the end of time. -/
theorem advances_perform (going : ¬r.clock.IsExhausted) (now : Readings) (op : Operation) :
    r.clock.Advances (r.perform now op).clock := by
  rcases r.clock_perform now op with same | moved
  · rw [same]
    exact Clock.advances_refl _
  · rw [moved]
    exact advances_clockAt going now op

theorem clock_of_sent {abandon : Nat → Bool}
    (h : sent? (r.modify now name mods abandon).1 = some u) :
    (r.modify now name mods abandon).2.clock = r.clock.tick now.issuing := by
  cases found : r.findTracked name with
  | error e =>
    simp only [modify, found, sent?_of_not_isAbandoned (isAbandoned_of_findTracked found)] at h
    cases h
  | ok t => exact clock_modify_of_findTracked found

theorem clock_of_rename_eq_ok (h : r.rename now name leaf deleteOld superior = (.ok u, r')) :
    r'.clock = r.clock.tick now.issuing := by
  have done : (r.answer now (.rename name leaf deleteOld superior)).declines = false := by
    simp [answer, h, Answer.declines]
  have moved := clock_perform_of_done done
  rwa [perform, h] at moved

/-- The replica takes the requests listed to the entry `id`, the oldest first, one after the other,
and whatever else it does leaves the entry alone. Of a request that was abandoned, what it has done
is listed. -/
inductive Course (id : EntryId) (r : Replica) : List Request → Replica → Prop
  | stay : Course id r [] r
  | aside {qs : List Request} {r' : Replica} (h : Course id r qs r') (now : Readings)
      (op : Operation) (going : ¬r'.clock.IsExhausted)
      (kept : (r'.perform now op).store.get? id = r'.store.get? id) :
    Course id r qs (r'.perform now op)
  | modify {qs : List Request} {r' : Replica} {now : Readings} {name : DistinguishedName}
      {mods : List Modification} {abandon : Nat → Bool} {q : Request} (h : Course id r qs r')
      (going : ¬r'.clock.IsExhausted)
      (sent : sent? (r'.modify now name mods abandon).1 = some (q.update name id)) :
    Course id r (qs ++ [q]) (r'.modify now name mods abandon).2

variable {qs : List Request}

theorem Course.covers (course : Course id r qs r') {c : Stamp} (covered : r.clock.Covers c) :
    r'.clock.Covers c ∧ (∀ q ∈ qs, c < q.stamp ∧ r'.clock.Covers q.stamp) ∧
      qs.Pairwise (·.stamp < ·.stamp) := by
  induction course with
  | stay => exact ⟨covered, nofun, .nil⟩
  | aside h now op going kept ih =>
    obtain ⟨first, each, ascending⟩ := ih
    have advances := advances_perform going now op
    exact ⟨advances.covers c first, fun q hq => ⟨(each q hq).1, advances.covers _ (each q hq).2⟩,
      ascending⟩
  | @modify qs r' now name mods abandon q h going sent ih =>
    obtain ⟨first, each, ascending⟩ := ih
    obtain ⟨q', update, stamp, -⟩ := takes_of_sent sent
    obtain rfl := Request.eq_of_update_eq update
    have ticked := Clock.advances_tick going now.issuing
    rw [clock_of_sent sent, List.forall_mem_append, List.forall_mem_singleton, List.pairwise_append]
    refine ⟨ticked.covers c first, ⟨fun q hq => ⟨(each q hq).1, ticked.covers _ (each q hq).2⟩, ?_⟩,
      ascending, List.pairwise_singleton _ _, fun q hq p hp => ?_⟩
    · rw [stamp]
      exact ⟨first.lt_stamp_tick going now.issuing, Clock.covers_stamp _⟩
    · rw [List.mem_singleton.mp hp, stamp]
      exact (each q hq).2.lt_stamp_tick going now.issuing

/-- The entry is what the requests of the course make of it. -/
theorem Course.holds (course : Course id r qs r') (held : r.Holds id t)
    (indexed : r.store.IsIndexed) (unlimited : r.retention = none) (sound : t.history.IsSound)
    (plain : ∀ q ∈ qs, ∀ m ∈ q.modifications, m.attr.IsPlain) :
    r' = { r with clock := r'.clock, store := r'.store } ∧ r'.store.IsIndexed ∧
      (∀ q ∈ qs, q.IsSound r.schema) ∧
      ∃ t', r'.Holds id t' ∧ t'.Agrees (qs.foldl (Tracked.afterRequest r.schema) t) := by
  induction course with
  | stay => exact ⟨rfl, indexed, nofun, t, held, rfl, rfl, fun _ _ => rfl, fun _ => rfl, rfl, rfl⟩
  | @aside qs r' h now op going kept ih =>
    obtain ⟨only, indexed', each, t', held', agrees⟩ := ih plain
    have indexed'' := indexed'.perform now op
    have stored := kept.trans held'.stored
    refine ⟨?_, indexed'', each, t', ⟨held'.identified, stored, ?_, held'.read⟩, agrees⟩
    · rw [perform_eq, only]
    · exact indexed''.listed id _ stored
  | @modify qs r' now name mods abandon q h going sent ih =>
    rw [List.forall_mem_append, List.forall_mem_singleton] at plain
    obtain ⟨only, indexed', each, t', held', agrees⟩ := ih plain.1
    obtain ⟨q', update, -, takes⟩ := takes_of_sent sent
    obtain rfl := Request.eq_of_update_eq update
    have takes : Takes r' id q _ := takes indexed'
    have schema : r'.schema = r.schema := by rw [only]
    have limits : r'.retention = none := by rw [only]; exact unlimited
    have last : q.IsSound r.schema := by
      rw [← schema]
      exact Request.isSound_of_plain takes.valid plain.2
    have sound' := (Tracked.isSound_foldl_afterRequest sound each).of_agrees agrees.history
    obtain ⟨alters, t'', held'', agrees'⟩ :=
      held'.of_takes limits sound' (schema ▸ last) takes
    refine ⟨by rw [alters.only, only], alters.indexed indexed', ?_, t'', held'', ?_⟩
    · exact List.forall_mem_append.mpr ⟨each, List.forall_mem_singleton.mpr last⟩
    · rw [List.foldl_append]
      rw [schema] at agrees'
      exact agrees'.trans (agrees.afterRequest last.valid)

end DirectoryHistory.Replica
