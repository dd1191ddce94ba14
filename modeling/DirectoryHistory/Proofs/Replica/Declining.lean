import DirectoryHistory.Proofs.Replica.Course

/-!
# Operations that are declined

An operation that fails and an update that is ignored leave nothing behind but the time that the
clock has seen. Only a request that was abandoned half-way keeps what it had done, and says so.
-/

namespace DirectoryHistory.Replica

/-- An operation that fails without having done a step, or that is ignored, leaves everything as it
was but the clock, which does not go back. Any other operation removes an entry or writes one. -/
theorem perform_of_declines (r : Replica) (now : Readings) (op : Operation) :
    ((r.answer now op).declines = true →
      r.perform now op = { r with clock := (r.perform now op).clock }) ∧
    ((r.answer now op).declines = false →
      (∃ id, (r.perform now op).store = r.store.remove id) ∨
        ∃ t, Writes r now op t ∧
          r.store.put (t.store now.storing r.retention) = .ok (r.perform now op).store) ∧
    (¬r.clock.IsExhausted → r.clock.Advances (r.perform now op).clock) := by
  refine ⟨fun declines => ?_, fun done => ?_, fun going => advances_perform going now op⟩
  · cases r.answered_perform now op with
    | declined declines only moved => exact only
    | removed done id only => simp [declines] at done
    | wrote done t writes put only => simp [declines] at done
  · cases r.answered_perform now op with
    | declined declines only moved => simp [declines] at done
    | removed done id only => exact .inl ⟨id, congrArg Replica.store only⟩
    | wrote done t writes put only => exact .inr ⟨t, writes, put⟩

/-- The index lists another name for an entry that is not stored. The rename that asks for that name
finds it free, and fails when the renamed entry is put back. -/
theorem perform_of_declines_listed :
    let named (s : String) : DistinguishedName := ⟨[⟨"cn", s⟩, ⟨"o", "test"⟩]⟩
    let e : Entry := ⟨named "a", .uniform 0, .empty⟩
    let names := Table.empty.insert (named "a").folded (EntryId.uniform 0)
    let store : Store :=
      ⟨Table.empty.insert (.uniform 0) e, names.insert (named "b").folded (.uniform 9)⟩
    let r := make 1 ⟨[⟨"o", "test"⟩]⟩ ⟨[]⟩ none store
    let op : Operation := .replay ⟨⟨5, 0, 2⟩, named "a", .uniform 0,
      .rename ⟨"cn", "b"⟩ true none none⟩
    (r.replay 10 ⟨⟨5, 0, 2⟩, named "a", .uniform 0, .rename ⟨"cn", "b"⟩ true none none⟩).1 =
        .error (.nameInUse ⟨named "b"⟩) ∧
      r.perform 10 op = { r with clock := (r.perform 10 op).clock } ∧
      (r.perform 10 op).clock = ⟨1, 5, 0⟩ := by
  intro named e names store r op
  exact ⟨by decide +kernel, (perform_of_declines r 10 op).1 (by decide +kernel), by decide +kernel⟩

end DirectoryHistory.Replica
