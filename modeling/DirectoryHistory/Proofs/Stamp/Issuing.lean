import DirectoryHistory.Proofs.Stamp.Clock
import Mathlib.Data.List.Infix

/-!
# Runs of a clock

A clock is asked for stamps while the wall clock moves forwards or backwards, and is shown stamps of
other replicas in between. Whatever happens, it covers all that it has issued and witnessed, and
every stamp that it issues is newer than all of that and not behind the wall clock.
-/

namespace DirectoryHistory.Clock

/-- A clock is asked for a stamp while the wall clock reads `now`, or shown a stamp from elsewhere.
-/
inductive Event where
  | issue (now : UInt64)
  | witness (seen : Stamp)
  deriving DecidableEq, Repr

def after (c : Clock) : Event → Clock
  | .issue now => c.tick now
  | .witness seen => c.witness seen

def stampAt (c : Clock) : Event → Stamp
  | .issue now => (c.tick now).stamp
  | .witness seen => seen

/-- All stamps of a run, in the order in which the clock issued and witnessed them. -/
def stampsOf (c : Clock) : List Event → List Stamp
  | [] => []
  | e :: rest => c.stampAt e :: (c.after e).stampsOf rest

/-- The time and the sequence number of the clock in one number. -/
def position (c : Clock) : Nat :=
  c.time.toNat * UInt32.size + c.sequence.toNat

variable {c : Clock} {run : List Event}

theorem covers_after (c : Clock) (e : Event) : (c.after e).Covers (c.stampAt e) := by
  cases e with
  | issue now => exact covers_stamp _
  | witness seen => exact c.covers_witness seen

theorem advances_after (going : ¬c.IsExhausted) (e : Event) : c.Advances (c.after e) := by
  cases e with
  | issue now => exact advances_tick going now
  | witness seen => exact c.advances_witness seen

/-- A run that does not reach the end of time starts below it and goes on without reaching it. -/
theorem going_cons {e : Event}
    (going : ∀ before, before <+: e :: run → ¬(before.foldl after c).IsExhausted) :
    ¬c.IsExhausted ∧ ∀ before, before <+: run → ¬(before.foldl after (c.after e)).IsExhausted :=
  ⟨going [] (List.nil_prefix ..), fun before part =>
    going (e :: before) (List.cons_prefix_cons.mpr ⟨rfl, part⟩)⟩

theorem advances_foldl_after
    (going : ∀ before, before <+: run → ¬(before.foldl after c).IsExhausted) :
    c.Advances (run.foldl after c) := by
  induction run generalizing c with
  | nil => exact advances_refl c
  | cons e rest ih =>
    obtain ⟨first, later⟩ := going_cons going
    exact (advances_after first e).trans (ih later)

theorem covers_foldl_after
    (going : ∀ before, before <+: run → ¬(before.foldl after c).IsExhausted) :
    ∀ s ∈ c.stampsOf run, (run.foldl after c).Covers s := by
  induction run generalizing c with
  | nil => simp [stampsOf]
  | cons e rest ih =>
    obtain ⟨first, later⟩ := going_cons going
    intro s hs
    rcases List.mem_cons.mp hs with rfl | hs
    · exact (advances_foldl_after later).covers _ (covers_after c e)
    · exact ih later s hs

/-- A tick goes one step on, or up to the wall clock if that is further. -/
theorem position_tick (going : ¬c.IsExhausted) (now : UInt64) :
    (c.tick now).position = max (c.position + 1) (now.toNat * UInt32.size) := by
  have hsequence := c.sequence.toNat_lt
  simp only [position, UInt32.size]
  rcases tick_cases going now with
    ⟨ahead, time, sequence⟩ | ⟨behind, time, sequence⟩ | ⟨behind, full, time, sequence⟩
  · rw [time, sequence, UInt32.toNat_zero]
    omega
  · rw [time, sequence]
    omega
  · rw [UInt32.size] at full
    rw [time, sequence, UInt32.toNat_zero]
    omega

/-- A clock may have been asked for stamps and shown others in any order, the wall clock going
forwards or backwards, as long as it does not stand at the last time and sequence number. The stamp
that it issues next is newer than all that it has issued or witnessed and is not behind the wall
clock. Time and sequence number go one step on, or up to the wall clock if that is further: where
the sequence numbers of a time are used up, the next time begins. -/
theorem lt_stamp_of_stampsOf (c : Clock) {past : List Event}
    (going : ∀ before, before <+: past → ¬(before.foldl after c).IsExhausted) (now : UInt64) :
    let reached := past.foldl after c
    let issued := (reached.tick now).stamp
    (∀ s ∈ c.stampsOf past, s < issued) ∧ issued.replica = c.replica ∧ now ≤ issued.time ∧
      (reached.tick now).position = max (reached.position + 1) (now.toNat * UInt32.size) ∧
      (now ≤ reached.time → reached.sequence.toNat + 1 = UInt32.size →
        issued.time.toNat = reached.time.toNat + 1 ∧ issued.sequence = 0) := by
  intro reached issued
  have here : ¬reached.IsExhausted := going past (List.prefix_refl past)
  refine ⟨fun s hs => (covers_foldl_after going s hs).lt_stamp_tick here now, ?_,
    le_time_tick here now, position_tick here now, fun behind full => ?_⟩
  · exact (replica_tick reached now).trans (advances_foldl_after going).replica
  · have behind := UInt64.le_iff_toNat_le.mp behind
    rcases tick_cases here now with ⟨ahead, -⟩ | ⟨-, -, sequence⟩ | ⟨-, -, time, sequence⟩
    · omega
    · have bound := (reached.tick now).sequence.toNat_lt
      rw [UInt32.size] at full
      omega
    · exact ⟨time, sequence⟩

/-- Another replica has used up the sequence numbers of time 7. The wall clock has gone back to 2
when the next stamp is issued. -/
theorem lt_stamp_of_stampsOf_carry :
    let past : List Event := [.issue 5, .issue 3, .witness ⟨7, 0xffffffff, 9⟩, .witness ⟨6, 4, 2⟩]
    (start 1).stampsOf past = [⟨5, 0, 1⟩, ⟨5, 1, 1⟩, ⟨7, 0xffffffff, 9⟩, ⟨6, 4, 2⟩] ∧
      ((past.foldl after (start 1)).tick 2).stamp = ⟨8, 0, 1⟩ ∧
      ∀ s ∈ (start 1).stampsOf past, s < ⟨8, 0, 1⟩ := by
  intro past
  have going : ∀ before ∈ past.inits, ¬(before.foldl after (start 1)).IsExhausted := by decide
  have newer := (lt_stamp_of_stampsOf (start 1)
    (fun before part => going before ((List.mem_inits _ _).mpr part)) 2).1
  exact ⟨by decide, by decide, newer⟩

end DirectoryHistory.Clock
