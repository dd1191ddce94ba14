import DirectoryHistory.Proofs.Stamp.Order
import DirectoryHistory.Stamp.Clock

/-!
# Clocks only move forward

What a clock has issued or witnessed stays covered by it, and the next stamp lies above all that is
covered, unless the clock stands at the end of time.
-/

namespace DirectoryHistory.Clock

/-- The time and the sequence number of `s` are not ahead of the clock. -/
def Covers (c : Clock) (s : Stamp) : Prop :=
  s.time < c.time ∨ s.time = c.time ∧ s.sequence ≤ c.sequence

/-- The clock has no next stamp. -/
def IsExhausted (c : Clock) : Prop :=
  c.time.toNat + 1 = UInt64.size ∧ c.sequence.toNat + 1 = UInt32.size

instance (c : Clock) (s : Stamp) : Decidable (c.Covers s) :=
  inferInstanceAs (Decidable (_ ∨ _))

instance (c : Clock) : Decidable c.IsExhausted :=
  inferInstanceAs (Decidable (_ ∧ _))

@[simp] theorem replica_tick (c : Clock) (now : UInt64) : (c.tick now).replica = c.replica := by
  simp only [tick]
  split
  · rfl
  · split <;> rfl

@[simp] theorem replica_witness (c : Clock) (s : Stamp) : (c.witness s).replica = c.replica := by
  simp only [witness]
  split <;> rfl

theorem covers_stamp (c : Clock) : c.Covers c.stamp :=
  .inr ⟨rfl, UInt32.le_refl _⟩

theorem covers_of_lt_stamp {c : Clock} {s : Stamp} (h : s < c.stamp) : c.Covers s := by
  rcases Stamp.lt_iff.mp h with h | ⟨ht, h | ⟨hs, -⟩⟩
  · exact .inl h
  · exact .inr ⟨ht, UInt32.le_of_lt h⟩
  · exact .inr ⟨ht, hs ▸ UInt32.le_refl _⟩

/-- Where a tick leads: to the wall clock if that is ahead, and otherwise one step on, which carries
into the time when the sequence numbers of that time are used up. -/
theorem tick_cases {c : Clock} (going : ¬c.IsExhausted) (now : UInt64) :
    c.time.toNat < now.toNat ∧ (c.tick now).time = now ∧ (c.tick now).sequence = 0 ∨
      now.toNat ≤ c.time.toNat ∧ (c.tick now).time = c.time ∧
        (c.tick now).sequence.toNat = c.sequence.toNat + 1 ∨
      now.toNat ≤ c.time.toNat ∧ c.sequence.toNat + 1 = UInt32.size ∧
        (c.tick now).time.toNat = c.time.toNat + 1 ∧ (c.tick now).sequence = 0 := by
  have htime := c.time.toNat_lt
  have hsequence := c.sequence.toNat_lt
  simp only [IsExhausted, UInt64.size, UInt32.size] at going
  rw [tick]
  split
  · next ahead => exact .inl ⟨UInt64.lt_iff_toNat_lt.mp ahead, rfl, rfl⟩
  · next behind =>
    have behind := Nat.not_lt.mp (mt UInt64.lt_iff_toNat_lt.mpr behind)
    split
    · next room =>
      have next : (c.sequence + 1).toNat = c.sequence.toNat + 1 := by
        rw [UInt32.toNat_add, UInt32.toNat_one, Nat.mod_eq_of_lt room]
      exact .inr (.inl ⟨behind, rfl, next⟩)
    · next full =>
      simp only [UInt32.size] at full
      have next : (c.time + 1).toNat = c.time.toNat + 1 := by
        rw [UInt64.toNat_add, UInt64.toNat_one, Nat.mod_eq_of_lt (by omega)]
      exact .inr (.inr ⟨behind, by simp only [UInt32.size]; omega, next, rfl⟩)

/-- The next stamp lies above all that the clock covers. -/
theorem Covers.lt_stamp_tick {c : Clock} {s : Stamp} (h : c.Covers s) (going : ¬c.IsExhausted)
    (now : UInt64) : s < (c.tick now).stamp := by
  simp only [Covers, UInt64.lt_iff_toNat_lt, ← UInt64.toNat_inj, UInt32.le_iff_toNat_le] at h
  simp only [Stamp.lt_iff, stamp, UInt64.lt_iff_toNat_lt, ← UInt64.toNat_inj,
    UInt32.lt_iff_toNat_lt]
  rcases tick_cases going now with ⟨ahead, time, -⟩ | ⟨-, time, sequence⟩ | ⟨-, -, time, -⟩
  · rw [time]
    omega
  · rw [time]
    omega
  · omega

theorem le_time_tick {c : Clock} (going : ¬c.IsExhausted) (now : UInt64) :
    now ≤ (c.tick now).time := by
  rw [UInt64.le_iff_toNat_le]
  rcases tick_cases going now with ⟨-, time, -⟩ | ⟨behind, time, -⟩ | ⟨behind, -, time, -⟩
  · rw [time]
  · rwa [time]
  · omega

theorem Covers.tick {c : Clock} {s : Stamp} (h : c.Covers s) (going : ¬c.IsExhausted)
    (now : UInt64) : (c.tick now).Covers s :=
  covers_of_lt_stamp (h.lt_stamp_tick going now)

theorem Covers.witness {c : Clock} {s : Stamp} (h : c.Covers s) (seen : Stamp) :
    (c.witness seen).Covers s := by
  simp only [Covers, Clock.witness, UInt64.lt_iff_toNat_lt, ← UInt64.toNat_inj,
    UInt32.le_iff_toNat_le, UInt32.lt_iff_toNat_lt] at *
  split
  · dsimp only
    omega
  · exact h

theorem covers_witness (c : Clock) (seen : Stamp) : (c.witness seen).Covers seen := by
  simp only [Covers, Clock.witness, UInt64.lt_iff_toNat_lt, ← UInt64.toNat_inj,
    UInt32.le_iff_toNat_le, UInt32.lt_iff_toNat_lt]
  split
  · exact .inr ⟨rfl, Nat.le_refl _⟩
  · omega

/-- The clock is one of the same replica and covers all that `c` covers. -/
structure Advances (c c' : Clock) : Prop where
  replica : c'.replica = c.replica
  covers : ∀ s, c.Covers s → c'.Covers s

theorem advances_refl (c : Clock) : c.Advances c :=
  ⟨rfl, fun _ hs => hs⟩

theorem Advances.trans {c c' c'' : Clock} (h : c.Advances c') (h' : c'.Advances c'') :
    c.Advances c'' :=
  ⟨h'.replica.trans h.replica, fun s hs => h'.covers s (h.covers s hs)⟩

theorem advances_tick {c : Clock} (going : ¬c.IsExhausted) (now : UInt64) :
    c.Advances (c.tick now) :=
  ⟨c.replica_tick now, fun _ hs => hs.tick going now⟩

theorem advances_witness (c : Clock) (seen : Stamp) : c.Advances (c.witness seen) :=
  ⟨c.replica_witness seen, fun _ hs => hs.witness seen⟩

end DirectoryHistory.Clock
