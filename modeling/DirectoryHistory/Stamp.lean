import DirectoryHistory.Text.Decimal
import DirectoryHistory.Text.Hex
import DirectoryHistory.Text.Quoted

/-!
# Stamps

A stamp orders every change of the topology: first by time, then by the sequence number of the
replica that made the change, then by that replica. The rank packs the three into one number, and
the order of stamps is the order of their ranks. The text form is 28 hexadecimal digits with the
replica in the middle.
-/

namespace DirectoryHistory

/-- The change sequence number of one change; the time is in milliseconds. -/
structure Stamp where
  time : UInt64
  sequence : UInt32
  replica : UInt16
  deriving DecidableEq, Repr

namespace Stamp

def rank (s : Stamp) : Nat :=
  (s.time.toNat * 0x100000000 + s.sequence.toNat) * 0x10000 + s.replica.toNat

instance : LT Stamp := ⟨fun s t => s.rank < t.rank⟩
instance : LE Stamp := ⟨fun s t => s.rank ≤ t.rank⟩

theorem lt_def {s t : Stamp} : s < t ↔ s.rank < t.rank := Iff.rfl

theorem le_def {s t : Stamp} : s ≤ t ↔ s.rank ≤ t.rank := Iff.rfl

theorem rank_inj {s t : Stamp} : s.rank = t.rank ↔ s = t := by
  constructor
  · intro h
    have hs := s.sequence.toNat_lt
    have ht := t.sequence.toNat_lt
    have hs' := s.replica.toNat_lt
    have ht' := t.replica.toNat_lt
    simp only [rank] at h
    have time : s.time = t.time := UInt64.toNat_inj.mp (by omega)
    have sequence : s.sequence = t.sequence := UInt32.toNat_inj.mp (by omega)
    have replica : s.replica = t.replica := UInt16.toNat_inj.mp (by omega)
    cases s
    cases t
    simp_all
  · rintro rfl
    rfl

theorem mul_add_lt_iff {a b c d m : Nat} (hb : b < m) (hd : d < m) :
    a * m + b < c * m + d ↔ a < c ∨ a = c ∧ b < d := by
  rcases Nat.lt_trichotomy a c with h | rfl | h
  · have := Nat.mul_le_mul_right m (Nat.succ_le_of_lt h)
    rw [Nat.succ_mul] at this
    constructor
    · exact fun _ => .inl h
    · intro _
      omega
  · omega
  · have := Nat.mul_le_mul_right m (Nat.succ_le_of_lt h)
    rw [Nat.succ_mul] at this
    constructor
    · intro _
      omega
    · omega

theorem mul_add_inj {a b c d m : Nat} (hb : b < m) (hd : d < m) :
    a * m + b = c * m + d ↔ a = c ∧ b = d := by
  have lt := mul_add_lt_iff (a := a) (c := c) hb hd
  have gt := mul_add_lt_iff (a := c) (c := a) hd hb
  omega

theorem lt_iff {s t : Stamp} : s < t ↔ s.time < t.time ∨
    s.time = t.time ∧ (s.sequence < t.sequence ∨
      s.sequence = t.sequence ∧ s.replica < t.replica) := by
  have hs := s.sequence.toNat_lt
  have ht := t.sequence.toNat_lt
  rw [lt_def, rank, rank, mul_add_lt_iff s.replica.toNat_lt t.replica.toNat_lt,
    mul_add_lt_iff hs ht, mul_add_inj hs ht, UInt64.lt_iff_toNat_lt,
    UInt32.lt_iff_toNat_lt, UInt16.lt_iff_toNat_lt, ← UInt64.toNat_inj, ← UInt32.toNat_inj,
    or_assoc, and_assoc, ← and_or_left]

/-- The parts are compared and not the ranks, whose factors are large. -/
instance : DecidableLT Stamp := fun _ _ =>
  decidable_of_iff _ lt_iff.symm

instance : DecidableLE Stamp := fun s t =>
  decidable_of_iff (¬t < s) (by simp [lt_def, le_def])

instance : Max Stamp := maxOfLe
instance : Min Stamp := minOfLe

instance : Ord Stamp :=
  ⟨compareLex (compareOn time) (compareLex (compareOn sequence) (compareOn replica))⟩

instance : Std.TransOrd Stamp :=
  inferInstanceAs (Std.TransCmp
    (compareLex (compareOn time) (compareLex (compareOn sequence) (compareOn replica))))

instance : Std.LawfulEqOrd Stamp where
  eq_of_compare {s t} h := by
    have h : (compare s.time t.time).then ((compare s.sequence t.sequence).then
      (compare s.replica t.replica)) = .eq := h
    rw [Ordering.then_eq_eq, Ordering.then_eq_eq] at h
    cases s
    cases t
    simp_all

/-- The least stamp at `time`. Every stamp of an earlier time lies below it. -/
def floorAt (time : UInt64) : Stamp :=
  ⟨time, 0, 0⟩

def newest (s t : Option Stamp) : Option Stamp :=
  s.merge max t

def oldest (s t : Option Stamp) : Option Stamp :=
  s.merge min t

/-- Whether no stamp is given or the given one lies below `s`. -/
def passes (s : Stamp) (bar : Option Stamp) : Bool :=
  bar.all (· < s)

def text (s : Stamp) : String :=
  String.ofList (Text.fixedHex 16 s.time.toNat ++ Text.fixedHex 4 s.replica.toNat ++
    Text.fixedHex 8 s.sequence.toNat)

/-- What is wrong with a text that is no stamp. -/
inductive Flaw where
  | size
  | digit
  deriving DecidableEq, Repr

def Flaw.reason : Flaw → String
  | .size => "expected 28 hex digits"
  | .digit => "non-hex character"

/-- The rejected text and its flaw. -/
structure Malformed where
  input : String
  flaw : Flaw
  deriving DecidableEq, Repr

def Malformed.message (e : Malformed) : String :=
  "invalid CSN " ++ Text.quoted e.input ++ ": " ++ e.flaw.reason

/-- The size is judged in octets, before any digit is looked at. -/
def parse (s : String) : Except Malformed Stamp :=
  if s.utf8ByteSize ≠ 28 then .error ⟨s, .size⟩
  else
    let cs := s.toList
    match Text.readHex? (cs.take 16), Text.readHex? ((cs.drop 16).take 4),
        Text.readHex? (cs.drop 20) with
    | some time, some replica, some sequence =>
      .ok ⟨UInt64.ofNat time, UInt32.ofNat sequence, UInt16.ofNat replica⟩
    | _, _, _ => .error ⟨s, .digit⟩

end Stamp

end DirectoryHistory
