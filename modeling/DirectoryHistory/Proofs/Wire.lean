import DirectoryHistory.Wire
import Mathlib.Data.Option.Basic
import Mathlib.Tactic.Ring

/-!
# Reading what was written on the wire

A reader reads a value from the octets that the value was written as, whatever follows them, and
leaves what follows. Numbers are read up to the greatest that their reader has room for. So that the
length of a list or a string is such a number, all that was written has to fit into memory.
-/

namespace DirectoryHistory.Wire

variable {α β : Type} {r : Reader α} {o o' : Octets} {a : α} {b : β}

/-- Octets that fit into memory are taken off the front of the input and read as `a`. -/
def Reads (r : Reader α) (o : Octets) (a : α) : Prop :=
  o.length < 2 ^ 64 → ∀ rest, r (o ++ rest) = .ok (a, rest)

namespace Reads

theorem of_eq (h : Reads r o a) (same : o' = o) : Reads r o' a :=
  same ▸ h

theorem pure (a : α) : Reads (Pure.pure a) [] a :=
  fun _ _ => rfl

/-- What is written one after the other is read one after the other. -/
theorem bind {f : α → Reader β} (first : Reads r o a) (second : Reads (f a) o' b) :
    Reads (r >>= f) (o ++ o') b := by
  intro fits rest
  rw [List.length_append] at fits
  have front := first (by omega) (o' ++ rest)
  rw [List.append_assoc]
  change (do let p ← r (o ++ (o' ++ rest)); f p.1 p.2) = _
  rw [front]
  exact second (by omega) rest

theorem andThen {f : α → Reader β} (first : Reads r o a) (second : Reads (f a) [] b) :
    Reads (r >>= f) o b :=
  (first.bind second).of_eq (List.append_nil o).symm

theorem map {f : α → β} (h : Reads r o a) (value : f a = b) : Reads (f <$> r) o b := by
  rw [map_eq_pure_bind, ← value]
  exact h.andThen (pure (f a))

end Reads

theorem reads_octet (x : UInt8) : Reads readOctet [x] x :=
  fun _ _ => rfl

theorem reads_octets (o : Octets) : Reads (readOctets o.length) o o := by
  intro _ rest
  simp [readOctets]

theorem number_ne_nil (n : Nat) : number n ≠ [] := by
  rw [number]
  split <;> simp

/-- Every octet but the last holds seven bits, and the one in the last place is at most `last`. -/
theorem reads_number {last : Nat} (small : last < 0x80) {left n : Nat}
    (bound : n < (last + 1) * 0x80 ^ left) (scale sum : Nat) :
    Reads (readNumberFrom last (left + 1) scale sum) (number n) (sum + n * scale) := by
  have final {left n : Nat} (ends : n < 0x80) (allowed : ¬(left = 0 ∧ last < n)) (scale sum : Nat) :
      Reads (readNumberFrom last (left + 1) scale sum) (number n) (sum + n * scale) := by
    have octet : (UInt8.ofNat n).toNat = n := by simp; omega
    rw [number, if_pos ends, readNumberFrom]
    refine (reads_octet _).andThen ?_
    rw [octet, if_pos ends, if_neg allowed, Nat.mod_eq_of_lt ends]
    exact .pure _
  induction left generalizing n scale sum with
  | zero => exact final (by omega) (by omega) scale sum
  | succ left ih =>
    by_cases ends : n < 0x80
    · exact final ends (by omega) scale sum
    · have octet : (UInt8.ofNat (0x80 + n % 0x80)).toNat = 0x80 + n % 0x80 := by simp; omega
      have rest : n / 0x80 < (last + 1) * 0x80 ^ left := by
        rw [Nat.div_lt_iff_lt_mul (by decide), mul_assoc, ← pow_succ]
        exact bound
      rw [number, if_neg ends, readNumberFrom]
      refine (reads_octet _).bind ?_
      rw [octet, if_neg (by omega), Nat.add_mod_left, Nat.mod_mod]
      have value : sum + n % 0x80 * scale + n / 0x80 * (scale * 0x80) = sum + n * scale := by
        conv_rhs => rw [← Nat.mod_add_div n 0x80]
        ring
      exact value ▸ ih rest (scale * 0x80) (sum + n % 0x80 * scale)

theorem reads_whole_number {last : Nat} (small : last < 0x80) {left n : Nat}
    (bound : n < (last + 1) * 0x80 ^ left) :
    Reads (readNumberFrom last (left + 1) 1 0) (number n) n := by
  simpa using reads_number small bound 1 0

theorem reads_uInt16 (n : UInt16) : Reads readUInt16 (number n.toNat) n :=
  (reads_whole_number (by decide) n.toNat_lt).map UInt16.ofNat_toNat

theorem reads_uInt32 (n : UInt32) : Reads readUInt32 (number n.toNat) n :=
  (reads_whole_number (by decide) n.toNat_lt).map UInt32.ofNat_toNat

theorem reads_uInt64 (n : UInt64) : Reads readUInt64 (number n.toNat) n :=
  (reads_whole_number (by decide) n.toNat_lt).map UInt64.ofNat_toNat

theorem reads_size {n : Nat} (bound : n < 2 ^ 64) : Reads readSize (number n) n :=
  reads_whole_number (by decide) bound

theorem reads_bytes (o : Octets) : Reads readBytes (bytes o) o := by
  intro fits
  have bound : o.length < 2 ^ 64 := by
    rw [bytes, List.length_append] at fits
    omega
  exact ((reads_size bound).bind (reads_octets o)) fits

theorem reads_string (s : String) : Reads readString (string s) s := by
  refine (reads_bytes _).andThen ?_
  rw [Octets.text?_ofText]
  exact .pure s

theorem reads_bool (b : Bool) : Reads readBool (bool b) b := by
  cases b <;> exact (reads_octet _).andThen (.pure _)

theorem reads_option {r : Reader β} {item : α → Octets} {x : Option α} {y : Option β}
    (h : Option.Rel (fun a b => Reads r (item a) b) x y) : Reads (readOption r) (option item x) y := by
  cases h with
  | none => exact (reads_octet 0).andThen (.pure none)
  | some h => exact (reads_octet 1).bind (h.andThen (.pure _))

theorem reads_times {item : α → Octets} {l : List α} (h : ∀ a ∈ l, Reads r (item a) a) :
    Reads (readTimes r l.length) (l.flatMap item) l := by
  induction l with
  | nil => exact .pure []
  | cons a l ih =>
    have rest := ih fun b hb => h b (.tail _ hb)
    exact (h a (.head _)).bind (rest.andThen (.pure _))

theorem length_le_length_flatMap {item : α → Octets} (nonempty : ∀ a, item a ≠ []) (l : List α) :
    l.length ≤ (l.flatMap item).length := by
  induction l with
  | nil => exact Nat.zero_le _
  | cons a l ih =>
    have := List.length_pos_iff.mpr (nonempty a)
    rw [List.flatMap_cons, List.length_append, List.length_cons]
    omega

theorem reads_list {item : α → Octets} {l : List α} (nonempty : ∀ a, item a ≠ [])
    (h : ∀ a ∈ l, Reads r (item a) a) : Reads (readList r) (list item l) l := by
  intro fits
  have bound : l.length < 2 ^ 64 := by
    have := length_le_length_flatMap nonempty l
    rw [list, List.length_append] at fits
    omega
  exact ((reads_size bound).bind (reads_times h)) fits

theorem reads_via {ε : Type} {parse : String → Except ε α} {s : String} (h : parse s = .ok a) :
    Reads (readVia parse) (string s) a := by
  refine (reads_string s).andThen ?_
  rw [h]
  exact .pure a

end DirectoryHistory.Wire
