import DirectoryHistory.Proofs.Text.Ascii
import DirectoryHistory.Text.Base64

/-!
# Reading base 64 back

Every string of octets is read back from its base 64 text. The text falls into quads, each of which
gives back its three octets; only the last quad may be padded.
-/

namespace DirectoryHistory.Text.Base64

theorem symbol_lt {n : Nat} (h : n < 64) : (symbol n).toNat < 128 := by
  have all : ∀ m ∈ List.range 64, (symbol m).toNat < 128 := by decide
  exact all n (List.mem_range.mpr h)

theorem symbol_ne_pad {n : Nat} (h : n < 64) : symbol n ≠ pad := by
  have all : ∀ m ∈ List.range 64, symbol m ≠ pad := by decide
  exact all n (List.mem_range.mpr h)

theorem encode_lt (v : Octets) : ∀ b ∈ encode v, b.toNat < 128 := by
  have pad_lt : pad.toNat < 128 := by decide
  fun_induction encode v with
  | case1 => simp
  | case2 a =>
    have ha := a.toNat_lt
    simp only [List.mem_cons, List.not_mem_nil, or_false, forall_eq_or_imp, forall_eq]
    exact ⟨symbol_lt (by omega), symbol_lt (by omega), pad_lt, pad_lt⟩
  | case3 a b =>
    have ha := a.toNat_lt
    have hb := b.toNat_lt
    simp only [List.mem_cons, List.not_mem_nil, or_false, forall_eq_or_imp, forall_eq]
    exact ⟨symbol_lt (by omega), symbol_lt (by omega), symbol_lt (by omega), pad_lt⟩
  | case4 a b c rest ih =>
    have ha := a.toNat_lt
    have hb := b.toNat_lt
    have hc := c.toNat_lt
    simp only [List.mem_cons, forall_eq_or_imp]
    exact ⟨symbol_lt (by omega), symbol_lt (by omega), symbol_lt (by omega),
      symbol_lt (by omega), ih⟩

theorem length_encode_mod (v : Octets) : (encode v).length % 4 = 0 := by
  fun_induction encode v with
  | case1 => rfl
  | case2 => simp
  | case3 => simp
  | case4 a b c rest ih =>
    simp only [List.length_cons]
    omega

theorem values_symbols (start : Nat) {ns : List Nat} (h : ∀ n ∈ ns, n < 64) :
    values start (ns.map symbol) = .ok ns := by
  induction ns generalizing start with
  | nil => rfl
  | cons n ns ih =>
    rw [List.map_cons, values, value?_symbol (h n (.head _)),
      ih _ fun m hm => h m (.tail _ hm)]
    rfl

theorem scanLast_pads (start seen : Nat) (hs : 2 ≤ seen) (firstPad : Option Nat) (pads : Nat) :
    scanLast start seen firstPad (List.replicate pads pad) = .ok ([], pads) := by
  induction pads generalizing seen firstPad with
  | zero => rfl
  | succ pads ih =>
    have rest := ih (seen + 1) (by omega) (firstPad.or (some seen))
    rw [List.replicate_succ]
    unfold scanLast
    rw [if_pos rfl, if_neg (by omega), rest]
    rfl

theorem scanLast_symbols (start seen : Nat) {ns : List Nat} (h : ∀ n ∈ ns, n < 64) (pads : Nat)
    (hs : 2 ≤ seen + ns.length) :
    scanLast start seen none (ns.map symbol ++ List.replicate pads pad) =
      .ok (ns.map symbol, pads) := by
  induction ns generalizing seen with
  | nil => exact scanLast_pads start seen (by simpa using hs) none pads
  | cons n ns ih =>
    have hn := h n (.head _)
    have rest := ih (seen + 1) (fun m hm => h m (.tail _ hm))
      (by simp only [List.length_cons] at hs; omega)
    rw [List.map_cons, List.cons_append, scanLast, if_neg (symbol_ne_pad hn)]
    simp only [value?_symbol hn, rest]
    rfl

theorem octet_first (a b : UInt8) :
    UInt8.ofNat (a.toNat / 4 * 4 + (a.toNat % 4 * 16 + b.toNat / 16) / 16) = a := by
  have hb := b.toNat_lt
  have : a.toNat / 4 * 4 + (a.toNat % 4 * 16 + b.toNat / 16) / 16 = a.toNat := by omega
  rw [this, UInt8.ofNat_toNat]

theorem octet_second (a b c : UInt8) :
    UInt8.ofNat ((a.toNat % 4 * 16 + b.toNat / 16) % 16 * 16 +
      (b.toNat % 16 * 4 + c.toNat / 64) / 4) = b := by
  have hb := b.toNat_lt
  have hc := c.toNat_lt
  have : (a.toNat % 4 * 16 + b.toNat / 16) % 16 * 16 +
      (b.toNat % 16 * 4 + c.toNat / 64) / 4 = b.toNat := by omega
  rw [this, UInt8.ofNat_toNat]

theorem octet_third (b c : UInt8) :
    UInt8.ofNat ((b.toNat % 16 * 4 + c.toNat / 64) % 4 * 64 + c.toNat % 64) = c := by
  have hc := c.toNat_lt
  have : (b.toNat % 16 * 4 + c.toNat / 64) % 4 * 64 + c.toNat % 64 = c.toNat := by omega
  rw [this, UInt8.ofNat_toNat]

/-- The values of the symbols of three octets. -/
def quad (a b c : UInt8) : List Nat :=
  [a.toNat / 4, a.toNat % 4 * 16 + b.toNat / 16, b.toNat % 16 * 4 + c.toNat / 64, c.toNat % 64]

theorem quad_lt (a b c : UInt8) : ∀ n ∈ quad a b c, n < 64 := by
  have ha := a.toNat_lt
  have hb := b.toNat_lt
  have hc := c.toNat_lt
  simp only [quad, List.mem_cons, List.not_mem_nil, or_false, forall_eq_or_imp, forall_eq]
  omega

theorem octetsOfQuad_quad (a b c : UInt8) : octetsOfQuad (quad a b c) = [a, b, c] := by
  simp only [quad, octetsOfQuad, octet_first, octet_second, octet_third]

theorem scanLast_encoded (start : Nat) {ns : List Nat} (h : ∀ n ∈ ns, n < 64) (pads : Nat)
    (hs : 2 ≤ ns.length) : scanLast start 0 none (ns.map symbol ++ List.replicate pads pad) =
      .ok (ns.map symbol, pads) :=
  scanLast_symbols start 0 h pads (by omega)

theorem decodeLast_full (start : Nat) (a b c : UInt8) :
    decodeLast start ((quad a b c).map symbol) = .ok [a, b, c] := by
  have scan := scanLast_encoded start (quad_lt a b c) 0 (by simp [quad])
  have numbers := values_symbols start (quad_lt a b c)
  have octets := octetsOfQuad_quad a b c
  rw [List.replicate_zero, List.append_nil] at scan
  simp only [decodeLast, scan, numbers, bind, Except.bind]
  simpa [quad, pure, Except.pure] using octets

theorem decodeLast_one (start : Nat) (a : UInt8) :
    decodeLast start (encode [a]) = .ok [a] := by
  have ha := a.toNat_lt
  have small : ∀ n ∈ [a.toNat / 4, a.toNat % 4 * 16], n < 64 := by
    simp only [List.mem_cons, List.not_mem_nil, or_false, forall_eq_or_imp, forall_eq]
    omega
  have scan := scanLast_encoded start small 2 (by simp)
  have numbers := values_symbols start small
  have octet : a.toNat / 4 * 4 + a.toNat % 4 = a.toNat := by omega
  have rest : a.toNat % 4 * 16 % 16 = 0 := by omega
  simp only [List.map_cons, List.map_nil, List.cons_append, List.nil_append,
    List.replicate] at scan numbers
  simp [decodeLast, encode, scan, numbers, bind, Except.bind, pure, Except.pure, leftOver, octet,
    rest, -UInt8.ofNat_add]

theorem decodeLast_two (start : Nat) (a b : UInt8) :
    decodeLast start (encode [a, b]) = .ok [a, b] := by
  have ha := a.toNat_lt
  have hb := b.toNat_lt
  have small : ∀ n ∈ [a.toNat / 4, a.toNat % 4 * 16 + b.toNat / 16, b.toNat % 16 * 4],
      n < 64 := by
    simp only [List.mem_cons, List.not_mem_nil, or_false, forall_eq_or_imp, forall_eq]
    omega
  have scan := scanLast_encoded start small 1 (by simp)
  have numbers := values_symbols start small
  have first := octet_first a b
  have second : b.toNat / 16 % 16 * 16 + b.toNat % 16 = b.toNat := by omega
  have rest : b.toNat % 16 * 4 % 4 = 0 := by omega
  simp only [List.map_cons, List.map_nil, List.cons_append, List.nil_append,
    List.replicate] at scan numbers
  simp [decodeLast, encode, scan, numbers, bind, Except.bind, pure, Except.pure, leftOver, first,
    second, rest, -UInt8.ofNat_add]

theorem eq_nil_of_encode {v : Octets} (h : encode v = []) : v = [] := by
  cases v with
  | nil => rfl
  | cons a rest =>
    cases rest with
    | nil => simp [encode] at h
    | cons b rest => cases rest <;> simp [encode] at h

theorem decodeFrom_encode (start : Nat) (v : Octets) : decodeFrom start (encode v) = .ok v := by
  fun_induction encode v generalizing start with
  | case1 => rfl
  | case2 a => exact decodeLast_one start a
  | case3 a b => exact decodeLast_two start a b
  | case4 a b c rest ih =>
    cases hr : encode rest with
    | nil =>
      obtain rfl := eq_nil_of_encode hr
      exact decodeLast_full start a b c
    | cons e more =>
      have numbers := values_symbols start (quad_lt a b c)
      have octets := octetsOfQuad_quad a b c
      have behind := ih (start + 4)
      simp only [quad, List.map_cons, List.map_nil] at numbers octets
      rw [hr] at behind
      simp only [decodeFrom, numbers, behind, octets, bind, Except.bind, pure, Except.pure]
      rfl

/-- Every string of octets is read back from its base 64 text. -/
theorem decode_encode (v : Octets) : decode (encode v) = .ok v := by
  have size := length_encode_mod v
  rw [decode]
  split
  · rw [if_neg (by omega)]
    exact decodeFrom_encode 0 v
  · next h =>
    rw [eq_nil_of_encode (List.getLast?_eq_none_iff.mp h)]

end DirectoryHistory.Text.Base64
