import DirectoryHistory.Octets
import DirectoryHistory.Text.Decimal

/-!
# Base 64

The standard alphabet with padding. Reading is strict: the text falls into quads, padding stands
only at the end of the last one and is complete, and the bits that the padding cuts off are zero.
A fault says what the first violation is and at which offset in the text it lies.
-/

namespace DirectoryHistory.Text.Base64

/-- Why a text is no base 64. -/
inductive Fault where
  | symbol (octet : UInt8) (offset : Nat)
  | lastSymbol (octet : UInt8) (offset : Nat)
  | length (size : Nat)
  | padding
  deriving DecidableEq, Repr

def Fault.message : Fault → String
  | .symbol octet offset =>
    "Invalid symbol " ++ decimal octet.toNat ++ ", offset " ++ decimal offset ++ "."
  | .lastSymbol octet offset =>
    "Invalid last symbol " ++ decimal octet.toNat ++ ", offset " ++ decimal offset ++ "."
  | .length size => "Invalid input length: " ++ decimal size
  | .padding => "Invalid padding"

def pad : UInt8 := 0x3d

def symbol (n : Nat) : UInt8 :=
  if n < 26 then UInt8.ofNat (0x41 + n)
  else if n < 52 then UInt8.ofNat (0x61 + n - 26)
  else if n < 62 then UInt8.ofNat (0x30 + n - 52)
  else if n = 62 then 0x2b
  else 0x2f

def value? (b : UInt8) : Option Nat :=
  if 0x41 ≤ b ∧ b ≤ 0x5a then some (b.toNat - 0x41)
  else if 0x61 ≤ b ∧ b ≤ 0x7a then some (b.toNat - 0x61 + 26)
  else if 0x30 ≤ b ∧ b ≤ 0x39 then some (b.toNat - 0x30 + 52)
  else if b = 0x2b then some 62
  else if b = 0x2f then some 63
  else none

theorem value?_symbol {n : Nat} (h : n < 64) : value? (symbol n) = some n := by
  have all : ∀ m ∈ List.range 64, value? (symbol m) = some m := by decide
  exact all n (List.mem_range.mpr h)

def encode : Octets → Octets
  | [] => []
  | [a] => [symbol (a.toNat / 4), symbol (a.toNat % 4 * 16), pad, pad]
  | [a, b] =>
    [symbol (a.toNat / 4), symbol (a.toNat % 4 * 16 + b.toNat / 16),
      symbol (b.toNat % 16 * 4), pad]
  | a :: b :: c :: rest =>
    symbol (a.toNat / 4) :: symbol (a.toNat % 4 * 16 + b.toNat / 16) ::
      symbol (b.toNat % 16 * 4 + c.toNat / 64) :: symbol (c.toNat % 64) :: encode rest

def values (offset : Nat) : Octets → Except Fault (List Nat)
  | [] => .ok []
  | b :: rest =>
    match value? b with
    | none => .error (.symbol b offset)
    | some v => (values (offset + 1) rest).map (v :: ·)

def octetsOfQuad : List Nat → Octets
  | [p, q, r, s] =>
    [UInt8.ofNat (p * 4 + q / 16), UInt8.ofNat (q % 16 * 16 + r / 4),
      UInt8.ofNat (r % 4 * 64 + s)]
  | _ => []

/-- The symbols of the last quad and the number of padding signs behind them. `seen` counts the
octets before `rest`, and `firstPad` is where the padding began. -/
def scanLast (start seen : Nat) (firstPad : Option Nat) : Octets → Except Fault (Octets × Nat)
  | [] => .ok ([], 0)
  | b :: rest =>
    if b = pad then
      if seen < 2 then .error (.symbol b (start + seen))
      else (scanLast start (seen + 1) (firstPad.or (some seen)) rest).map
        fun (symbols, pads) => (symbols, pads + 1)
    else
      match firstPad with
      | some k => .error (.symbol pad (start + k))
      | none =>
        match value? b with
        | none => .error (.symbol b (start + seen))
        | some _ => (scanLast start (seen + 1) none rest).map
          fun (symbols, pads) => (b :: symbols, pads)

/-- The last symbol when the bits it leaves over are not zero. -/
def leftOver (start : Nat) (symbols : Octets) (left : Nat) : Except Fault Unit :=
  if left = 0 then .ok ()
  else .error (.lastSymbol (symbols.getLastD 0) (start + symbols.length - 1))

/-- Reads the last quad, which lies at `start` and may be partial. -/
def decodeLast (start : Nat) (quad : Octets) : Except Fault Octets := do
  let (symbols, pads) ← scanLast start 0 none quad
  if quad ≠ [] ∧ symbols.length < 2 then throw (.length (start + symbols.length))
  if (symbols.length + pads) % 4 ≠ 0 then throw .padding
  match ← values start symbols with
  | [p, q] =>
    leftOver start symbols (q % 16)
    return [UInt8.ofNat (p * 4 + q / 16)]
  | [p, q, r] =>
    leftOver start symbols (r % 4)
    return [UInt8.ofNat (p * 4 + q / 16), UInt8.ofNat (q % 16 * 16 + r / 4)]
  | full => return octetsOfQuad full

/-- Reads `text`, which lies at `start`; at most four octets are its last quad. -/
def decodeFrom (start : Nat) : Octets → Except Fault Octets
  | a :: b :: c :: d :: e :: rest => do
    let quad ← values start [a, b, c, d]
    return octetsOfQuad quad ++ (← decodeFrom (start + 4) (e :: rest))
  | quad => decodeLast start quad

/-- A text of one octet more than its quads is judged by that octet first. -/
def decode (text : Octets) : Except Fault Octets :=
  match text.getLast? with
  | some last =>
    if text.length % 4 = 1 ∧ last ≠ pad ∧ value? last = none then
      .error (.symbol last (text.length - 1))
    else decodeFrom 0 text
  | none => .ok []

end DirectoryHistory.Text.Base64
