import DirectoryHistory.Text.Ascii
import DirectoryHistory.Text.Decimal
import DirectoryHistory.Text.Hex
import DirectoryHistory.Text.Split
import DirectoryHistory.Toml

/-!
# Reading TOML text

The grammar of TOML 1.0 over the list of remaining characters, after every line end has become a
single line feed. A word without quotes is taken up to the first character that no number, time or
constant contains, and is then judged as a whole. The fuel of the readers bounds how many lines and
values they take, and the length of the text is always enough.
-/

namespace DirectoryHistory.Toml

def unifyLines : List Char → List Char
  | '\r' :: '\n' :: rest => '\n' :: unifyLines rest
  | c :: rest => c :: unifyLines rest
  | [] => []

def isBlank (c : Char) : Bool :=
  c == ' ' || c == '\t'

def skipBlank (cs : List Char) : List Char :=
  cs.dropWhile isBlank

def isInline (c : Char) : Bool :=
  c == '\t' || (decide (0x20 ≤ c.toNat) && c.toNat != 0x7f)

/-- What follows a line that has nothing left but blanks and a comment. -/
def endLine? (cs : List Char) : Option (List Char) :=
  let rest := match skipBlank cs with
    | '#' :: comment => comment.dropWhile isInline
    | rest => rest
  match rest with
  | [] => some []
  | '\n' :: rest => some rest
  | _ => none

/-- Skips blanks, line ends and comments; `inside` tells whether a comment has begun. -/
def skipSpace (inside : Bool) : List Char → List Char
  | [] => []
  | c :: rest =>
    if c = '\n' then skipSpace false rest
    else if inside then if isInline c then skipSpace true rest else c :: rest
    else if isBlank c then skipSpace false rest
    else if c = '#' then skipSpace true rest
    else c :: rest

def scalar? (digits : List Char) : Option Char := do
  let n ← Text.readHex? digits
  if n < 0xd800 ∨ (0xdfff < n ∧ n < 0x110000) then return Char.ofNat n else failure

def unescaped? (c : Char) : Option Char :=
  if c = '"' ∨ c = '\\' then some c
  else if c = 'b' then some '\x08'
  else if c = 't' then some '\t'
  else if c = 'n' then some '\n'
  else if c = 'f' then some '\x0c'
  else if c = 'r' then some '\r'
  else none

/-- The text of a string in double quotes. In one of several lines an escaped line end stands for
nothing, and `trimming` drops the blanks and line ends behind it. -/
def unescape? (multi trimming : Bool) : List Char → Option (List Char)
  | [] => some []
  | '\\' :: 'u' :: a :: b :: c :: d :: rest => do
    let char ← scalar? [a, b, c, d]
    return char :: (← unescape? multi false rest)
  | '\\' :: 'U' :: a :: b :: c :: d :: e :: f :: g :: h :: rest => do
    let char ← scalar? [a, b, c, d, e, f, g, h]
    return char :: (← unescape? multi false rest)
  | '\\' :: c :: rest =>
    if multi && (skipBlank (c :: rest)).head? == some '\n' then unescape? multi true rest
    else
      match unescaped? c with
      | some char => (unescape? multi false rest).map (char :: ·)
      | none => none
  | c :: rest =>
    if trimming && (isBlank c || c == '\n') then unescape? multi true rest
    else if (isInline c && c != '\\') || (multi && c == '\n') then
      (unescape? multi false rest).map (c :: ·)
    else none

/-- The body of a string of several lines and what follows its closing quotes. Up to two quotes
right before the closing ones belong to the body. -/
def cutLines (quote : Char) (escapes : Bool) : List Char → Option (List Char × List Char)
  | [] => none
  | ['\\'] => none
  | '\\' :: c :: rest =>
    if escapes then
      (cutLines quote escapes rest).map fun (body, behind) => ('\\' :: c :: body, behind)
    else (cutLines quote escapes (c :: rest)).map fun (body, behind) => ('\\' :: body, behind)
  | c :: rest =>
    if c = quote ∧ rest.take 2 = [quote, quote] then
      let more := ((rest.drop 2).take 2).takeWhile (· == quote)
      some (more, rest.drop (2 + more.length))
    else (cutLines quote escapes rest).map fun (body, behind) => (c :: body, behind)

/-- A line end right behind the opening quotes is dropped. -/
def dropLineEnd : List Char → List Char
  | '\n' :: rest => rest
  | cs => cs

def readLineString : List Char → Option (String × List Char)
  | '"' :: rest => do
    let (body, rest) ← Text.cutUnescaped '"' rest
    return (String.ofList (← unescape? false false body), rest)
  | '\x27' :: rest => do
    let (body, rest) ← Text.cut '\x27' rest
    if body.all isInline then return (String.ofList body, rest) else failure
  | _ => none

def readString : List Char → Option (String × List Char)
  | '"' :: '"' :: '"' :: rest => do
    let (body, rest) ← cutLines '"' true (dropLineEnd rest)
    return (String.ofList (← unescape? true false body), rest)
  | '\x27' :: '\x27' :: '\x27' :: rest => do
    let (body, rest) ← cutLines '\x27' false (dropLineEnd rest)
    if body.all fun c => isInline c || c == '\n' then return (String.ofList body, rest) else failure
  | cs => readLineString cs

def digits? (isDigit : Char → Bool) : List Char → Option (List Char)
  | [] => none
  | [c] => if isDigit c then some [c] else none
  | c :: d :: rest =>
    if isDigit c then
      if d = '_' then (digits? isDigit rest).map (c :: ·)
      else (digits? isDigit (d :: rest)).map (c :: ·)
    else none

def takeSign : List Char → Bool × List Char
  | '-' :: cs => (true, cs)
  | '+' :: cs => (false, cs)
  | cs => (false, cs)

/-- The digits of a number that begins with zero only if it is zero. -/
def wholeDigits? (cs : List Char) : Option (List Char) :=
  if cs.head? = some '0' ∧ cs ≠ ['0'] then none else digits? Text.isDecimalDigit cs

def valueIn (radix : Nat) (digits : List Char) : Nat :=
  digits.foldl (fun n c => radix * n + (Text.hexValue? c).getD 0) 0

def isDigitBelow (radix : Nat) (c : Char) : Bool :=
  (Text.hexValue? c).any (· < radix)

/-- One more than the greatest integer. -/
def integerBound : Nat :=
  0x8000000000000000

def unsignedIn (radix : Nat) (cs : List Char) : Option Int := do
  let n := valueIn radix (← digits? (isDigitBelow radix) cs)
  if n < integerBound then return n else failure

def integer? : List Char → Option Int
  | '0' :: 'x' :: rest => unsignedIn 16 rest
  | '0' :: 'o' :: rest => unsignedIn 8 rest
  | '0' :: 'b' :: rest => unsignedIn 2 rest
  | cs => do
    let (negative, cs) := takeSign cs
    let n := valueIn 10 (← wholeDigits? cs)
    if negative then if n ≤ integerBound then return -n else failure
    else if n < integerBound then return n
    else failure

/-- Whether `n` times a power of ten rounds to a finite number in double precision. -/
def isFinite (n : Nat) (exponent : Int) : Bool :=
  let bound := 1 <<< 1024 - 1 <<< 970
  let magnitude := (Text.decimal n).length + exponent
  if n = 0 ∨ magnitude ≤ 308 then true
  else if 309 < magnitude then false
  else if 0 ≤ exponent then decide (n * Nat.pow 10 exponent.toNat < bound)
  else decide (n < bound * Nat.pow 10 (-exponent).toNat)

def fraction? : List Char → Option (List Char)
  | [] => some []
  | _ :: digits => digits? Text.isDecimalDigit digits

def exponent? : List Char → Option Int
  | [] => some 0
  | _ :: cs => do
    let (negative, cs) := takeSign cs
    let n : Int := valueIn 10 (← digits? Text.isDecimalDigit cs)
    return if negative then -n else n

/-- Whether a word is a float: a number with a fraction, an exponent or both, or a constant. A
positive number that is too large is none, while a negative one stands for infinity. -/
def isFloat (word : List Char) : Bool :=
  let (negative, cs) := takeSign word
  let (mantissa, behind) := cs.span fun c => c != 'e' && c != 'E'
  let (whole, rest) := mantissa.span (· != '.')
  cs == "inf".toList || cs == "nan".toList ||
    (!(rest.isEmpty && behind.isEmpty) &&
      match wholeDigits? whole, fraction? rest, exponent? behind with
      | some whole, some fraction, some exponent =>
        negative || isFinite (valueIn 10 (whole ++ fraction)) (exponent - fraction.length)
      | _, _, _ => false)

def daysIn (year month : Nat) : Nat :=
  if month = 2 then
    if year % 4 = 0 ∧ (year % 100 ≠ 0 ∨ year % 400 = 0) then 29 else 28
  else if [4, 6, 9, 11].contains month then 30
  else 31

def isDate : List Char → Bool
  | [a, b, c, d, '-', e, f, '-', g, h] =>
    match Text.readDigits? [a, b, c, d], Text.readDigits? [e, f], Text.readDigits? [g, h] with
    | some year, some month, some day =>
      decide (1 ≤ month ∧ month ≤ 12 ∧ 1 ≤ day ∧ day ≤ daysIn year month)
    | _, _, _ => false
  | _ => false

def isUpTo (bound : Nat) (a b : Char) : Bool :=
  (Text.readDigits? [a, b]).any (· ≤ bound)

def isOffset : List Char → Bool
  | ['Z'] | ['z'] => true
  | [sign, a, b, ':', c, d] => (sign == '+' || sign == '-') && isUpTo 23 a b && isUpTo 59 c d
  | _ => false

/-- A time of day, which an offset follows only if there is a date. -/
def isTimeOfDay (dated : Bool) : List Char → Bool
  | a :: b :: ':' :: c :: d :: ':' :: e :: f :: rest =>
    let (isFraction, behind) := match rest with
      | '.' :: rest =>
        let (digits, behind) := rest.span Text.isDecimalDigit
        (!digits.isEmpty, behind)
      | _ => (true, rest)
    isUpTo 23 a b && isUpTo 59 c d && isUpTo 60 e f && isFraction &&
      (behind.isEmpty || (dated && isOffset behind))
  | _ => false

def isTime (word : List Char) : Bool :=
  isTimeOfDay false word || isDate word ||
    (isDate (word.take 10) && match word.drop 10 with
      | 'T' :: clock | 't' :: clock => isTimeOfDay true clock
      | _ => false)

def isWordChar (c : Char) : Bool :=
  Text.isAlphanumeric c || c == '+' || c == '-' || c == '_' || c == '.' || c == ':'

def word? (word : List Char) : Option Toml :=
  if word = "true".toList ∨ word = "false".toList then some .bool
  else if isTime word then some .time
  else if isFloat word then some .float
  else (integer? word).map .integer

/-- A value without quotes or brackets. A time may stand one blank behind its date. -/
def readWord (cs : List Char) : Option (Toml × List Char) :=
  let (word, rest) := cs.span isWordChar
  match rest with
  | ' ' :: behind =>
    let (clock, behind) := behind.span isWordChar
    if isDate word && isTimeOfDay true clock then some (.time, behind)
    else (word? word).map (·, rest)
  | _ => (word? word).map (·, rest)

def isKeyChar (c : Char) : Bool :=
  Text.isAlphanumeric c || c == '-' || c == '_'

def readKey (cs : List Char) : Option (String × List Char) :=
  match cs.span isKeyChar with
  | ([], _) => readLineString cs
  | (key, rest) => some (String.ofList key, rest)

/-- Keys divided by dots, `limit` of them at most. -/
def readPath : Nat → List Char → Option (List String × List Char)
  | 0, _ => none
  | limit + 1, cs => do
    let (key, rest) ← readKey (skipBlank cs)
    match skipBlank rest with
    | '.' :: rest =>
      let (keys, rest) ← readPath limit rest
      return (key :: keys, rest)
    | rest => return ([key], rest)

/-- How many keys a path may have, and how deep values may be nested. -/
def depthLimit : Nat :=
  79

mutual

def readValue : Nat → Nat → List Char → Option (Toml × List Char)
  | 0, _, _ => none
  | fuel + 1, depth, cs =>
    match cs with
    | '[' :: rest => if depth = 0 then none else readItems fuel (depth - 1) [] rest
    | '\x7b' :: rest =>
      if depth = 0 then none
      else
        match skipBlank rest with
        | '\x7d' :: rest => some (.table [], rest)
        | rest => readMembers fuel (depth - 1) [] rest
    | '"' :: _ | '\x27' :: _ => (readString cs).map fun (s, rest) => (.string s, rest)
    | _ => readWord cs

/-- The rest of an array; `read` holds the items before in reverse. -/
def readItems : Nat → Nat → List Toml → List Char → Option (Toml × List Char)
  | 0, _, _, _ => none
  | fuel + 1, depth, read, cs =>
    match skipSpace false cs with
    | ']' :: rest => some (.array read.reverse, rest)
    | cs => do
      let (v, rest) ← readValue fuel depth cs
      match skipSpace false rest with
      | ',' :: rest => readItems fuel depth (v :: read) rest
      | ']' :: rest => return (.array (v :: read).reverse, rest)
      | _ => failure

def readMembers : Nat → Nat → Items → List Char → Option (Toml × List Char)
  | 0, _, _, _ => none
  | fuel + 1, depth, items, cs => do
    let (path, rest) ← readPath depthLimit cs
    match rest with
    | '=' :: rest =>
      let (v, rest) ← readValue fuel depth (skipBlank rest)
      let items ← enter (path.getLastD "") v path.dropLast items
      match skipBlank rest with
      | ',' :: rest => readMembers fuel depth items rest
      | '\x7d' :: rest => return (.table (closeItems items), rest)
      | _ => failure
    | _ => failure

end

/-- A header behind its opening bracket: its path and what follows the closing bracket. -/
def readHeader (closing cs : List Char) : Option (List String × List Char) := do
  let (path, rest) ← readPath depthLimit cs
  if rest.take closing.length = closing then
    return (path, ← endLine? (rest.drop closing.length))
  else failure

/-- Reads line by line; `header` leads to the table that the lines belong to. -/
def readLines : Nat → List String → Items → List Char → Option Items
  | 0, _, _, _ => none
  | fuel + 1, header, items, cs =>
    match skipBlank cs with
    | [] => some items
    | '\n' :: rest => readLines fuel header items rest
    | '#' :: rest => do readLines fuel header items (← endLine? ('#' :: rest))
    | '[' :: '[' :: rest => do
      let (path, rest) ← readHeader [']', ']'] rest
      readLines fuel path (← within (openElement (path.getLastD "")) path.dropLast items) rest
    | '[' :: rest => do
      let (path, rest) ← readHeader [']'] rest
      readLines fuel path (← within (openTable (path.getLastD "")) path.dropLast items) rest
    | cs => do
      let (path, rest) ← readPath depthLimit cs
      match rest with
      | '=' :: rest =>
        let (v, rest) ← readValue (2 * rest.length + 2) depthLimit (skipBlank rest)
        let items ← within (enter (path.getLastD "") v path.dropLast) header items
        readLines fuel header items (← endLine? rest)
      | _ => failure

/-- The table that a document describes. A byte order mark may lead it. -/
def parse? (s : String) : Option Toml := do
  let cs := unifyLines (match s.toList with
    | '\ufeff' :: rest => rest
    | cs => cs)
  return .table (closeItems (← readLines (cs.length + 1) [] [] cs))

end DirectoryHistory.Toml
