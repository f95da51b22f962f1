import HaarDetection.Decimal.Numeral

/-!
# The tokens of JSON

A JSON text is a sequence of tokens with blanks between them: punctuation, the words `null`,
`true` and `false`, numbers and strings.

* `Token`: a token, numbers as they are written and strings with their escapes resolved.
* `Token.read?`: the first token of a text.
* `Token.readAll?`: all tokens of a text.
-/

namespace HaarDetection

/-- A token of a JSON text. -/
inductive Token
  | openArray
  | closeArray
  | openObject
  | closeObject
  | comma
  | colon
  | null
  | bool (value : Bool)
  | number (numeral : Numeral)
  /-- A string. It has no text when an escape in it names only half of a character. -/
  | string (text : Option String)
deriving DecidableEq

/-- A piece of a JSON string: a character as it stands, or an escaped unit of 16 bits. -/
inductive StringPiece
  | char (c : Char)
  | unit (n : Nat)
deriving DecidableEq

namespace StringPiece

/-- Is a unit the first half of a character of two units? -/
def isHigh (n : Nat) : Bool := 0xD800 ≤ n && n < 0xDC00

/-- Is a unit the second half of a character of two units? -/
def isLow (n : Nat) : Bool := 0xDC00 ≤ n && n < 0xE000

/-- The characters of some pieces, none if there is half a character among them. -/
def chars? : List StringPiece → Option (List Char)
  | [] => some []
  | .char c :: rest => (chars? rest).map (c :: ·)
  | .unit high :: .unit low :: rest =>
    if isHigh high then
      if isLow low then
        let code := 0x10000 + (high - 0xD800) * 0x400 + (low - 0xDC00)
        (chars? rest).map (Char.ofNat code :: ·)
      else none
    else if isLow high then none
    else (chars? (.unit low :: rest)).map (Char.ofNat high :: ·)
  | .unit n :: rest =>
    if isHigh n || isLow n then none else (chars? rest).map (Char.ofNat n :: ·)

end StringPiece

namespace Token

/-- The blanks of JSON: space, tab, line feed and carriage return. -/
def isBlank (c : Char) : Bool := c == ' ' || c == '\t' || c == '\n' || c == '\r'

/-- Takes the digits off the front of a text and puts them behind those in `found`, which are in
reverse. -/
def takeDigits : List Char → (found : List Digit) → List Digit × List Char
  | [], found => (found.reverse, [])
  | c :: rest, found =>
    match Digit.ofChar? c with
    | some d => takeDigits rest (d :: found)
    | none => (found.reverse, c :: rest)

/-- The digits at the front of a text, of which there has to be one. -/
def readDigits? (cs : List Char) : Option (List Digit × List Char) :=
  let (digits, rest) := takeDigits cs []
  if digits.isEmpty then none else some (digits, rest)

/-- The whole part of a number. A zero in front stands alone. -/
def readWhole? (cs : List Char) : Option (List Digit × List Char) := do
  let (digits, rest) ← readDigits? cs
  if digits.head?.map (·.val) = some 0 ∧ digits.length ≠ 1 then none else some (digits, rest)

/-- The fraction of a number, if it has one. -/
def readFraction? : List Char → Option (Option (List Digit) × List Char)
  | '.' :: rest => (readDigits? rest).map fun (digits, rest) => (some digits, rest)
  | cs => some (none, cs)

/-- The sign of a power of ten. -/
def readPowerSign : List Char → PowerSign × List Char
  | '+' :: rest => (.plus, rest)
  | '-' :: rest => (.minus, rest)
  | cs => (.unsigned, cs)

/-- The power of ten of a number, if it has one. -/
def readPower? (cs : List Char) : Option (Option (PowerSign × List Digit) × List Char) :=
  let power (rest : List Char) :=
    let (sign, rest) := readPowerSign rest
    (readDigits? rest).map fun (digits, rest) => (some (sign, digits), rest)
  match cs with
  | 'e' :: rest => power rest
  | 'E' :: rest => power rest
  | cs => some (none, cs)

/-- A number without its sign. -/
def readUnsigned? (negative : Bool) (cs : List Char) : Option (Numeral × List Char) := do
  let (whole, rest) ← readWhole? cs
  let (fraction, rest) ← readFraction? rest
  let (power, rest) ← readPower? rest
  some (⟨negative, whole, fraction, power⟩, rest)

/-- The value of a hexadecimal digit. -/
def hexDigit? (c : Char) : Option Nat :=
  let n := c.toNat
  if 48 ≤ n ∧ n ≤ 57 then some (n - 48)
  else if 65 ≤ n ∧ n ≤ 70 then some (n - 55)
  else if 97 ≤ n ∧ n ≤ 102 then some (n - 87)
  else none

/-- The unit that four hexadecimal digits name. -/
def hexUnit? (a b c d : Char) : Option Nat := do
  some ((((← hexDigit? a) * 16 + (← hexDigit? b)) * 16 + (← hexDigit? c)) * 16 + (← hexDigit? d))

/-- The character that a letter stands for behind a backslash. -/
def escaped? : Char → Option Char
  | '"' => some '"'
  | '\\' => some '\\'
  | '/' => some '/'
  | 'b' => some '\x08'
  | 'f' => some '\x0c'
  | 'n' => some '\n'
  | 'r' => some '\r'
  | 't' => some '\t'
  | _ => none

/-- Takes the rest of a string off the front of a text, up to its closing quote, behind the pieces
in `found`, which are in reverse. Control characters have to be escaped. -/
def readPieces? : List Char → (found : List StringPiece) → Option (List StringPiece × List Char)
  | [], _ => none
  | '"' :: rest, found => some (found.reverse, rest)
  | '\\' :: 'u' :: a :: b :: c :: d :: rest, found =>
    match hexUnit? a b c d with
    | some unit => readPieces? rest (.unit unit :: found)
    | none => none
  | '\\' :: c :: rest, found =>
    match escaped? c with
    | some c => readPieces? rest (.char c :: found)
    | none => none
  | c :: rest, found =>
    if c.toNat < 0x20 ∨ c = '\\' then none else readPieces? rest (.char c :: found)

/-- The rest of a string behind its opening quote. -/
def readString? (cs : List Char) : Option (Token × List Char) :=
  (readPieces? cs []).map fun (pieces, rest) =>
    (.string ((StringPiece.chars? pieces).map String.ofList), rest)

/-- **The first token of a text** that does not begin with a blank, and what follows it. -/
def read? : List Char → Option (Token × List Char)
  | '[' :: rest => some (.openArray, rest)
  | ']' :: rest => some (.closeArray, rest)
  | '\x7b' :: rest => some (.openObject, rest)
  | '\x7d' :: rest => some (.closeObject, rest)
  | ',' :: rest => some (.comma, rest)
  | ':' :: rest => some (.colon, rest)
  | 'n' :: 'u' :: 'l' :: 'l' :: rest => some (.null, rest)
  | 't' :: 'r' :: 'u' :: 'e' :: rest => some (.bool true, rest)
  | 'f' :: 'a' :: 'l' :: 's' :: 'e' :: rest => some (.bool false, rest)
  | '"' :: rest => readString? rest
  | '-' :: rest => (readUnsigned? true rest).map fun (n, rest) => (.number n, rest)
  | cs => (readUnsigned? false cs).map fun (n, rest) => (.number n, rest)

/-- The tokens of a text, at most `limit` of them, behind those in `found`, which are in
reverse. -/
def readUpTo? : (limit : Nat) → List Char → (found : List Token) → Option (List Token)
  | 0, cs, found => if cs.all isBlank then some found.reverse else none
  | limit + 1, cs, found =>
    match cs.dropWhile isBlank with
    | [] => some found.reverse
    | c :: cs =>
      match read? (c :: cs) with
      | some (token, rest) => readUpTo? limit rest (token :: found)
      | none => none

/-- **All tokens of a text.** There are no more tokens than characters. -/
def readAll? (cs : List Char) : Option (List Token) := readUpTo? cs.length cs []

end Token

end HaarDetection
