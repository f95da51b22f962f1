import HaarDetection.Json.Value

/-!
# Printing JSON values

Values are printed over several lines: every element of an array and every member of an object
has a line of its own, two blanks further in than what it belongs to.

* `Json.quote`: a string with its quotes and escapes.
* `Json.render`: the text of a value.
-/

namespace HaarDetection

namespace Json

/-- A hexadecimal digit in lower case. -/
def hexChar (n : Nat) : Char := Char.ofNat (if n < 10 then 48 + n else 87 + n)

/-- A character inside of a string. Quotes, backslashes and control characters are escaped. -/
def quoteChar (c : Char) : List Char :=
  if c = '"' then ['\\', '"']
  else if c = '\\' then ['\\', '\\']
  else if c = '\x08' then ['\\', 'b']
  else if c = '\x0c' then ['\\', 'f']
  else if c = '\n' then ['\\', 'n']
  else if c = '\r' then ['\\', 'r']
  else if c = '\t' then ['\\', 't']
  else if c.toNat < 0x20 then
    ['\\', 'u', '0', '0', hexChar (c.toNat / 16), hexChar (c.toNat % 16)]
  else [c]

/-- A string with its quotes. A string without a text is printed as half a character. -/
def quote : Option String → List Char
  | some text => '"' :: (text.toList.flatMap quoteChar ++ ['"'])
  | none => ['"', '\\', 'u', 'd', '8', '0', '0', '"']

/-- A new line that begins `depth` levels in. -/
def newLine (depth : Nat) : List Char := '\n' :: List.replicate (2 * depth) ' '

mutual

/-- The characters of a value whose first line begins `depth` levels in. -/
def render (depth : Nat) : Json → List Char
  | .null => ['n', 'u', 'l', 'l']
  | .bool true => ['t', 'r', 'u', 'e']
  | .bool false => ['f', 'a', 'l', 's', 'e']
  | .number numeral => numeral.chars
  | .string text => quote text
  | .array [] => ['[', ']']
  | .array (first :: rest) =>
    '[' :: (newLine (depth + 1) ++ render (depth + 1) first
      ++ (renderElements (depth + 1) rest ++ (newLine depth ++ [']'])))
  | .object [] => ['\x7b', '\x7d']
  | .object ((key, first) :: rest) =>
    '\x7b' :: (newLine (depth + 1) ++ quote key ++ (':' :: ' ' :: render (depth + 1) first)
      ++ (renderMembers (depth + 1) rest ++ (newLine depth ++ ['\x7d'])))

/-- The characters of the further elements of an array. -/
def renderElements (depth : Nat) : List Json → List Char
  | [] => []
  | element :: rest =>
    ',' :: (newLine depth ++ render depth element ++ renderElements depth rest)

/-- The characters of the further members of an object. -/
def renderMembers (depth : Nat) : List (Option String × Json) → List Char
  | [] => []
  | (key, value) :: rest =>
    ',' :: (newLine depth ++ quote key ++ (':' :: ' ' :: render depth value)
      ++ renderMembers depth rest)

end

/-- **The text of a value.** -/
def text (value : Json) : String := String.ofList (render 0 value)

end Json

end HaarDetection
