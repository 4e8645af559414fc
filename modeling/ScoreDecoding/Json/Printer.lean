import ScoreDecoding.Json.Basic

/-!
# Writing JSON

Values are written without white space. In a string only the quote, the backslash and control characters are
escaped; everything else stands for itself.

- `Json.compact` is the text of a value.
-/

namespace ScoreDecoding.Json

/-- The lower case hexadecimal digit of a number below sixteen. -/
def hexDigit (n : Nat) : Char := Nat.digitChar n

/-- A character as it is written inside a string. -/
def escapeChar (c : Char) : List Char :=
  if c = '"' then ['\\', '"']
  else if c = '\\' then ['\\', '\\']
  else if c = '\x08' then ['\\', 'b']
  else if c = '\x0c' then ['\\', 'f']
  else if c = '\n' then ['\\', 'n']
  else if c = '\r' then ['\\', 'r']
  else if c = '\t' then ['\\', 't']
  else if c.toNat < 0x20 then ['\\', 'u', '0', '0', hexDigit (c.toNat / 16), hexDigit (c.toNat % 16)]
  else [c]

/-- A string as it is written. One that is no text is written as half a character. -/
def stringChars : Option String → List Char
  | some s => '"' :: s.toList.flatMap escapeChar ++ ['"']
  | none => ['"', '\\', 'u', 'd', '8', '0', '0', '"']

mutual

/-- The characters of a value. -/
def chars : Json → List Char
  | .null => ['n', 'u', 'l', 'l']
  | .bool true => ['t', 'r', 'u', 'e']
  | .bool false => ['f', 'a', 'l', 's', 'e']
  | .num n => n.chars
  | .str s => stringChars s
  | .arr [] => ['[', ']']
  | .arr (j :: js) => '[' :: chars j ++ itemChars js ++ [']']
  | .obj [] => ['{', '}']
  | .obj (f :: fs) => '{' :: stringChars f.1 ++ ':' :: chars f.2 ++ fieldChars fs ++ ['}']

/-- The further items of an array, each after a comma. -/
def itemChars : List Json → List Char
  | [] => []
  | j :: js => ',' :: chars j ++ itemChars js

/-- The further members of an object, each after a comma. -/
def fieldChars : List (Option String × Json) → List Char
  | [] => []
  | f :: fs => ',' :: stringChars f.1 ++ ':' :: chars f.2 ++ fieldChars fs

end

/-- The text of a value. -/
def compact (j : Json) : String := String.ofList j.chars

end ScoreDecoding.Json
