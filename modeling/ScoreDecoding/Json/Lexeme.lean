import ScoreDecoding.Json.Numeral

/-!
# Lexemes of a JSON text

A JSON text is read character by character into brackets, separators, words, numerals and strings. White space
between lexemes is dropped.

- `Scanner.step` takes one character, or refuses it;
- `Lexeme.scan` is the list of the lexemes of a text.
-/

namespace ScoreDecoding.Json

/-- One unit of a JSON text. -/
inductive Lexeme
  | arrayOpen | arrayClose | objectOpen | objectClose | comma | colon
  | null
  | bool (b : Bool)
  | num (n : Numeral)
  /-- A string, or nothing if one of its escapes is half a character that stands alone. -/
  | str (s : Option String)
  deriving DecidableEq, Repr

/-- How far a numeral has been read. -/
inductive Numeral.Stage
  | sign | zero | whole | point | fraction | exponentMark | exponentSign | exponent
  deriving DecidableEq, Repr

/-- Where a string is being read: among plain characters, after a backslash, or in the digits of a code unit, of
which `left` are missing. -/
inductive StringPlace
  | plain
  | escaped
  | unit (left : Nat) (value : Nat)
  deriving DecidableEq, Repr

/-- A string as far as it has been read. -/
structure StringScan where
  /-- The characters read so far, latest first. -/
  chars : List Char := []
  /-- Whether every escape so far denotes a character. -/
  isText : Bool := true
  /-- The first half of a character, which waits for the second. -/
  half : Option Nat := none
  place : StringPlace := .plain
  deriving DecidableEq, Repr

namespace StringScan

/-- Adds a character. A first half that waits is left alone by it. -/
def push (s : StringScan) (c : Char) : StringScan :=
  { s with chars := c :: s.chars, isText := s.isText && s.half.isNone, half := none, place := .plain }

/-- Adds a code unit: a first half waits for the second, a second half must have been waited for. -/
def pushUnit (s : StringScan) (v : Nat) : StringScan :=
  if 0xd800 ≤ v ∧ v < 0xdc00 then
    { s with isText := s.isText && s.half.isNone, half := some v, place := .plain }
  else if 0xdc00 ≤ v ∧ v < 0xe000 then
    match s.half with
    | some h => { s with half := none }.push (Char.ofNat (0x10000 + (h - 0xd800) * 0x400 + (v - 0xdc00)))
    | none => { s with isText := false, place := .plain }
  else s.push (Char.ofNat v)

/-- The text of a string that ends here. -/
def finish (s : StringScan) : Option String :=
  if s.isText && s.half.isNone then some (String.ofList s.chars.reverse) else none

/-- The character that a letter denotes after a backslash. -/
def escape? : Char → Option Char
  | '"' => some '"'
  | '\\' => some '\\'
  | '/' => some '/'
  | 'b' => some '\x08'
  | 'f' => some '\x0c'
  | 'n' => some '\n'
  | 'r' => some '\r'
  | 't' => some '\t'
  | _ => none

/-- The value of a hexadecimal digit. -/
def hexValue? (c : Char) : Option Nat :=
  if c.isDigit then some (c.toNat - '0'.toNat)
  else if 'a' ≤ c ∧ c ≤ 'f' then some (c.toNat - 'a'.toNat + 10)
  else if 'A' ≤ c ∧ c ≤ 'F' then some (c.toNat - 'A'.toNat + 10)
  else none

end StringScan

/-- What is being read. -/
inductive Pending
  | nothing
  /-- A word of which these letters are missing. -/
  | word (missing : List Char) (lexeme : Lexeme)
  | num (stage : Numeral.Stage) (n : Numeral)
  | str (s : StringScan)
  deriving DecidableEq, Repr

/-- The lexemes read so far, latest first, and what is being read. -/
structure Scanner where
  lexemes : List Lexeme := []
  pending : Pending := .nothing
  deriving DecidableEq, Repr

namespace Scanner

/-- The scanner after a complete lexeme. -/
def emit (s : Scanner) (l : Lexeme) : Scanner := ⟨l :: s.lexemes, .nothing⟩

/-- One character between lexemes. -/
def start (s : Scanner) (c : Char) : Option Scanner :=
  match c with
  | ' ' | '\t' | '\n' | '\r' => some s
  | '[' => some (s.emit .arrayOpen)
  | ']' => some (s.emit .arrayClose)
  | '{' => some (s.emit .objectOpen)
  | '}' => some (s.emit .objectClose)
  | ',' => some (s.emit .comma)
  | ':' => some (s.emit .colon)
  | 'n' => some { s with pending := .word ['u', 'l', 'l'] .null }
  | 't' => some { s with pending := .word ['r', 'u', 'e'] (.bool true) }
  | 'f' => some { s with pending := .word ['a', 'l', 's', 'e'] (.bool false) }
  | '"' => some { s with pending := .str {} }
  | '-' => some { s with pending := .num .sign { negative := true } }
  | '0' => some { s with pending := .num .zero { whole := ['0'] } }
  | c => if c.isDigit then some { s with pending := .num .whole { whole := [c] } } else none

/-- The numeral with one character more, if it goes on with it. -/
def continueNumeral? (stage : Numeral.Stage) (n : Numeral) (c : Char) : Option (Numeral.Stage × Numeral) :=
  let toFraction := (.point, n)
  let toExponent := (.exponentMark, n)
  match stage with
  | .sign =>
    if c = '0' then some (.zero, { n with whole := [c] })
    else if c.isDigit then some (.whole, { n with whole := [c] }) else none
  | .zero =>
    if c = '.' then some toFraction else if c = 'e' ∨ c = 'E' then some toExponent else none
  | .whole =>
    if c.isDigit then some (.whole, { n with whole := n.whole ++ [c] })
    else if c = '.' then some toFraction else if c = 'e' ∨ c = 'E' then some toExponent else none
  | .point =>
    if c.isDigit then some (.fraction, { n with fraction := [c] }) else none
  | .fraction =>
    if c.isDigit then some (.fraction, { n with fraction := n.fraction ++ [c] })
    else if c = 'e' ∨ c = 'E' then some toExponent else none
  | .exponentMark =>
    if c.isDigit then some (.exponent, { n with exponent := [c] })
    else if c = '+' then some (.exponentSign, n)
    else if c = '-' then some (.exponentSign, { n with exponentNegative := true }) else none
  | .exponentSign =>
    if c.isDigit then some (.exponent, { n with exponent := [c] }) else none
  | .exponent =>
    if c.isDigit then some (.exponent, { n with exponent := n.exponent ++ [c] }) else none

/-- Whether a numeral may end at a stage. -/
def mayEnd : Numeral.Stage → Bool
  | .zero | .whole | .fraction | .exponent => true
  | _ => false

/-- One character inside a string. -/
def stringStep (s : Scanner) (r : StringScan) (c : Char) : Option Scanner :=
  match r.place with
  | .plain =>
    if c = '"' then some (s.emit (.str r.finish))
    else if c = '\\' then some { s with pending := .str { r with place := .escaped } }
    else if c.toNat < 0x20 then none
    else some { s with pending := .str (r.push c) }
  | .escaped =>
    if c = 'u' then some { s with pending := .str { r with place := .unit 4 0 } }
    else (StringScan.escape? c).map fun d => { s with pending := .str (r.push d) }
  | .unit left value =>
    (StringScan.hexValue? c).map fun d =>
      let v := value * 16 + d
      if left ≤ 1 then { s with pending := .str (r.pushUnit v) }
      else { s with pending := .str { r with place := .unit (left - 1) v } }

/-- One character of a text. -/
def step (s : Scanner) (c : Char) : Option Scanner :=
  match s.pending with
  | .nothing => s.start c
  | .word [] _ => none
  | .word [d] l => if c = d then some (s.emit l) else none
  | .word (d :: ds) l => if c = d then some { s with pending := .word ds l } else none
  | .num stage n =>
    match continueNumeral? stage n c with
    | some (stage', n') => some { s with pending := .num stage' n' }
    | none => if mayEnd stage then (s.emit (.num n)).start c else none
  | .str r => s.stringStep r c

/-- The scanner after all characters of a text. -/
def run (s : Scanner) : List Char → Option Scanner
  | [] => some s
  | c :: cs => match s.step c with
    | some s' => s'.run cs
    | none => none

/-- The lexemes of a text that ends here. -/
def finish (s : Scanner) : Option (List Lexeme) :=
  match s.pending with
  | .nothing => some s.lexemes.reverse
  | .num stage n => if mayEnd stage then some (.num n :: s.lexemes).reverse else none
  | _ => none

end Scanner

/-- The lexemes of a text. -/
def Lexeme.scan (cs : List Char) : Option (List Lexeme) := (Scanner.run {} cs).bind Scanner.finish

end ScoreDecoding.Json
