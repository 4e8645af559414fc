import ScoreDecoding.Json.Basic
import ScoreDecoding.Json.Lexeme

/-!
# Reading JSON

The lexemes of a text are read from left to right with a stack of the brackets that are open, so that texts may nest
without limit.

- `Json.parse?` reads a whole text as one value.
-/

namespace ScoreDecoding.Json

/-- An open bracket with what has been read in it, latest first. -/
inductive Frame
  | array (items : List Json)
  | object (fields : List (Option String × Json))
  /-- An object in which the value of a key is being read. -/
  | member (fields : List (Option String × Json)) (key : Option String)

/-- What may come next. -/
inductive Expecting
  | value
  | itemOrEnd
  | keyOrEnd
  | key
  | colon (key : Option String)
  /-- A comma, or the end of the innermost bracket. -/
  | separator
  /-- The end of the text, whose value is known. -/
  | done (j : Json)

/-- What may come next and the brackets that are open, innermost first. -/
structure Reader where
  expecting : Expecting := .value
  frames : List Frame := []

namespace Reader

/-- The reader after a complete value. -/
def place (j : Json) : List Frame → Option Reader
  | [] => some ⟨.done j, []⟩
  | .array items :: fs => some ⟨.separator, .array (j :: items) :: fs⟩
  | .member fields k :: fs => some ⟨.separator, .object ((k, j) :: fields) :: fs⟩
  | .object _ :: _ => none

/-- A lexeme where a value must start. -/
def value (fs : List Frame) : Lexeme → Option Reader
  | .null => place .null fs
  | .bool b => place (.bool b) fs
  | .num n => place (.num n) fs
  | .str s => place (.str s) fs
  | .arrayOpen => some ⟨.itemOrEnd, .array [] :: fs⟩
  | .objectOpen => some ⟨.keyOrEnd, .object [] :: fs⟩
  | _ => none

/-- A lexeme after a value. -/
def separator : List Frame → Lexeme → Option Reader
  | .array items :: fs, .comma => some ⟨.value, .array items :: fs⟩
  | .array items :: fs, .arrayClose => place (.arr items.reverse) fs
  | .object fields :: fs, .comma => some ⟨.key, .object fields :: fs⟩
  | .object fields :: fs, .objectClose => place (.obj fields.reverse) fs
  | _, _ => none

/-- One lexeme. -/
def step (r : Reader) (l : Lexeme) : Option Reader :=
  match r.expecting, l, r.frames with
  | .value, l, fs => value fs l
  | .itemOrEnd, .arrayClose, fs => separator fs .arrayClose
  | .itemOrEnd, l, fs => value fs l
  | .keyOrEnd, .objectClose, fs => separator fs .objectClose
  | .keyOrEnd, .str k, fs => some ⟨.colon k, fs⟩
  | .key, .str k, fs => some ⟨.colon k, fs⟩
  | .colon k, .colon, .object fields :: fs => some ⟨.value, .member fields k :: fs⟩
  | .separator, l, fs => separator fs l
  | _, _, _ => none

/-- The reader after all lexemes. -/
def run (r : Reader) : List Lexeme → Option Reader
  | [] => some r
  | l :: ls => match r.step l with
    | some r' => r'.run ls
    | none => none

/-- The value of a text that ends here. -/
def finish (r : Reader) : Option Json :=
  match r.expecting with
  | .done j => some j
  | _ => none

end Reader

/-- The value of a text. -/
def parse? (text : String) : Option Json := do
  let lexemes ← Lexeme.scan text.toList
  let reader ← Reader.run {} lexemes
  reader.finish

end ScoreDecoding.Json
