import ScoreDecoding.Json.Numeral

/-!
# JSON values

A JSON text denotes a value. Numbers are kept as they are written, objects keep their members in order with
repetitions, and a string whose escapes are no text is kept as such, because a reader may have no use for it.

- `Json.isSound` says that nothing in a value is unreadable: all numbers are doubles, all strings are texts, and no
  more than a given number of brackets is open at once.
-/

namespace ScoreDecoding

/-- A JSON value. A string is `none` if one of its escapes is half a character that stands alone. -/
inductive Json
  | null
  | bool (b : Bool)
  | num (n : Json.Numeral)
  | str (s : Option String)
  | arr (items : List Json)
  | obj (fields : List (Option String × Json))
  deriving Inhabited

namespace Json

/-- The value of a text. -/
def text (s : String) : Json := .str (some s)

/-- The value of an integer. -/
def int (n : Int) : Json := .num (.ofInt n)

/-- The value of a natural number. -/
def nat (n : Nat) : Json := .int n

/-- The object with the given members. -/
def object (fields : List (String × Json)) : Json := .obj (fields.map fun f => (some f.1, f.2))

/-- The value of an optional field. -/
def ofOption {α : Type} (f : α → Json) : Option α → Json
  | none => .null
  | some a => f a

mutual

/-- Whether all numbers are doubles, all strings are texts, and at most `room` brackets are open at once. -/
def isSound (room : Nat) : Json → Bool
  | .null => true
  | .bool _ => true
  | .num n => n.toFloat?.isSome
  | .str s => s.isSome
  | .arr items => match room with
    | 0 => false
    | r + 1 => areSound r items
  | .obj fields => match room with
    | 0 => false
    | r + 1 => areSoundFields r fields

/-- `isSound` for the items of an array. -/
def areSound (room : Nat) : List Json → Bool
  | [] => true
  | j :: js => isSound room j && areSound room js

/-- `isSound` for the members of an object. -/
def areSoundFields (room : Nat) : List (Option String × Json) → Bool
  | [] => true
  | f :: fs => f.1.isSome && isSound room f.2 && areSoundFields room fs

end

end Json

end ScoreDecoding
