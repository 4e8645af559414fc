import ScoreDecoding.Json.Basic

/-!
# Reading values into data

Readers of numbers, texts, lists, choices and records. A record is an object whose unknown members are ignored, or an
array of its fields in order.

- `Json.record?` finds the fields of a record; `Record.required` and `Record.withDefault` read one of them.
-/

namespace ScoreDecoding.Json

/-- A truth value. -/
def bool? : Json → Option Bool
  | .bool b => some b
  | _ => none

/-- A text. -/
def text? : Json → Option String
  | .str s => s
  | _ => none

/-- An integer. -/
def int? : Json → Option Int
  | .num n => n.toInt?
  | _ => none

/-- A double. -/
def float? : Json → Option Float
  | .num n => n.toFloat?
  | _ => none

/-- A natural number below a bound. -/
def natBelow? (bound : Nat) (j : Json) : Option Nat :=
  j.int?.bind fun n => if 0 ≤ n ∧ n < bound then some n.toNat else none

/-- An integer between two bounds, both included. -/
def intBetween? (low high : Int) (j : Json) : Option Int :=
  j.int?.bind fun n => if low ≤ n ∧ n ≤ high then some n else none

/-- A natural number of eight bits. -/
def uint8? (j : Json) : Option UInt8 := (j.natBelow? UInt8.size).map UInt8.ofNat
/-- A natural number of 64 bits. -/
def uint64? (j : Json) : Option UInt64 := (j.natBelow? UInt64.size).map UInt64.ofNat
/-- An integer of eight bits. -/
def int8? (j : Json) : Option Int8 :=
  (j.intBetween? Int8.minValue.toInt Int8.maxValue.toInt).map Int8.ofInt
/-- An integer of 32 bits. -/
def int32? (j : Json) : Option Int32 :=
  (j.intBetween? Int32.minValue.toInt Int32.maxValue.toInt).map Int32.ofInt
/-- An integer of 64 bits. -/
def int64? (j : Json) : Option Int64 :=
  (j.intBetween? Int64.minValue.toInt Int64.maxValue.toInt).map Int64.ofInt

/-- A value or null. -/
def nullable? {α : Type} (read : Json → Option α) : Json → Option (Option α)
  | .null => some none
  | j => (read j).map some

/-- Reads each value of a list. -/
def readAll {α : Type} (read : Json → Option α) : List Json → Option (List α)
  | [] => some []
  | j :: js => do
    let a ← read j
    let rest ← readAll read js
    return a :: rest

/-- A list. -/
def list? {α : Type} (read : Json → Option α) : Json → Option (List α)
  | .arr items => readAll read items
  | _ => none

/-- A named choice. The name may also stand as the only key of an object, with null. -/
def choice? {α : Type} (named : String → Option α) : Json → Option α
  | .str (some s) => named s
  | .obj [(some s, .null)] => named s
  | _ => none

/-! ## Records -/

/-- The fields of a record that are given, by name. -/
abbrev Record := List (String × Json)

/-- The members of an object by name, if every name is a text. -/
def members? : List (Option String × Json) → Option Record
  | [] => some []
  | (some k, j) :: fs => (members? fs).map ((k, j) :: ·)
  | (none, _) :: _ => none

/-- The fields of a record with the given names. A name may be given once only, and an array may be shorter than the
record but no longer. -/
def record? (names : List String) : Json → Option Record
  | .obj fields => do
    let members ← members? fields
    let known := members.filter fun m => names.contains m.1
    if (known.map (·.1)).Nodup then some known else none
  | .arr items => if items.length ≤ names.length then some (names.zip items) else none
  | _ => none

namespace Record

/-- Reads a field that must be given. -/
def required {α : Type} (r : Record) (name : String) (read : Json → Option α) : Option α :=
  (r.lookup name).bind read

/-- Reads a field that may be missing. -/
def withDefault {α : Type} (r : Record) (name : String) (read : Json → Option α) (default : α) : Option α :=
  match r.lookup name with
  | none => some default
  | some j => read j

end Record

end ScoreDecoding.Json
