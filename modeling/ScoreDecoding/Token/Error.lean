import ScoreDecoding.Token.Basic

/-!
# Tokens from outside

A name or an id from outside may be no token.

- `Token.named` and `Token.numbered` read one or say why not; they fail on nothing else (`named_eq_ok_iff`,
  `numbered_eq_ok_iff`).
-/

namespace ScoreDecoding.Token

/-- Why something from outside is no token. -/
inductive Error
  | unknownName (name : String)
  | idOutOfRange (id : Nat)
  deriving DecidableEq, Repr

/-- The wording of an error. -/
def Error.message : Error → String
  | .unknownName name => "unknown token name `" ++ name ++ "`"
  | .idOutOfRange id => "token id " ++ id.repr ++ " is outside the vocabulary"

/-- The token with a written name. -/
def named (name : String) : Except Error Token :=
  match ofName? name with
  | some t => .ok t
  | none => .error (.unknownName name)

/-- The token at a place of the alphabet. -/
def numbered (id : Nat) : Except Error Token :=
  match ofId? id with
  | some t => .ok t
  | none => .error (.idOutOfRange id)

theorem named_eq_ok_iff {name : String} {t : Token} : named name = .ok t ↔ name = t.name := by
  unfold named
  constructor
  · intro h
    split at h
    · rename_i u hu
      obtain rfl : u = t := by simpa using h
      exact (by simpa using List.find?_some hu : u.name = name).symm
    · simp at h
  · rintro rfl
    rw [ofName?_name]

theorem numbered_eq_ok_iff {id : Nat} {t : Token} : numbered id = .ok t ↔ id = t.id := by
  unfold numbered
  constructor
  · intro h
    split at h
    · rename_i u hu
      obtain rfl : u = t := by simpa using h
      obtain ⟨hlt, -⟩ := List.getElem?_eq_some_iff.1 hu
      have hid : (all.map Token.id)[id]? = some u.id := by rw [List.getElem?_map]; exact congrArg _ hu
      rw [map_id_all, List.getElem?_range (length_all ▸ hlt)] at hid
      exact Option.some.inj hid
    · simp at h
  · rintro rfl
    rw [ofId?_id]

end ScoreDecoding.Token
