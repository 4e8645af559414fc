import ScoreDecoding.Measure.Basic

/-!
# Dialogues with predictors and a validator

A decoder asks two kinds of questions: a predictor for the logits of the next token, and a validator for the measure
that a text denotes. A dialogue is a computation that may ask; whoever runs it gives the answers, so that a statement
about all answers is a statement about all predictors and validators.

- `Dialogue.run` answers the questions in a monad, and `Dialogue.eval` by functions;
- `Dialogue.Returns` says which results some answers lead to, and `attach` hands the proof on to what follows.
-/

namespace ScoreDecoding

/-- A question to a collaborator. -/
inductive Query
  /-- The logits of the next token, from the predictor with an index. -/
  | predict (index : Nat) (descriptors : List Nat) (tokens : List Token)
  /-- The measure that a text denotes. -/
  | parse (text : String)
  deriving DecidableEq

/-- What a question is answered with: logits by token id, or a measure; or the reason of a failure. -/
def Query.Answer : Query → Type
  | .predict .. => Except String (Array Float)
  | .parse _ => Except String Measure

/-- A computation that may ask. -/
inductive Dialogue (α : Type) : Type
  | done (a : α)
  | ask (q : Query) (next : q.Answer → Dialogue α)

namespace Dialogue

variable {α β : Type}

/-- Goes on with the result of a dialogue. -/
def bind : Dialogue α → (α → Dialogue β) → Dialogue β
  | done a, f => f a
  | ask q next, f => ask q fun r => (next r).bind f

/-- A dialogue with its result changed. -/
def map (f : α → β) (d : Dialogue α) : Dialogue β := d.bind fun a => done (f a)

instance : Monad Dialogue where
  pure := done
  bind := bind

/-- Asks a predictor. -/
def predict (index : Nat) (descriptors : List Nat) (tokens : List Token) : Dialogue (Except String (Array Float)) :=
  ask (.predict index descriptors tokens) done

/-- Asks the validator. -/
def parse (text : String) : Dialogue (Except String Measure) := ask (.parse text) done

/-- Runs a dialogue with answers from a monad. -/
def run {m : Type → Type} [Monad m] (answer : (q : Query) → m q.Answer) : Dialogue α → m α
  | done a => pure a
  | ask q next => answer q >>= fun r => (next r).run answer

/-- Runs a dialogue with answers that depend on the questions alone. -/
def eval (answer : (q : Query) → q.Answer) : Dialogue α → α
  | done a => a
  | ask q next => (next (answer q)).eval answer

/-- Some answers lead to this result. -/
inductive Returns : Dialogue α → α → Prop
  | done (a : α) : Returns (done a) a
  | ask (q : Query) (next : q.Answer → Dialogue α) (r : q.Answer) {a : α} : Returns (next r) a → Returns (ask q next) a

/-- The dialogue whose results come with the proof that they are results. -/
def attach : (d : Dialogue α) → Dialogue { a // d.Returns a }
  | done a => done ⟨a, .done a⟩
  | ask q next => ask q fun r => (next r).attach.map fun a => ⟨a.1, .ask q next r a.2⟩

/-! ## Results -/

@[simp] theorem returns_done {a b : α} : (done a).Returns b ↔ b = a :=
  ⟨fun h => by cases h; rfl, fun h => h ▸ .done a⟩

@[simp] theorem returns_ask {q : Query} {next : q.Answer → Dialogue α} {a : α} :
    (ask q next).Returns a ↔ ∃ r, (next r).Returns a :=
  ⟨fun h => by cases h with | ask _ _ r h => exact ⟨r, h⟩, fun ⟨r, h⟩ => .ask q next r h⟩

@[simp] theorem returns_bind {d : Dialogue α} {f : α → Dialogue β} {b : β} :
    (d.bind f).Returns b ↔ ∃ a, d.Returns a ∧ (f a).Returns b := by
  induction d with
  | done a => simp [bind]
  | ask q next ih =>
    simp only [bind, returns_ask, ih]
    exact ⟨fun ⟨r, a, h, hb⟩ => ⟨a, ⟨r, h⟩, hb⟩, fun ⟨a, ⟨r, h⟩, hb⟩ => ⟨r, a, h, hb⟩⟩

@[simp] theorem returns_map {d : Dialogue α} {f : α → β} {b : β} :
    (d.map f).Returns b ↔ ∃ a, d.Returns a ∧ b = f a := by
  simp [map]

end Dialogue

end ScoreDecoding
