import ScoreDecoding.Decoding.Dialogue

/-!
# Dialogues with given collaborators

`Dialogue.Returns` leaves the answers open. Most statements about a decoder are about collaborators of a kind: a
validator that answers by the text alone, say, beside predictors that may answer anything.

- `Collaborators` are the answers that may be given, `Collaborators.validating` those of such a validator;
- `Dialogue.ReturnsWith` says which results these answers lead to, operator by operator (`returnsWith_bind`, ...);
- answers that depend on the questions alone lead to one result (`returnsWith_eval`), which can be computed.
-/

namespace ScoreDecoding

/-- Which answers the collaborators may give to a question. -/
abbrev Collaborators := (q : Query) → q.Answer → Prop

namespace Collaborators

/-- Any answers. -/
def any : Collaborators := fun _ _ => True

/-- A validator that answers by the text alone, and predictors that answer anything. -/
def validating (validator : String → Except String Measure) : Collaborators
  | .predict .., _ => True
  | .parse text, answer => answer = validator text

/-- Answers in which texts are parsed by a validator are answers beside it. -/
theorem validating_of_parse {validator : String → Except String Measure} {answer : (q : Query) → q.Answer}
    (h : ∀ text, answer (.parse text) = validator text) (q : Query) : validating validator q (answer q) := by
  cases q with
  | predict => trivial
  | parse text => exact h text

end Collaborators

namespace Dialogue

variable {α β : Type} {K : Collaborators}

/-- Some answers of the collaborators lead to this result. -/
inductive ReturnsWith (K : Collaborators) : Dialogue α → α → Prop
  | done (a : α) : ReturnsWith K (done a) a
  | ask (q : Query) (next : q.Answer → Dialogue α) (r : q.Answer) {a : α} :
      K q r → ReturnsWith K (next r) a → ReturnsWith K (ask q next) a

/-- What some answers lead to is a result. -/
theorem ReturnsWith.returns {d : Dialogue α} {a : α} (h : d.ReturnsWith K a) : d.Returns a := by
  induction h with
  | done a => exact .done a
  | ask q next r _ _ ih => exact .ask q next r ih

/-- More answers lead to more results. -/
theorem ReturnsWith.mono {K' : Collaborators} (hK : ∀ q r, K q r → K' q r) {d : Dialogue α} {a : α}
    (h : d.ReturnsWith K a) : d.ReturnsWith K' a := by
  induction h with
  | done a => exact .done a
  | ask q next r hr _ ih => exact .ask q next r (hK q r hr) ih

/-- All answers lead to all results. -/
theorem returnsWith_any {d : Dialogue α} {a : α} : d.ReturnsWith .any a ↔ d.Returns a := by
  refine ⟨ReturnsWith.returns, fun h => ?_⟩
  induction h with
  | done a => exact .done a
  | ask q next r _ ih => exact .ask q next r trivial ih

/-! ## Results of the operators -/

@[simp] theorem returnsWith_done {a b : α} : (done a).ReturnsWith K b ↔ b = a := by
  constructor
  · intro h
    cases h
    rfl
  · rintro rfl
    exact .done b

@[simp] theorem returnsWith_ask {q : Query} {next : q.Answer → Dialogue α} {a : α} :
    (ask q next).ReturnsWith K a ↔ ∃ r, K q r ∧ (next r).ReturnsWith K a :=
  ⟨fun h => by cases h with | ask _ _ r hr h => exact ⟨r, hr, h⟩, fun ⟨r, hr, h⟩ => .ask q next r hr h⟩

@[simp] theorem returnsWith_bind {d : Dialogue α} {f : α → Dialogue β} {b : β} :
    (d.bind f).ReturnsWith K b ↔ ∃ a, d.ReturnsWith K a ∧ (f a).ReturnsWith K b := by
  induction d with
  | done a => simp [bind]
  | ask q next ih =>
    simp only [bind, returnsWith_ask, ih]
    constructor
    · rintro ⟨r, hr, a, ha, hb⟩
      exact ⟨a, ⟨r, hr, ha⟩, hb⟩
    · rintro ⟨a, ⟨r, hr, ha⟩, hb⟩
      exact ⟨r, hr, a, ha, hb⟩

@[simp] theorem returnsWith_map {d : Dialogue α} {f : α → β} {b : β} :
    (d.map f).ReturnsWith K b ↔ ∃ a, d.ReturnsWith K a ∧ b = f a := by
  simp [map]

@[simp] theorem returnsWith_predict {i : Nat} {descriptors : List Nat} {ts : List Token}
    {r : Except String (Array Float)} :
    (predict i descriptors ts).ReturnsWith K r ↔ K (.predict i descriptors ts) r := by
  refine returnsWith_ask.trans ⟨?_, fun h => ⟨r, h, .done r⟩⟩
  rintro ⟨s, hs, h⟩
  exact returnsWith_done.1 h ▸ hs

@[simp] theorem returnsWith_parse {text : String} {r : Except String Measure} :
    (parse text).ReturnsWith K r ↔ K (.parse text) r := by
  refine returnsWith_ask.trans ⟨?_, fun h => ⟨r, h, .done r⟩⟩
  rintro ⟨s, hs, h⟩
  exact returnsWith_done.1 h ▸ hs

/-- Carrying the proofs along changes no result. -/
@[simp] theorem returnsWith_attach {d : Dialogue α} {x : { a // d.Returns a }} :
    d.attach.ReturnsWith K x ↔ d.ReturnsWith K x.1 := by
  induction d with
  | done a =>
    rw [attach, returnsWith_done, returnsWith_done]
    exact Subtype.ext_iff
  | ask q next ih =>
    simp only [attach, returnsWith_ask, returnsWith_map]
    constructor
    · rintro ⟨r, hr, y, hy, rfl⟩
      exact ⟨r, hr, (ih r).1 hy⟩
    · rintro ⟨r, hr, h⟩
      exact ⟨r, hr, ⟨x.1, h.returns⟩, (ih r).2 h, rfl⟩

/-! ## Laws of the operators -/

theorem bind_assoc {γ : Type} (d : Dialogue α) (f : α → Dialogue β) (g : β → Dialogue γ) :
    (d.bind f).bind g = d.bind fun a => (f a).bind g := by
  induction d with
  | done a => rfl
  | ask q next ih =>
    simp only [bind]
    congr 1
    funext r
    exact ih r

theorem map_id (d : Dialogue α) : d.map id = d := by
  induction d with
  | done a => rfl
  | ask q next ih =>
    show ask q (fun r => (next r).map id) = _
    congr 1
    funext r
    exact ih r

theorem map_map {γ : Type} (d : Dialogue α) (f : α → β) (g : β → γ) : (d.map f).map g = d.map fun a => g (f a) :=
  bind_assoc d (fun a => done (f a)) fun b => done (g b)

/-! ## Answers that depend on the questions alone -/

variable {answer : (q : Query) → q.Answer}

/-- Answers that the collaborators may give lead to a result that they lead to. -/
theorem returnsWith_eval (h : ∀ q, K q (answer q)) (d : Dialogue α) : d.ReturnsWith K (d.eval answer) := by
  induction d with
  | done a => exact .done a
  | ask q next ih => exact .ask q next (answer q) (h q) (ih (answer q))

end Dialogue

end ScoreDecoding
