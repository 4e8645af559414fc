import ScoreDecoding.Proofs.Validation

/-!
# The questions of a dialogue

`Dialogue.ReturnsWith` forgets what was asked on the way to a result. What is said of the questions themselves, such as
how many there are or which texts the validator is shown, is about a dialogue together with its questions in order.

- `Dialogue.Asks` are the results of a dialogue with the questions that lead to them, operator by operator
  (`asks_bind`, ...); every result has its questions (`returnsWith_iff_asks`);
- `Collaborators.Reliable` collaborators answer every question and never fail, so that every dialogue with them has a
  result (`exists_asks`);
- `probeTail_asks` and `isTimewarpInvalid_asks`: the validator is asked about one text, and `endedText_concat` says
  about which one when a voice ends.
-/

namespace ScoreDecoding

namespace Query

/-- Whether a question is one to a predictor. -/
def isPrediction : Query → Bool
  | .predict .. => true
  | .parse _ => false

/-- Whether a question is one to the validator. -/
def isParse : Query → Bool
  | .predict .. => false
  | .parse _ => true

/-- Which predictor is asked. -/
def predictor? : Query → Option Nat
  | .predict index _ _ => some index
  | .parse _ => none

/-- An answer that is not the reason of a failure. -/
def Succeeds : (q : Query) → q.Answer → Prop
  | .predict .., answer => ∃ logits, answer = .ok logits
  | .parse _, answer => ∃ measure, answer = .ok measure

end Query

namespace Collaborators

/-- Collaborators that have an answer to every question, and never fail. -/
structure Reliable (K : Collaborators) : Prop where
  answers : ∀ q, ∃ r, K q r
  succeeds : ∀ q r, K q r → q.Succeeds r

/-- Collaborators that answer by the questions alone. -/
def exactly (answer : (q : Query) → q.Answer) : Collaborators := fun q r => r = answer q

theorem reliable_exactly {answer : (q : Query) → q.Answer} (h : ∀ q : Query, q.Succeeds (answer q)) :
    (exactly answer).Reliable where
  answers q := ⟨answer q, rfl⟩
  succeeds q _ hr := hr ▸ h q

end Collaborators

namespace Dialogue

variable {α β : Type} {K : Collaborators} {qs : List Query}

/-- Answers that depend on the questions alone lead to one result. -/
theorem ReturnsWith.unique {d : Dialogue α} {answer : (q : Query) → q.Answer} {a b : α}
    (ha : d.ReturnsWith (.exactly answer) a) (hb : d.ReturnsWith (.exactly answer) b) : a = b := by
  induction ha with
  | done a => exact (returnsWith_done.1 hb).symm
  | ask q next r hr _ ih =>
    obtain ⟨r', hr', hb⟩ := returnsWith_ask.1 hb
    obtain rfl : r = r' := hr.trans hr'.symm
    exact ih hb

/-- Some answers of the collaborators to these questions, in this order, lead to this result. -/
inductive Asks (K : Collaborators) : Dialogue α → List Query → α → Prop
  | done (a : α) : Asks K (done a) [] a
  | ask (q : Query) (next : q.Answer → Dialogue α) (r : q.Answer) {qs : List Query} {a : α} :
      K q r → Asks K (next r) qs a → Asks K (ask q next) (q :: qs) a

/-- Every result has its questions. -/
theorem returnsWith_iff_asks {d : Dialogue α} {a : α} : d.ReturnsWith K a ↔ ∃ qs, d.Asks K qs a := by
  constructor
  · intro h
    induction h with
    | done a => exact ⟨[], .done a⟩
    | ask q next r hr _ ih =>
      obtain ⟨qs, hqs⟩ := ih
      exact ⟨q :: qs, .ask q next r hr hqs⟩
  · rintro ⟨qs, h⟩
    induction h with
    | done a => exact .done a
    | ask q next r hr _ ih => exact .ask q next r hr ih

theorem Asks.returnsWith {d : Dialogue α} {a : α} (h : d.Asks K qs a) : d.ReturnsWith K a :=
  returnsWith_iff_asks.2 ⟨qs, h⟩

/-- Where every question has an answer, there is a result. -/
theorem exists_asks (hK : ∀ q, ∃ r, K q r) (d : Dialogue α) : ∃ qs a, d.Asks K qs a := by
  induction d with
  | done a => exact ⟨[], a, .done a⟩
  | ask q next ih =>
    obtain ⟨r, hr⟩ := hK q
    obtain ⟨qs, a, h⟩ := ih r
    exact ⟨q :: qs, a, .ask q next r hr h⟩

/-! ## Questions of the operators -/

@[simp] theorem asks_done {a b : α} : (done a).Asks K qs b ↔ qs = [] ∧ b = a := by
  constructor
  · intro h
    cases h
    exact ⟨rfl, rfl⟩
  · rintro ⟨rfl, rfl⟩
    exact .done b

theorem asks_ask {q : Query} {next : q.Answer → Dialogue α} {a : α} :
    (ask q next).Asks K qs a ↔ ∃ r rest, K q r ∧ (next r).Asks K rest a ∧ qs = q :: rest := by
  constructor
  · intro h
    cases h with
    | ask _ _ r hr h => exact ⟨r, _, hr, h, rfl⟩
  · rintro ⟨r, rest, hr, h, rfl⟩
    exact .ask q next r hr h

/-- The questions of what goes on come after those of the dialogue that it goes on from. -/
theorem asks_bind {d : Dialogue α} {f : α → Dialogue β} {b : β} :
    (d.bind f).Asks K qs b ↔ ∃ before after a, d.Asks K before a ∧ (f a).Asks K after b ∧ qs = before ++ after := by
  induction d generalizing qs with
  | done a =>
    constructor
    · intro h
      exact ⟨[], qs, a, .done a, h, rfl⟩
    · rintro ⟨before, after, a', ha, hb, rfl⟩
      obtain ⟨rfl, rfl⟩ := asks_done.1 ha
      exact hb
  | ask q next ih =>
    simp only [bind, asks_ask, ih]
    constructor
    · rintro ⟨r, rest, hr, ⟨before, after, a, ha, hb, rfl⟩, rfl⟩
      exact ⟨q :: before, after, a, ⟨r, before, hr, ha, rfl⟩, hb, rfl⟩
    · rintro ⟨before, after, a, ⟨r, rest, hr, ha, rfl⟩, hb, rfl⟩
      exact ⟨r, rest ++ after, hr, ⟨rest, after, a, ha, hb, rfl⟩, rfl⟩

theorem asks_map {d : Dialogue α} {f : α → β} {b : β} :
    (d.map f).Asks K qs b ↔ ∃ a, d.Asks K qs a ∧ b = f a := by
  unfold map
  rw [asks_bind]
  constructor
  · rintro ⟨before, after, a, ha, hb, rfl⟩
    obtain ⟨rfl, rfl⟩ := asks_done.1 hb
    exact ⟨a, (List.append_nil before).symm ▸ ha, rfl⟩
  · rintro ⟨a, ha, rfl⟩
    exact ⟨qs, [], a, ha, .done _, (List.append_nil qs).symm⟩

theorem asks_predict {i : Nat} {descriptors : List Nat} {ts : List Token} {r : Except String (Array Float)} :
    (predict i descriptors ts).Asks K qs r ↔
      K (.predict i descriptors ts) r ∧ qs = [.predict i descriptors ts] := by
  refine asks_ask.trans ⟨?_, ?_⟩
  · rintro ⟨s, rest, hs, h, rfl⟩
    obtain ⟨rfl, rfl⟩ := asks_done.1 h
    exact ⟨hs, rfl⟩
  · rintro ⟨h, rfl⟩
    exact ⟨r, [], h, .done r, rfl⟩

theorem asks_parse {text : String} {r : Except String Measure} :
    (parse text).Asks K qs r ↔ K (.parse text) r ∧ qs = [.parse text] := by
  refine asks_ask.trans ⟨?_, ?_⟩
  · rintro ⟨s, rest, hs, h, rfl⟩
    obtain ⟨rfl, rfl⟩ := asks_done.1 h
    exact ⟨hs, rfl⟩
  · rintro ⟨h, rfl⟩
    exact ⟨r, [], h, .done r, rfl⟩

/-- Carrying the proofs along asks nothing more. -/
theorem asks_attach {d : Dialogue α} {x : { a // d.Returns a }} : d.attach.Asks K qs x ↔ d.Asks K qs x.1 := by
  induction d generalizing qs with
  | done a =>
    rw [attach, asks_done, asks_done]
    exact and_congr_right fun _ => Subtype.ext_iff
  | ask q next ih =>
    simp only [attach, asks_ask, asks_map]
    constructor
    · rintro ⟨r, rest, hr, ⟨y, hy, rfl⟩, rfl⟩
      exact ⟨r, rest, hr, (ih r).1 hy, rfl⟩
    · rintro ⟨r, rest, hr, h, rfl⟩
      exact ⟨r, rest, hr, ⟨⟨x.1, h.returnsWith.returns⟩, (ih r).2 h, rfl⟩, rfl⟩

end Dialogue

namespace Validation

variable {K : Collaborators} {ts : List Token} {qs : List Query}

/-! ## Questions to the validator -/

theorem validate_asks {tail : Option Token} {r : Except DecodingError Measure}
    (h : (validate ts tail).Asks K qs r) : qs = [.parse (Token.code ts tail)] := by
  obtain ⟨a, ha, -⟩ := Dialogue.asks_map.1 h
  exact (Dialogue.asks_parse.1 ha).2

theorem probeTail_asks {r : Except DecodingError TailStatus} (h : (probeTail ts).Asks K qs r) :
    qs = [.parse (Token.code ts (some .eom))] := by
  obtain ⟨a, ha, -⟩ := Dialogue.asks_map.1 h
  exact validate_asks ha

theorem isTimewarpInvalid_asks {r : Except DecodingError Bool} (h : (isTimewarpInvalid ts).Asks K qs r) :
    qs = [.parse (endedText ts)] := by
  obtain ⟨a, ha, -⟩ := Dialogue.asks_map.1 h
  unfold validateEnded at ha
  unfold endedText
  split at ha
  · rename_i hv
    rw [if_pos hv]
    exact validate_asks ha
  · rename_i hv
    rw [if_neg hv]
    exact validate_asks ha

/-- A voice that ends is asked about as if the measure ended with it. -/
theorem endedText_concat {t : Token} (ht : t = .vb ∨ t = .eom) :
    endedText (ts ++ [t]) = Token.code ts (some .eom) := by
  rcases ht with rfl | rfl
  · rw [endedText, if_pos List.getLast?_concat, List.dropLast_concat]
  · have hne : (ts ++ [Token.eom]).getLast? ≠ some .vb := by simp
    rw [endedText_of_not_vb hne, code_append]

/-! ## Reliable collaborators -/

theorem validate_ok (hK : K.Reliable) {tail : Option Token} {r : Except DecodingError Measure}
    (h : (validate ts tail).ReturnsWith K r) : ∃ m, r = .ok m := by
  obtain ⟨answer, ha, rfl⟩ := Dialogue.returnsWith_map.1 h
  obtain ⟨m, rfl⟩ := hK.succeeds _ _ (Dialogue.returnsWith_parse.1 ha)
  exact ⟨m, rfl⟩

theorem probeTail_ok (hK : K.Reliable) {r : Except DecodingError TailStatus}
    (h : (probeTail ts).ReturnsWith K r) : ∃ status, r = .ok status := by
  obtain ⟨answer, ha, rfl⟩ := Dialogue.returnsWith_map.1 h
  obtain ⟨m, rfl⟩ := validate_ok hK ha
  exact ⟨m.tail, rfl⟩

theorem isTimewarpInvalid_ok (hK : K.Reliable) {r : Except DecodingError Bool}
    (h : (isTimewarpInvalid ts).ReturnsWith K r) : ∃ invalid, r = .ok invalid := by
  obtain ⟨answer, ha, rfl⟩ := Dialogue.returnsWith_map.1 h
  unfold validateEnded at ha
  split at ha
  · obtain ⟨m, rfl⟩ := validate_ok hK ha
    exact ⟨m.tail.invalidTimewarp, rfl⟩
  · obtain ⟨m, rfl⟩ := validate_ok hK ha
    exact ⟨m.tail.invalidTimewarp, rfl⟩

end Validation

end ScoreDecoding
