import ScoreDecoding.Decoding.Validation
import ScoreDecoding.Proofs.Dialogue

/-!
# What a validator is asked and answers

Every question of `Validation` is the parse of one text, and its result is read off the measure of the answer.

- `validate_returns_ok`, `probeTail_returns_ok` and `isTimewarpInvalid_returns_ok` say of which text, and what is read;
- `HasSoundTimewarp` and `HasBrokenTimewarp` are the two reports on a sequence that is ended. A sequence may have
  neither, when the validator cannot read it, but never both (`HasSoundTimewarp.not_broken`).
- `Overflows` is the report that such a sequence is too long (`overflows_iff_of_parse`).
-/

namespace ScoreDecoding.Validation

variable {K : Collaborators} {ts : List Token}

/-! ## The text of a question -/

/-- The text that a sequence with a finished voice is asked about: a voice break at its end is read as the end of the
measure. -/
def endedText (ts : List Token) : String :=
  if ts.getLast? = some .vb then Token.code ts.dropLast (some .eom) else Token.code ts none

theorem endedText_of_not_vb (h : ts.getLast? ≠ some .vb) : endedText ts = Token.code ts none := if_neg h

/-- A last token may be given apart. -/
theorem code_append (ts : List Token) (t : Token) : Token.code (ts ++ [t]) none = Token.code ts (some t) := by
  simp [Token.code]

/-! ## Results -/

theorem validate_returns_ok {tail : Option Token} {m : Measure} :
    (validate ts tail).ReturnsWith K (.ok m) ↔ K (.parse (Token.code ts tail)) (.ok m) := by
  unfold validate
  simp only [Dialogue.returnsWith_map, Dialogue.returnsWith_parse]
  constructor
  · rintro ⟨r, hr, h⟩
    cases r with
    | ok n => cases h; exact hr
    | error reason => cases h
  · exact fun h => ⟨.ok m, h, rfl⟩

theorem probeTail_returns_ok {s : TailStatus} :
    (probeTail ts).ReturnsWith K (.ok s) ↔
      ∃ m, K (.parse (Token.code ts (some .eom))) (.ok m) ∧ s = m.tail := by
  unfold probeTail
  rw [Dialogue.returnsWith_map]
  constructor
  · rintro ⟨r, hr, h⟩
    cases r with
    | ok m => cases h; exact ⟨m, validate_returns_ok.1 hr, rfl⟩
    | error e => cases h
  · rintro ⟨m, hm, rfl⟩
    exact ⟨.ok m, validate_returns_ok.2 hm, rfl⟩

theorem validateEnded_returns_ok {m : Measure} :
    (validateEnded ts).ReturnsWith K (.ok m) ↔ K (.parse (endedText ts)) (.ok m) := by
  by_cases h : ts.getLast? = some .vb
  · rw [validateEnded, endedText, if_pos h, if_pos h]
    exact validate_returns_ok
  · rw [validateEnded, endedText, if_neg h, if_neg h]
    exact validate_returns_ok

theorem isTimewarpInvalid_returns_ok {invalid : Bool} :
    (isTimewarpInvalid ts).ReturnsWith K (.ok invalid) ↔
      ∃ m, K (.parse (endedText ts)) (.ok m) ∧ m.tail.invalidTimewarp = invalid := by
  unfold isTimewarpInvalid
  rw [Dialogue.returnsWith_map]
  constructor
  · rintro ⟨r, hr, h⟩
    cases r with
    | ok m => cases h; exact ⟨m, validateEnded_returns_ok.1 hr, rfl⟩
    | error e => cases h
  · rintro ⟨m, hm, rfl⟩
    exact ⟨.ok m, validateEnded_returns_ok.2 hm, rfl⟩

/-! ## Reports on a sequence that is ended -/

variable (validator : String → Except String Measure)

/-- The validator reads the sequence and finds no broken timewarp. -/
def HasSoundTimewarp (ts : List Token) : Prop :=
  ∃ m, validator (Token.code ts none) = .ok m ∧ m.tail.invalidTimewarp = false

/-- The validator reads the sequence and finds a broken timewarp. -/
def HasBrokenTimewarp (ts : List Token) : Prop :=
  ∃ m, validator (Token.code ts none) = .ok m ∧ m.tail.invalidTimewarp = true

/-- The validator reads the sequence and finds its last voice longer than the measure. -/
def Overflows (ts : List Token) : Prop :=
  ∃ m, validator (Token.code ts none) = .ok m ∧ m.tail.isOverflowing = true

variable {validator}

theorem validating_parse_iff {t : Token} {m : Measure} :
    Collaborators.validating validator (.parse (Token.code ts (some t))) (.ok m) ↔
      validator (Token.code (ts ++ [t]) none) = .ok m := by
  rw [code_append]
  exact eq_comm

theorem overflows_iff_of_parse {m : Measure}
    (hm : Collaborators.validating validator (.parse (Token.code ts (some .eom))) (.ok m)) :
    Overflows validator (ts ++ [.eom]) ↔ m.tail.isOverflowing = true := by
  have htext := validating_parse_iff.1 hm
  constructor
  · rintro ⟨n, hn, hlong⟩
    rw [htext] at hn
    cases hn
    exact hlong
  · exact fun hlong => ⟨m, htext, hlong⟩

theorem HasSoundTimewarp.not_broken (h : HasSoundTimewarp validator ts) : ¬ HasBrokenTimewarp validator ts := by
  obtain ⟨m, hm, hs⟩ := h
  rintro ⟨n, hn, hb⟩
  rw [hm] at hn
  cases hn
  rw [hs] at hb
  cases hb

/-- A sequence that does not end in a voice break is asked about as it is. -/
theorem isTimewarpInvalid_returns_iff (h : ts.getLast? ≠ some .vb) {invalid : Bool} :
    (isTimewarpInvalid ts).ReturnsWith (.validating validator) (.ok invalid) ↔
      if invalid then HasBrokenTimewarp validator ts else HasSoundTimewarp validator ts := by
  rw [isTimewarpInvalid_returns_ok, endedText_of_not_vb h]
  have swap : ∀ m : Measure, Collaborators.validating validator (.parse (Token.code ts none)) (.ok m) ↔
      validator (Token.code ts none) = .ok m := fun m => eq_comm
  simp only [swap]
  cases invalid <;> exact Iff.rfl

end ScoreDecoding.Validation
