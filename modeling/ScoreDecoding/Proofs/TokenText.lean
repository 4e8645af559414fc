import ScoreDecoding.Token.Text

/-!
# Token text reads back

A sequence is written by the names of its tokens, with one white space character between them: always a blank where a
validator reads the text, and a line break where a voice stands on its own line. Names are words, so whatever stands
between them the words of the text are the names, and the text reads back as the sequence.

- `Spells` says that a text spells out a sequence; both forms do (`spells_lineChars`, `spells_codeChars`);
- `ofText_of_spells`: what spells out a sequence reads back as it, and so `ofText_written` do both forms.
-/

namespace ScoreDecoding.Token

/-- Characters spell out a sequence: its names, with a white space character between them. -/
inductive Spells : List Token → List Char → Prop
  | nil : Spells [] []
  | single (t : Token) : Spells [t] t.letters
  | cons (t : Token) {c : Char} {u : Token} {ts : List Token} {cs : List Char} :
      Text.isBlank c = true → Spells (u :: ts) cs → Spells (t :: u :: ts) (t.letters ++ c :: cs)

variable {ts : List Token} {cs : List Char}

/-- The words of a text that spells out a sequence are the names. -/
theorem Spells.words_eq (h : Spells ts cs) : Text.words cs = ts.map letters := by
  induction h with
  | nil => rfl
  | single t => exact words_letters t
  | cons t hblank _ ih =>
    rw [Text.words_append_blank _ _ hblank, words_letters, ih]
    rfl

theorem ofText_of_spells (h : Spells ts cs) : ofText (String.ofList cs) = ts := by
  have hword : ofWord? ∘ letters = some := funext ofWord?_letters
  rw [ofText, String.toList_ofList, h.words_eq, List.filterMap_map, hword, List.filterMap_some]

/-! ## The two forms -/

theorem spells_lineChars (ts : List Token) : Spells ts (lineChars ts) := by
  fun_induction lineChars ts with
  | case1 => exact .nil
  | case2 t => exact .single t
  | case3 t u ts ih => exact .cons t (isBlank_separator t) ih

theorem spells_codeChars (ts : List Token) : Spells ts (codeChars ts) := by
  induction ts with
  | nil => exact .nil
  | cons t ts ih =>
    cases ts with
    | nil =>
      have hcode : codeChars [t] = t.letters := List.append_nil _
      rw [hcode]
      exact .single t
    | cons u ts =>
      have hcode : codeChars (t :: u :: ts) = t.letters ++ ' ' :: codeChars (u :: ts) := by
        simp [codeChars, List.intercalate]
      rw [hcode]
      exact .cons t (by decide) ih

/-- The text of a sequence reads back as the sequence, with its last token. -/
theorem ofText_code (ts : List Token) (tail : Option Token) : ofText (code ts tail) = ts ++ tail.toList :=
  ofText_of_spells (spells_codeChars _)

/-- **What is written of a sequence reads back as the sequence**, with each voice on a line and with blanks only, where
a last token may be added. -/
theorem ofText_written (ts : List Token) :
    ofText (lines ts) = ts ∧ ∀ tail : Option Token, ofText (code ts tail) = ts ++ tail.toList :=
  ⟨ofText_of_spells (spells_lineChars ts), ofText_code ts⟩

example : lines [.bom, .pitchC, .vb, .vb, .eom] = "BOM c VB\nVB\nEOM" := by decide +kernel

end ScoreDecoding.Token
