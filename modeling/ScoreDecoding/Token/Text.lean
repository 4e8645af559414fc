import ScoreDecoding.Token.Basic
import ScoreDecoding.Text.Words

/-!
# Token text

Tokens are written by name. `Token.code` is the form that a grammar validator reads, with one space between names;
`Token.lines` puts each voice on a line of its own. `Token.ofText` reads both: it splits a text at white space and
drops the words that name no token.

- a name is a word (`words_letters`), and its word names the token (`ofWord?_letters`).
-/

namespace ScoreDecoding.Token

/-- The name of a token as a list of characters. -/
def letters (t : Token) : List Char := t.name.toList

/-- What separates a token from the next one when voices stand on lines: a line break after a voice break. -/
def separator (t : Token) : Char := if t = .vb then '\n' else ' '

/-- Names with each voice on a line, as characters. -/
def lineChars : List Token → List Char
  | [] => []
  | [t] => t.letters
  | t :: u :: ts => t.letters ++ t.separator :: lineChars (u :: ts)

/-- Names with one space between them, as characters. -/
def codeChars (ts : List Token) : List Char := [' '].intercalate (ts.map letters)

/-- Names with each voice on a line. -/
def lines (ts : List Token) : String := String.ofList (lineChars ts)

/-- The names of a sequence that is closed by a last token, if there is one. -/
def code (ts : List Token) (tail : Option Token) : String := String.ofList (codeChars (ts ++ tail.toList))

/-- The token that a word names. -/
def ofWord? (word : List Char) : Option Token := ofName? (String.ofList word)

/-- The tokens named by the words of a text. -/
def ofText (text : String) : List Token := (Text.words text.toList).filterMap ofWord?

/-! ## Names are words -/

theorem ofWord?_letters (t : Token) : ofWord? t.letters = some t := by
  rw [ofWord?, letters, String.ofList_toList, ofName?_name]

theorem letters_ne_nil : ∀ t : Token, t.letters ≠ [] := by decide +kernel

theorem all_letters_not_blank : ∀ t : Token, (t.letters.all fun c => !Text.isBlank c) = true := by decide +kernel

theorem isBlank_of_mem_letters (t : Token) (c : Char) (h : c ∈ t.letters) : Text.isBlank c = false := by
  simpa using List.all_eq_true.1 (all_letters_not_blank t) c h

theorem isBlank_separator (t : Token) : Text.isBlank t.separator = true := by
  unfold separator; split <;> decide

theorem words_letters (t : Token) : Text.words t.letters = [t.letters] :=
  Text.words_of_no_blank (letters_ne_nil t) (isBlank_of_mem_letters t)

end ScoreDecoding.Token
