import ScoreDecoding.Text.LetterCase

/-!
# Text in lower case

Each character is replaced by its lower case. Two letters follow a rule of their own: the dotted capital I keeps
its dot as a combining sign, and a capital sigma becomes a final sigma at the end of a word.

- `lowerCase` writes a text in lower case; on ASCII it is the map of `Char.toLower` (`lowerCase_ascii`).
-/

namespace ScoreDecoding.Text

/-- The first character that is not passed over has a case. -/
def startsCased (cs : List Char) : Bool :=
  match cs.dropWhile isCaseIgnorable with
  | c :: _ => isCased c
  | [] => false

/-- The lower case of a character that stands after `before`, the nearest first, and before `after`. A capital sigma
ends a word if a letter with a case comes before it and none comes after it. -/
def lowerCaseAt (before : List Char) (c : Char) (after : List Char) : List Char :=
  if c.toNat < 0x80 then [c.toLower]
  else if c = 'Σ' then [if startsCased before && !startsCased after then 'ς' else 'σ']
  else if c = 'İ' then ['i', '\u0307']
  else [(lowerCase? c).getD c]

/-- The lower case of the text that stands after `before`, the nearest character first. -/
def lowerCaseAfter (before : List Char) : List Char → List Char
  | [] => []
  | c :: cs => lowerCaseAt before c cs ++ lowerCaseAfter (c :: before) cs

/-- A text in lower case. -/
def lowerCase (cs : List Char) : List Char := lowerCaseAfter [] cs

theorem lowerCaseAfter_ascii {before cs : List Char} (h : ∀ c ∈ cs, c.toNat < 0x80) :
    lowerCaseAfter before cs = cs.map Char.toLower := by
  induction cs generalizing before with
  | nil => rfl
  | cons c cs ih =>
    have hc := h c (List.mem_cons_self ..)
    simp only [lowerCaseAfter, lowerCaseAt, hc, ↓reduceIte, List.map_cons, List.singleton_append]
    rw [ih fun d hd => h d (List.mem_cons_of_mem _ hd)]

theorem lowerCase_ascii {cs : List Char} (h : ∀ c ∈ cs, c.toNat < 0x80) : lowerCase cs = cs.map Char.toLower :=
  lowerCaseAfter_ascii h

end ScoreDecoding.Text
