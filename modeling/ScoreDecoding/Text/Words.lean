/-!
# Words of a text

A text is split into words at its white space.

- `isBlank` is the property White_Space of Unicode;
- `words` are the longest runs without white space, and `words_append_blank` splits a text at a blank.
-/

namespace ScoreDecoding.Text

/-- White space of Unicode. -/
def isBlank (c : Char) : Bool :=
  let n := c.toNat
  (0x09 ≤ n && n ≤ 0x0d) || n == 0x20 || n == 0x85 || n == 0xa0 || n == 0x1680 || (0x2000 ≤ n && n ≤ 0x200a)
    || n == 0x2028 || n == 0x2029 || n == 0x202f || n == 0x205f || n == 0x3000

/-- The words of a text: its parts between white space that are not empty. -/
def words (cs : List Char) : List (List Char) := (cs.splitOnP isBlank).filter (!·.isEmpty)

@[simp] theorem words_nil : words [] = [] := rfl

/-- A blank ends a word. -/
theorem words_append_blank (cs ds : List Char) {c : Char} (h : isBlank c = true) :
    words (cs ++ c :: ds) = words cs ++ words ds := by
  simp [words, List.splitOnP_append_cons _ _ h]

/-- A text without white space is one word. -/
theorem words_of_no_blank {cs : List Char} (hne : cs ≠ []) (h : ∀ c ∈ cs, isBlank c = false) : words cs = [cs] := by
  simp [words, List.splitOnP_eq_singleton h, hne]

end ScoreDecoding.Text
