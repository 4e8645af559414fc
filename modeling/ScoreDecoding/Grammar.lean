import ScoreDecoding.Token.Json

/-!
# Grammars

A grammar says which tokens may stand directly after a token. It is read from a table or learned from sentences: two
tokens that are neighbours in a valid sentence may be neighbours.

- `Grammar.allows` is the relation, and `Grammar.conforms` says that it holds between all neighbours of a sequence;
- `Grammar.ofSentences` learns: exactly the pairs that occur are allowed (`allows_ofSentences`);
- `Grammar.read?` and `Grammar.text` are the form as a table.
-/

namespace ScoreDecoding

/-- The sets of tokens that may follow each token, in id order. -/
structure Grammar where
  rows : Vector TokenSet Token.count
  deriving DecidableEq

namespace Grammar

/-- The grammar that allows nothing. -/
def empty : Grammar := ⟨Vector.replicate _ .empty⟩

/-- The tokens that may directly follow a token. -/
def row (g : Grammar) (t : Token) : TokenSet :=
  haveI := t.id_lt
  g.rows[t.id]

/-- Whether a token may directly follow another one. -/
def allows (g : Grammar) (before after : Token) : Bool := (g.row before).contains after

/-- The grammar with another row. -/
def setRow (g : Grammar) (t : Token) (row : TokenSet) : Grammar := ⟨g.rows.set t.id row t.id_lt⟩

/-- The grammar with one more pair. -/
def allow (g : Grammar) (before after : Token) : Grammar := g.setRow before ((g.row before).insert after)

/-- The pairs of neighbours in a sequence. -/
def neighbours (ts : List Token) : List (Token × Token) := ts.zip ts.tail

/-- The grammar with all neighbours of a sentence. -/
def learn (g : Grammar) (sentence : List Token) : Grammar :=
  (neighbours sentence).foldl (fun g pair => g.allow pair.1 pair.2) g

/-- The grammar of the neighbours in some sentences. -/
def ofSentences (sentences : List (List Token)) : Grammar := sentences.foldl learn empty

/-- Whether all neighbours of a sequence may be neighbours. -/
def conforms (g : Grammar) (ts : List Token) : Bool := (neighbours ts).all fun pair => g.allows pair.1 pair.2

/-! ## Rows -/

@[ext] theorem ext {g h : Grammar} (rows : ∀ t, g.row t = h.row t) : g = h := by
  obtain ⟨a⟩ := g
  obtain ⟨b⟩ := h
  congr 1
  apply Vector.ext
  intro i hi
  obtain ⟨t, rfl⟩ := Token.exists_id_eq hi
  exact rows t

@[simp] theorem row_empty (t : Token) : empty.row t = .empty := by simp [row, empty]

theorem row_setRow {g : Grammar} {t u : Token} {row : TokenSet} :
    (g.setRow t row).row u = if u = t then row else g.row u := by
  by_cases h : u = t
  · subst h; simp [setRow, Grammar.row]
  · have hid : t.id ≠ u.id := fun e => h (Token.id_injective e).symm
    simp [setRow, Grammar.row, h, hid]

/-! ## Learning -/

theorem allows_allow {g : Grammar} {a b c d : Token} :
    (g.allow a b).allows c d = true ↔ g.allows c d = true ∨ (c, d) = (a, b) := by
  unfold allow allows
  rw [row_setRow, Prod.ext_iff]
  by_cases h : c = a
  · subst h
    simp only [↓reduceIte, true_and]
    exact TokenSet.mem_insert
  · simp [h]

theorem allows_learn {g : Grammar} {s : List Token} {a b : Token} :
    (g.learn s).allows a b = true ↔ g.allows a b = true ∨ (a, b) ∈ neighbours s := by
  unfold learn
  generalize neighbours s = pairs
  induction pairs generalizing g with
  | nil => simp
  | cons p ps ih => rw [List.foldl_cons, ih, allows_allow, List.mem_cons, or_assoc]

theorem allows_foldl_learn {g : Grammar} {ss : List (List Token)} {a b : Token} :
    (ss.foldl learn g).allows a b = true ↔ g.allows a b = true ∨ ∃ s ∈ ss, (a, b) ∈ neighbours s := by
  induction ss generalizing g with
  | nil => simp
  | cons s ss ih => rw [List.foldl_cons, ih, allows_learn, or_assoc]; simp

theorem allows_ofSentences {ss : List (List Token)} {a b : Token} :
    (ofSentences ss).allows a b = true ↔ ∃ s ∈ ss, (a, b) ∈ neighbours s := by
  rw [ofSentences, allows_foldl_learn]
  have : empty.allows a b = false := by
    unfold allows; rw [row_empty]; exact Bool.eq_false_iff.2 (TokenSet.not_mem_empty b)
  simp [this]

theorem conforms_iff {g : Grammar} {ts : List Token} :
    g.conforms ts = true ↔ ∀ pair ∈ neighbours ts, g.allows pair.1 pair.2 = true := by
  simp [conforms]

/-! ## Tables -/

/-- The table of the rows that are not empty, in id order. -/
def toJson (g : Grammar) : Json :=
  .object ((Token.all.filter fun t => !(g.row t).isEmpty).map fun t => (t.name, (g.row t).toJson))

/-- Puts one row of a table into a grammar. -/
def readRow? (g : Grammar) (entry : Option String × Json) : Option Grammar := do
  let t ← entry.1.bind Token.ofName?
  let row ← TokenSet.ofJson? entry.2
  return g.setRow t row

/-- Puts the rows of a table into a grammar. Where a token has several rows the last one holds. -/
def readRows? (g : Grammar) : List (Option String × Json) → Option Grammar
  | [] => some g
  | entry :: rest => (g.readRow? entry).bind fun g => g.readRows? rest

/-- Reads a table. -/
def ofJson? : Json → Option Grammar
  | .obj fields => empty.readRows? fields
  | _ => none

/-- Reads the text of a table. -/
def read? (text : String) : Option Grammar := (Json.parse? text).bind ofJson?

/-- The text of the table. -/
def text (g : Grammar) : String := g.toJson.compact

end Grammar

end ScoreDecoding
