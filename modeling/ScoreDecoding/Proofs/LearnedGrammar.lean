import Mathlib.Data.List.Infix
import ScoreDecoding.Grammar
import ScoreDecoding.Proofs.TokenSets

/-!
# Learned grammars

A grammar that is learned from sentences allows just the pairs of tokens that stand side by side in one of them. It is
written as a table without empty rows, each row with the names of its tokens, and the table is read back.

- `mem_neighbours_iff`: neighbours stand side by side in the sequence;
- `Grammar.ext_allows`: grammars that allow the same are equal, so that `ofSentences_congr` may reorder sentences;
- `row_foldl_setRow`: each row of a table is put in its place, and so a table is read back (`read?_text_eq`);
- `seen_of_ofSentences`: what is allowed and what conforms after learning, and that tables are read back.
-/

namespace ScoreDecoding

open Json

namespace Grammar

variable {g : Grammar} {ts : List Token} {a b : Token}

/-! ## Neighbours -/

theorem mem_neighbours_iff : (a, b) ∈ neighbours ts ↔ [a, b] <:+: ts := by
  induction ts with
  | nil => simp [neighbours]
  | cons t ts ih =>
    cases ts with
    | nil => simp [neighbours, List.infix_cons_iff]
    | cons u ts =>
      rw [List.infix_cons_iff, ← ih, List.cons_prefix_cons, List.cons_prefix_cons]
      simp [neighbours]

theorem conforms_iff_allows : g.conforms ts = true ↔ ∀ a b, [a, b] <:+: ts → g.allows a b = true := by
  rw [conforms_iff, Prod.forall]
  simp only [mem_neighbours_iff]

/-- Grammars that allow the same are equal. -/
theorem ext_allows {h : Grammar} (hallows : ∀ a b, g.allows a b = true ↔ h.allows a b = true) : g = h :=
  ext fun a => TokenSet.ext fun b => hallows a b

theorem allows_ofSentences_iff {ss : List (List Token)} :
    (ofSentences ss).allows a b = true ↔ ∃ s ∈ ss, [a, b] <:+: s := by
  simp only [allows_ofSentences, mem_neighbours_iff]

theorem conforms_ofSentences_iff {ss : List (List Token)} :
    (ofSentences ss).conforms ts = true ↔ ∀ a b, [a, b] <:+: ts → ∃ s ∈ ss, [a, b] <:+: s := by
  simp only [conforms_iff_allows, allows_ofSentences_iff]

/-- Sentences may be learned in any order, and any number of times. -/
theorem ofSentences_congr {ss ss' : List (List Token)} (h : ∀ s, s ∈ ss ↔ s ∈ ss') :
    ofSentences ss = ofSentences ss' :=
  ext_allows fun a b => by simp only [allows_ofSentences_iff, h]

/-! ## Tables -/

theorem plain (g : Grammar) {room : Nat} : Plain (room + 2) g.toJson :=
  .object (List.forall_mem_map.2 fun t _ => (g.row t).plain)

theorem readRows?_map (g h : Grammar) (ts : List Token) :
    h.readRows? (ts.map fun t => (some t.name, (g.row t).toJson)) =
      some (ts.foldl (fun h t => h.setRow t (g.row t)) h) := by
  induction ts generalizing h with
  | nil => rfl
  | cons t ts ih =>
    have hrow : h.readRow? (some t.name, (g.row t).toJson) = some (h.setRow t (g.row t)) :=
      bind_eq_of_eq (Token.ofName?_name t) (bind_eq_of_eq (g.row t).ofJson?_toJson rfl)
    rw [List.map_cons, readRows?, hrow, Option.bind_some, ih, List.foldl_cons]

/-- The rows that are put into a grammar replace those that stood there. -/
theorem row_foldl_setRow (g h : Grammar) (ts : List Token) (u : Token) :
    (ts.foldl (fun h t => h.setRow t (g.row t)) h).row u = if u ∈ ts then g.row u else h.row u := by
  induction ts generalizing h with
  | nil => rfl
  | cons t ts ih =>
    rw [List.foldl_cons, ih, row_setRow]
    by_cases hmem : u ∈ ts
    · simp [hmem]
    · by_cases hu : u = t
      · simp [hu]
      · simp [hmem, hu]

/-- Rows that are not written are empty. -/
theorem ofJson?_toJson (g : Grammar) : ofJson? g.toJson = some g := by
  show empty.readRows? (List.map _ (List.map _ _)) = _
  rw [List.map_map]
  refine (readRows?_map g empty _).trans (congrArg some (ext fun u => ?_))
  rw [row_foldl_setRow, row_empty]
  split
  · rfl
  · rename_i hmem
    have hempty : (g.row u).isEmpty = true := by
      by_contra hne
      exact hmem (List.mem_filter.2 ⟨Token.mem_all u, by simpa using hne⟩)
    exact TokenSet.ext fun t => iff_of_false (TokenSet.not_mem_empty t) (TokenSet.isEmpty_iff.1 hempty t)

/-- A table is read back from its text. -/
theorem read?_text_eq (g : Grammar) : read? g.text = some g := by
  rw [read?, text, parse?_compact (@plain g 0).wellFormed]
  exact g.ofJson?_toJson

example : (ofSentences [[.bom, .pitchC, .d4], [.bom, .s1]]).text =
    "\x7b\"BOM\":[\"S1\",\"c\"],\"c\":[\"D4\"]\x7d" := by
  decide +kernel

/-! ## What has been seen -/

/-- **A learned grammar allows just what it has seen.** So it lets all its sentences pass, and of the others those in
which nothing else stands side by side; neither the order of the sentences nor their number matters. Every grammar is
read back from the text of its table. -/
theorem seen_of_ofSentences (ss : List (List Token)) :
    (∀ a b, (ofSentences ss).allows a b = true ↔ ∃ s ∈ ss, [a, b] <:+: s) ∧
      (∀ s ∈ ss, (ofSentences ss).conforms s = true) ∧
      (∀ s, (ofSentences ss).conforms s = true ↔ ∀ a b, [a, b] <:+: s → ∃ seen ∈ ss, [a, b] <:+: seen) ∧
      (∀ ss', (∀ s, s ∈ ss' ↔ s ∈ ss) → ofSentences ss' = ofSentences ss) ∧
      ∀ g : Grammar, read? g.text = some g := by
  have hseen : ∀ s ∈ ss, (ofSentences ss).conforms s = true := fun s hs =>
    conforms_ofSentences_iff.2 fun a b hab => ⟨s, hs, hab⟩
  exact ⟨fun a b => allows_ofSentences_iff, hseen, fun s => conforms_ofSentences_iff, fun ss' => ofSentences_congr,
    read?_text_eq⟩

/-- Two sentences, the second of them seen twice and first. A note of one is followed by that of the other. -/
theorem seen_of_ofSentences_twoSentences :
    let quarter : List Token := [.bom, .pitchC, .d4, .eom]
    let eighths : List Token := [.bom, .pitchC, .d8, .pitchC, .d8, .eom]
    let g := ofSentences [quarter, eighths]
    (g.conforms quarter = true ∧ g.conforms eighths = true) ∧
      g.conforms [.bom, .pitchC, .d8, .pitchC, .d4, .eom] = true ∧ g.conforms [.bom, .d4, .eom] = false ∧
      (∀ s, s ∈ [eighths, quarter, eighths] ↔ s ∈ [quarter, eighths]) ∧
      ofSentences [eighths, quarter, eighths] = g ∧ read? g.text = some g := by
  intro quarter eighths g
  obtain ⟨-, hseen, -, horder, hread⟩ := seen_of_ofSentences [quarter, eighths]
  have hsame : ∀ s, s ∈ [eighths, quarter, eighths] ↔ s ∈ [quarter, eighths] := by
    intro s
    simp only [List.mem_cons, List.not_mem_nil, or_false]
    tauto
  exact ⟨⟨hseen quarter (by decide), hseen eighths (by decide)⟩, by decide +kernel, by decide +kernel, hsame,
    horder _ hsame, hread g⟩

end Grammar

end ScoreDecoding
