import ScoreDecoding.Token.Basic

/-!
# Predictors

A predictor takes inputs up to a length of its own. A run is given a list of predictors and moves on to the next one
whenever the growing input no longer fits; it never goes back.

- `Cursor.start` finds the first predictor for an input, if there is one (`isSome_current?_start`), and `Cursor.fit`
  moves on (`capacity_fit`);
- `Vocabulary` adapts a predictor whose ids are those of other words.
-/

namespace ScoreDecoding

/-- A place in a list of predictors: how many were passed, and the capacities of the others. -/
structure Cursor where
  passed : Nat
  capacities : List Nat
  deriving DecidableEq, Repr

namespace Cursor

/-- Passes over predictors that are too small, from an index on. -/
def skipSmall (length passed : Nat) : List Nat → Cursor
  | [] => ⟨passed, []⟩
  | n :: ns => if n < length then skipSmall length (passed + 1) ns else ⟨passed, n :: ns⟩

/-- The first predictor that takes an input of a length. -/
def start (capacities : List Nat) (length : Nat) : Cursor := skipSmall length 0 capacities

/-- Moves on to the first predictor that takes an input of a length. -/
def fit (c : Cursor) (length : Nat) : Cursor := skipSmall length c.passed c.capacities

/-- The index of the predictor in use, as long as there is one. -/
def current? (c : Cursor) : Option Nat := c.capacities.head?.map fun _ => c.passed

theorem capacity_skipSmall {length passed n : Nat} {ns : List Nat}
    (h : (skipSmall length passed ns).capacities.head? = some n) : length ≤ n := by
  fun_induction skipSmall length passed ns with
  | case1 => simp at h
  | case2 passed m ms hm ih => exact ih h
  | case3 passed m ms hm => simp only [List.head?_cons, Option.some.injEq] at h; omega

theorem capacity_fit {c : Cursor} {length n : Nat} (h : (c.fit length).capacities.head? = some n) : length ≤ n :=
  capacity_skipSmall h

/-- What is passed over is counted. -/
theorem capacities_skipSmall (length passed : Nat) (ns : List Nat) :
    ∃ k, (skipSmall length passed ns).passed = passed + k ∧
      (skipSmall length passed ns).capacities = ns.drop k := by
  fun_induction skipSmall length passed ns with
  | case1 passed => exact ⟨0, rfl, rfl⟩
  | case2 passed n ns hn ih =>
    obtain ⟨k, hk, hdrop⟩ := ih
    refine ⟨k + 1, ?_, ?_⟩
    · omega
    · rw [hdrop, List.drop_succ_cons]
  | case3 passed n ns hn => exact ⟨0, rfl, rfl⟩

/-- What is too small for an input is too small for a longer one. -/
theorem fit_skipSmall {short long passed : Nat} {ns : List Nat} (h : short ≤ long) :
    (skipSmall short passed ns).fit long = skipSmall long passed ns := by
  fun_induction skipSmall short passed ns with
  | case1 passed => rfl
  | case2 passed n ns hn ih =>
    have hlong : n < long := by omega
    rw [ih, skipSmall, if_pos hlong]
  | case3 passed n ns hn => rfl

theorem fit_start {capacities : List Nat} {short long : Nat} (h : short ≤ long) :
    (start capacities short).fit long = start capacities long :=
  fit_skipSmall h

theorem isSome_current?_skipSmall {length passed : Nat} {ns : List Nat} :
    (skipSmall length passed ns).current?.isSome = true ↔ ∃ n ∈ ns, length ≤ n := by
  fun_induction skipSmall length passed ns with
  | case1 passed => simp [current?]
  | case2 passed n ns hn ih =>
    rw [ih]
    simp only [List.mem_cons, exists_eq_or_imp]
    have hsmall : ¬ length ≤ n := by omega
    simp only [hsmall, false_or]
  | case3 passed n ns hn =>
    have hlarge : length ≤ n := by omega
    simp [current?, hlarge]

/-- There is a predictor to start with exactly if one is large enough. -/
theorem isSome_current?_start {capacities : List Nat} {length : Nat} :
    (start capacities length).current?.isSome = true ↔ ∃ n ∈ capacities, length ≤ n :=
  isSome_current?_skipSmall

end Cursor

/-! ## Predictors with other ids -/

/-- The words of a predictor, each at the place that is its id. -/
abbrev Vocabulary := List String

namespace Vocabulary

/-- The id of a token. -/
def idOf? (v : Vocabulary) (t : Token) : Option Nat := v.idxOf? t.name

/-- The wording for a token that a predictor does not know. -/
def missing (t : Token) : String := "token `" ++ t.name ++ "` is not in the predictor vocabulary"

/-- The ids of tokens. -/
def idsOf (v : Vocabulary) : List Token → Except String (List Nat)
  | [] => .ok []
  | t :: ts => match v.idOf? t with
    | some i => (v.idsOf ts).map (i :: ·)
    | none => .error (missing t)

/-- The input of a predictor: ids of descriptors, and then those of tokens. -/
def input (v : Vocabulary) (descriptors : List Nat) (ts : List Token) : Except String (List Nat) :=
  (v.idsOf ts).map (descriptors ++ ·)

/-- The logits by token id of the scores by word. A token without a score cannot come. -/
def logits (v : Vocabulary) (scores : Array Float) : Array Float :=
  (Token.all.map fun t => ((v.idOf? t).bind (scores[·]?)).getD (-1 / 0)).toArray

end Vocabulary

end ScoreDecoding
