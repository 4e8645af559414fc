import ScoreDecoding.Token.Group

/-!
# Runs of invisible rests

An invisible rest is written as a pitch letter, a division and the space sign. A run of two or more with the same
division is merged into one longer rest, dotted for runs of three or seven, and as many of the old ones as the longer
rest does not cover. Longer divisions are merged first, and merging goes on until no run is left.

- `Spaces.pieces` cuts a sequence into runs of spaces and other tokens; nothing is lost (`tokens_pieces`);
- `Spaces.combine` merges all runs. It ends because each merge makes the sequence shorter (`length_of_mergeOnce?`).
-/

namespace ScoreDecoding.Spaces

/-- A run of spaces with one division, or a token outside of spaces. -/
inductive Piece
  | token (t : Token)
  /-- The pitch letters of the spaces, of which there is at least one, and what stands for their division. -/
  | run (letter : Token) (letters : List Token) (division : Token)
  deriving DecidableEq, Repr

/-- The tokens of one space. -/
def space (letter division : Token) : List Token := [letter, division, .space]

/-- The tokens of a piece. -/
def Piece.tokens : Piece → List Token
  | .token t => [t]
  | .run l ls d => (l :: ls).flatMap (space · d)

/-- Puts a space in front of pieces: into the first one if it is a run with the same division. -/
def consSpace (letter division : Token) : List Piece → List Piece
  | .run l ls d :: ps =>
    if d = division then .run letter (l :: ls) d :: ps else .run letter [] division :: .run l ls d :: ps
  | ps => .run letter [] division :: ps

/-- Cuts a sequence into longest runs of spaces and other tokens. -/
def pieces : List Token → List Piece
  | [] => []
  | t :: d :: .space :: after =>
    if t.group = .letter then consSpace t d (pieces after) else .token t :: pieces (d :: .space :: after)
  | t :: rest => .token t :: pieces rest

/-! ## One merge -/

/-- How a run of spaces is merged: by how many steps the division gets longer, with how many dots, and how many
spaces are left over. -/
structure Merge where
  shift : Nat
  dots : Nat
  residue : Nat
  deriving DecidableEq, Repr

/-- The merge of `n` spaces whose division has an exponent. The exponent falls as far as the number of spaces allows,
and a run of three or seven takes dots. -/
def Merge.of (exponent n : Nat) : Merge :=
  let shift := min exponent n.log2
  let dots := min (if n = 3 then 1 else if n = 7 then 2 else 0) shift
  { shift, dots, residue := n - ((1 <<< (shift + 1)) - (1 <<< (shift - dots))) }

/-- The exponent of a division other than that of a whole note. -/
def exponent? (division : Token) : Option Nat :=
  match ValueTable.division.value? division with
  | some e => if 0 < e then some e.toNat else none
  | none => none

/-- The exponent of a run that can be merged. -/
def Piece.exponent? : Piece → Option Nat
  | .run _ (_ :: _) d => Spaces.exponent? d
  | _ => none

/-- The tokens of a piece after its run has been merged. -/
def Piece.merged (p : Piece) (exponent : Nat) : List Token :=
  match p with
  | .token t => [t]
  | .run l ls d =>
    let m := Merge.of exponent (ls.length + 1)
    match ValueTable.division.token? (exponent - m.shift : Nat) with
    | some longer =>
      l :: longer :: List.replicate m.dots .dot ++ .space :: (List.replicate m.residue (space l d)).flatten
    | none => p.tokens

/-- The smallest exponent of the runs that can be merged; it belongs to the longest division. -/
def longest? (ps : List Piece) : Option Nat := (ps.filterMap Piece.exponent?).min?

/-- The tokens of pieces after the first run with an exponent has been merged. -/
def mergeFirst (exponent : Nat) : List Piece → List Token
  | [] => []
  | p :: ps =>
    if p.exponent? = some exponent then p.merged exponent ++ ps.flatMap Piece.tokens
    else p.tokens ++ mergeFirst exponent ps

/-- Merges the first run of the longest division, if there is a run. -/
def mergeOnce? (ts : List Token) : Option (List Token) :=
  (longest? (pieces ts)).map fun e => mergeFirst e (pieces ts)

/-! ## Merging ends -/

theorem tokens_consSpace (l d : Token) (ps : List Piece) :
    (consSpace l d ps).flatMap Piece.tokens = l :: d :: .space :: ps.flatMap Piece.tokens := by
  unfold consSpace
  split
  · split
    · rename_i h; subst h; simp [Piece.tokens, space]
    · simp [Piece.tokens, space]
  · simp [Piece.tokens, space]

theorem tokens_pieces (ts : List Token) : (pieces ts).flatMap Piece.tokens = ts := by
  fun_induction pieces ts with
  | case1 => rfl
  | case2 t d after h ih => rw [tokens_consSpace, ih]
  | case3 t d after h ih => simp [Piece.tokens, ih]
  | case4 t rest h ih => simp [Piece.tokens, ih]

theorem exponent?_bounds {d : Token} {e : Nat} (h : exponent? d = some e) : 0 < e ∧ e ≤ 8 := by
  revert h
  have : ∀ d : Token, ∀ e ∈ exponent? d, 0 < e ∧ e ≤ 8 := by decide +kernel
  exact this d e

theorem exists_division {k : Nat} (h : k ≤ 8) : ∃ d, ValueTable.division.token? (k : Nat) = some d := by
  have : ∀ k < 9, (ValueTable.division.token? (k : Nat)).isSome := by decide
  exact Option.isSome_iff_exists.1 (this k (by omega))

/-- A longer rest covers more spaces than it has tokens to spare. -/
theorem Merge.residue_lt {e n : Nat} (he : 0 < e) (hn : 2 ≤ n) :
    3 + (Merge.of e n).dots + 3 * (Merge.of e n).residue < 3 * n := by
  have hlog : 1 ≤ n.log2 := (Nat.le_log2 (by omega)).2 hn
  simp only [Merge.of, Nat.one_shiftLeft]
  generalize hs : min e n.log2 = s
  have hs1 : 1 ≤ s := by omega
  have h4 : 4 ≤ 2 ^ (s + 1) := by
    calc 4 = 2 ^ 2 := rfl
      _ ≤ 2 ^ (s + 1) := Nat.pow_le_pow_right (by omega) (by omega)
  have hdouble : 2 ^ (s + 1) = 2 * 2 ^ s := by rw [Nat.pow_succ]; omega
  by_cases h3 : n = 3
  · have hd : min 1 s = 1 := by omega
    have hpow : 2 * 2 ^ (s - 1) = 2 ^ s := by rw [← Nat.pow_succ', Nat.succ_eq_add_one, Nat.sub_add_cancel hs1]
    simp [h3, hd]; omega
  · by_cases h7 : n = 7
    · simp only [h7, reduceIte, Nat.reduceEqDiff]
      have hlog7 : n.log2 = 2 := by rw [h7]; decide
      have hs2 : s = 1 ∨ s = 2 := by omega
      rcases hs2 with rfl | rfl <;> decide
    · simp [h3, h7]; omega

theorem length_merged_lt {p : Piece} {e : Nat} (h : p.exponent? = some e) :
    (p.merged e).length < p.tokens.length := by
  match p with
  | .run l (l' :: ls) d =>
    obtain ⟨he, he'⟩ := exponent?_bounds h
    have hlen (ks : List Token) : (ks.flatMap (space · d)).length = 3 * ks.length := by
      induction ks with
      | nil => rfl
      | cons k ks ih => rw [List.flatMap_cons, List.length_append, ih, List.length_cons]; simp [space]; omega
    obtain ⟨k, hk⟩ := exists_division (k := e - (Merge.of e (ls.length + 1 + 1)).shift) (by omega)
    have := Merge.residue_lt he (n := ls.length + 1 + 1) (by omega)
    have hrep (n : Nat) : ((List.replicate n (space l d)).flatten).length = 3 * n := by
      simp [List.length_flatten, space]; omega
    simp only [Piece.merged, Piece.tokens, List.length_cons, hk, hlen, hrep, List.length_append,
      List.length_replicate]
    omega

theorem length_mergeFirst_lt {e : Nat} {ps : List Piece} (h : ∃ p ∈ ps, p.exponent? = some e) :
    (mergeFirst e ps).length < (ps.flatMap Piece.tokens).length := by
  induction ps with
  | nil => simp at h
  | cons p ps ih =>
    rw [mergeFirst]
    split
    · rename_i hp
      have := length_merged_lt hp
      simp only [List.length_append, List.flatMap_cons]; omega
    · rename_i hp
      have : ∃ p ∈ ps, p.exponent? = some e := by simpa [hp] using h
      have := ih this
      simp only [List.length_append, List.flatMap_cons]; omega

theorem length_of_mergeOnce? {ts us : List Token} (h : mergeOnce? ts = some us) : us.length < ts.length := by
  obtain ⟨e, he, rfl⟩ := Option.map_eq_some_iff.1 h
  have hmem : ∃ p ∈ pieces ts, p.exponent? = some e := by
    simpa using List.min?_mem he
  calc (mergeFirst e (pieces ts)).length < ((pieces ts).flatMap Piece.tokens).length := length_mergeFirst_lt hmem
    _ = ts.length := by rw [tokens_pieces]

/-- Merges runs until none is left. -/
def combine (ts : List Token) : List Token :=
  match _h : mergeOnce? ts with
  | none => ts
  | some us => combine us
termination_by ts.length
decreasing_by exact length_of_mergeOnce? _h

end ScoreDecoding.Spaces
