import ScoreDecoding.Token.Basic

/-!
# Groups of tokens and their values

The alphabet is partitioned into groups. In some of them a token stands for a number, such as the exponent of a
division or the fifths of a key signature; the table of such a group is an injective map between numbers and
tokens.

- `Token.group` is the partition, and `Group.tokens` lists one part (`mem_tokens`);
- `Group.table?` gives the table of a group that has one; its tokens are those of the group (`contains_iff`), and
  each number and its token determine each other (`token?_eq_some_iff`, `eq_of_token?`);
- `Token.header` is the class that a name announces by its leading capitals.
-/

namespace ScoreDecoding

/-- The groups of the alphabet. Every token is in exactly one. -/
inductive Token.Group
  | structural | staff | clef | key | beats | unit | letter | accidental
  /-- Octave marks, written after a pitch letter. -/
  | octaveMark
  /-- The band in which a voice is written, in force until the next one. -/
  | octaveShift
  | division | dot | beam | stem | rest | timewarp
  /-- The timewarp of irregular ratio, and the sign that the open timewarp goes on. -/
  | timewarpControl
  | grace | tremolo | tremoloCast | mark
  deriving DecidableEq, Repr

namespace Token

/-- The group of a token. -/
def group : Token → Group
  | .pad | .msum | .bos | .eos | .bom | .eom | .vb => .structural
  | .s1 | .s2 | .s3 => .staff
  | .clefG | .clefF | .clefC => .clef
  | .key0 | .sharps1 | .sharps2 | .sharps3 | .sharps4 | .sharps5 | .sharps6
  | .flats1 | .flats2 | .flats3 | .flats4 | .flats5 | .flats6 => .key
  | .beats1 | .beats2 | .beats3 | .beats4 | .beats5 | .beats6
  | .beats7 | .beats8 | .beats9 | .beats10 | .beats11 | .beats12 => .beats
  | .unit2 | .unit4 | .unit8 | .unit16 => .unit
  | .pitchA | .pitchB | .pitchC | .pitchD | .pitchE | .pitchF | .pitchG => .letter
  | .sharp | .flat | .doubleSharp | .doubleFlat => .accidental
  | .octaveUp | .octaveDown => .octaveMark
  | .ottava0 | .ottavaAlta | .ottavaBassa => .octaveShift
  | .d1 | .d2 | .d4 | .d8 | .d16 | .d32 | .d64 | .d128 | .d256 => .division
  | .dot => .dot
  | .beamOpen | .beamClose => .beam
  | .stemUp | .stemDown => .stem
  | .rest | .space => .rest
  | .warp2 | .warp3 | .warp4 | .warp5 | .warp6 | .warp7 | .warp8
  | .warp9 | .warp10 | .warp12 | .warp16 | .warp24 | .warp32 => .timewarp
  | .warpIrregular | .warpOn => .timewarpControl
  | .grace => .grace
  | .tremolo8 | .tremolo16 | .tremolo32 | .tremolo64 | .tremolo128 | .tremolo256 => .tremolo
  | .cast8 | .cast16 | .cast32 | .cast64 | .cast128 | .cast256 => .tremoloCast
  | _ => .mark

/-- Key and time signature tokens hold for the whole measure. -/
def isMeasureLevel (t : Token) : Bool :=
  t.group == .key || t.group == .beats || t.group == .unit

/-- The leading capitals of a token's name: "TM" of "TM16", "D" of "Dot", nothing for a pitch letter. -/
def header (t : Token) : List Char := t.name.toList.takeWhile Char.isUpper

/-- The tokens of a group, in id order. -/
def Group.tokens (g : Group) : List Token := all.filter (·.group == g)

theorem Group.mem_tokens {g : Group} {t : Token} : t ∈ g.tokens ↔ t.group = g := by
  simp [Group.tokens, mem_all]

end Token

/-! ## Tables of values -/

/-- A map between numbers and tokens, in the order in which it is listed. -/
abbrev ValueTable := List (Int × Token)

namespace ValueTable

/-- The token that a number is written as. -/
def token? (table : ValueTable) (value : Int) : Option Token :=
  (table.find? (·.1 == value)).map (·.2)

/-- The number that a token stands for. -/
def value? (table : ValueTable) (t : Token) : Option Int :=
  (table.find? (·.2 == t)).map (·.1)

/-- Whether a token stands for a number of the table. -/
def contains (table : ValueTable) (t : Token) : Bool := (table.value? t).isSome

/-- Staves, counted from one. -/
def staff : ValueTable := [(1, .s1), (2, .s2), (3, .s3)]

/-- Clefs by the staff line offset of their reference note. -/
def clef : ValueTable := [(0, .clefC), (-3, .clefG), (3, .clefF)]

/-- Key signatures in fifths: sharps above zero, flats below. -/
def key : ValueTable := [
  (0, .key0), (1, .sharps1), (2, .sharps2), (3, .sharps3), (4, .sharps4), (5, .sharps5), (6, .sharps6),
  (-1, .flats1), (-2, .flats2), (-3, .flats3), (-4, .flats4), (-5, .flats5), (-6, .flats6)]

/-- The number of beats of a time signature. -/
def beats : ValueTable := [
  (1, .beats1), (2, .beats2), (3, .beats3), (4, .beats4), (5, .beats5), (6, .beats6),
  (7, .beats7), (8, .beats8), (9, .beats9), (10, .beats10), (11, .beats11), (12, .beats12)]

/-- The unit of a time signature. -/
def unit : ValueTable := [(2, .unit2), (4, .unit4), (8, .unit8), (16, .unit16)]

/-- Divisions by exponent: the number n stands for a note of one part in two to the n. -/
def division : ValueTable := [
  (0, .d1), (1, .d2), (2, .d4), (3, .d8), (4, .d16), (5, .d32), (6, .d64), (7, .d128), (8, .d256)]

/-- Timewarps by the denominator of their ratio. -/
def timewarp : ValueTable := [
  (2, .warp2), (3, .warp3), (4, .warp4), (5, .warp5), (6, .warp6), (7, .warp7), (8, .warp8), (9, .warp9),
  (10, .warp10), (12, .warp12), (16, .warp16), (24, .warp24), (32, .warp32)]

/-- Octave shifts. -/
def octaveShift : ValueTable := [(0, .ottava0), (-1, .ottavaAlta), (1, .ottavaBassa)]

/-- Strokes of a tremolo by exponent: three stands for eighths. -/
def tremolo : ValueTable := [
  (3, .tremolo8), (4, .tremolo16), (5, .tremolo32), (6, .tremolo64), (7, .tremolo128), (8, .tremolo256)]

/-- Strokes of the second note of a tremolo by exponent. -/
def tremoloCast : ValueTable := [
  (3, .cast8), (4, .cast16), (5, .cast32), (6, .cast64), (7, .cast128), (8, .cast256)]

/-- Pitch letters by diatonic step from c. -/
def letter : ValueTable := [
  (0, .pitchC), (1, .pitchD), (2, .pitchE), (3, .pitchF), (4, .pitchG), (5, .pitchA), (6, .pitchB)]

/-- Accidentals in semitones. -/
def accidental : ValueTable := [(1, .sharp), (2, .doubleSharp), (-1, .flat), (-2, .doubleFlat)]

end ValueTable

namespace Token

/-- The table of a group whose tokens stand for numbers. -/
def Group.table? : Group → Option ValueTable
  | .staff => some .staff
  | .clef => some .clef
  | .key => some .key
  | .beats => some .beats
  | .unit => some .unit
  | .division => some .division
  | .timewarp => some .timewarp
  | .octaveShift => some .octaveShift
  | .letter => some .letter
  | .accidental => some .accidental
  | .tremolo => some .tremolo
  | .tremoloCast => some .tremoloCast
  | _ => none

/-- The number that a token stands for, if its group has a table. -/
def value? (t : Token) : Option Int := t.group.table?.bind (·.value? t)

end Token

/-! ## What the tables hold -/

namespace ValueTable

/-- Each entry of a table is found from either side. -/
def Injective (table : ValueTable) : Prop :=
  ∀ e ∈ table, table.token? e.1 = some e.2 ∧ table.value? e.2 = some e.1

theorem token?_eq_some_iff {table : ValueTable} (hi : table.Injective) {v : Int} {t : Token} :
    table.token? v = some t ↔ table.value? t = some v := by
  constructor
  · intro h
    obtain ⟨e, he, rfl⟩ := Option.map_eq_some_iff.1 h
    have hv : e.1 = v := by simpa using List.find?_some he
    exact hv ▸ (hi e (List.mem_of_find?_eq_some he)).2
  · intro h
    obtain ⟨e, he, rfl⟩ := Option.map_eq_some_iff.1 h
    have ht : e.2 = t := by simpa using List.find?_some he
    exact ht ▸ (hi e (List.mem_of_find?_eq_some he)).1

theorem injective_of_table? {g : Token.Group} {table : ValueTable} (h : g.table? = some table) :
    table.Injective := by
  unfold Injective
  cases g <;> simp only [Token.Group.table?, Option.some.injEq, reduceCtorEq] at h <;> subst h <;> decide

theorem contains_iff {g : Token.Group} {table : ValueTable} (h : g.table? = some table) :
    ∀ t : Token, table.contains t = true ↔ t.group = g := by
  cases g <;> simp only [Token.Group.table?, Option.some.injEq, reduceCtorEq] at h <;> subst h <;> decide +kernel

theorem exists_token? {table : ValueTable} {v : Int} (h : v ∈ table.map (·.1)) : ∃ t, table.token? v = some t := by
  obtain ⟨e, he, rfl⟩ := List.mem_map.1 h
  have hfound : (table.find? (·.1 == e.1)).isSome = true := List.find?_isSome.2 ⟨e, he, beq_self_eq_true _⟩
  obtain ⟨found, hfound⟩ := Option.isSome_iff_exists.1 hfound
  exact ⟨found.2, by rw [token?, hfound]; rfl⟩

/-- A table holds all numbers between two if it holds each of them. -/
theorem mem_of_bounds {table : ValueTable} (low : Int) (count : Nat) (h : ∀ i < count, low + i ∈ table.map (·.1))
    {v : Int} (hlow : low ≤ v) (hhigh : v < low + count) : v ∈ table.map (·.1) := by
  have hv : low + ((v - low).toNat : Int) = v := by omega
  exact hv ▸ h (v - low).toNat (by omega)

/-- What a number is written as belongs to the group of the table. -/
theorem group_of_token? {g : Token.Group} {table : ValueTable} (h : g.table? = some table) {v : Int} {t : Token}
    (ht : table.token? v = some t) : t.group = g := by
  refine (contains_iff h t).1 ?_
  rw [contains, (token?_eq_some_iff (injective_of_table? h)).1 ht]
  rfl

/-- Two numbers that are written as the same token are equal. -/
theorem eq_of_token? {g : Token.Group} {table : ValueTable} (h : g.table? = some table) {v w : Int} {t : Token}
    (hv : table.token? v = some t) (hw : table.token? w = some t) : v = w := by
  have hi := injective_of_table? h
  exact Option.some.inj (((token?_eq_some_iff hi).1 hv).symm.trans ((token?_eq_some_iff hi).1 hw))

end ValueTable

end ScoreDecoding
