/-!
# The alphabet

A measure of music is written as a sequence of tokens from one fixed alphabet. The place of a token in the
alphabet is its id, and predictors give one logit per id.

- `Token.all` lists the alphabet in id order (`all_getElem?_id`), so every token occurs in it (`mem_all`);
- `Token.ofName?` reads a written name back (`ofName?_name`): names are distinct (`name_injective`).
-/

namespace ScoreDecoding

/-- One symbol of the alphabet. -/
inductive Token
  -- markers of measures and scores
  | pad | msum | bos | eos | bom | eom | vb
  -- staves
  | s1 | s2 | s3
  -- clefs
  | clefG | clefF | clefC
  -- key signatures
  | key0 | sharps1 | sharps2 | sharps3 | sharps4 | sharps5 | sharps6 | flats1 | flats2 | flats3 | flats4
  | flats5 | flats6
  -- beats of a time signature
  | beats1 | beats2 | beats3 | beats4 | beats5 | beats6 | beats7 | beats8 | beats9 | beats10 | beats11
  | beats12
  -- units of a time signature
  | unit2 | unit4 | unit8 | unit16
  -- pitch letters
  | pitchA | pitchB | pitchC | pitchD | pitchE | pitchF | pitchG
  -- accidentals
  | sharp | flat | doubleSharp | doubleFlat
  -- octave marks and octave shifts
  | octaveUp | octaveDown | ottava0 | ottavaAlta | ottavaBassa
  -- divisions and the dot
  | d1 | d2 | d4 | d8 | d16 | d32 | d64 | d128 | d256 | dot
  -- beams, stems, rests
  | beamOpen | beamClose | stemUp | stemDown | rest | space
  -- timewarps
  | warp2 | warp3 | warp4 | warp5 | warp6 | warp7 | warp8 | warp9 | warp10 | warp12 | warp16 | warp24
  | warp32 | warpIrregular | warpOn
  -- grace notes and tremolos
  | grace | tremolo8 | tremolo16 | tremolo32 | tremolo64 | tremolo128 | tremolo256 | cast8 | cast16 | cast32
  | cast64 | cast128 | cast256
  -- expressive marks
  | slurOpen | slurClose | tie | arpeggio | trill | fermata | shortFermata | staccato | staccatissimo
  | accent | mordent | prall | turn | portato | tenuto | marcato | crescendo | diminuendo | hairpinStop
  | forte | piano | mezzo | rinforzando | sforzando | zeta
  deriving DecidableEq, Repr, Inhabited

namespace Token

/-- The number of tokens in the alphabet. -/
abbrev count : Nat := 127

/-- Every token, in id order. -/
def all : List Token := [
  .pad, .msum, .bos, .eos, .bom, .eom, .vb, .s1, .s2, .s3, .clefG, .clefF, .clefC, .key0, .sharps1, .sharps2,
  .sharps3, .sharps4, .sharps5, .sharps6, .flats1, .flats2, .flats3, .flats4, .flats5, .flats6, .beats1,
  .beats2, .beats3, .beats4, .beats5, .beats6, .beats7, .beats8, .beats9, .beats10, .beats11, .beats12, .unit2,
  .unit4, .unit8, .unit16, .pitchA, .pitchB, .pitchC, .pitchD, .pitchE, .pitchF, .pitchG, .sharp, .flat,
  .doubleSharp, .doubleFlat, .octaveUp, .octaveDown, .ottava0, .ottavaAlta, .ottavaBassa, .d1, .d2, .d4, .d8,
  .d16, .d32, .d64, .d128, .d256, .dot, .beamOpen, .beamClose, .stemUp, .stemDown, .rest, .space, .warp2,
  .warp3, .warp4, .warp5, .warp6, .warp7, .warp8, .warp9, .warp10, .warp12, .warp16, .warp24, .warp32,
  .warpIrregular, .warpOn, .grace, .tremolo8, .tremolo16, .tremolo32, .tremolo64, .tremolo128, .tremolo256,
  .cast8, .cast16, .cast32, .cast64, .cast128, .cast256, .slurOpen, .slurClose, .tie, .arpeggio, .trill,
  .fermata, .shortFermata, .staccato, .staccatissimo, .accent, .mordent, .prall, .turn, .portato, .tenuto,
  .marcato, .crescendo, .diminuendo, .hairpinStop, .forte, .piano, .mezzo, .rinforzando, .sforzando, .zeta]

/-- The written name of a token. -/
def name : Token → String
  | .pad => "PAD"
  | .msum => "MSUM"
  | .bos => "BOS"
  | .eos => "EOS"
  | .bom => "BOM"
  | .eom => "EOM"
  | .vb => "VB"
  | .s1 => "S1"
  | .s2 => "S2"
  | .s3 => "S3"
  | .clefG => "Cg"
  | .clefF => "Cf"
  | .clefC => "Cc"
  | .key0 => "K0"
  | .sharps1 => "K1"
  | .sharps2 => "K2"
  | .sharps3 => "K3"
  | .sharps4 => "K4"
  | .sharps5 => "K5"
  | .sharps6 => "K6"
  | .flats1 => "K_1"
  | .flats2 => "K_2"
  | .flats3 => "K_3"
  | .flats4 => "K_4"
  | .flats5 => "K_5"
  | .flats6 => "K_6"
  | .beats1 => "TN1"
  | .beats2 => "TN2"
  | .beats3 => "TN3"
  | .beats4 => "TN4"
  | .beats5 => "TN5"
  | .beats6 => "TN6"
  | .beats7 => "TN7"
  | .beats8 => "TN8"
  | .beats9 => "TN9"
  | .beats10 => "TN10"
  | .beats11 => "TN11"
  | .beats12 => "TN12"
  | .unit2 => "TD2"
  | .unit4 => "TD4"
  | .unit8 => "TD8"
  | .unit16 => "TD16"
  | .pitchA => "a"
  | .pitchB => "b"
  | .pitchC => "c"
  | .pitchD => "d"
  | .pitchE => "e"
  | .pitchF => "f"
  | .pitchG => "g"
  | .sharp => "As"
  | .flat => "Af"
  | .doubleSharp => "Ass"
  | .doubleFlat => "Aff"
  | .octaveUp => "Osup"
  | .octaveDown => "Osub"
  | .ottava0 => "O0"
  | .ottavaAlta => "Ova"
  | .ottavaBassa => "Ovb"
  | .d1 => "D1"
  | .d2 => "D2"
  | .d4 => "D4"
  | .d8 => "D8"
  | .d16 => "D16"
  | .d32 => "D32"
  | .d64 => "D64"
  | .d128 => "D128"
  | .d256 => "D256"
  | .dot => "Dot"
  | .beamOpen => "Bl"
  | .beamClose => "Br"
  | .stemUp => "Mu"
  | .stemDown => "Md"
  | .rest => "Rest"
  | .space => "RSpace"
  | .warp2 => "W2"
  | .warp3 => "W3"
  | .warp4 => "W4"
  | .warp5 => "W5"
  | .warp6 => "W6"
  | .warp7 => "W7"
  | .warp8 => "W8"
  | .warp9 => "W9"
  | .warp10 => "W10"
  | .warp12 => "W12"
  | .warp16 => "W16"
  | .warp24 => "W24"
  | .warp32 => "W32"
  | .warpIrregular => "Wx"
  | .warpOn => "W"
  | .grace => "G"
  | .tremolo8 => "TM8"
  | .tremolo16 => "TM16"
  | .tremolo32 => "TM32"
  | .tremolo64 => "TM64"
  | .tremolo128 => "TM128"
  | .tremolo256 => "TM256"
  | .cast8 => "TC8"
  | .cast16 => "TC16"
  | .cast32 => "TC32"
  | .cast64 => "TC64"
  | .cast128 => "TC128"
  | .cast256 => "TC256"
  | .slurOpen => "EslurL"
  | .slurClose => "EslurR"
  | .tie => "Etie"
  | .arpeggio => "Earp"
  | .trill => "Etr"
  | .fermata => "Efer"
  | .shortFermata => "Esf"
  | .staccato => "Est"
  | .staccatissimo => "Estm"
  | .accent => "Eac"
  | .mordent => "Emor"
  | .prall => "Epr"
  | .turn => "Eturn"
  | .portato => "Epor"
  | .tenuto => "Eten"
  | .marcato => "Emar"
  | .crescendo => "Ecre"
  | .diminuendo => "Edim"
  | .hairpinStop => "Ecds"
  | .forte => "EDf"
  | .piano => "EDp"
  | .mezzo => "EDm"
  | .rinforzando => "EDr"
  | .sforzando => "EDs"
  | .zeta => "EDz"

/-- The place of a token in the alphabet. -/
def id (t : Token) : Nat := t.ctorIdx

/-- The token at a place of the alphabet. -/
def ofId? (n : Nat) : Option Token := all[n]?

/-- The token with a written name. -/
def ofName? (s : String) : Option Token := all.find? (·.name == s)

/-! ## The list of the alphabet -/

set_option maxRecDepth 4096

theorem length_all : all.length = count := rfl

theorem all_getElem?_id (t : Token) : all[t.id]? = some t := by cases t <;> rfl

theorem mem_all (t : Token) : t ∈ all := List.mem_of_getElem? (all_getElem?_id t)

theorem id_lt (t : Token) : t.id < count := by
  have h := all_getElem?_id t
  rw [List.getElem?_eq_some_iff] at h
  exact h.1

theorem ofId?_id (t : Token) : ofId? t.id = some t := all_getElem?_id t

theorem id_injective {t u : Token} (h : t.id = u.id) : t = u :=
  Option.some.inj ((ofId?_id t).symm.trans ((congrArg ofId? h).trans (ofId?_id u)))

theorem id_inj {t u : Token} : t.id = u.id ↔ t = u := ⟨id_injective, congrArg id⟩

theorem map_id_all : all.map id = List.range count := by decide

/-- Every place of the alphabet is the id of a token. -/
theorem exists_id_eq {n : Nat} (h : n < count) : ∃ t : Token, t.id = n := by
  have hn : n < all.length := length_all ▸ h
  have hid := List.getElem_map id (l := all) (i := n) (h := by simpa using hn)
  refine ⟨all.get ⟨n, hn⟩, ?_⟩
  rw [List.get_eq_getElem, ← hid]
  simp [map_id_all]

theorem nodup_all : all.Nodup := by
  have h : (all.map id).Nodup := map_id_all ▸ List.nodup_range
  exact (List.pairwise_map.1 h).imp fun hne heq => hne (congrArg id heq)

/-- What holds of every token of the list holds of every token. -/
instance decidableForall (p : Token → Prop) [DecidablePred p] : Decidable (∀ t, p t) :=
  decidable_of_iff (∀ t ∈ all, p t) ⟨fun h t => h t (mem_all t), fun h t _ => h t⟩

/-! ## Names -/

theorem ofName?_name : ∀ t : Token, ofName? t.name = some t := by decide +kernel

theorem name_injective {t u : Token} (h : t.name = u.name) : t = u :=
  Option.some.inj ((ofName?_name t).symm.trans ((congrArg ofName? h).trans (ofName?_name u)))

end Token

end ScoreDecoding
