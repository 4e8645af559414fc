import ScoreDecoding.Proofs.Acceptance
import Mathlib.Data.List.DropRight

/-!
# What every start of a branch has passed

A branch is judged when it is continued, and never again. So what is known of the branch that a search returns was said
of its ancestors, one by one: each start of it that is no shorter than the primer was the whole of a branch once.

- `exists_child_of_descends`: each such start is a branch that comes from the root, and the next token makes a child;
- `nesting` counts the tokens since the measure might have ended, and is the depth of a branch (`depth_of_continues`);
- `Continued` is what a start has passed before the next token came (`continued_of_child`), and
  `continued_of_search` says so of all starts of a result.
-/

namespace ScoreDecoding.BeamSearch

open Validation (HasSoundTimewarp)

variable {c : Setting} {K : Collaborators} {validator : String → Except String Measure} {b d : Branch}
  {k : Continuation} {predictor : Nat} {capacities : List Nat} {ending : Ending} {ts us vs : List Token}
  {t last next : Token}

/-! ## Ancestors -/

theorem Descends.start_prefix (h : Descends c K b) : c.options.start <+: b.tokens := by
  induction h with
  | root => exact List.prefix_refl _
  | child _ hd ih =>
    rw [hd.tokens_eq]
    exact ih.trans (List.prefix_append _ _)

/-- A start of a branch was a branch, and the next token made a child of it. -/
theorem exists_child_of_descends (h : Descends c K b) (hlen : c.options.start.length ≤ ts.length)
    (hts : ts ++ [next] <+: b.tokens) :
    ∃ predictor a d, Descends c K a ∧ Child c K predictor a d ∧ a.tokens = ts ∧ d.last = next := by
  induction h with
  | root =>
    have hle := hts.length_le
    rw [List.length_append, List.length_singleton] at hle
    exact absurd hle (Nat.not_le.2 (Nat.lt_succ_of_le hlen))
  | @child predictor a d ha hd ih =>
    rw [hd.tokens_eq] at hts
    rcases List.prefix_concat_iff.1 hts with heq | hts
    · obtain ⟨htokens, hlast⟩ := List.append_inj' heq rfl
      exact ⟨predictor, a, d, ha, hd, htokens.symm, (List.singleton_inj.1 hlast).symm⟩
    · exact ih hts

/-! ## Nesting -/

variable (c) in
/-- Whether nesting starts anew after a token: it ends no voice, and the measure may end after it. -/
def Surfaces (t : Token) : Prop := t ≠ .vb ∧ c.grammar.allows t .eom = true

instance : DecidablePred (Surfaces c) := fun t => inferInstanceAs (Decidable (t ≠ .vb ∧ c.grammar.allows t .eom = true))

variable (c) in
/-- How many tokens a sequence has since the measure might have ended, voice breaks apart. Of the primer only the last
token counts. -/
def nesting (ts : List Token) : Nat :=
  ((ts.drop (c.options.start.length - 1)).rtakeWhile fun t => !Surfaces c t).countP (· ≠ .vb)

theorem nesting_start_dropLast : nesting c c.options.start.dropLast = 0 := by
  have hnil : c.options.start.dropLast.drop (c.options.start.length - 1) = [] := by
    rw [List.drop_eq_nil_iff, List.length_dropLast]
  rw [nesting, hnil]
  rfl

theorem nesting_concat (h : c.options.start.length ≤ ts.length + 1) :
    nesting c (ts ++ [t]) = if Surfaces c t then 0 else if t = .vb then nesting c ts else nesting c ts + 1 := by
  have hdrop : (ts ++ [t]).drop (c.options.start.length - 1) = ts.drop (c.options.start.length - 1) ++ [t] :=
    List.drop_append_of_le_length (by omega)
  rw [nesting, hdrop, List.rtakeWhile_concat]
  by_cases hs : Surfaces c t
  · simp [hs]
  · simp only [hs, decide_false, Bool.not_false, if_true, if_false, List.countP_append, nesting]
    by_cases hv : t = .vb
    · simp [hv]
    · simp [hv]

/-- What stands at the end of a sequence without surfacing is counted. -/
theorem countP_le_nesting (hlen : c.options.start.length ≤ us.length + 1) (hvs : ∀ t ∈ vs, ¬ Surfaces c t) :
    vs.countP (· ≠ .vb) ≤ nesting c (us ++ vs) := by
  induction vs using List.reverseRecOn with
  | nil => exact Nat.zero_le _
  | append_singleton vs t ih =>
    have hle := ih fun x hx => hvs x (List.mem_append_left _ hx)
    have ht : ¬ Surfaces c t := hvs t (by simp)
    have hlong : c.options.start.length ≤ (us ++ vs).length + 1 := by
      rw [List.length_append]
      omega
    rw [← List.append_assoc, nesting_concat hlong, if_neg ht, List.countP_append]
    by_cases hv : t = .vb
    · simpa [hv] using hle
    · simpa [hv] using hle

/-- The depth of a branch is the nesting of the branch that it continues. -/
theorem depth_of_continues (hl : b.tokens.getLast? = some b.last) (hlen : c.options.start.length ≤ b.tokens.length)
    (hb : b.depth = nesting c b.tokens.dropLast) (h : Continues c K b k) : k.depth = nesting c b.tokens := by
  obtain ⟨ts, hts⟩ := List.getLast?_eq_some_iff.1 hl
  rw [hts, List.length_append, List.length_singleton] at hlen
  rw [hts, List.dropLast_concat] at hb
  rw [hts, nesting_concat hlen]
  cases h with
  | voiceStarted hv => simp [hv, Surfaces, hb]
  | judged hv hend => simp [hv, hend, Surfaces]
  | deepened hv hno => simp [hv, hno, Surfaces, hb]

theorem depth_of_descends (h : Descends c K b) :
    b.depth = nesting c b.tokens.dropLast ∧ b.depth ≤ Guide.maxDepth := by
  induction h with
  | root => exact ⟨nesting_start_dropLast.symm, Nat.zero_le _⟩
  | child hb hd ih =>
    obtain ⟨k, hk, -, hdepth⟩ := hd.continues
    rw [hdepth, hd.tokens_eq, List.dropLast_concat]
    refine ⟨depth_of_continues hb.getLast? hb.start_prefix.length_le ih.1 hk, ?_⟩
    cases hk with
    | voiceStarted => exact ih.2
    | judged => exact Nat.zero_le _
    | deepened _ _ hle => exact hle

/-! ## What a start has passed -/

variable (c validator)

/-- What a sequence that ends with a token has passed before the next one came: the grammar allows it and the caller does
not forbid it; the voice that has just ended is sound; where the measure may end, the validator tolerates it; there are
no four octave marks at the end, if they count; and not too many tokens stand where the measure could not end. -/
structure Continued (ts : List Token) (last next : Token) : Prop where
  follows : c.grammar.allows last next = true
  permitted : next ∉ c.options.forbiddenTokens
  voice_sound : last = .vb → HasSoundTimewarp validator (ts.dropLast ++ [.eom])
  tolerated : last ≠ .vb → c.grammar.allows last .eom = true →
    ∃ m, validator (Token.code (ts ++ [.eom]) none) = .ok m ∧ Tolerates c m
  few_octaves : last ≠ .vb → c.grammar.allows last .eom = false → c.options.limitPitch = true →
    ¬ ∃ us marks, ts = us ++ marks ∧ marks.length = 4 ∧ ∀ t ∈ marks, t.group = .octaveMark
  not_deep : ∀ us vs, ts = us ++ vs → c.options.start.length ≤ us.length + 1 →
    (∀ t ∈ vs, t = .vb ∨ c.grammar.allows t .eom = false) → vs.countP (· ≠ .vb) ≤ Guide.maxDepth

variable {c validator}

theorem endsInOctaveMarks_of_append {marks : List Token} (h : ts = us ++ marks) (hlen : marks.length = 4)
    (hmarks : ∀ t ∈ marks, t.group = .octaveMark) : endsInOctaveMarks ts = true := by
  have hdrop : ts.drop (ts.length - 4) = marks := by
    rw [h, List.length_append, hlen, Nat.add_sub_cancel, List.drop_left]
  have hlong : 4 ≤ ts.length := by
    rw [h, List.length_append, hlen]
    omega
  simpa [endsInOctaveMarks, hdrop, hlong] using hmarks

theorem sound_of_voiceStarted (hl : ts.getLast? = some .vb)
    (h : (Validation.isTimewarpInvalid ts).ReturnsWith (.validating validator) (.ok false)) :
    HasSoundTimewarp validator (ts.dropLast ++ [.eom]) := by
  obtain ⟨m, hm, hvalid⟩ := Validation.isTimewarpInvalid_returns_ok.1 h
  rw [Validation.endedText, if_pos hl] at hm
  exact ⟨m, Validation.validating_parse_iff.1 hm, hvalid⟩

/-- **A branch that gets a child has passed** what its continuation asks. -/
theorem continued_of_child (hb : Descends c (.validating validator) b)
    (h : Child c (.validating validator) predictor b d) : Continued c validator b.tokens b.last d.last := by
  obtain ⟨hfollows, -, hpermitted⟩ := h.admits
  obtain ⟨k, hk, -, -⟩ := h.continues
  have hdepth : nesting c b.tokens ≤ Guide.maxDepth := by
    rw [← depth_of_continues hb.getLast? hb.start_prefix.length_le (depth_of_descends hb).1 hk]
    cases hk with
    | voiceStarted => exact (depth_of_descends hb).2
    | judged => exact Nat.zero_le _
    | deepened _ _ hle => exact hle
  refine ⟨hfollows, hpermitted, ?_, ?_, ?_, ?_⟩
  · intro hv
    cases hk with
    | voiceStarted _ hsound => exact sound_of_voiceStarted (hv ▸ hb.getLast?) hsound
    | judged hno => exact absurd hv hno
    | deepened hno => exact absurd hv hno
  · intro hv hend
    cases hk with
    | voiceStarted hyes => exact absurd hyes hv
    | judged _ _ hm hguide => exact ⟨_, Validation.validating_parse_iff.1 hm, tolerates_of_guideOf hguide⟩
    | deepened _ hno => exact absurd hend (by simp [hno])
  · rintro hv hno hlimit ⟨us, marks, htokens, hlen, hmarks⟩
    cases hk with
    | voiceStarted hyes => exact absurd hyes hv
    | judged _ hend => exact absurd hno (by simp [hend])
    | deepened _ _ _ hoctaves =>
      rw [hlimit, endsInOctaveMarks_of_append htokens hlen hmarks] at hoctaves
      cases hoctaves
  · intro us vs htokens hlen hvs
    refine le_trans (countP_le_nesting hlen fun t ht hs => ?_) (htokens ▸ hdepth)
    rcases hvs t ht with hv | hno
    · exact hs.1 hv
    · exact absurd hs.2 (by simp [hno])

/-! ## Results -/

/-- **Every start of a result has passed all checks**: the branch that a search returns begins with the primer, ends with
its last token, and each token after the primer came to a sequence that had been checked as it then stood. -/
theorem continued_of_search
    (h : (search c capacities).ReturnsWith (.validating validator) (.ok (b, ending))) :
    c.options.start <+: b.tokens ∧ b.tokens.getLast? = some b.last ∧
      ∀ ts next, c.options.start.length ≤ ts.length → ts ++ [next] <+: b.tokens →
        ∃ last, ts.getLast? = some last ∧ Continued c validator ts last next := by
  obtain ⟨generated, hs⟩ := search_returns_iff.1 h
  have hb := (descends_of_searches hs).2
  refine ⟨hb.start_prefix, hb.getLast?, fun ts next hlen hts => ?_⟩
  obtain ⟨predictor, a, d, ha, hd, rfl, rfl⟩ := exists_child_of_descends hb hlen hts
  exact ⟨a.last, ha.getLast?, continued_of_child ha hd⟩

/-- Two voices with one note each, an octave mark in the first one, and every check that may be asked for. -/
def octaveSetting : Setting where
  grammar := .ofSentences [[.bom, .pitchC, .octaveUp, .d4, .vb, .pitchD, .d2, .eom]]
  options := { limitPitch := true, forbidCollisions := true, forbidPartial := true }
  elementary := evenElementary

/-- The second voice came to a voice that had been found sound, and the end to a measure that was tolerated. -/
theorem continued_of_search_twoVoices :
    ∃ b, (search octaveSetting [64]).ReturnsWith (.validating hearsMiddleC) (.ok (b, .bestComplete)) ∧
      b.tokens = [.bom, .pitchC, .octaveUp, .d4, .vb, .pitchD, .d2, .eom] ∧
      Continued octaveSetting hearsMiddleC [.bom, .pitchC, .octaveUp, .d4, .vb] .vb .pitchD ∧
      Continued octaveSetting hearsMiddleC [.bom, .pitchC, .octaveUp, .d4, .vb, .pitchD, .d2] .d2 .eom := by
  have hrun : (runWithin octaveSetting (evenAnswer hearsMiddleC) 8 (initialState octaveSetting [64])).map
      (fun r => (r.2.1.tokens, r.2.2)) =
      some ([.bom, .pitchC, .octaveUp, .d4, .vb, .pitchD, .d2, .eom], .bestComplete) := by decide +kernel
  obtain ⟨⟨generated, b, ending⟩, hr, he⟩ := Option.map_eq_some_iff.1 hrun
  obtain ⟨hb, rfl⟩ := Prod.mk.inj he
  have hs := search_returns_iff.2 ⟨_, searches_of_runWithin (by decide +kernel) hr⟩
  obtain ⟨-, -, hstarts⟩ := continued_of_search hs
  have hvoice : [.bom, .pitchC, .octaveUp, .d4, .vb] ++ [.pitchD] <+: b.tokens := hb ▸ by decide
  have hend : [.bom, .pitchC, .octaveUp, .d4, .vb, .pitchD, .d2] ++ [.eom] <+: b.tokens := hb ▸ by decide
  obtain ⟨_, hl, hv⟩ := hstarts _ _ (by decide) hvoice
  obtain ⟨_, hl', he⟩ := hstarts _ _ (by decide) hend
  cases hl
  cases hl'
  exact ⟨b, hs, hb, hv, he⟩

end ScoreDecoding.BeamSearch
