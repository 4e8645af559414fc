import ScoreDecoding.Proofs.History
import ScoreDecoding.Proofs.Repair
import ScoreDecoding.Proofs.Trajectory

/-!
# How far the staff limit reaches

The limit on staves is written into the guide with which a voice starts. Where the measure may end, the validator sets
the guide anew, and its status says nothing of staves: from there on the voice may go to any of them.

- `Grammar.MightHaveEnded` tells such a place in a sequence, and `Guide.LimitedUnless` that a staff above the limit
  comes after a sequence of a kind only;
- `Sampler.limited_of_iterates` and `BeamSearch.limited_of_child` are the steps of the two decoders;
- `limitedUnless_of_results`: in what they return, a staff above the limit stands only in a voice that might have ended
  before it.
-/

namespace ScoreDecoding

/-! ## Places in a sequence -/

/-- The measure might have ended in the last voice: after one of its tokens, or after the voice break before it. -/
def Grammar.MightHaveEnded (g : Grammar) (ts : List Token) : Prop :=
  ∃ before t after, ts = before ++ t :: after ∧ .vb ∉ after ∧ g.allows t .eom = true

/-- Every staff above the limit comes after a sequence of a kind. -/
def Guide.LimitedUnless (limit : UInt8) (P : List Token → Prop) (ts : List Token) : Prop :=
  ∀ before t after, ts = before ++ t :: after → t ∈ stavesAbove limit → P before

/-- No staff above the limit is in a guide. -/
def Guide.Limits (limit : UInt8) (guide : TokenSet) : Prop := ∀ t ∈ stavesAbove limit, t ∉ guide

variable {g : Grammar} {limit : UInt8} {P : List Token → Prop} {ts us vs : List Token} {t : Token}

theorem Grammar.mightHaveEnded_concat :
    g.MightHaveEnded (ts ++ [t]) ↔ g.allows t .eom = true ∨ t ≠ .vb ∧ g.MightHaveEnded ts := by
  constructor
  · rintro ⟨before, u, after, he, hv, hu⟩
    rcases concat_eq_append_cons_iff.1 he with ⟨-, -, rfl⟩ | ⟨rest, rfl, rfl⟩
    · exact .inl hu
    · rw [List.mem_append, List.mem_singleton, not_or] at hv
      exact .inr ⟨fun h => hv.2 h.symm, before, u, rest, rfl, hv.1, hu⟩
  · rintro (ht | ⟨hv, before, u, after, rfl, hafter, hu⟩)
    · exact ⟨ts, t, [], rfl, List.not_mem_nil, ht⟩
    · refine ⟨before, u, after ++ [t], by simp, ?_, hu⟩
      simpa [hafter] using fun h => hv h.symm

theorem Grammar.MayEnd.mightHaveEnded (h : g.MayEnd us) (hv : .vb ∉ vs) : g.MightHaveEnded (us ++ vs) := by
  obtain ⟨last, hl, hend⟩ := h
  obtain ⟨before, rfl⟩ := List.getLast?_eq_some_iff.1 hl
  exact ⟨before, last, vs, by simp, hv, hend⟩

theorem Guide.limitedUnless_concat :
    LimitedUnless limit P (ts ++ [t]) ↔ LimitedUnless limit P ts ∧ (t ∈ stavesAbove limit → P ts) := by
  constructor
  · intro h
    refine ⟨fun before u after he => h before u (after ++ [t]) (by simp [he]), h ts t [] rfl⟩
  · rintro ⟨hts, ht⟩ before u after he
    rcases concat_eq_append_cons_iff.1 he with ⟨-, rfl, rfl⟩ | ⟨rest, -, rfl⟩
    · exact ht
    · exact hts before u rest rfl

theorem Guide.limitedUnless_take (h : LimitedUnless limit P ts) (n : Nat) : LimitedUnless limit P (ts.take n) := by
  intro before t after he
  refine h before t (after ++ ts.drop n) ?_
  rw [← List.cons_append, ← List.append_assoc, ← he, List.take_append_drop]

theorem Guide.limitedUnless_of_not_mem (h : ∀ t ∈ ts, t ∉ stavesAbove limit) : LimitedUnless limit P ts := by
  rintro before t after rfl ht
  exact absurd ht (h t (by simp))

/-! ## Staves and other tokens -/

theorem Guide.limits_initial : Limits limit (initial (some limit)) :=
  fun _ ht hm => (mem_initial.1 hm).2.2 limit rfl ht

/-! ## Tidying and closing -/

theorem Grammar.mightHaveEnded_filter (hg : g.allows .beamOpen .eom = false) (ts : List Token) :
    g.MightHaveEnded (ts.filter (· != .beamOpen)) ↔ g.MightHaveEnded ts := by
  induction ts using List.reverseRecOn with
  | nil => exact Iff.rfl
  | append_singleton ts t ih =>
    rw [List.filter_append, mightHaveEnded_concat]
    by_cases ht : t = .beamOpen
    · subst ht
      have hvb : Token.beamOpen ≠ .vb := by decide
      simp [hg, ih, hvb]
    · have hkept : (t != .beamOpen) = true := bne_iff_ne.2 ht
      rw [List.filter_singleton, hkept, cond_true, mightHaveEnded_concat, ih]

/-- Openings may be taken out or put in if that does not change the kind of a sequence. -/
theorem Guide.limitedUnless_filter (hP : ∀ ts : List Token, P (ts.filter (· != .beamOpen)) ↔ P ts) (ts : List Token) :
    LimitedUnless limit P (ts.filter (· != .beamOpen)) ↔ LimitedUnless limit P ts := by
  induction ts using List.reverseRecOn with
  | nil => exact Iff.rfl
  | append_singleton ts t ih =>
    rw [List.filter_append, limitedUnless_concat]
    by_cases ht : t = .beamOpen
    · have hno : t ∉ stavesAbove limit := not_mem_stavesAbove (by rw [ht]; decide)
      simp [ht, ih, ht ▸ hno]
    · have hkept : (t != .beamOpen) = true := bne_iff_ne.2 ht
      rw [List.filter_singleton, hkept, cond_true, limitedUnless_concat, ih, hP]

theorem Guide.limitedUnless_tidyBeams (hP : ∀ ts : List Token, P (ts.filter (· != .beamOpen)) ↔ P ts)
    (h : LimitedUnless limit P ts) (status : Option TailStatus) :
    LimitedUnless limit P (Repair.tidyBeams status ts) := by
  rw [← limitedUnless_filter hP, Repair.filter_tidyBeams]
  exact (limitedUnless_filter hP ts).2 h

theorem Guide.limitedUnless_closeOut (hP : ∀ ts : List Token, P (ts.filter (· != .beamOpen)) ↔ P ts)
    (h : LimitedUnless limit P ts) (status : Option TailStatus) :
    LimitedUnless limit P (Repair.closeOut g status ts) := by
  obtain ⟨n, hn⟩ := Repair.cutToEnd_eq_take g ts
  have hend : Token.eom ∉ stavesAbove limit := not_mem_stavesAbove (by decide)
  rw [Repair.closeOut, hn, limitedUnless_concat]
  exact ⟨limitedUnless_tidyBeams hP (limitedUnless_take h n) status, fun h => absurd h hend⟩

/-! ## Guided sampling -/

namespace Sampler

open Guide (LimitedUnless Limits stavesAbove)
open Validation (Overflows)

variable (c : Setting) (validator : String → Except String Measure)

/-- What may go before a staff above the limit: the validator is consulted, and the measure might have ended before. If
it may end after an opening, that may have been taken out. -/
def LimitLifted (ts : List Token) : Prop :=
  c.options.parserGuide = true ∧ (c.grammar.allows .beamOpen .eom = true ∨ c.grammar.MightHaveEnded ts)

/-- In the last voice the validator has heard a place where the measure may end, and found nothing too long. -/
def Heard (ts : List Token) : Prop :=
  c.options.parserGuide = true ∧
    ∃ us vs, ts = us ++ vs ∧ .vb ∉ vs ∧ c.grammar.MayEnd us ∧ ¬ Overflows validator (us ++ [.eom])

/-- What is known of a state: a staff above the limit is in the sequence only after the limit was lifted, and in the
guide only if the validator was heard. -/
structure Limited (limit : UInt8) (s : State) : Prop where
  tokens : LimitedUnless limit (LimitLifted c) s.tokens
  guide : Limits limit s.guide ∨ Heard c validator s.tokens

/-- What is known of an outcome. -/
def Outcome.Limited (limit : UInt8) : Outcome → Prop
  | .next t => Sampler.Limited c validator limit t
  | .stop t _ => LimitedUnless limit (LimitLifted c) t.tokens

variable {c validator} {s u : State} {last x : Token} {predictor : Nat} {row : TokenSet} {o : Outcome}

theorem limitLifted_filter (ts : List Token) : LimitLifted c (ts.filter (· != .beamOpen)) ↔ LimitLifted c ts := by
  unfold LimitLifted
  cases hb : c.grammar.allows .beamOpen .eom with
  | true => simp
  | false => rw [Grammar.mightHaveEnded_filter hb]

theorem Heard.limitLifted (h : Heard c validator ts) : LimitLifted c ts := by
  obtain ⟨hguide, us, vs, rfl, hv, hmay, -⟩ := h
  exact ⟨hguide, .inr (hmay.mightHaveEnded hv)⟩

theorem Heard.concat (h : Heard c validator ts) (hx : x ≠ .vb) : Heard c validator (ts ++ [x]) := by
  obtain ⟨hguide, us, vs, rfl, hv, hmay, hfits⟩ := h
  refine ⟨hguide, us, vs ++ [x], by simp, ?_, hmay, hfits⟩
  simpa [hv] using fun h => hx h.symm

/-- What the validator has heard stays when a token that is too long is taken back. -/
theorem Heard.dropLast (h : Heard c validator ts) (hlong : Overflows validator (ts ++ [.eom])) :
    Heard c validator ts.dropLast := by
  obtain ⟨hguide, us, vs, rfl, hv, hmay, hfits⟩ := h
  -- what was heard is not all of the sequence, which is too long
  have hne : vs ≠ [] := by
    rintro rfl
    rw [List.append_nil] at hlong
    exact hfits hlong
  rw [List.dropLast_append_of_ne_nil hne]
  exact ⟨hguide, us, vs.dropLast, rfl, fun h => hv ((List.dropLast_sublist vs).subset h), hmay, hfits⟩

theorem limits_initialGuide (hlimit : c.options.staffLimit = some limit) : Limits limit c.initialGuide := by
  rw [Setting.initialGuide, hlimit]
  exact Guide.limits_initial

theorem limited_of_consults (hl : s.tokens.getLast? = some last) (hs : Limited c validator limit s)
    (h : Consults c (.validating validator) s last (c.grammar.row last) (.ok u)) : Limited c validator limit u := by
  cases h with
  | unguided => exact hs
  | followed hguide hrow hm ho =>
    have hmay : c.grammar.MayEnd s.tokens := ⟨last, hl, hrow⟩
    have hshort := mt (Validation.overflows_iff_of_parse hm).1 (Bool.eq_false_iff.1 ho)
    exact ⟨hs.tokens, .inr ⟨hguide, s.tokens, [], by simp [follow], List.not_mem_nil, hmay, hshort⟩⟩
  | deepened =>
    refine ⟨?_, ?_⟩
    · rw [guardDivisions_tokens]
      exact hs.tokens
    · rw [guardDivisions_tokens]
      refine hs.guide.imp_left fun hlimits t ht => ?_
      have hgroup : t.group ≠ .division := by
        rw [Guide.group_of_mem_stavesAbove ht]
        decide
      rw [mem_guardDivisions hgroup]
      exact hlimits t ht

theorem limitedUnless_of_draws (hs : Limited c validator limit s)
    (hd : Draws c (.validating validator) s predictor row x u) :
    LimitedUnless limit (LimitLifted c) (push c u x).tokens := by
  rw [hd.tokens_push, Guide.limitedUnless_concat]
  refine ⟨hs.tokens, fun hx => ?_⟩
  rcases hs.guide with hlimits | hheard
  · exact absurd hd.admits.2 (hlimits x hx)
  · exact hheard.limitLifted

theorem limited_of_extends (hlimit : c.options.staffLimit = some limit) (hs : Limited c validator limit s)
    (h : Extends c (.validating validator) s predictor row o) :
    o.Limited c validator limit := by
  have hreset : Limits limit c.initialGuide := limits_initialGuide hlimit
  have htidy : ∀ {x : Token} {u : State}, Draws c (.validating validator) s predictor row x u →
      LimitedUnless limit (LimitLifted c) (tidy (push c u x)).tokens :=
    fun hd => Guide.limitedUnless_tidyBeams limitLifted_filter (limitedUnless_of_draws hs hd) _
  cases h with
  | nothingAdmissible => exact Guide.limitedUnless_closeOut limitLifted_filter hs.tokens _
  | unanswered => exact hs.tokens
  | quotaExceeded => exact Guide.limitedUnless_closeOut limitLifted_filter hs.tokens _
  | noFiniteLogit => exact hs.tokens
  | paddingDrawn hd =>
    show LimitedUnless limit (LimitLifted c) _
    rw [hd.tokens]
    exact hs.tokens
  | pushed hd _ hvb =>
    refine ⟨limitedUnless_of_draws hs hd, ?_⟩
    obtain ⟨random, rfl⟩ := hd.eq
    exact hs.guide.imp_right fun hheard => hheard.concat hvb
  | unjudged hd => exact htidy hd
  | backtracked hd => exact ⟨Guide.limitedUnless_take (htidy hd) _, .inl hreset⟩
  | sampled hd => exact htidy hd
  | voiceEnded hd => exact ⟨htidy hd, .inl hreset⟩

/-- **An iteration keeps to the limit** unless the validator has lifted it. -/
theorem limited_of_iterates (hlimit : c.options.staffLimit = some limit) (hs : Limited c validator limit s)
    (h : Iterates c (.validating validator) s o) : o.Limited c validator limit := by
  cases h with
  | predictorsExhausted => exact Guide.limitedUnless_closeOut limitLifted_filter hs.tokens _
  | nothingLeft => exact Guide.limitedUnless_closeOut limitLifted_filter hs.tokens _
  | consulted _ hc =>
    cases hc with
    | unread => exact hs.tokens
    | takenBack _ _ hm ho =>
      have hlong : Overflows validator (s.tokens ++ [.eom]) := (Validation.overflows_iff_of_parse hm).2 ho
      refine ⟨?_, hs.guide.imp_right fun hheard => hheard.dropLast hlong⟩
      show LimitedUnless limit (LimitLifted c) s.tokens.dropLast
      rw [List.dropLast_eq_take]
      exact Guide.limitedUnless_take hs.tokens _
    | tooDeep => exact Guide.limitedUnless_closeOut limitLifted_filter hs.tokens _
  | extended _ hl hc he => exact limited_of_extends hlimit (limited_of_consults hl hs hc) he

end Sampler

/-! ## Beam search -/

namespace BeamSearch

open Guide (LimitedUnless Limits)

variable {c : Setting} {K : Collaborators} {b d : Branch} {predictor : Nat}

/-- What is known of a branch: a staff above the limit is in the sequence, and in the guide for its last token, only after
a place where the measure might have ended. -/
structure Limited (c : Setting) (limit : UInt8) (b : Branch) : Prop where
  tokens : LimitedUnless limit c.grammar.MightHaveEnded b.tokens
  guide : Limits limit b.guide ∨ c.grammar.MightHaveEnded b.tokens.dropLast

theorem limits_initialGuide (hlimit : c.options.staffLimit = some limit) : Limits limit c.initialGuide := by
  rw [Setting.initialGuide, hlimit]
  exact Guide.limits_initial

theorem limits_of_continues {k : Continuation} (hlimit : c.options.staffLimit = some limit)
    (hl : b.tokens.getLast? = some b.last) (hb : Limited c limit b) (h : Continues c K b k) :
    Limits limit k.guide ∨ c.grammar.MightHaveEnded b.tokens := by
  cases h with
  | voiceStarted => exact .inl (limits_initialGuide hlimit)
  | judged _ hend =>
    have hmay : c.grammar.MayEnd b.tokens := ⟨b.last, hl, hend⟩
    exact .inr (by simpa using hmay.mightHaveEnded List.not_mem_nil)
  | deepened hvb =>
    -- the guide is the one for the last token, which does not end the voice
    refine hb.guide.imp_right fun hended => ?_
    obtain ⟨ts, hts⟩ := List.getLast?_eq_some_iff.1 hl
    rw [hts, List.dropLast_concat] at hended
    rw [hts, Grammar.mightHaveEnded_concat]
    exact .inr ⟨hvb, hended⟩

theorem limited_of_child (hlimit : c.options.staffLimit = some limit) (hl : b.tokens.getLast? = some b.last)
    (hb : Limited c limit b) (h : Child c K predictor b d) : Limited c limit d := by
  obtain ⟨k, hk, hguide, -⟩ := h.continues
  have hlimits := limits_of_continues hlimit hl hb hk
  rw [← hguide] at hlimits
  refine ⟨?_, ?_⟩
  · rw [h.tokens_eq, Guide.limitedUnless_concat]
    refine ⟨hb.tokens, fun hd => ?_⟩
    rcases hlimits with hlimits | hended
    · exact absurd h.admits.2.1 (hlimits _ hd)
    · exact hended
  · rw [h.tokens_eq, List.dropLast_concat]
    exact hlimits

theorem limited_of_descends (hlimit : c.options.staffLimit = some limit)
    (hstart : ∀ t ∈ c.options.start, t ∉ Guide.stavesAbove limit) (h : Descends c K b) : Limited c limit b := by
  induction h with
  | root => exact ⟨Guide.limitedUnless_of_not_mem hstart, .inl (limits_initialGuide hlimit)⟩
  | child hb hd ih => exact limited_of_child hlimit hb.getLast? ih hd

end BeamSearch

/-! ## Results -/

/-- An empty primer stands for the begin of a measure, which is no staff. -/
theorem RunOptions.start_limited {o : RunOptions} (h : ∀ t ∈ o.primer, t ∉ Guide.stavesAbove limit) :
    ∀ t ∈ o.start, t ∉ Guide.stavesAbove limit := by
  unfold start
  split
  · intro t ht
    rw [List.mem_singleton.1 ht]
    exact Guide.not_mem_stavesAbove (by decide)
  · exact h

/-- **How far the staff limit reaches**: what either decoder returns has a staff above the limit only in a voice that
might have ended before it. Up to the first such place of a voice the limit holds, and without the guide of the
validator it holds throughout. -/
theorem limitedUnless_of_results :
    (∀ (c : BeamSearch.Setting) (K : Collaborators) (capacities : List Nat) (b : Branch) (ending : BeamSearch.Ending),
        c.options.staffLimit = some limit → (∀ t ∈ c.options.primer, t ∉ Guide.stavesAbove limit) →
        (BeamSearch.search c capacities).ReturnsWith K (.ok (b, ending)) →
        Guide.LimitedUnless limit c.grammar.MightHaveEnded b.tokens) ∧
      ∀ (c : Sampler.Setting) (validator : String → Except String Measure) (capacities : List Nat)
        (masker : Option Masker) (random : Random) (r : Sampler.Run), c.options.staffLimit = some limit →
        (∀ t ∈ c.options.primer, t ∉ Guide.stavesAbove limit) →
        (Sampler.sample c capacities masker random).ReturnsWith (.validating validator) r →
        Guide.LimitedUnless limit (Sampler.LimitLifted c) r.tokens := by
  constructor
  · intro c K capacities b ending hlimit hprimer h
    obtain ⟨generated, hs⟩ := BeamSearch.search_returns_iff.1 h
    have hb := (BeamSearch.descends_of_searches hs).2
    exact (BeamSearch.limited_of_descends hlimit (RunOptions.start_limited hprimer) hb).tokens
  · intro c validator capacities masker random r hlimit hprimer h
    have hstart : Guide.LimitedUnless limit (Sampler.LimitLifted c) c.options.start :=
      Guide.limitedUnless_of_not_mem (RunOptions.start_limited hprimer)
    cases hp : (Sampler.initialState c capacities masker random).cursor.current? with
    | none =>
      rw [Sampler.tokens_of_sample_of_none hp h]
      exact hstart
    | some predictor =>
      obtain ⟨t, ending, ht, rfl⟩ := (Sampler.sample_returns_iff hp).1 h
      have hinitial : Sampler.Limited c validator limit (Sampler.initialState c capacities masker random) :=
        ⟨hstart, .inl (Sampler.limits_initialGuide hlimit)⟩
      refine Sampler.iterate_induction (I := Sampler.Limited c validator limit)
        (J := fun t _ => Guide.LimitedUnless limit (Sampler.LimitLifted c) t.tokens) ?_ ?_ hinitial ht
      · exact fun s t hs hst => Sampler.limited_of_iterates hlimit hs hst
      · exact fun s t ending hs hst => Sampler.limited_of_iterates hlimit hs hst

/-- A note on the first staff, and one on the second staff after it. -/
def secondStaff : List Token := [.bom, .pitchC, .d4, .s2, .pitchC, .d4, .eom]

/-- The measure may end after each of the notes. -/
def secondStaffGrammar : Grammar := .ofSentences [[.bom, .pitchC, .d4, .eom], secondStaff]

/-- A validator for which the measure is too short before the second note. -/
def hearsBothStaves (text : String) : Except String Measure :=
  .ok { tail := { filling := some (if text == "BOM c D4 S2 c D4 EOM" then 0 else -1) } }

/-- Both decoders are told to fill the measure, and to stay on the first staff. -/
def firstStaffOptions : RunOptions := { staffLimit := some 1, forbidPartial := true }

def firstStaffSearch : BeamSearch.Setting where
  grammar := secondStaffGrammar
  options := { firstStaffOptions with }
  elementary := BeamSearch.evenElementary

def firstStaffSample : Sampler.Setting where
  grammar := secondStaffGrammar
  options := { firstStaffOptions with temperature := 0 }

/-- Both decoders go to the second staff, since the measure might have ended after the first note. -/
theorem limitedUnless_of_results_secondStaff :
    Token.s2 ∈ Guide.stavesAbove 1 ∧
      (∃ b, (BeamSearch.search firstStaffSearch [64]).ReturnsWith (.validating hearsBothStaves) (.ok (b, .bestComplete)) ∧
        b.tokens = secondStaff ∧ secondStaffGrammar.MightHaveEnded [.bom, .pitchC, .d4]) ∧
      ∃ r, (Sampler.sample firstStaffSample [64] none (.ofSeed 1)).ReturnsWith (.validating hearsBothStaves) r ∧
        r.ending = .sampled ∧ r.tokens = secondStaff ∧ Sampler.LimitLifted firstStaffSample [.bom, .pitchC, .d4] := by
  have habove : Token.s2 ∈ Guide.stavesAbove 1 := by decide +kernel
  have hprimer : ∀ t ∈ [Token.bom], t ∉ Guide.stavesAbove 1 := by decide +kernel
  refine ⟨habove, ?_, ?_⟩
  · have hrun : (BeamSearch.runWithin firstStaffSearch (BeamSearch.evenAnswer hearsBothStaves) 7
        (BeamSearch.initialState firstStaffSearch [64])).map (fun r => (r.2.1.tokens, r.2.2)) =
        some (secondStaff, .bestComplete) := by decide +kernel
    obtain ⟨⟨generated, b, ending⟩, hr, he⟩ := Option.map_eq_some_iff.1 hrun
    obtain ⟨hb, rfl⟩ := Prod.mk.inj he
    have hs := BeamSearch.search_returns_iff.2 ⟨_, BeamSearch.searches_of_runWithin (by decide +kernel) hr⟩
    have hlimited := limitedUnless_of_results.1 firstStaffSearch _ [64] b _ rfl hprimer hs
    exact ⟨b, hs, hb, hlimited _ .s2 [.pitchC, .d4, .eom] hb habove⟩
  · have hrun : (Sampler.runWithin firstStaffSample (BeamSearch.evenAnswer hearsBothStaves) 7
        (Sampler.initialState firstStaffSample [64] none (.ofSeed 1))).map (fun r => (r.1.tokens, r.2)) =
        some (secondStaff, .sampled) := by decide +kernel
    obtain ⟨⟨t, ending⟩, hr, he⟩ := Option.map_eq_some_iff.1 hrun
    obtain ⟨ht, rfl⟩ := Prod.mk.inj he
    have h := Sampler.sample_of_runWithin (Collaborators.validating_of_parse fun _ => rfl) (by decide +kernel) hr
    have hlimited := limitedUnless_of_results.2 firstStaffSample hearsBothStaves [64] none (.ofSeed 1) _ rfl hprimer h
    exact ⟨_, h, rfl, ht, hlimited _ .s2 [.pitchC, .d4, .eom] ht habove⟩

end ScoreDecoding
