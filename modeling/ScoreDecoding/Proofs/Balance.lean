import ScoreDecoding.Proofs.BeamMarks
import ScoreDecoding.Proofs.History
import ScoreDecoding.Proofs.TokenText
import ScoreDecoding.Proofs.Trajectory

/-!
# Balanced beams

Neither decoder looks at beams itself. Guided sampling sets a guide by what the validator says of the sequence, and
takes openings out where a voice ends; beam search rejects. If the validator knows where a beam is open, and the measure
may end wherever a beam may be opened or closed or a voice may end, so that it is asked there, no mark is ever out of
turn.

- `ReportsBeams` and `EndsAtMarks` are the two conditions;
- `state?_concat_of_mem_ofStatus` is the step: a token that is admitted by an accurate status is in turn;
- `Sampler.state?_of_iterates` and `BeamSearch.inTurn_of_descends` carry it through the decoders, and
  `balanced_of_results` is said of what they return.
-/

namespace ScoreDecoding

open BeamMarks

/-- The validator reports an open beam exactly where one is open. -/
def Validation.ReportsBeams (validator : String → Except String Measure) : Prop :=
  ∀ ts m, validator (Token.code ts (some .eom)) = .ok m → m.tail.beamOpen = endsOpen ts

/-- The measure may end wherever a beam may be opened or closed, or a voice may end. -/
def Grammar.EndsAtMarks (g : Grammar) : Prop :=
  ∀ before after : Token, after ∈ [.beamOpen, .beamClose, .vb] → g.allows before after = true →
    g.allows before .eom = true

-- the marks come first, so that there are few pairs to look at
instance (g : Grammar) : Decidable g.EndsAtMarks :=
  decidable_of_iff (∀ after ∈ [Token.beamOpen, .beamClose, .vb], ∀ before : Token,
    g.allows before after = true → g.allows before .eom = true)
    ⟨fun h before after ha => h after ha before, fun h after ha before => h before after ha⟩

variable {validator : String → Except String Measure}

theorem Grammar.EndsAtMarks.allows_eom {g : Grammar} (hg : g.EndsAtMarks) {before after : Token}
    (h : g.allows before after = true) :
    g.allows before .eom = true ∨ isMark after = false ∧ after ≠ .vb ∧ after ≠ .eom := by
  rcases mark_cases after with rfl | rfl | rfl | ⟨hm, hv⟩
  · exact .inl (hg before _ (by simp) h)
  · exact .inl (hg before _ (by simp) h)
  · exact .inl (hg before _ (by simp) h)
  · by_cases he : after = .eom
    · exact .inl (he ▸ h)
    · exact .inr ⟨hm, hv, he⟩

theorem Validation.ReportsBeams.state? (hv : ReportsBeams validator) {ts : List Token} {m : Measure}
    (hm : Collaborators.validating validator (.parse (Token.code ts (some .eom))) (.ok m))
    (hts : (BeamMarks.state? ts).isSome = true) : BeamMarks.state? ts = some m.tail.beamOpen := by
  obtain ⟨isOpen, ho⟩ := Option.isSome_iff_exists.1 hts
  rw [hv ts m hm.symm, endsOpen_of_state? ho, ho]

/-- **A token that is admitted by an accurate status is in turn.** -/
theorem state?_concat_of_mem_ofStatus {ts : List Token} {t : Token} {s : TailStatus}
    (hs : state? ts = some s.beamOpen) (ht : t ∈ Guide.ofStatus s) (hv : s.beamOpen = true → t ≠ .vb) :
    (state? (ts ++ [t])).isSome = true := by
  rw [state?_concat, hs, Option.bind_some]
  rcases mark_cases t with rfl | rfl | rfl | ⟨hm, hvb⟩
  · rw [Guide.not_beamOpen_of_mem_ofStatus ht]
    rfl
  · rw [Guide.beamOpen_of_mem_ofStatus ht]
    rfl
  · cases ho : s.beamOpen with
    | false => rfl
    | true => exact absurd rfl (hv ho)
  · rw [next?_of_not_mark hm hvb]
    rfl

/-! ## Guided sampling -/

namespace Sampler

variable {c : Setting} {s t u w : State} {last x : Token} {predictor : Nat}

theorem state?_of_consults (hguide : c.options.parserGuide = true) (hv : Validation.ReportsBeams validator)
    (hs : (state? s.tokens).isSome = true) (hrow : c.grammar.allows last .eom = true)
    (h : Consults c (.validating validator) s last (c.grammar.row last) (.ok u)) :
    ∃ status, u = follow c s status ∧ state? s.tokens = some status.beamOpen := by
  obtain ⟨m, hm, -, rfl⟩ := followed_of_consults hguide hrow h
  exact ⟨m.tail, rfl, hv.state? hm hs⟩

theorem state?_of_draws (hguide : c.options.parserGuide = true) (hv : Validation.ReportsBeams validator)
    (hg : c.grammar.EndsAtMarks) (hs : (state? s.tokens).isSome = true)
    (hc : Consults c (.validating validator) s last (c.grammar.row last) (.ok u))
    (hd : Draws c (.validating validator) u predictor (c.grammar.row last) x w) :
    (state? (push c w x).tokens).isSome = true := by
  rw [hd.tokens_push, tokens_of_consults hc]
  rcases hg.allows_eom hd.admits.1 with hend | ⟨hm, hvb, -⟩
  · obtain ⟨status, rfl, hstatus⟩ := state?_of_consults hguide hv hs hend hc
    obtain ⟨hmem, hopen, -⟩ := mem_follow.1 hd.admits.2
    exact state?_concat_of_mem_ofStatus hstatus hmem hopen
  · obtain ⟨isOpen, ho⟩ := Option.isSome_iff_exists.1 hs
    rw [state?_concat, ho, Option.bind_some, next?_of_not_mark hm hvb]
    rfl

/-- After a voice has ended, tidying leaves no beam open: the status is that of the sequence before its end. -/
theorem state?_tidy (hguide : c.options.parserGuide = true) (hv : Validation.ReportsBeams validator)
    (hg : c.grammar.EndsAtMarks) (hs : (state? s.tokens).isSome = true)
    (hc : Consults c (.validating validator) s last (c.grammar.row last) (.ok u))
    (hd : Draws c (.validating validator) u predictor (c.grammar.row last) x w) (hx : x = .vb ∨ x = .eom) :
    state? (tidy (push c w x)).tokens = some false := by
  have hend : c.grammar.allows last .eom = true := by
    rcases hg.allows_eom hd.admits.1 with hend | ⟨-, hvb, he⟩
    · exact hend
    · exact absurd hx (not_or.2 ⟨hvb, he⟩)
  obtain ⟨status, rfl, hstatus⟩ := state?_of_consults hguide hv hs hend hc
  obtain ⟨random, rfl⟩ := hd.eq
  show state? (Repair.tidyBeams (some status) (s.tokens ++ [x])) = some false
  rcases hx with rfl | rfl <;>
    rw [Repair.tidyBeams_append (by decide) (by decide), state?_concat, state?_tidyBeams hstatus] <;> rfl

theorem state?_of_iterates (hguide : c.options.parserGuide = true) (hv : Validation.ReportsBeams validator)
    (hg : c.grammar.EndsAtMarks) (hs : (state? s.tokens).isSome = true)
    (h : Iterates c (.validating validator) s (.next t)) : (state? t.tokens).isSome = true := by
  cases h with
  | consulted _ hc =>
    cases hc with
    | takenBack =>
      show (state? s.tokens.dropLast).isSome = true
      rw [List.dropLast_eq_take]
      exact state?_take hs _
  | extended _ _ hc he =>
    cases he with
    | pushed hd => exact state?_of_draws hguide hv hg hs hc hd
    | backtracked hd hx =>
      have htidy := state?_tidy hguide hv hg hs hc hd hx
      exact state?_take (by rw [htidy]; rfl) _
    | voiceEnded hd =>
      have htidy := state?_tidy hguide hv hg hs hc hd (.inl rfl)
      show (state? (tidy (push c _ .vb)).tokens).isSome = true
      rw [htidy]
      rfl

end Sampler

/-! ## Beam search -/

namespace BeamSearch

variable {c : Setting} {b d : Branch} {predictor : Nat}

/-- What is kept of a branch: no mark is out of turn, and no beam is open if it is ended. -/
def InTurn (b : Branch) : Prop := (state? b.tokens).isSome = true ∧ (b.last = .eom → state? b.tokens = some false)

/-- A child is in turn: a mark or an end is only admitted where the validator has been asked or a voice starts. -/
theorem inTurn_of_child (hv : Validation.ReportsBeams validator) (hg : c.grammar.EndsAtMarks)
    (h : Child c (.validating validator) predictor b d) (hl : b.tokens.getLast? = some b.last) (hb : InTurn b) :
    InTurn d := by
  obtain ⟨hrow, hguide, -⟩ := h.admits
  obtain ⟨k, hk, hkg, -⟩ := h.continues
  rw [hkg] at hguide
  unfold InTurn
  rw [h.tokens_eq]
  rcases hg.allows_eom hrow with hend | ⟨hm, hvb, he⟩
  · cases hk with
    | voiceStarted hlast =>
      have hstate : state? b.tokens = some false := state?_of_getLast?_vb hb.1 (hlast ▸ hl)
      have hclose : d.last ≠ .beamClose := (Guide.mem_initial.1 hguide).2.1
      rw [state?_concat, hstate, Option.bind_some]
      refine ⟨?_, fun he => by rw [he]; rfl⟩
      rcases mark_cases d.last with ho | hc | hvb | ⟨hm, hvb⟩
      · rw [ho]
        rfl
      · exact absurd hc hclose
      · rw [hvb]
        rfl
      · rw [next?_of_not_mark hm hvb]
        rfl
    | @judged m _ _ _ hm hgm =>
      have hstate := hv.state? hm hb.1
      obtain ⟨hmem, hopen⟩ := (mem_guideOf hgm).1 hguide
      refine ⟨state?_concat_of_mem_ofStatus hstate hmem fun ho => (hopen (by rw [ho]; rfl)).1, fun he => ?_⟩
      cases ho : m.tail.beamOpen with
      | false =>
        rw [state?_concat, hstate, ho, he]
        rfl
      | true => exact absurd he (hopen (by rw [ho]; rfl)).2
    | deepened _ hno =>
      rw [hno] at hend
      cases hend
  · refine ⟨?_, fun h => absurd h he⟩
    obtain ⟨isOpen, ho⟩ := Option.isSome_iff_exists.1 hb.1
    rw [state?_concat, ho, Option.bind_some, next?_of_not_mark hm hvb]
    rfl

theorem inTurn_of_descends (hv : Validation.ReportsBeams validator) (hg : c.grammar.EndsAtMarks)
    (hstart : c.options.start = [.bom]) (h : Descends c (.validating validator) b) : InTurn b := by
  induction h with
  | root =>
    unfold InTurn
    rw [show (root c).tokens = [.bom] from hstart]
    exact ⟨rfl, fun _ => rfl⟩
  | child hb hd ih => exact inTurn_of_child hv hg hd hb.getLast? ih

end BeamSearch

/-! ## Results -/

/-- **Both decoders return balanced beams**: every complete result of a search, and every result of guided sampling
that was ended by sampling under the guide of the validator. -/
theorem balanced_of_results {g : Grammar} (hv : Validation.ReportsBeams validator) (hg : g.EndsAtMarks) :
    (∀ (c : BeamSearch.Setting) (capacities : List Nat) (b : Branch) (ending : BeamSearch.Ending), c.grammar = g →
        c.options.primer = [.bom] →
        (BeamSearch.search c capacities).ReturnsWith (.validating validator) (.ok (b, ending)) → b.last = .eom →
        Balanced b.tokens) ∧
      ∀ (c : Sampler.Setting) (capacities : List Nat) (masker : Option Masker) (random : Random) (r : Sampler.Run),
        c.grammar = g → c.options.primer = [.bom] → c.options.parserGuide = true →
        (Sampler.sample c capacities masker random).ReturnsWith (.validating validator) r → r.ending = .sampled →
        Balanced r.tokens := by
  constructor
  · rintro c capacities b ending rfl hprimer h hb
    obtain ⟨generated, hs⟩ := BeamSearch.search_returns_iff.1 h
    have hstart : c.options.start = [.bom] := by simp [RunOptions.start, hprimer]
    exact balanced_of_state? ((BeamSearch.inTurn_of_descends hv hg hstart (BeamSearch.descends_of_searches hs).2).2 hb)
  · rintro c capacities masker random r rfl hprimer hguide h hr
    have hstart : c.options.start = [.bom] := by simp [RunOptions.start, hprimer]
    obtain ⟨u, hu⟩ := (Sampler.sample_returns_iff_ends (by simp [hr])).1 h
    have hstate : (state? u.tokens).isSome = true := by
      refine Sampler.ends_induction (I := fun s => (state? s.tokens).isSome = true)
        (fun s t hs ht => Sampler.state?_of_iterates hguide hv hg hs ht) ?_ hu
      show (state? c.options.start).isSome = true
      rw [hstart]
      rfl
    obtain ⟨t, ho, ht⟩ := hu.iterates
    rw [hr] at ho
    obtain ⟨m, hm, -, -, htokens, -⟩ := Sampler.sampled_of_iterates hguide ho
    rw [ht, htokens, Repair.tidyBeams_append (by decide) (by decide)]
    apply balanced_of_state?
    rw [state?_concat, state?_tidyBeams (hv.state? hm hstate)]
    rfl

/-- Eighths with beams between some of them. -/
def beamedEighths : List Token :=
  [.bom, .pitchC, .d8, .beamOpen, .pitchC, .d8, .beamClose, .pitchC, .d8, .beamOpen, .pitchC, .d8, .eom]

/-- A validator that reads the beams of a text, and for which three eighths are enough. -/
def readsBeams (text : String) : Except String Measure :=
  let ts := (Token.ofText text).dropLast
  .ok { tail := { beamOpen := endsOpen ts, filling := if ts.length < 9 then some (-1) else none } }

theorem reportsBeams_readsBeams : Validation.ReportsBeams readsBeams := by
  intro ts m hm
  obtain rfl : _ = m := Except.ok.inj hm
  simp [Token.ofText_code]

/-- A predictor that likes to write the eighths to their end. -/
def eighthsAnswer : (q : Query) → q.Answer
  | .predict _ _ ts => .ok (Token.all.map fun t => if beamedEighths[ts.length]? = some t then 1 else 0).toArray
  | .parse text => readsBeams text

/-- A search in which the measure must not end before the validator is content. -/
def beamedSearch : BeamSearch.Setting where
  grammar := .ofSentences [beamedEighths]
  options := { forbidPartial := true }
  elementary := BeamSearch.evenElementary

/-- A run that writes the eighths. -/
def beamedSample : Sampler.Setting where
  grammar := .ofSentences [beamedEighths]
  options := { temperature := 0 }

/-- A search that closes the beam that it opens, and a run that leaves a second one open, which is taken out. -/
theorem balanced_of_results_beamedEighths :
    Validation.ReportsBeams readsBeams ∧ (Grammar.ofSentences [beamedEighths]).EndsAtMarks ∧
      (∃ b, (BeamSearch.search beamedSearch [64]).ReturnsWith (.validating readsBeams) (.ok (b, .bestComplete)) ∧
        b.tokens = [.bom, .pitchC, .d8, .beamOpen, .pitchC, .d8, .beamClose, .pitchC, .d8, .eom] ∧
        Balanced b.tokens) ∧
      ∃ r, (Sampler.sample beamedSample [64] none (.ofSeed 4)).ReturnsWith (.validating readsBeams) r ∧
        r.ending = .sampled ∧
        r.tokens = [.bom, .pitchC, .d8, .beamOpen, .pitchC, .d8, .beamClose, .pitchC, .d8, .pitchC, .d8, .eom] ∧
        Balanced r.tokens := by
  have hends : (Grammar.ofSentences [beamedEighths]).EndsAtMarks := by decide +kernel
  have hbalanced := balanced_of_results reportsBeams_readsBeams hends
  refine ⟨reportsBeams_readsBeams, hends, ?_, ?_⟩
  · have hrun : (BeamSearch.runWithin beamedSearch (BeamSearch.evenAnswer readsBeams) 9
        (BeamSearch.initialState beamedSearch [64])).map (fun r => (r.2.1.tokens, r.2.1.last, r.2.2)) =
        some ([.bom, .pitchC, .d8, .beamOpen, .pitchC, .d8, .beamClose, .pitchC, .d8, .eom], .eom, .bestComplete) := by
      decide +kernel
    obtain ⟨⟨generated, b, ending⟩, hr, he⟩ := Option.map_eq_some_iff.1 hrun
    obtain ⟨hb, hlast, rfl⟩ := by simpa only [Prod.mk.injEq] using he
    have hs := BeamSearch.search_returns_iff.2 ⟨_, BeamSearch.searches_of_runWithin (by decide +kernel) hr⟩
    exact ⟨b, hs, hb, hbalanced.1 beamedSearch [64] b _ rfl rfl hs hlast⟩
  · have hrun : (Sampler.runWithin beamedSample eighthsAnswer 14
        (Sampler.initialState beamedSample [64] none (.ofSeed 4))).map (fun r => (r.1.tokens, r.2)) =
        some ([.bom, .pitchC, .d8, .beamOpen, .pitchC, .d8, .beamClose, .pitchC, .d8, .pitchC, .d8, .eom],
          .sampled) := by
      decide +kernel
    obtain ⟨⟨t, ending⟩, hr, he⟩ := Option.map_eq_some_iff.1 hrun
    obtain ⟨ht, rfl⟩ := Prod.mk.inj he
    have h := Sampler.sample_of_runWithin (Collaborators.validating_of_parse fun _ => rfl) (by decide +kernel) hr
    exact ⟨_, h, rfl, ht, hbalanced.2 beamedSample [64] none (.ofSeed 4) _ rfl rfl rfl h rfl⟩

end ScoreDecoding
