import ScoreDecoding.Proofs.Repair
import ScoreDecoding.Proofs.TokenText
import ScoreDecoding.Proofs.Trajectory

/-!
# Measures that are closed by force

A run that cannot go on cuts its sequence back to where the measure may end, and ends it there. The validator was asked
about each such place when the sequence first came to it, and a token that made a voice too long was taken back at once.
The one place it may not know yet is the end of the sequence at the start of an iteration, and there is one exit from
there: the predictors have run out.

- `Fits` says that no start of a sequence is too long where the measure may end. It holds of all but the last token
  whenever an iteration starts (`heeded_of_iterates`), and of the whole sequence once the validator has been consulted
  (`fits_of_consults`);
- `overflows_iff_of_close`: exactly when a measure that is closed by force is too long.
-/

namespace ScoreDecoding.Sampler

open Validation (Overflows)

/-- No start of the sequence after which the measure may end is too long. -/
def Fits (g : Grammar) (validator : String → Except String Measure) (ts : List Token) : Prop :=
  ∀ us, us <+: ts → g.MayEnd us → ¬ Overflows validator (us ++ [.eom])

variable {c : Setting} {g : Grammar} {validator : String → Except String Measure} {s t u : State} {ts us : List Token}

/-! ## Starts of a sequence -/

theorem Fits.of_prefix (h : Fits g validator ts) (hu : us <+: ts) : Fits g validator us :=
  fun vs hv => h vs (hv.trans hu)

theorem fits_nil : Fits g validator [] := by
  rintro us hu ⟨last, hl, -⟩
  rw [List.prefix_nil.1 hu] at hl
  cases hl

/-- What is left to ask about is the whole sequence. -/
theorem fits_iff :
    Fits g validator ts ↔ Fits g validator ts.dropLast ∧ (g.MayEnd ts → ¬ Overflows validator (ts ++ [.eom])) := by
  refine ⟨fun h => ⟨h.of_prefix (List.dropLast_prefix ts), h ts (List.prefix_refl ts)⟩, ?_⟩
  rintro ⟨hinit, hall⟩
  induction ts using List.reverseRecOn with
  | nil => exact hinit
  | append_singleton ts t =>
    intro us hu
    rcases List.prefix_concat_iff.1 hu with rfl | hu
    · exact hall
    · rw [List.dropLast_concat] at hinit
      exact hinit us hu

/-- What is left of a sequence to which a token was appended fits but for its last token. -/
theorem Fits.dropLast_of_concat {x : Token} (h : Fits g validator ts) (hu : us <+: ts ++ [x]) :
    Fits g validator us.dropLast := by
  rcases List.prefix_concat_iff.1 hu with rfl | hu
  · rwa [List.dropLast_concat]
  · exact h.of_prefix ((List.dropLast_prefix us).trans hu)

/-- **Closing a sequence makes it too long** only if all of it is kept, and was too long before. -/
theorem overflows_closeOut_iff {status : Option TailStatus} (hclosed : status.any (·.beamOpen) = false)
    (hend : ¬ Overflows validator [.eom]) (h : Fits g validator ts.dropLast) :
    Overflows validator (Repair.closeOut g status ts) ↔ g.MayEnd ts ∧ Overflows validator (ts ++ [.eom]) := by
  rw [Repair.closeOut, Repair.tidyBeams_of_closed hclosed]
  by_cases hmay : g.MayEnd ts
  · rw [Repair.cutToEnd_of_mayEnd hmay, and_iff_right hmay]
  · refine iff_of_false ?_ fun ho => hmay ho.1
    by_cases hcut : Repair.cutToEnd g ts = []
    · rw [hcut]
      exact hend
    · exact h _ (Repair.cutToEnd_prefix_dropLast hmay) (Repair.mayEnd_cutToEnd hcut)

/-! ## One iteration -/

/-- What is known of a state when an iteration starts: no beam was reported open, and its sequence fits but for its last
token. -/
structure Heeded (validator : String → Except String Measure) (g : Grammar) (s : State) : Prop where
  closed : s.status.any (·.beamOpen) = false
  fits : Fits g validator s.tokens.dropLast

/-- Once the validator has been consulted, the whole sequence fits. -/
theorem fits_of_consults {last : Token} (hguide : c.options.parserGuide = true)
    (hbeam : ∀ text m, validator text = .ok m → m.tail.beamOpen = false) (hs : Heeded validator c.grammar s)
    (hl : s.tokens.getLast? = some last)
    (h : Consults c (.validating validator) s last (c.grammar.row last) (.ok u)) :
    u.status.any (·.beamOpen) = false ∧ Fits c.grammar validator u.tokens := by
  cases h with
  | unguided hno =>
    rw [hguide] at hno
    cases hno
  | followed _ _ hm ho =>
    have hshort := mt (Validation.overflows_iff_of_parse hm).1 (Bool.eq_false_iff.1 ho)
    exact ⟨hbeam _ _ hm.symm, fits_iff.2 ⟨hs.fits, fun _ => hshort⟩⟩
  | deepened _ hno =>
    rw [guardDivisions_tokens]
    refine ⟨?_, fits_iff.2 ⟨hs.fits, ?_⟩⟩
    · unfold guardDivisions
      split <;> exact hs.closed
    · -- the validator is not asked, since the measure may not end here
      rintro ⟨last', hl', hend⟩
      cases hl.symm.trans hl'
      exact absurd hend hno

theorem tidied_of_draws {predictor : Nat} {row : TokenSet} {x : Token} {K : Collaborators}
    (hclosed : s.status.any (·.beamOpen) = false) (hd : Draws c K s predictor row x u) :
    (tidy (push c u x)).status.any (·.beamOpen) = false ∧ (tidy (push c u x)).tokens <+: s.tokens ++ [x] := by
  obtain ⟨random, rfl⟩ := hd.eq
  refine ⟨hclosed, ?_⟩
  show Repair.tidyBeams s.status (s.tokens ++ [x]) <+: s.tokens ++ [x]
  exact (Repair.tidyBeams_of_closed hclosed).symm ▸ List.prefix_refl _

/-- An iteration that goes on leaves nothing unasked but the last token. -/
theorem heeded_of_iterates (hguide : c.options.parserGuide = true)
    (hbeam : ∀ text m, validator text = .ok m → m.tail.beamOpen = false) (hs : Heeded validator c.grammar s)
    (h : Iterates c (.validating validator) s (.next t)) : Heeded validator c.grammar t := by
  cases h with
  | consulted _ hc =>
    cases hc with
    | takenBack _ _ hm => exact ⟨hbeam _ _ hm.symm, hs.fits.of_prefix (List.dropLast_prefix _)⟩
  | extended _ hl hc he =>
    obtain ⟨hclosed, hfits⟩ := fits_of_consults hguide hbeam hs hl hc
    cases he with
    | pushed hd =>
      obtain ⟨random, rfl⟩ := hd.eq
      exact ⟨hclosed, hfits.dropLast_of_concat (List.prefix_refl _)⟩
    | backtracked hd =>
      obtain ⟨hstatus, htidy⟩ := tidied_of_draws hclosed hd
      exact ⟨hstatus, hfits.dropLast_of_concat ((List.take_prefix _ _).trans htidy)⟩
    | voiceEnded hd =>
      obtain ⟨hstatus, htidy⟩ := tidied_of_draws hclosed hd
      exact ⟨hstatus, hfits.dropLast_of_concat htidy⟩

/-- Where a sequence is closed, it is too long only if the predictors have run out and the validator was not asked about
its last token. -/
theorem overflows_iff_of_iterates {reason : CloseReason} (hguide : c.options.parserGuide = true)
    (hbeam : ∀ text m, validator text = .ok m → m.tail.beamOpen = false) (hend : ¬ Overflows validator [.eom])
    (hs : Heeded validator c.grammar s) (h : Iterates c (.validating validator) s (.stop t (.closed reason))) :
    Overflows validator t.tokens ↔
      reason = .predictorsExhausted ∧ c.grammar.MayEnd s.tokens ∧ Overflows validator (s.tokens ++ [.eom]) := by
  -- a sequence that fits as a whole stays so
  have sound : ∀ {status : Option TailStatus} {ts : List Token}, status.any (·.beamOpen) = false →
      Fits c.grammar validator ts → ¬ Overflows validator (Repair.closeOut c.grammar status ts) := by
    intro status ts hclosed hts ho
    obtain ⟨hmay, hlong⟩ := (overflows_closeOut_iff hclosed hend (fits_iff.1 hts).1).1 ho
    exact (fits_iff.1 hts).2 hmay hlong
  cases h with
  | predictorsExhausted =>
    rw [and_iff_right rfl]
    exact overflows_closeOut_iff hs.closed hend hs.fits
  | nothingLeft hnil =>
    refine iff_of_false ?_ (by simp)
    exact sound hs.closed (hnil ▸ fits_nil)
  | consulted hl hc =>
    cases hc with
    | tooDeep _ hno =>
      refine iff_of_false ?_ (by simp)
      refine sound hs.closed (fits_iff.2 ⟨hs.fits, ?_⟩)
      rintro ⟨last, hl', hmay⟩
      cases hl.symm.trans hl'
      exact absurd hmay hno
  | extended _ hl hc he =>
    obtain ⟨hclosed, hfits⟩ := fits_of_consults hguide hbeam hs hl hc
    cases he with
    | nothingAdmissible => exact iff_of_false (sound hclosed hfits) (by simp)
    | quotaExceeded => exact iff_of_false (sound hclosed hfits) (by simp)

/-! ## Results -/

variable {r : Run} {capacities : List Nat} {masker : Option Masker} {random : Random}

/-- **Exactly when a measure that was closed by force is too long**: the predictors have run out with a token after which
the measure may end, and this token makes it too long. The validator was not asked. -/
theorem overflows_iff_of_close {reason : CloseReason} (hguide : c.options.parserGuide = true)
    (hstart : c.options.start = [.bom]) (hbeam : ∀ text m, validator text = .ok m → m.tail.beamOpen = false)
    (hend : ¬ Overflows validator [.eom])
    (h : (sample c capacities masker random).ReturnsWith (.validating validator) r) (hr : r.ending = .closed reason) :
    (∃ u, Ends c (.validating validator) capacities masker random u r) ∧
      ∀ u, Ends c (.validating validator) capacities masker random u r →
        (Overflows validator r.tokens ↔
          reason = .predictorsExhausted ∧ c.grammar.MayEnd u.tokens ∧ Overflows validator (u.tokens ++ [.eom])) := by
  refine ⟨(sample_returns_iff_ends (by simp [hr])).1 h, fun u hu => ?_⟩
  have hs : Heeded validator c.grammar u := by
    refine ends_induction (fun s t hs ht => heeded_of_iterates hguide hbeam hs ht) ⟨rfl, ?_⟩ hu
    rw [show (initialState c capacities masker random).tokens = [.bom] from hstart]
    exact fits_nil
  obtain ⟨t, ho, ht⟩ := hu.iterates
  rw [hr] at ho
  rw [ht]
  exact overflows_iff_of_iterates hguide hbeam hend hs ho

/-- A measure that may be empty or hold a whole note. -/
def wholeSetting : Setting where
  grammar := .ofSentences [[.bom, .eom], [.bom, .pitchC, .d1, .eom]]
  options := { temperature := 0 }

/-- A validator for which a whole note is too long. -/
def hearsTooLong (text : String) : Except String Measure :=
  .ok { tail := { filling := some (if text == "BOM c D1 EOM" then 1 else -1) } }

/-- A predictor that likes to write a note. -/
def noteAnswer : (q : Query) → q.Answer
  | .predict .. => .ok (Token.all.map fun t => if t = .pitchC then 30 else 0).toArray
  | .parse text => hearsTooLong text

theorem overflows_hearsTooLong_iff : Overflows hearsTooLong ts ↔ ts = [.bom, .pitchC, .d1, .eom] := by
  have htext : Token.code [.bom, .pitchC, .d1, .eom] none = "BOM c D1 EOM" := by decide +kernel
  constructor
  · rintro ⟨m, hm, hlong⟩
    obtain rfl : _ = m := Except.ok.inj hm
    have hcode : Token.code ts none = "BOM c D1 EOM" := by
      by_contra hne
      simp [TailStatus.isOverflowing, hne] at hlong
    -- the text reads back as the sequence
    have hread := Token.ofText_code ts none
    rw [hcode, ← htext, Token.ofText_code] at hread
    simpa using hread.symm
  · rintro rfl
    exact ⟨_, rfl, by decide +kernel⟩

/-- A run whose predictor takes two tokens: the whole note is the third one, and is returned without a question. -/
theorem overflows_iff_of_close_wholeNote :
    ∃ u r, Ends wholeSetting (.validating hearsTooLong) [2] none (.ofSeed 1) u r ∧
      r.ending = .closed .predictorsExhausted ∧ r.tokens = [.bom, .pitchC, .d1, .eom] ∧
      ¬ Overflows hearsTooLong [.bom, .eom] ∧ Overflows hearsTooLong r.tokens ∧
      u.tokens = [.bom, .pitchC, .d1] := by
  have hrun : (runWithin wholeSetting noteAnswer 3 (initialState wholeSetting [2] none (.ofSeed 1))).map
      (fun r => (r.1.tokens, r.2)) =
      some ([.bom, .pitchC, .d1, .eom], .closed .predictorsExhausted) := by decide +kernel
  obtain ⟨⟨t, ending⟩, hr, he⟩ := Option.map_eq_some_iff.1 hrun
  obtain ⟨ht, rfl⟩ := Prod.mk.inj he
  have hsample := sample_of_runWithin (Collaborators.validating_of_parse fun _ => rfl) (by decide +kernel) hr
  have hlong : Overflows hearsTooLong (finish t (.closed .predictorsExhausted)).tokens :=
    overflows_hearsTooLong_iff.2 ht
  have hbeam : ∀ text m, hearsTooLong text = .ok m → m.tail.beamOpen = false := by
    intro text m hm
    obtain rfl : _ = m := Except.ok.inj hm
    rfl
  have hend : ¬ Overflows hearsTooLong [.eom] := fun h => absurd (overflows_hearsTooLong_iff.1 h) (by decide)
  obtain ⟨⟨u, hu⟩, hiff⟩ := overflows_iff_of_close rfl rfl hbeam hend hsample rfl
  obtain ⟨-, -, hlast⟩ := (hiff u hu).1 hlong
  have htokens : u.tokens ++ [.eom] = [.bom, .pitchC, .d1] ++ [.eom] := overflows_hearsTooLong_iff.1 hlast
  exact ⟨u, _, hu, rfl, ht, fun h => absurd (overflows_hearsTooLong_iff.1 h) (by decide), hlong,
    List.append_cancel_right htokens⟩

end ScoreDecoding.Sampler
