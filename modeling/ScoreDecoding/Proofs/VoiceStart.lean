import ScoreDecoding.Proofs.Questions
import ScoreDecoding.Proofs.Trajectory

/-!
# What is admitted after a voice has started anew

When a voice ends, and when a sequence goes back to the start of an event, the guides are set to those of the start of a
voice. The last report of the validator is kept, and the guard of divisions reads it until the validator is asked again:
if that report was of an unfinished timewarp, the guard acts on the new voice as if it were still the old one.

- `Restarts` are the iterations that set the guides, and `Quiet` leads on from there without a question to the
  validator;
- `WithholdsDivisions` says when the guard keeps the new voice from its divisions (`mem_guide_of_quiet`);
- `mem_admissible_of_restart`: what is admitted then, exactly.
-/

namespace ScoreDecoding.Sampler

variable (c : Setting) (K : Collaborators)

/-! ## Restarts -/

/-- An iteration after which a voice starts anew: a voice break is accepted, or the voice has a broken timewarp and the
sequence goes back to the start of an event. -/
inductive Restarts (s : State) : State → Prop
  | voiceEnded {predictor : Nat} {last : Token} {u v : State} : s.tokens.getLast? = some last →
      Consults c K s last (c.grammar.row last) (.ok u) → Draws c K u predictor (c.grammar.row last) .vb v →
      (Validation.isTimewarpInvalid (tidy (push c v .vb)).tokens).ReturnsWith K (.ok false) →
      Restarts s (resetGuides c (tidy (push c v .vb)))
  | backtracked {predictor : Nat} {last x : Token} {u v : State} : s.tokens.getLast? = some last →
      Consults c K s last (c.grammar.row last) (.ok u) → Draws c K u predictor (c.grammar.row last) x v →
      x = .vb ∨ x = .eom → (Validation.isTimewarpInvalid (tidy (push c v x)).tokens).ReturnsWith K (.ok true) →
      Restarts s (backtrack c (tidy (push c v x)))

/-- Iterations that append a token where the measure cannot end, so that the validator is not asked. The tokens that
were the last ones of their sequences are listed in order. -/
inductive Quiet (t : State) : List Token → State → Prop
  | refl : Quiet t [] t
  | pushed {seen : List Token} {predictor : Nat} {last x : Token} {s u v : State} : Quiet t seen s →
      s.tokens.getLast? = some last → .eom ∉ c.grammar.row last →
      Consults c K s last (c.grammar.row last) (.ok u) → Draws c K u predictor (c.grammar.row last) x v →
      x ≠ .vb → x ≠ .eom → Quiet t (seen ++ [last]) (push c v x)

/-- The guard withholds divisions after some tokens: the last report was of an unfinished timewarp, and the last one of
these tokens after which a division may stand is one after which a timewarp may go on as well. -/
def WithholdsDivisions (status : Option TailStatus) (seen : List Token) : Prop :=
  status.any (·.incompleteTimeWarping) = true ∧
    ∃ x, (seen.reverse.find? fun y => c.grammar.allows y .d1) = some x ∧ c.grammar.allows x .warpOn = true

variable {c K} {s t u v : State} {seen : List Token} {last x : Token} {row : TokenSet} {status : Option TailStatus}

theorem Restarts.guides (h : Restarts c K s t) : t.guide = c.initialGuide ∧ t.voiceGuide = .full := by
  cases h with
  | voiceEnded => exact ⟨rfl, rfl⟩
  | backtracked => exact ⟨rfl, rfl⟩

/-- Without a temperature the token with the greatest logit is drawn, and the generator stays as it is. -/
theorem draws_of_argmax {predictor : Nat} {logits : Array Float} (ht : ¬ 0 < c.options.temperature)
    (ha : K (.predict predictor c.options.descriptors s.tokens) (.ok logits)) (hs : s.steps < c.options.stepQuota)
    (hx : argmax (maskLogits logits (admissible c s row) c.options.temperature) = some x.id) :
    Draws c K s predictor row x (countStep s) :=
  .mk ha hs (by rw [choose, if_neg ht, hx]; rfl)

/-! ## The guard of divisions -/

theorem not_withholdsDivisions_nil : ¬ WithholdsDivisions c status [] := by
  rintro ⟨-, x, hx, -⟩
  cases hx

/-- The latest token after which a division may stand decides. -/
theorem withholdsDivisions_concat :
    WithholdsDivisions c status (seen ++ [last]) ↔
      if c.grammar.allows last .d1 then
        status.any (·.incompleteTimeWarping) = true ∧ c.grammar.allows last .warpOn = true
      else WithholdsDivisions c status seen := by
  unfold WithholdsDivisions
  rw [List.reverse_append, List.reverse_singleton, List.singleton_append, List.find?_cons]
  cases hd : c.grammar.allows last .d1 with
  | true => simp
  | false => simp

/-- At the start of a voice all divisions are in the guide. -/
theorem division_mem_initialGuide (hx : x.group = .division) : x ∈ c.initialGuide := by
  refine Guide.mem_initial.2 ⟨?_, ?_, fun n _ => Guide.not_mem_stavesAbove (by simp [hx])⟩
  · rintro rfl
    cases hx
  · rintro rfl
    cases hx

/-- What the guard makes of a guide in which divisions are withheld or not. -/
theorem mem_guide_guardDivisions (hs : ∀ x, x ∈ s.guide ↔ x ∈ c.initialGuide ∧
      ¬ (x.group = .division ∧ WithholdsDivisions c s.status seen)) :
    x ∈ (guardDivisions s (c.grammar.row last)).guide ↔ x ∈ c.initialGuide ∧
      ¬ (x.group = .division ∧ WithholdsDivisions c s.status (seen ++ [last])) := by
  by_cases hx : x.group = .division
  · have hin : x ∈ c.initialGuide := division_mem_initialGuide hx
    have htoken : x ∈ Token.Group.division.tokens := Token.Group.mem_tokens.2 hx
    rw [withholdsDivisions_concat]
    unfold guardDivisions
    cases hi : s.status.any (·.incompleteTimeWarping) with
    | false =>
      -- without such a report divisions have not been withheld before either
      have hfree : ¬ WithholdsDivisions c s.status seen := fun h => by simp [h.1] at hi
      simp [hs, hin, hfree]
    | true =>
      cases hd : c.grammar.allows last .d1 with
      | false =>
        have hrow : (c.grammar.row last).contains .d1 = false := hd
        simp [hs, hin, hx, hrow]
      | true =>
        have hrow : (c.grammar.row last).contains .d1 = true := hd
        simp [hrow, TokenSet.mem_foldl_set, htoken, hin, hx, Grammar.allows]
  · rw [mem_guardDivisions hx, hs]
    simp [hx]

/-! ## Until the validator is asked again -/

/-- A place where the measure cannot end is consulted by the guard alone. -/
theorem deepened_of_consults (hguide : c.options.parserGuide = true) (hrow : .eom ∉ row)
    (h : Consults c K s last row (.ok u)) : u = guardDivisions (deepen s) row := by
  cases h with
  | unguided hno =>
    rw [hguide] at hno
    cases hno
  | followed _ hyes => exact absurd hyes hrow
  | deepened => rfl

/-- The guide after a restart is the one at the start of a voice, but for the divisions that the guard withholds. -/
theorem mem_guide_of_quiet (hguide : c.options.parserGuide = true) (hr : Restarts c K s t) (h : Quiet c K t seen v) :
    v.status = t.status ∧ v.voiceGuide = .full ∧
      ∀ x, x ∈ v.guide ↔ x ∈ c.initialGuide ∧ ¬ (x.group = .division ∧ WithholdsDivisions c v.status seen) := by
  induction h with
  | refl =>
    refine ⟨rfl, hr.guides.2, fun x => ?_⟩
    simp [hr.guides.1, not_withholdsDivisions_nil]
  | @pushed seen predictor last x s u v hq hl hrow hc hd hvb heom ih =>
    obtain ⟨hstatus, hvoice, hmem⟩ := ih
    obtain ⟨random, rfl⟩ := hd.eq
    obtain rfl := deepened_of_consults hguide hrow hc
    obtain ⟨guide, hg⟩ := guardDivisions_eq (deepen s) (c.grammar.row last)
    refine ⟨?_, ?_, fun x => ?_⟩
    · rw [hg]
      exact hstatus
    · rw [hg]
      exact hvoice
    · have hsame : (guardDivisions (deepen s) (c.grammar.row last)).status = s.status := by
        rw [hg]
        rfl
      show x ∈ (guardDivisions (deepen s) (c.grammar.row last)).guide ↔ x ∈ c.initialGuide ∧
        ¬ (x.group = .division ∧
          WithholdsDivisions c (guardDivisions (deepen s) (c.grammar.row last)).status (seen ++ [last]))
      rw [hsame]
      exact mem_guide_guardDivisions (s := deepen s) hmem

/-- **What is admitted after a restart**, until the validator is asked again: what the grammar, the start of a voice, the
caller and the masker admit, but for the divisions if the last report before the restart makes the guard withhold
them. -/
theorem mem_admissible_of_restart (hguide : c.options.parserGuide = true) (hr : Restarts c K s t)
    (hq : Quiet c K t seen v) (hrow : .eom ∉ c.grammar.row last)
    (hc : Consults c K v last (c.grammar.row last) (.ok u)) :
    x ∈ admissible c u (c.grammar.row last) ↔
      (x ∈ c.grammar.row last ∧ x ∈ c.initialGuide ∧ x ∉ c.options.forbiddenTokens ∧
        x ∈ (v.masker.map (·.mask)).getD .full) ∧
      ¬ (x.group = .division ∧ WithholdsDivisions c t.status (seen ++ [last])) := by
  obtain ⟨hstatus, hvoice, hmem⟩ := mem_guide_of_quiet hguide hr hq
  obtain rfl := deepened_of_consults hguide hrow hc
  obtain ⟨guide, hg⟩ := guardDivisions_eq (deepen v) (c.grammar.row last)
  have hguard : x ∈ (guardDivisions (deepen v) (c.grammar.row last)).guide ↔ x ∈ c.initialGuide ∧
      ¬ (x.group = .division ∧ WithholdsDivisions c (deepen v).status (seen ++ [last])) :=
    mem_guide_guardDivisions hmem
  have hrest : (guardDivisions (deepen v) (c.grammar.row last)).voiceGuide = .full ∧
      (guardDivisions (deepen v) (c.grammar.row last)).masker = v.masker := by
    rw [hg]
    exact ⟨hvoice, rfl⟩
  have hsame : (deepen v).status = t.status := hstatus
  rw [mem_admissible, hguard, hrest.1, hrest.2, mem_permitted, hsame]
  constructor
  · rintro ⟨hx, ⟨hinitial, hwithheld⟩, -, hpermitted, hmask⟩
    exact ⟨⟨hx, hinitial, hpermitted, hmask⟩, hwithheld⟩
  · rintro ⟨⟨hx, hinitial, hpermitted, hmask⟩, hwithheld⟩
    exact ⟨hx, ⟨hinitial, hwithheld⟩, TokenSet.mem_full x, hpermitted, hmask⟩

/-- Two voices: a note that may be of a timewarp, and one that may be a whole note. -/
def tripletSetting : Setting where
  grammar := .ofSentences [
    [.bom, .pitchC, .d4, .eom],
    [.bom, .pitchC, .warpOn, .d4, .vb, .pitchC, .d1, .eom]]
  options := { temperature := 0 }

/-- A measure that is not full, with an unfinished timewarp or without one. -/
def tripletMeasure (unfinished : Bool) : Measure :=
  { tail := { filling := some (-1), timeWarping := unfinished, incompleteTimeWarping := unfinished } }

/-- A validator for which the first note leaves a timewarp unfinished, and a predictor that likes to end a voice. -/
def tripletAnswer : (q : Query) → q.Answer
  | .predict .. => .ok (Token.all.map fun t => if t = .vb then 30 else 0).toArray
  | .parse text => .ok (tripletMeasure (text == "BOM c D4 EOM"))

/-- The state after the first note. -/
def afterNote : State where
  tokens := [.bom, .pitchC, .d4]
  cursor := .start [64] 3
  guide := tripletSetting.initialGuide
  masker := none
  random := .ofSeed 1

/-- The state in which the validator has been asked about it. -/
def unfinishedNote : State := follow tripletSetting afterNote (tripletMeasure true).tail

/-- The state at the start of the second voice. -/
def secondVoice : State := resetGuides tripletSetting (tidy (push tripletSetting (countStep unfinishedNote) .vb))

/-- The state after its pitch. -/
def secondPitch : State :=
  push tripletSetting (countStep (guardDivisions (deepen secondVoice) (tripletSetting.grammar.row .vb))) .pitchC

/-- A whole note may be written after the pitch of a new voice, but the guard withholds it: the validator was last asked
about the first voice, whose timewarp is unfinished. -/
theorem mem_admissible_of_restart_unfinishedTimewarp :
    ∃ t u v, Restarts tripletSetting (.exactly tripletAnswer) afterNote t ∧
      Quiet tripletSetting (.exactly tripletAnswer) t [.vb] v ∧
      v.tokens = [.bom, .pitchC, .d4, .vb, .pitchC] ∧ v.masker = none ∧
      .eom ∉ tripletSetting.grammar.row .pitchC ∧
      Consults tripletSetting (.exactly tripletAnswer) v .pitchC (tripletSetting.grammar.row .pitchC) (.ok u) ∧
      (.d1 ∈ tripletSetting.grammar.row .pitchC ∧ .d1 ∈ tripletSetting.initialGuide ∧
        .d1 ∉ tripletSetting.options.forbiddenTokens) ∧
      .d1 ∉ admissible tripletSetting u (tripletSetting.grammar.row .pitchC) := by
  have hended : Consults tripletSetting (.exactly tripletAnswer) afterNote .d4 (tripletSetting.grammar.row .d4)
      (.ok unfinishedNote) := by
    refine .followed rfl (by decide +kernel) ?_ (by decide +kernel)
    exact congrArg (Except.ok ∘ tripletMeasure) (by decide +kernel : true = _)
  have hbreak : Draws tripletSetting (.exactly tripletAnswer) unfinishedNote 0 (tripletSetting.grammar.row .d4) .vb _ :=
    draws_of_argmax (by decide) rfl (by decide) (by decide +kernel)
  have hr : Restarts tripletSetting (.exactly tripletAnswer) afterNote secondVoice :=
    .voiceEnded rfl hended hbreak (Validation.isTimewarpInvalid_returns_ok.2 ⟨_, rfl, rfl⟩)
  have hstart : Consults tripletSetting (.exactly tripletAnswer) secondVoice .vb (tripletSetting.grammar.row .vb) _ :=
    .deepened rfl (by decide +kernel) (by decide)
  have hpitch : Draws tripletSetting (.exactly tripletAnswer) _ 0 (tripletSetting.grammar.row .vb) .pitchC _ :=
    draws_of_argmax (s := guardDivisions (deepen secondVoice) (tripletSetting.grammar.row .vb)) (by decide) rfl
      (by decide) (by decide +kernel)
  have hq : Quiet tripletSetting (.exactly tripletAnswer) secondVoice [.vb] secondPitch :=
    .pushed .refl rfl (by decide +kernel) hstart hpitch (by decide) (by decide)
  have hrow : .eom ∉ tripletSetting.grammar.row .pitchC := by decide +kernel
  have hc : Consults tripletSetting (.exactly tripletAnswer) secondPitch .pitchC
      (tripletSetting.grammar.row .pitchC) (.ok _) := .deepened rfl hrow (by decide)
  refine ⟨_, _, _, hr, hq, rfl, rfl, hrow, hc, by decide +kernel, fun hd => ?_⟩
  have hwithheld : WithholdsDivisions tripletSetting (some (tripletMeasure true).tail) ([.vb] ++ [.pitchC]) :=
    ⟨rfl, .pitchC, by decide +kernel, by decide +kernel⟩
  exact ((mem_admissible_of_restart rfl hr hq hrow hc).1 hd).2 ⟨rfl, hwithheld⟩

end ScoreDecoding.Sampler
