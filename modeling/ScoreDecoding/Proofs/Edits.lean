import ScoreDecoding.Proofs.Conformance
import ScoreDecoding.Proofs.Iteration
import Mathlib.Logic.Relation

/-!
# How guided sampling edits its sequence

Whatever goes wrong in a run, its sequence is only edited in three ways: tokens are cut off at the end, beam openings
are tidied, and a token is appended that may follow the last one of the sequence *as it then is*. A run may close its
sequence at the end.

- `Edit` is one edit; `edited_of_iterates` says that an iteration makes some, and `closes_of_sample` that a run does;
- `conforms_edit` and `permitted_edit` are what one edit keeps, and `conforms_of_sample` is what a whole run keeps.
-/

namespace ScoreDecoding.Sampler

variable (c : Setting)

/-! ## Edits -/

/-- One edit of a sequence. -/
inductive Edit : List Token → List Token → Prop
  | cut (ts : List Token) (n : Nat) : Edit ts (ts.take n)
  | tidy (ts : List Token) (status : Option TailStatus) : Edit ts (Repair.tidyBeams status ts)
  | append {ts : List Token} {last t : Token} : ts.getLast? = some last → c.grammar.allows last t = true →
      t ∉ c.options.forbiddenTokens → Edit ts (ts ++ [t])

/-- Any number of edits. -/
abbrev Edits : List Token → List Token → Prop := Relation.ReflTransGen (Edit c)

/-- What a run leaves of a sequence: it has been edited, and perhaps closed. -/
inductive Closes (ts : List Token) : List Token → Prop
  | edited {us : List Token} : Edits c ts us → Closes ts us
  | closed {us : List Token} (status : Option TailStatus) : Edits c ts us →
      Closes ts (Repair.closeOut c.grammar status us)

/-- What an outcome leaves of the sequence of a state. -/
def Edited (s : State) : Outcome → Prop
  | .next t => Edits c s.tokens t.tokens
  | .stop t _ => Closes c s.tokens t.tokens

variable {c} {K : Collaborators}

/-- Edits may come before. -/
theorem Closes.of_edits {ts us vs : List Token} (h : Edits c ts us) (hc : Closes c us vs) : Closes c ts vs := by
  cases hc with
  | edited he => exact .edited (h.trans he)
  | closed status he => exact .closed status (h.trans he)

/-! ## One iteration -/

/-- The validator may have the last token taken back or the sequence closed. -/
theorem edited_of_consults {s : State} {last : Token} {row : TokenSet} {o : Outcome}
    (h : Consults c K s last row (.error o)) : Edited c s o := by
  cases h with
  | unread => exact .edited .refl
  | takenBack =>
    have hcut : Edit c s.tokens s.tokens.dropLast := by
      rw [List.dropLast_eq_take]
      exact .cut _ _
    exact .single hcut
  | tooDeep => exact .closed _ .refl

/-- A token that is drawn may follow the last one. -/
theorem edit_of_draws {s u : State} {predictor : Nat} {last t : Token} (hl : s.tokens.getLast? = some last)
    (h : Draws c K s predictor (c.grammar.row last) t u) : Edit c s.tokens (push c u t).tokens := by
  have hm := mem_admissible.1 h.mem
  have happend : Edit c s.tokens (s.tokens ++ [t]) := .append hl hm.1 (mem_permitted.1 hm.2.2.2.1)
  rwa [← h.tokens] at happend ⊢

theorem edited_of_extends {s : State} {predictor : Nat} {last : Token} {o : Outcome}
    (hl : s.tokens.getLast? = some last) (h : Extends c K s predictor (c.grammar.row last) o) : Edited c s o := by
  have tidied : ∀ {t : Token} {u : State}, Draws c K s predictor (c.grammar.row last) t u →
      Edits c s.tokens (tidy (push c u t)).tokens :=
    fun hd => .tail (.single (edit_of_draws hl hd)) (.tidy _ _)
  cases h with
  | nothingAdmissible => exact .closed _ .refl
  | unanswered => exact .edited .refl
  | quotaExceeded => exact .closed _ .refl
  | noFiniteLogit => exact .edited .refl
  | paddingDrawn hd =>
    refine .edited ?_
    rw [hd.tokens]
  | pushed hd => exact .single (edit_of_draws hl hd)
  | unjudged hd => exact .edited (tidied hd)
  | backtracked hd => exact .tail (tidied hd) (.cut _ _)
  | sampled hd => exact .edited (tidied hd)
  | voiceEnded hd => exact tidied hd

/-- An iteration only edits the sequence. -/
theorem edited_of_iterates {s : State} {o : Outcome} (h : Iterates c K s o) : Edited c s o := by
  cases h with
  | predictorsExhausted => exact .closed _ .refl
  | nothingLeft => exact .closed _ .refl
  | consulted _ hc => exact edited_of_consults hc
  | @extended _ _ u _ _ hl hc he =>
    have ht := tokens_of_consults hc
    rw [← ht] at hl
    have hedited := edited_of_extends hl he
    cases o with
    | next t =>
      show Edits c s.tokens t.tokens
      rw [← ht]
      exact hedited
    | stop t ending =>
      show Closes c s.tokens t.tokens
      rw [← ht]
      exact hedited

/-! ## A run -/

theorem closes_of_iterate {s t : State} {ending : Ending} (h : (iterate c s).ReturnsWith K (t, ending)) :
    Closes c s.tokens t.tokens := by
  refine iterate_induction (I := fun u => Edits c s.tokens u.tokens) (J := fun u _ => Closes c s.tokens u.tokens)
    ?_ ?_ .refl h
  · intro u v hu hv
    exact hu.trans (edited_of_iterates hv)
  · intro u v _ hu hv
    exact .of_edits hu (edited_of_iterates hv)

/-- A run only edits the sequence that it starts from, and may close it. -/
theorem closes_of_sample {capacities : List Nat} {masker : Option Masker} {random : Random} {r : Run}
    (h : (sample c capacities masker random).ReturnsWith K r) : Closes c c.options.start r.tokens := by
  cases hp : (initialState c capacities masker random).cursor.current? with
  | none =>
    rw [tokens_of_sample_of_none hp h]
    exact .edited .refl
  | some predictor =>
    obtain ⟨t, ending, ht, rfl⟩ := (sample_returns_iff hp).1 h
    exact closes_of_iterate ht

/-! ## What edits keep -/

/-- An edit keeps a sequence conforming. -/
theorem conforms_edit (hg : c.grammar.BeamTransparent) {ts us : List Token} (h : Edit c ts us)
    (hts : c.grammar.conforms ts = true) : c.grammar.conforms us = true := by
  cases h with
  | cut n => exact Grammar.conforms_take hts n
  | tidy status => exact Grammar.conforms_tidyBeams hg status hts
  | @append last t hl ha _ =>
    refine Grammar.conforms_append hts fun last' hl' => ?_
    rw [hl] at hl'
    cases hl'
    exact ha

/-- An edit brings in no token of the caller's list. -/
theorem permitted_edit {ts us : List Token} (h : Edit c ts us) (hts : ∀ t ∈ ts, t ∉ c.options.forbiddenTokens) :
    ∀ t ∈ us, t ∉ c.options.forbiddenTokens := by
  cases h with
  | cut n => exact fun t ht => hts t (List.mem_of_mem_take ht)
  | tidy status => exact fun t ht => hts t ((Repair.tidyBeams_sublist status ts).subset ht)
  | @append last t _ _ hf =>
    intro u hu
    rcases List.mem_append.1 hu with hu | hu
    · exact hts u hu
    · rw [List.mem_singleton.1 hu]
      exact hf

/-- What every edit keeps, any number of edits keep. -/
theorem edits_induction {P : List Token → Prop} (edit : ∀ {ts us}, Edit c ts us → P ts → P us)
    {ts us : List Token} (h : Edits c ts us) (hts : P ts) : P us := by
  induction h with
  | refl => exact hts
  | tail _ h ih => exact edit h ih

/-- **A run keeps its sequence conforming** to a grammar that is transparent for beam openings, and brings in no token
of the caller's list but the end of a sequence that it closes. -/
theorem conforms_of_sample {capacities : List Nat} {masker : Option Masker} {random : Random} {r : Run}
    {ts : List Token} (h : (sample c capacities masker random).Returns r) (hok : r.result = .ok ts) :
    (c.grammar.BeamTransparent → c.grammar.conforms c.options.start = true → c.grammar.conforms ts = true) ∧
      ((∀ t ∈ c.options.start, t ∉ c.options.forbiddenTokens) →
        ∃ us, (ts = us ∨ ts = us ++ [.eom]) ∧ ∀ t ∈ us, t ∉ c.options.forbiddenTokens) := by
  have hts : r.tokens = ts := by
    unfold Run.result at hok
    split at hok
    · cases hok
    · exact Except.ok.inj hok
  have hc := closes_of_sample (Dialogue.returnsWith_any.2 h)
  rw [hts] at hc
  constructor
  · intro hg hstart
    cases hc with
    | edited he => exact edits_induction (conforms_edit hg) he hstart
    | closed status he =>
      exact Grammar.conforms_closeOut hg status (edits_induction (conforms_edit hg) he hstart)
  · intro hstart
    cases hc with
    | edited he => exact ⟨ts, .inl rfl, edits_induction permitted_edit he hstart⟩
    | @closed us status he =>
      have hus := edits_induction permitted_edit he hstart
      obtain ⟨n, hn⟩ := Repair.cutToEnd_eq_take c.grammar us
      refine ⟨Repair.tidyBeams status (Repair.cutToEnd c.grammar us), .inr rfl, ?_⟩
      intro t ht
      have hcut := (Repair.tidyBeams_sublist status _).subset ht
      rw [hn] at hcut
      exact hus t (List.mem_of_mem_take hcut)

/-- Pairs of eighths, with or without a beam. -/
def eighthsSetting : Setting where
  grammar := .ofSentences [
    [.bom, .pitchC, .d8, .beamOpen, .pitchC, .d8, .beamClose, .eom],
    [.bom, .pitchC, .d8, .pitchC, .d8, .eom]]
  options := { temperature := 0, forbiddenTokens := [.beamClose] }

/-- A predictor that opens a beam after every eighth or else ends the measure, and a validator for which two eighths
fill the measure. -/
def eagerAnswer : (q : Query) → q.Answer
  | .predict _ _ ts => .ok (Token.all.map fun t =>
      if ts.getLast? ≠ some .d8 then 0 else if t = .beamOpen then 30 else if t = .eom then 20 else 0).toArray
  | .parse text =>
    let full := text == "BOM c D8 Bl c D8 EOM"
    .ok { tail := { beamOpen := full, filling := some (if full then 0 else -1) } }

/-- A run that opens a beam, ends the measure in its place, and takes the opening out of the middle again. -/
theorem conforms_of_sample_openBeam :
    ∃ r, (sample eighthsSetting [64] none (.ofSeed 4)).Returns r ∧
      r.result = .ok [.bom, .pitchC, .d8, .pitchC, .d8, .eom] ∧ eighthsSetting.grammar.BeamTransparent ∧
      eighthsSetting.grammar.conforms [.bom, .pitchC, .d8, .pitchC, .d8, .eom] = true ∧
      ∃ us : List Token, ([.bom, .pitchC, .d8, .pitchC, .d8, .eom] = us ∨
        [.bom, .pitchC, .d8, .pitchC, .d8, .eom] = us ++ [.eom]) ∧ ∀ t ∈ us, t ∉ [Token.beamClose] := by
  have hrun : (runWithin eighthsSetting eagerAnswer 6 (initialState eighthsSetting [64] none (.ofSeed 4))).map
      (fun r => (r.1.tokens, r.2)) = some ([.bom, .pitchC, .d8, .pitchC, .d8, .eom], .sampled) := by decide +kernel
  obtain ⟨⟨t, ending⟩, hr, he⟩ := Option.map_eq_some_iff.1 hrun
  obtain ⟨ht, rfl⟩ := Prod.mk.inj he
  have hfits : (initialState eighthsSetting [64] none (.ofSeed 4)).cursor.current? = some 0 := by decide +kernel
  have hreturns : (sample eighthsSetting [64] none (.ofSeed 4)).Returns (finish t .sampled) :=
    Dialogue.returnsWith_any.1 ((sample_returns_iff hfits).2
      ⟨t, .sampled, iterate_returns_of_runWithin (fun _ => trivial) hr, rfl⟩)
  have hok : (finish t .sampled).result = .ok [.bom, .pitchC, .d8, .pitchC, .d8, .eom] := congrArg Except.ok ht
  have htransparent : eighthsSetting.grammar.BeamTransparent := by decide +kernel
  have h := conforms_of_sample hreturns hok
  exact ⟨_, hreturns, hok, htransparent, h.1 htransparent (by decide +kernel), h.2 (by decide +kernel)⟩

end ScoreDecoding.Sampler
