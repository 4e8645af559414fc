import ScoreDecoding.Proofs.Questions
import ScoreDecoding.Proofs.Repair
import ScoreDecoding.Proofs.Trajectory

/-!
# The questions of guided sampling

An iteration asks at most three questions: the validator about the sequence as if it ended here, a predictor for the
next token, and the validator again if a voice has ended. A run is described together with its questions, those of each
iteration in a list of their own.

- `Inquires` are the questions of an iteration with its ways and what they lead to (`step_asks`), `Poses` its single
  questions;
- `Transcribes` is a run from a state with its questions, and `Records` a whole run: every run that asks questions has
  such a record (`sample_asks_iff`), which has one entry for each iteration;
- `asked_induction`: what holds of the questions of every iteration holds of all questions of a run.
-/

namespace ScoreDecoding.Sampler

variable (c : Setting) (K : Collaborators)

/-! ## One iteration -/

/-- The validator is asked about the sequence as if it ended here, if its guide is wanted and the measure may end. -/
def probes (s : State) (row : TokenSet) : List Query :=
  if c.options.parserGuide && row.contains .eom then [.parse (Token.code s.tokens (some .eom))] else []

/-- The questions of a choice: a predictor is asked unless nothing is admitted, and then the validator if the token
ends a voice and a step was left for it. -/
inductive Requests (s : State) (predictor : Nat) : List Query → Prop
  | nobody : Requests s predictor []
  | predicted : Requests s predictor [.predict predictor c.options.descriptors s.tokens]
  | judged : s.steps < c.options.stepQuota →
      Requests s predictor [.predict predictor c.options.descriptors s.tokens,
        .parse (Token.code (Repair.tidyBeams s.status s.tokens) (some .eom))]

/-- The questions of an iteration, with what it leads to. -/
inductive Inquires (s : State) : List Query → Outcome → Prop
  | predictorsExhausted : s.cursor.current? = none → Inquires s [] (close c s .predictorsExhausted)
  | nothingLeft : s.tokens = [] → Inquires s [] (close c s .nothingLeft)
  | consulted {last : Token} {o : Outcome} : s.tokens.getLast? = some last →
      Consults c K s last (c.grammar.row last) (.error o) → Inquires s (probes c s (c.grammar.row last)) o
  | extended {predictor : Nat} {last : Token} {u : State} {qs : List Query} {o : Outcome} :
      s.cursor.current? = some predictor → s.tokens.getLast? = some last →
      Consults c K s last (c.grammar.row last) (.ok u) → Requests c u predictor qs →
      Extends c K u predictor (c.grammar.row last) o → Inquires s (probes c s (c.grammar.row last) ++ qs) o

variable {c K} {s t u : State} {qs : List Query} {o : Outcome} {ending : Ending}

/-- What an iteration with its questions leads to is what the iteration leads to. -/
theorem Inquires.iterates (h : Inquires c K s qs o) : Iterates c K s o := by
  cases h with
  | predictorsExhausted hc => exact .predictorsExhausted hc
  | nothingLeft hl => exact .nothingLeft hl
  | consulted hl hc => exact .consulted hl hc
  | extended hp hl hc _ he => exact .extended hp hl hc he

theorem consult_asks {last : Token} {row : TokenSet} {r : Except Outcome State}
    (h : (consult c s last row).Asks K qs r) : qs = probes c s row := by
  unfold consult at h
  unfold probes
  cases hg : c.options.parserGuide with
  | false =>
    rw [hg, Bool.not_false, if_pos rfl] at h
    exact (Dialogue.asks_done.1 h).1
  | true =>
    rw [hg, Bool.not_true, if_neg Bool.false_ne_true] at h
    rw [Bool.true_and]
    split at h
    · rename_i hrow
      rw [if_pos hrow]
      obtain ⟨a, ha, -⟩ := Dialogue.asks_map.1 h
      exact Validation.probeTail_asks ha
    · rename_i hrow
      rw [if_neg hrow]
      split at h
      · exact (Dialogue.asks_done.1 h).1
      · exact (Dialogue.asks_done.1 h).1

/-- A voice that ends is asked about with its beams tidied, and closed. -/
theorem endVoice_asks {t : Token} (ht : t = .vb ∨ t = .eom) (h : (endVoice c (push c s t) t).Asks K qs o) :
    qs = [.parse (Token.code (Repair.tidyBeams s.status s.tokens) (some .eom))] := by
  obtain ⟨a, ha, -⟩ := Dialogue.asks_map.1 h
  rw [Validation.isTimewarpInvalid_asks ha]
  show [Query.parse (Validation.endedText (Repair.tidyBeams s.status (s.tokens ++ [t])))] = _
  rw [Repair.tidyBeams_concat ht, Validation.endedText_concat ht]

theorem accept_asks {t : Token} (h : (accept c s t).Asks K qs o) :
    qs = [] ∨ qs = [.parse (Token.code (Repair.tidyBeams s.status s.tokens) (some .eom))] := by
  unfold accept at h
  split at h
  · exact .inl (Dialogue.asks_done.1 h).1
  · split at h
    · rename_i ht
      exact .inr (endVoice_asks ht h)
    · exact .inl (Dialogue.asks_done.1 h).1

theorem extend_asks {predictor : Nat} {row : TokenSet} (h : (extend c s predictor row).Asks K qs o) :
    Requests c s predictor qs := by
  unfold extend at h
  split at h
  · obtain ⟨rfl, -⟩ := Dialogue.asks_done.1 h
    exact .nobody
  · obtain ⟨before, after, answer, ha, h, rfl⟩ := Dialogue.asks_bind.1 h
    obtain ⟨-, rfl⟩ := Dialogue.asks_predict.1 ha
    cases answer with
    | error reason =>
      obtain ⟨rfl, -⟩ := Dialogue.asks_done.1 h
      exact .predicted
    | ok logits =>
      dsimp only [select] at h
      split at h
      · obtain ⟨rfl, -⟩ := Dialogue.asks_done.1 h
        exact .predicted
      · rename_i hq
        split at h
        · obtain ⟨rfl, -⟩ := Dialogue.asks_done.1 h
          exact .predicted
        · split at h
          · obtain ⟨rfl, -⟩ := Dialogue.asks_done.1 h
            exact .predicted
          · -- counting the step and drawing leave the sequence and the status as they are
            rcases accept_asks h with rfl | rfl
            · exact .predicted
            · exact .judged (by omega)

/-- Every iteration asks in one of these ways. -/
theorem step_asks (h : (step c s).Asks K qs o) : Inquires c K s qs o := by
  unfold step at h
  split at h
  · rename_i hc
    obtain ⟨rfl, rfl⟩ := Dialogue.asks_done.1 h
    exact .predictorsExhausted hc
  · rename_i hl
    obtain ⟨rfl, rfl⟩ := Dialogue.asks_done.1 h
    exact .nothingLeft (List.getLast?_eq_none_iff.1 hl)
  · rename_i hc hl
    obtain ⟨before, after, r, hr, h, rfl⟩ := Dialogue.asks_bind.1 h
    have hcon := consult_returns hr.returnsWith
    obtain rfl := consult_asks hr
    cases r with
    | error o' =>
      obtain ⟨rfl, rfl⟩ := Dialogue.asks_done.1 h
      rw [List.append_nil]
      exact .consulted hl hcon
    | ok u => exact .extended hc hl hcon (extend_asks h) (extend_returns h.returnsWith)

variable (c) in
/-- A single question of an iteration: the validator is asked about the sequence, a predictor what comes after it, and
the validator about what is left of it when a voice has ended. -/
inductive Poses (s : State) : Query → Prop
  | probed : Poses s (.parse (Token.code s.tokens (some .eom)))
  | predicted {predictor : Nat} : s.cursor.current? = some predictor → s.tokens ≠ [] →
      Poses s (.predict predictor c.options.descriptors s.tokens)
  | judged (status : Option TailStatus) :
      Poses s (.parse (Token.code (Repair.tidyBeams status s.tokens) (some .eom)))

theorem poses_of_probes {row : TokenSet} {q : Query} (hq : q ∈ probes c s row) : Poses c s q := by
  unfold probes at hq
  split at hq
  · rw [List.mem_singleton.1 hq]
    exact .probed
  · cases hq

/-- The questions of an iteration, one by one. -/
theorem Inquires.poses (h : Inquires c K s qs o) {q : Query} (hq : q ∈ qs) : Poses c s q := by
  cases h with
  | predictorsExhausted => cases hq
  | nothingLeft => cases hq
  | consulted => exact poses_of_probes hq
  | @extended predictor last u more _ hp hl hc hr =>
    have htokens := tokens_of_consults hc
    have hne : s.tokens ≠ [] := by
      intro hnil
      rw [hnil] at hl
      cases hl
    have predicted : Poses c s (.predict predictor c.options.descriptors u.tokens) := by
      rw [htokens]
      exact .predicted hp hne
    rcases List.mem_append.1 hq with hq | hq
    · exact poses_of_probes hq
    · cases hr with
      | nobody => cases hq
      | predicted =>
        rw [List.mem_singleton.1 hq]
        exact predicted
      | judged =>
        rcases List.mem_cons.1 hq with rfl | hq
        · exact predicted
        · rw [List.mem_singleton.1 hq, htokens]
          exact .judged u.status

/-! ## A run -/

variable (c K)

/-- A run from a state, with the questions of each of its iterations. -/
inductive Transcribes : State → List (List Query) → State → Ending → Prop
  | stop {s t : State} {qs : List Query} {ending : Ending} : (step c s).Asks K qs (.stop t ending) →
      Transcribes s [qs] t ending
  | next {s u t : State} {qs : List Query} {log : List (List Query)} {ending : Ending} :
      (step c s).Asks K qs (.next u) → Transcribes u log t ending → Transcribes s (qs :: log) t ending

variable {c K} {log : List (List Query)}

/-- A run that asks questions is an iteration and, if that goes on, the rest of the run. -/
theorem iterate_asks {r : State × Ending} :
    (iterate c s).Asks K qs r ↔
      (step c s).Asks K qs (.stop r.1 r.2) ∨
        ∃ before after t, (step c s).Asks K before (.next t) ∧ (iterate c t).Asks K after r ∧ qs = before ++ after := by
  rw [iterate.eq_def, Dialogue.asks_bind]
  constructor
  · rintro ⟨before, after, ⟨o, ho⟩, ha, h, rfl⟩
    have hs := Dialogue.asks_attach.1 ha
    cases o with
    | stop t ending =>
      obtain ⟨rfl, rfl⟩ := Dialogue.asks_done.1 h
      rw [List.append_nil]
      exact .inl hs
    | next t => exact .inr ⟨before, after, t, hs, h, rfl⟩
  · rintro (hs | ⟨before, after, t, hs, h, rfl⟩)
    · exact ⟨qs, [], ⟨_, hs.returnsWith.returns⟩, Dialogue.asks_attach.2 hs, .done _, (List.append_nil qs).symm⟩
    · exact ⟨before, after, ⟨_, hs.returnsWith.returns⟩, Dialogue.asks_attach.2 hs, h, rfl⟩

/-- The runs that ask questions are those that have a transcript with these questions. -/
theorem iterate_asks_iff :
    (iterate c s).Asks K qs (t, ending) ↔ ∃ log, Transcribes c K s log t ending ∧ qs = log.flatten := by
  constructor
  · intro h
    induction s using iterate.induct c generalizing qs with
    | case1 s ih =>
      rcases iterate_asks.1 h with hs | ⟨before, after, u, hs, hu, rfl⟩
      · exact ⟨[qs], .stop hs, by rw [List.flatten_singleton]⟩
      · obtain ⟨log, hlog, rfl⟩ := ih u hs.returnsWith.returns hu
        exact ⟨before :: log, .next hs hlog, List.flatten_cons.symm⟩
  · rintro ⟨log, h, rfl⟩
    induction h with
    | stop hs =>
      rw [List.flatten_singleton]
      exact iterate_asks.2 (.inl hs)
    | next hs _ ih =>
      rw [List.flatten_cons]
      exact iterate_asks.2 (.inr ⟨_, _, _, hs, ih, rfl⟩)

/-- What holds of the questions of every iteration, from an invariant that iterations keep, holds of all questions. -/
theorem asked_induction {I : State → Prop} {J : Query → Prop}
    (asked : ∀ s q, I s → Poses c s q → J q) (next : ∀ s t, I s → Iterates c K s (.next t) → I t) (hs : I s)
    (h : Transcribes c K s log t ending) : ∀ q ∈ log.flatten, J q := by
  induction h with
  | stop h =>
    intro q hq
    rw [List.flatten_singleton] at hq
    exact asked _ q hs ((step_asks h).poses hq)
  | next h _ ih =>
    intro q hq
    rw [List.flatten_cons] at hq
    rcases List.mem_append.1 hq with hq | hq
    · exact asked _ q hs ((step_asks h).poses hq)
    · exact ih (next _ _ hs (step_asks h).iterates) q hq

/-! ## A whole run -/

variable {capacities : List Nat} {masker : Option Masker} {random : Random} {r : Run}

variable (c K) in
/-- A whole run with the questions of each of its iterations. There is no iteration if no predictor takes the start. -/
inductive Records (capacities : List Nat) (masker : Option Masker) (random : Random) : List (List Query) → Run → Prop
  | refused : (initialState c capacities masker random).cursor.current? = none →
      Records capacities masker random [] {
        tokens := c.options.start
        ending := .failed (.noPredictor (c.options.descriptors.length + c.options.start.length))
        masker, random }
  | run {log : List (List Query)} {t : State} {ending : Ending} :
      (initialState c capacities masker random).cursor.current?.isSome = true →
      Transcribes c K (initialState c capacities masker random) log t ending →
      Records capacities masker random log (finish t ending)

/-- **Every run has a record**, whose entries are its questions. -/
theorem sample_asks_iff :
    (sample c capacities masker random).Asks K qs r ↔
      ∃ log, Records c K capacities masker random log r ∧ qs = log.flatten := by
  cases hp : (initialState c capacities masker random).cursor.current? with
  | none =>
    simp only [sample, hp, Dialogue.asks_done]
    constructor
    · rintro ⟨rfl, rfl⟩
      exact ⟨[], .refused hp, rfl⟩
    · rintro ⟨log, hlog, rfl⟩
      cases hlog with
      | refused => exact ⟨rfl, rfl⟩
      | run hfits =>
        rw [hp] at hfits
        cases hfits
  | some predictor =>
    simp only [sample, hp, Dialogue.asks_map]
    constructor
    · rintro ⟨⟨t, ending⟩, h, rfl⟩
      obtain ⟨log, hlog, rfl⟩ := iterate_asks_iff.1 h
      exact ⟨log, .run (hp ▸ rfl) hlog, rfl⟩
    · rintro ⟨log, hlog, rfl⟩
      cases hlog with
      | refused hnone =>
        rw [hp] at hnone
        cases hnone
      | run _ hlog => exact ⟨_, iterate_asks_iff.2 ⟨log, hlog, rfl⟩, rfl⟩

end ScoreDecoding.Sampler
