import ScoreDecoding.Proofs.Choice
import ScoreDecoding.Proofs.Validation

/-!
# What an iteration of guided sampling can do

`Sampler.step` asks the validator and a predictor; here each way through it is a constructor with the answers that
lead there, so that what a run keeps is checked constructor by constructor.

- `Consults`, `Draws` and `Extends` are the parts of an iteration, and `Iterates` is the whole (`step_returns`);
- `iterate_induction`: what every iteration keeps holds at the end of a run;
- `runWithin` computes a run with given answers (`iterate_returns_of_runWithin`).
-/

namespace ScoreDecoding.Sampler

variable (c : Setting) (K : Collaborators)

/-! ## Consulting the validator -/

/-- What the validator and the depth of the sequence lead to: a state in which a token may be chosen, or an
outcome. -/
inductive Consults (s : State) (last : Token) (row : TokenSet) : Except Outcome State → Prop
  | unguided : c.options.parserGuide = false → Consults s last row (.ok s)
  | unread {e : DecodingError} : c.options.parserGuide = true → .eom ∈ row →
      (Validation.probeTail s.tokens).ReturnsWith K (.error e) → Consults s last row (.error (.stop s (.failed e)))
  | takenBack {m : Measure} : c.options.parserGuide = true → .eom ∈ row →
      K (.parse (Token.code s.tokens (some .eom))) (.ok m) → m.tail.isOverflowing = true →
      Consults s last row (.error (.next (takeBack s last m.tail)))
  | followed {m : Measure} : c.options.parserGuide = true → .eom ∈ row →
      K (.parse (Token.code s.tokens (some .eom))) (.ok m) → m.tail.isOverflowing = false →
      Consults s last row (.ok (follow c s m.tail))
  | tooDeep : c.options.parserGuide = true → .eom ∉ row → Guide.maxDepth < s.depth + 1 →
      Consults s last row (.error (close c (deepen s) .tooDeep))
  | deepened : c.options.parserGuide = true → .eom ∉ row → s.depth + 1 ≤ Guide.maxDepth →
      Consults s last row (.ok (guardDivisions (deepen s) row))

variable {c K}

theorem consult_returns {s : State} {last : Token} {row : TokenSet} {r : Except Outcome State}
    (h : (consult c s last row).ReturnsWith K r) : Consults c K s last row r := by
  unfold consult at h
  split at h
  · rename_i hg
    rw [Dialogue.returnsWith_done.1 h]
    exact .unguided (by simpa using hg)
  · rename_i hg
    have hguide : c.options.parserGuide = true := by simpa using hg
    split at h
    · rename_i hrow
      obtain ⟨answer, ha, rfl⟩ := Dialogue.returnsWith_map.1 h
      cases answer with
      | error e => exact .unread hguide hrow ha
      | ok status =>
        obtain ⟨m, hm, rfl⟩ := Validation.probeTail_returns_ok.1 ha
        dsimp only [heed]
        split
        · rename_i ho
          exact .takenBack hguide hrow hm ho
        · rename_i ho
          exact .followed hguide hrow hm (by simpa using ho)
    · rename_i hrow
      split at h
      · rename_i hd
        rw [Dialogue.returnsWith_done.1 h]
        exact .tooDeep hguide hrow hd
      · rename_i hd
        rw [Dialogue.returnsWith_done.1 h]
        exact .deepened hguide hrow (by omega)

/-- The guard changes the guide only. -/
theorem guardDivisions_eq (s : State) (row : TokenSet) : ∃ guide, guardDivisions s row = { s with guide } := by
  unfold guardDivisions
  split
  · exact ⟨_, rfl⟩
  · exact ⟨s.guide, rfl⟩

theorem guardDivisions_tokens (s : State) (row : TokenSet) : (guardDivisions s row).tokens = s.tokens := by
  obtain ⟨guide, hguide⟩ := guardDivisions_eq s row
  rw [hguide]

/-- It changes what the guide says of divisions only. -/
theorem mem_guardDivisions {s : State} {row : TokenSet} {t : Token} (h : t.group ≠ .division) :
    t ∈ (guardDivisions s row).guide ↔ t ∈ s.guide := by
  have ht : t ∉ Token.Group.division.tokens := fun hd => h (Token.Group.mem_tokens.1 hd)
  unfold guardDivisions
  split
  · rw [TokenSet.mem_foldl_set, if_neg ht]
  · rfl

/-- A state in which a token may be chosen has the sequence that was consulted. -/
theorem tokens_of_consults {s u : State} {last : Token} {row : TokenSet}
    (h : Consults c K s last row (.ok u)) : u.tokens = s.tokens := by
  cases h with
  | unguided => rfl
  | followed => rfl
  | deepened => exact guardDivisions_tokens _ _

theorem steps_of_consults {s u : State} {last : Token} {row : TokenSet}
    (h : Consults c K s last row (.ok u)) : u.steps = s.steps := by
  cases h with
  | unguided => rfl
  | followed => rfl
  | deepened =>
    obtain ⟨guide, hguide⟩ := guardDivisions_eq (deepen s) row
    rw [hguide]
    rfl

theorem cursor_of_consults {s u : State} {last : Token} {row : TokenSet}
    (h : Consults c K s last row (.ok u)) : u.cursor = s.cursor := by
  cases h with
  | unguided => rfl
  | followed => rfl
  | deepened =>
    obtain ⟨guide, hguide⟩ := guardDivisions_eq (deepen s) row
    rw [hguide]
    rfl

/-! ## Choosing a token -/

variable (c K)

/-- The predictor answers, a step is left, and a token is drawn: the state in which it is accepted. -/
inductive Draws (s : State) (predictor : Nat) (row : TokenSet) (t : Token) : State → Prop
  | mk {logits : Array Float} {random : Random} :
      K (.predict predictor c.options.descriptors s.tokens) (.ok logits) → s.steps < c.options.stepQuota →
      choose s.random c.options.temperature (maskLogits logits (admissible c s row) c.options.temperature) =
        some (t.id, random) →
      Draws s predictor row t { countStep s with random }

variable {c K}

/-- What is drawn is admitted. -/
theorem Draws.mem {s u : State} {predictor : Nat} {row : TokenSet} {t : Token}
    (h : Draws c K s predictor row t u) : t ∈ admissible c s row := by
  obtain ⟨-, -, hc⟩ := h
  obtain ⟨t', hid, ht', -⟩ := exists_token_of_choose hc
  exact Token.id_injective hid ▸ ht'

/-- Drawing leaves the sequence as it is. -/
theorem Draws.tokens {s u : State} {predictor : Nat} {row : TokenSet} {t : Token}
    (h : Draws c K s predictor row t u) : u.tokens = s.tokens := by
  obtain ⟨-, -, -⟩ := h
  rfl

/-- What is admitted is in every set that is in force. -/
theorem mem_admissible {s : State} {row : TokenSet} {t : Token} :
    t ∈ admissible c s row ↔ t ∈ row ∧ t ∈ s.guide ∧ t ∈ s.voiceGuide ∧ t ∈ c.permitted ∧
      t ∈ (s.masker.map (·.mask)).getD .full := by
  simp [admissible]

/-- The caller's list is never admitted. -/
theorem mem_permitted {t : Token} : t ∈ c.permitted ↔ t ∉ c.options.forbiddenTokens := by
  simp [Setting.permitted, Guide.allExcept]

/-! ## Extending the sequence -/

/-- The state with its beams tidied, in which a voice that has ended is judged. -/
def tidy (s : State) : State := { s with tokens := Repair.tidyBeams s.status s.tokens }

theorem length_tidy_le (s : State) : (tidy s).tokens.length ≤ s.tokens.length :=
  Repair.length_tidyBeams_le s.status s.tokens

variable (c K)

/-- What choosing a token leads to. -/
inductive Extends (s : State) (predictor : Nat) (row : TokenSet) : Outcome → Prop
  | nothingAdmissible : (∀ t, t ∉ admissible c s row) → Extends s predictor row (close c s .nothingAdmissible)
  | unanswered {reason : String} : K (.predict predictor c.options.descriptors s.tokens) (.error reason) →
      Extends s predictor row (.stop s (.failed (.predictor reason)))
  | quotaExceeded : c.options.stepQuota ≤ s.steps →
      Extends s predictor row (close c (countStep s) .quotaExceeded)
  | noFiniteLogit {logits : Array Float} : K (.predict predictor c.options.descriptors s.tokens) (.ok logits) →
      s.steps < c.options.stepQuota →
      choose s.random c.options.temperature (maskLogits logits (admissible c s row) c.options.temperature) = none →
      Extends s predictor row (.stop (countStep s) .noFiniteLogit)
  | paddingDrawn {u : State} : Draws c K s predictor row .pad u → Extends s predictor row (.stop u .paddingDrawn)
  | pushed {t : Token} {u : State} : Draws c K s predictor row t u → t ≠ .pad → t ≠ .vb → t ≠ .eom →
      Extends s predictor row (.next (push c u t))
  | unjudged {t : Token} {u : State} {e : DecodingError} : Draws c K s predictor row t u → t = .vb ∨ t = .eom →
      (Validation.isTimewarpInvalid (tidy (push c u t)).tokens).ReturnsWith K (.error e) →
      Extends s predictor row (.stop (tidy (push c u t)) (.failed e))
  | backtracked {t : Token} {u : State} : Draws c K s predictor row t u → t = .vb ∨ t = .eom →
      (Validation.isTimewarpInvalid (tidy (push c u t)).tokens).ReturnsWith K (.ok true) →
      Extends s predictor row (.next (backtrack c (tidy (push c u t))))
  | sampled {u : State} : Draws c K s predictor row .eom u →
      (Validation.isTimewarpInvalid (tidy (push c u .eom)).tokens).ReturnsWith K (.ok false) →
      Extends s predictor row (.stop (tidy (push c u .eom)) .sampled)
  | voiceEnded {u : State} : Draws c K s predictor row .vb u →
      (Validation.isTimewarpInvalid (tidy (push c u .vb)).tokens).ReturnsWith K (.ok false) →
      Extends s predictor row (.next (resetGuides c (tidy (push c u .vb))))

variable {c K}

theorem endVoice_extends {s u : State} {predictor : Nat} {row : TokenSet} {t : Token} {o : Outcome}
    (hd : Draws c K s predictor row t u) (ht : t = .vb ∨ t = .eom)
    (h : (endVoice c (push c u t) t).ReturnsWith K o) : Extends c K s predictor row o := by
  obtain ⟨answer, ha, rfl⟩ := Dialogue.returnsWith_map.1 h
  cases answer with
  | error e => exact .unjudged hd ht ha
  | ok invalid =>
    cases invalid with
    | true => exact .backtracked hd ht ha
    | false =>
      rcases ht with rfl | rfl
      · exact .voiceEnded hd ha
      · exact .sampled hd ha

theorem accept_extends {s u : State} {predictor : Nat} {row : TokenSet} {t : Token} {o : Outcome}
    (hd : Draws c K s predictor row t u) (h : (accept c u t).ReturnsWith K o) : Extends c K s predictor row o := by
  unfold accept at h
  split at h
  · rename_i hp
    subst hp
    rw [Dialogue.returnsWith_done.1 h]
    exact .paddingDrawn hd
  · rename_i hp
    split at h
    · rename_i ht
      exact endVoice_extends hd ht h
    · rename_i ht
      rw [Dialogue.returnsWith_done.1 h]
      exact .pushed hd hp (fun hv => ht (.inl hv)) fun he => ht (.inr he)

theorem extend_returns {s : State} {predictor : Nat} {row : TokenSet} {o : Outcome}
    (h : (extend c s predictor row).ReturnsWith K o) : Extends c K s predictor row o := by
  unfold extend at h
  split at h
  · rename_i he
    rw [Dialogue.returnsWith_done.1 h]
    exact .nothingAdmissible (TokenSet.isEmpty_iff.1 he)
  · obtain ⟨answer, ha, h⟩ := Dialogue.returnsWith_bind.1 h
    rw [Dialogue.returnsWith_predict] at ha
    cases answer with
    | error reason =>
      rw [Dialogue.returnsWith_done.1 h]
      exact .unanswered ha
    | ok logits =>
      dsimp only [select] at h
      split at h
      · rename_i hq
        rw [Dialogue.returnsWith_done.1 h]
        exact .quotaExceeded (by omega)
      · rename_i hq
        split at h
        · rename_i hc
          rw [Dialogue.returnsWith_done.1 h]
          exact .noFiniteLogit ha (by omega) hc
        · rename_i i random hc
          -- the index is that of a token, since there is one logit for each
          obtain ⟨t, rfl, -, -⟩ := exists_token_of_choose hc
          rw [Token.ofId?_id] at h
          exact accept_extends (.mk ha (by omega) hc) h

/-! ## A whole iteration -/

variable (c K)

/-- One iteration. -/
inductive Iterates (s : State) : Outcome → Prop
  | predictorsExhausted : s.cursor.current? = none → Iterates s (close c s .predictorsExhausted)
  | nothingLeft : s.tokens = [] → Iterates s (close c s .nothingLeft)
  | consulted {last : Token} {o : Outcome} : s.tokens.getLast? = some last →
      Consults c K s last (c.grammar.row last) (.error o) → Iterates s o
  | extended {predictor : Nat} {last : Token} {u : State} {o : Outcome} : s.cursor.current? = some predictor →
      s.tokens.getLast? = some last → Consults c K s last (c.grammar.row last) (.ok u) →
      Extends c K u predictor (c.grammar.row last) o → Iterates s o

variable {c K}

theorem step_returns {s : State} {o : Outcome} (h : (step c s).ReturnsWith K o) : Iterates c K s o := by
  unfold step at h
  split at h
  · rename_i hc
    rw [Dialogue.returnsWith_done.1 h]
    exact .predictorsExhausted hc
  · rename_i hl
    rw [Dialogue.returnsWith_done.1 h]
    exact .nothingLeft (List.getLast?_eq_none_iff.1 hl)
  · rename_i hc hl
    obtain ⟨r, hr, h⟩ := Dialogue.returnsWith_bind.1 h
    have hcon := consult_returns hr
    cases r with
    | error o' =>
      rw [Dialogue.returnsWith_done.1 h]
      exact .consulted hl hcon
    | ok u => exact .extended hc hl hcon (extend_returns h)

/-! ## A run -/

/-- A run is an iteration and, if that goes on, the rest of the run. -/
theorem iterate_returns_iff {s : State} {r : State × Ending} :
    (iterate c s).ReturnsWith K r ↔
      (step c s).ReturnsWith K (.stop r.1 r.2) ∨
        ∃ t, (step c s).ReturnsWith K (.next t) ∧ (iterate c t).ReturnsWith K r := by
  rw [iterate.eq_def, Dialogue.returnsWith_bind]
  constructor
  · rintro ⟨⟨o, ho⟩, ha, h⟩
    have hs := Dialogue.returnsWith_attach.1 ha
    cases o with
    | stop t ending =>
      cases Dialogue.returnsWith_done.1 h
      exact .inl hs
    | next t => exact .inr ⟨t, hs, h⟩
  · rintro (hs | ⟨t, hs, h⟩)
    · exact ⟨⟨_, hs.returns⟩, Dialogue.returnsWith_attach.2 hs, .done _⟩
    · exact ⟨⟨_, hs.returns⟩, Dialogue.returnsWith_attach.2 hs, h⟩

/-- What holds at the start and is kept by every iteration that goes on holds where the run ends. -/
theorem iterate_induction {I : State → Prop} {J : State → Ending → Prop}
    (next : ∀ s t, I s → Iterates c K s (.next t) → I t)
    (stop : ∀ s t ending, I s → Iterates c K s (.stop t ending) → J t ending)
    {s t : State} {ending : Ending} (hs : I s) (h : (iterate c s).ReturnsWith K (t, ending)) : J t ending := by
  induction s using iterate.induct c with
  | case1 s ih =>
    rcases iterate_returns_iff.1 h with ho | ⟨u, ho, hu⟩
    · exact stop s t ending hs (step_returns ho)
    · exact ih u ho.returns (next s u hs (step_returns ho)) hu

variable {capacities : List Nat} {masker : Option Masker} {random : Random} {r : Run}

/-- A run with a predictor that takes the start of the sequence iterates from there. -/
theorem sample_returns_iff {predictor : Nat}
    (hp : (initialState c capacities masker random).cursor.current? = some predictor) :
    (sample c capacities masker random).ReturnsWith K r ↔
      ∃ t ending, (iterate c (initialState c capacities masker random)).ReturnsWith K (t, ending) ∧
        r = finish t ending := by
  simp only [sample, hp, Dialogue.returnsWith_map]
  constructor
  · rintro ⟨⟨t, ending⟩, h, hr⟩
    exact ⟨t, ending, h, hr⟩
  · rintro ⟨t, ending, h, hr⟩
    exact ⟨(t, ending), h, hr⟩

/-- Without such a predictor the sequence stays as it is. -/
theorem tokens_of_sample_of_none (hn : (initialState c capacities masker random).cursor.current? = none)
    (h : (sample c capacities masker random).ReturnsWith K r) : r.tokens = c.options.start := by
  simp only [sample, hn, Dialogue.returnsWith_done] at h
  rw [h]
  rfl

/-! ## Computing a run -/

/-- The end of a run with answers that depend on the questions alone, if it comes within so many iterations. -/
def runWithin (c : Setting) (answer : (q : Query) → q.Answer) : Nat → State → Option (State × Ending)
  | 0, _ => none
  | n + 1, s => match (step c s).eval answer with
    | .stop t ending => some (t, ending)
    | .next t => runWithin c answer n t

theorem iterate_returns_of_runWithin {answer : (q : Query) → q.Answer} (hK : ∀ q, K q (answer q)) {n : Nat}
    {s : State} {r : State × Ending} (h : runWithin c answer n s = some r) : (iterate c s).ReturnsWith K r := by
  induction n generalizing s with
  | zero => cases h
  | succ n ih =>
    have hs := Dialogue.returnsWith_eval hK (step c s)
    unfold runWithin at h
    split at h
    · rename_i t ending ho
      rw [ho] at hs
      cases h
      exact iterate_returns_iff.2 (.inl hs)
    · rename_i t ho
      rw [ho] at hs
      exact iterate_returns_iff.2 (.inr ⟨t, hs, ih h⟩)

/-- A whole run with such answers, computed. -/
theorem sample_of_runWithin {answer : (q : Query) → q.Answer} (hK : ∀ q, K q (answer q)) {n : Nat} {t : State}
    {ending : Ending} (hfits : (initialState c capacities masker random).cursor.current?.isSome = true)
    (h : runWithin c answer n (initialState c capacities masker random) = some (t, ending)) :
    (sample c capacities masker random).ReturnsWith K (finish t ending) := by
  obtain ⟨predictor, hp⟩ := Option.isSome_iff_exists.1 hfits
  exact (sample_returns_iff hp).2 ⟨t, ending, iterate_returns_of_runWithin hK h, rfl⟩

end ScoreDecoding.Sampler
