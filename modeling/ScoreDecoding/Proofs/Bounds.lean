import ScoreDecoding.Proofs.Frontier
import ScoreDecoding.Proofs.NaturalEnd
import ScoreDecoding.Proofs.Transcript

/-!
# How long decoders take

Whatever reliable collaborators answer, a decoder comes to a result, and it fails only if no predictor takes the start
of the sequence. What it needs is bounded by its quota. In guided sampling a token may be taken back without a step, and
a step may end with fewer tokens than before; tokens and steps together bound the iterations, and the steps alone bound
the predictions.

- `cost_of_next` and `cost_of_stop` are the account of one iteration, and `cost_of_transcribes` that of a run;
- `isOk_of_iterate` and its lemmas: a search with reliable collaborators does not fail;
- `bounded_of_decoders` is the account of both decoders.
-/

namespace ScoreDecoding

namespace RunOptions

/-- How many ids a predictor is first given: those of the prompt and of the start of the sequence. -/
def inputLength (o : RunOptions) : Nat := o.descriptors.length + o.start.length

theorem length_start (o : RunOptions) : o.start.length = max 1 o.primer.length := by
  unfold start
  split
  · rename_i h
    rw [h]
    rfl
  · rename_i h
    have hpos : 0 < o.primer.length := List.length_pos_iff.2 h
    omega

variable {o : RunOptions} {capacities : List Nat}

/-- A predictor takes the first input exactly if one is large enough. -/
theorem isSome_start_iff :
    (Cursor.start capacities (o.descriptors.length + o.start.length)).current?.isSome = true ↔
      ∃ n ∈ capacities, o.inputLength ≤ n :=
  Cursor.isSome_current?_start

theorem not_large_of_start (h : (Cursor.start capacities (o.descriptors.length + o.start.length)).current? = none) :
    ¬ ∃ n ∈ capacities, o.inputLength ≤ n := by
  rw [← isSome_start_iff, h]
  exact Bool.false_ne_true

end RunOptions

namespace Sampler

variable {c : Setting} {K : Collaborators} {s t u : State} {qs : List Query} {log : List (List Query)}
  {o : Outcome} {ending : Ending} {row : TokenSet} {predictor : Nat}

/-! ## Guided sampling: one iteration -/

variable (c) in
/-- The steps that are left. -/
def stepsLeft (s : State) : Nat := c.options.stepQuota - s.steps

/-- A draw takes one of the steps that are left. -/
theorem Draws.steps {x : Token} (h : Draws c K s predictor row x u) :
    s.steps < c.options.stepQuota ∧ u.steps = s.steps + 1 := by
  obtain ⟨-, hq, -⟩ := h
  exact ⟨hq, rfl⟩

theorem length_push {x : Token} (h : Draws c K s predictor row x u) :
    (push c u x).tokens.length = s.tokens.length + 1 := by
  rw [h.tokens_push, List.length_append, List.length_singleton]

theorem length_tidy_push {x : Token} (h : Draws c K s predictor row x u) :
    (tidy (push c u x)).tokens.length ≤ s.tokens.length + 1 := by
  rw [← length_push h]
  exact length_tidy_le (push c u x)

/-- A choice that goes on takes a step and adds a token at most. -/
theorem cost_of_extends_next (h : Extends c K s predictor row (.next t)) :
    s.steps < c.options.stepQuota ∧ t.steps = s.steps + 1 ∧ t.tokens.length ≤ s.tokens.length + 1 := by
  cases h with
  | pushed hd => exact ⟨hd.steps.1, hd.steps.2, (length_push hd).le⟩
  | @backtracked x w hd =>
    refine ⟨hd.steps.1, hd.steps.2, ?_⟩
    have htidy := length_tidy_push hd
    have hcut := List.length_take_le' (Repair.lastEventStart (tidy (push c w x)).tokens) (tidy (push c w x)).tokens
    exact hcut.trans htidy
  | voiceEnded hd => exact ⟨hd.steps.1, hd.steps.2, length_tidy_push hd⟩

/-- A choice that stops adds a token at most, and so does closing the sequence. -/
theorem length_of_extends_stop (h : Extends c K s predictor row (.stop t ending)) :
    t.tokens.length ≤ s.tokens.length + 1 := by
  cases h with
  | nothingAdmissible => exact Repair.length_closeOut_le _ _ _
  | unanswered => exact Nat.le_succ _
  | quotaExceeded => exact Repair.length_closeOut_le _ _ _
  | noFiniteLogit => exact Nat.le_succ _
  | paddingDrawn hd =>
    rw [hd.tokens]
    exact Nat.le_succ _
  | unjudged hd => exact length_tidy_push hd
  | sampled hd => exact length_tidy_push hd

theorem countP_probes (s : State) (row : TokenSet) :
    (probes c s row).countP Query.isPrediction = 0 ∧ (probes c s row).countP Query.isParse ≤ 1 := by
  unfold probes
  split
  · exact ⟨rfl, Nat.le_refl 1⟩
  · exact ⟨rfl, Nat.zero_le 1⟩

/-- A choice asks for one prediction and one judgement at most, and needs a step that is left for the judgement. -/
theorem countP_requests (h : Requests c s predictor qs) :
    qs.countP Query.isPrediction ≤ 1 ∧ qs.countP Query.isParse ≤ 1 ∧
      qs.countP Query.isParse ≤ stepsLeft c s := by
  cases h with
  | nobody => exact ⟨Nat.zero_le 1, Nat.zero_le 1, Nat.zero_le _⟩
  | predicted => exact ⟨Nat.le_refl 1, Nat.zero_le 1, Nat.zero_le _⟩
  | judged hq =>
    have hleft : 1 ≤ stepsLeft c s := by
      unfold stepsLeft
      omega
    exact ⟨Nat.le_refl 1, Nat.le_refl 1, hleft⟩

/-- **The account of an iteration that goes on**: a prediction takes a step, a second question to the validator takes
one, and so does a token that is added. -/
theorem cost_of_next (h : Inquires c K s qs (.next t)) :
    qs.countP Query.isPrediction + stepsLeft c t ≤ stepsLeft c s ∧
      qs.countP Query.isParse + stepsLeft c t ≤ stepsLeft c s + 1 ∧
      t.tokens.length + stepsLeft c t ≤ s.tokens.length + stepsLeft c s := by
  cases h with
  | @consulted last _ hl hc =>
    obtain ⟨hpred, hparse⟩ := countP_probes (c := c) s (c.grammar.row last)
    cases hc with
    | @takenBack m =>
      have hlen : s.tokens.dropLast.length ≤ s.tokens.length := by
        rw [List.length_dropLast]
        omega
      have hleft : stepsLeft c (takeBack s last m.tail) = stepsLeft c s := rfl
      refine ⟨?_, ?_, ?_⟩
      · rw [hpred, hleft]
        omega
      · rw [hleft]
        omega
      · exact Nat.add_le_add_right hlen _
  | @extended _ last w more _ _ hl hc hr he =>
    obtain ⟨hpred, hparse⟩ := countP_probes (c := c) s (c.grammar.row last)
    obtain ⟨hpred', hparse', -⟩ := countP_requests hr
    obtain ⟨hq, hsteps, hlen⟩ := cost_of_extends_next he
    rw [tokens_of_consults hc] at hlen
    rw [steps_of_consults hc] at hq hsteps
    rw [List.countP_append, List.countP_append]
    unfold stepsLeft
    refine ⟨?_, ?_, ?_⟩
    · omega
    · omega
    · omega

/-- The account of the last iteration. -/
theorem cost_of_stop (h : Inquires c K s qs (.stop t ending)) :
    qs.countP Query.isPrediction ≤ 1 ∧ qs.countP Query.isParse ≤ stepsLeft c s + 1 ∧
      t.tokens.length ≤ s.tokens.length + 1 := by
  cases h with
  | predictorsExhausted => exact ⟨Nat.zero_le 1, Nat.zero_le _, Repair.length_closeOut_le _ _ _⟩
  | nothingLeft => exact ⟨Nat.zero_le 1, Nat.zero_le _, Repair.length_closeOut_le _ _ _⟩
  | @consulted last _ hl hc =>
    obtain ⟨hpred, hparse⟩ := countP_probes (c := c) s (c.grammar.row last)
    refine ⟨by omega, by omega, ?_⟩
    cases hc with
    | unread => exact Nat.le_succ _
    | tooDeep => exact Repair.length_closeOut_le _ _ _
  | @extended _ last w more _ _ hl hc hr he =>
    obtain ⟨hpred, hparse⟩ := countP_probes (c := c) s (c.grammar.row last)
    obtain ⟨hpred', -, hparse'⟩ := countP_requests hr
    have hlen := length_of_extends_stop he
    have hleft : stepsLeft c w = stepsLeft c s := by
      unfold stepsLeft
      rw [steps_of_consults hc]
    rw [tokens_of_consults hc] at hlen
    rw [List.countP_append, List.countP_append]
    exact ⟨by omega, by omega, hlen⟩

/-! ## Guided sampling: a run -/

/-- A run takes as many iterations as there is to do, and one more in which it stops. -/
theorem length_log_le (h : Transcribes c K s log t ending) : log.length ≤ budget c s + 1 := by
  induction h with
  | stop h =>
    rw [List.length_singleton]
    omega
  | next h _ ih =>
    have hless := budget_lt_of_step c h.returnsWith.returns
    rw [List.length_cons]
    omega

/-- **The account of a run.** -/
theorem cost_of_transcribes (h : Transcribes c K s log t ending) :
    log.flatten.countP Query.isPrediction ≤ stepsLeft c s + 1 ∧
      log.flatten.countP Query.isParse ≤ log.length + stepsLeft c s ∧
      t.tokens.length ≤ s.tokens.length + stepsLeft c s + 1 := by
  induction h with
  | stop h =>
    obtain ⟨hpred, hparse, hlen⟩ := cost_of_stop (step_asks h)
    rw [List.flatten_singleton, List.length_singleton]
    exact ⟨by omega, by omega, by omega⟩
  | next h _ ih =>
    obtain ⟨hpred, hparse, hlen⟩ := cost_of_next (step_asks h)
    obtain ⟨ihpred, ihparse, ihlen⟩ := ih
    rw [List.flatten_cons, List.countP_append, List.countP_append, List.length_cons]
    exact ⟨by omega, by omega, by omega⟩

/-- With reliable collaborators no iteration fails. -/
theorem not_failed_of_iterates (hK : K.Reliable) (h : Iterates c K s (.stop t ending)) (e : DecodingError) :
    ending ≠ .failed e := by
  intro he
  cases h with
  | predictorsExhausted => cases he
  | nothingLeft => cases he
  | consulted _ hc =>
    cases hc with
    | unread _ _ hp =>
      obtain ⟨status, hstatus⟩ := Validation.probeTail_ok hK hp
      cases hstatus
    | tooDeep => cases he
  | extended _ _ _ hx =>
    cases hx with
    | nothingAdmissible => cases he
    | unanswered hp =>
      obtain ⟨logits, hlogits⟩ := hK.succeeds _ _ hp
      cases hlogits
    | quotaExceeded => cases he
    | noFiniteLogit => cases he
    | paddingDrawn => cases he
    | unjudged _ _ hp =>
      obtain ⟨invalid, hinvalid⟩ := Validation.isTimewarpInvalid_ok hK hp
      cases hinvalid
    | sampled => cases he

theorem result_of_transcribes (hK : K.Reliable) (h : Transcribes c K s log t ending) :
    (finish t ending).result = .ok t.tokens := by
  induction h with
  | @stop s t qs ending h =>
    have hno := not_failed_of_iterates hK (step_asks h).iterates
    cases ending with
    | failed e => exact absurd rfl (hno e)
    | _ => rfl
  | next _ _ ih => exact ih

/-! ## Guided sampling: a whole run -/

variable {capacities : List Nat} {masker : Option Masker} {random : Random} {r : Run}

theorem length_records_le (h : Records c K capacities masker random log r) :
    log.length ≤ max 1 c.options.primer.length + 2 * c.options.stepQuota + 1 := by
  cases h with
  | refused => exact Nat.zero_le _
  | run _ hrun =>
    have hlog := length_log_le hrun
    have hbudget : budget c (initialState c capacities masker random) =
        max 1 c.options.primer.length + 2 * c.options.stepQuota := by
      rw [← RunOptions.length_start]
      rfl
    omega

/-- The account of a whole run. -/
theorem cost_of_records (h : Records c K capacities masker random log r) :
    r.tokens.length ≤ max 1 c.options.primer.length + c.options.stepQuota + 1 ∧
      log.flatten.countP Query.isPrediction ≤ c.options.stepQuota + 1 ∧
      log.flatten.countP Query.isParse ≤ max 1 c.options.primer.length + 3 * c.options.stepQuota + 1 := by
  have hlog := length_records_le h
  rw [← RunOptions.length_start] at hlog ⊢
  cases h with
  | refused =>
    have hlen : c.options.start.length ≤ c.options.start.length + c.options.stepQuota + 1 := by omega
    exact ⟨hlen, Nat.zero_le _, Nat.zero_le _⟩
  | @run log t ending _ hrun =>
    obtain ⟨hpred, hparse, hlen⟩ := cost_of_transcribes hrun
    have hleft : stepsLeft c (initialState c capacities masker random) = c.options.stepQuota := rfl
    rw [hleft] at hpred hparse
    exact ⟨hlen, hpred, by omega⟩

/-- A run with reliable collaborators fails only if no predictor takes the start of the sequence. -/
theorem result_of_records (hK : K.Reliable) (h : Records c K capacities masker random log r) :
    r.result = if ∃ n ∈ capacities, c.options.inputLength ≤ n then .ok r.tokens
      else .error (.noPredictor c.options.inputLength) := by
  cases h with
  | refused hnone =>
    rw [if_neg (RunOptions.not_large_of_start hnone)]
    rfl
  | run hfits hrun =>
    rw [if_pos (RunOptions.isSome_start_iff.1 hfits)]
    exact result_of_transcribes hK hrun

end Sampler

namespace BeamSearch

variable {c : Setting} {K : Collaborators} {s : State} {b : Branch} {ending : Ending} {predictor : Nat}
  {generated : List (List Branch)}

/-! ## Beam search -/

theorem continuation_ok (hK : K.Reliable) {row : TokenSet} {r : Except DecodingError (Option Continuation)}
    (h : (continuation? c b row).ReturnsWith K r) : ∃ k, r = .ok k := by
  unfold continuation? at h
  split at h
  · obtain ⟨answer, ha, rfl⟩ := Dialogue.returnsWith_map.1 h
    obtain ⟨invalid, rfl⟩ := Validation.isTimewarpInvalid_ok hK ha
    exact ⟨_, rfl⟩
  · split at h
    · obtain ⟨answer, ha, rfl⟩ := Dialogue.returnsWith_map.1 h
      obtain ⟨m, rfl⟩ := Validation.validate_ok hK ha
      exact ⟨_, rfl⟩
    · split at h
      · exact ⟨_, Dialogue.returnsWith_done.1 h⟩
      · exact ⟨_, Dialogue.returnsWith_done.1 h⟩

theorem expand_ok (hK : K.Reliable) {r : Except DecodingError (List Branch)}
    (h : (expand c predictor b).ReturnsWith K r) : ∃ found, r = .ok found := by
  obtain ⟨answer, ha, h⟩ := Dialogue.returnsWith_bind.1 h
  obtain ⟨k, rfl⟩ := continuation_ok hK ha
  cases k with
  | none => exact ⟨_, Dialogue.returnsWith_done.1 h⟩
  | some k =>
    obtain ⟨answer, ha, rfl⟩ := Dialogue.returnsWith_map.1 h
    obtain ⟨logits, rfl⟩ := hK.succeeds _ _ (Dialogue.returnsWith_predict.1 ha)
    exact ⟨_, rfl⟩

theorem expandRanked_ok (hK : K.Reliable) {wanted : Nat} {bs : List Branch} {r : Except DecodingError (List Branch)}
    (h : (expandRanked c predictor wanted bs).ReturnsWith K r) : ∃ found, r = .ok found := by
  induction bs generalizing wanted r with
  | nil =>
    cases wanted with
    | zero => exact ⟨_, Dialogue.returnsWith_done.1 h⟩
    | succ wanted => exact ⟨_, Dialogue.returnsWith_done.1 h⟩
  | cons b bs ih =>
    cases wanted with
    | zero => exact ⟨_, Dialogue.returnsWith_done.1 h⟩
    | succ wanted =>
      obtain ⟨answer, ha, h⟩ := Dialogue.returnsWith_bind.1 h
      obtain ⟨found, rfl⟩ := expand_ok hK ha
      cases found with
      | nil => exact ih h
      | cons first more =>
        obtain ⟨answer, ha, rfl⟩ := Dialogue.returnsWith_map.1 h
        obtain ⟨rest, rfl⟩ := ih ha
        exact ⟨_, rfl⟩

theorem improve_ok (hK : K.Reliable) {bs : List Branch} {r : Except DecodingError Branch}
    (h : (improve b bs).ReturnsWith K r) : ∃ candidate, r = .ok candidate := by
  induction bs with
  | nil => exact ⟨_, Dialogue.returnsWith_done.1 h⟩
  | cons d ds ih =>
    unfold improve at h
    split at h
    · exact ⟨_, Dialogue.returnsWith_done.1 h⟩
    · obtain ⟨answer, ha, h⟩ := Dialogue.returnsWith_bind.1 h
      obtain ⟨invalid, rfl⟩ := Validation.isTimewarpInvalid_ok hK ha
      cases invalid with
      | false => exact ⟨_, Dialogue.returnsWith_done.1 h⟩
      | true => exact ih h

/-- With reliable collaborators no step fails. -/
theorem not_failed_of_step (hK : K.Reliable) {e : DecodingError} (h : (step c s).ReturnsWith K (.failed e)) :
    False := by
  rcases step_returns_iff.1 h with ⟨-, ho⟩ | ⟨found, -, hr⟩ | ⟨_, _, -, ha, -⟩
  · cases ho
  · generalize Branch.rank found = ranked at hr
    cases review_returns hr with
    | unjudged _ ha =>
      obtain ⟨invalid, hinvalid⟩ := Validation.isTimewarpInvalid_ok hK ha
      cases hinvalid
    | unimproved _ ha =>
      obtain ⟨candidate, hcandidate⟩ := improve_ok hK ha
      cases hcandidate
    | settled _ _ ho =>
      unfold settle at ho
      split at ho
      · cases ho
      · split at ho
        · cases ho
        · split at ho
          · cases ho
          · cases ho
  · obtain ⟨found, hfound⟩ := expandRanked_ok hK ha
    cases hfound

theorem isOk_of_iterate (hK : K.Reliable) {r : Except DecodingError (Branch × Ending)}
    (h : (iterate c s).ReturnsWith K r) : ∃ b ending, r = .ok (b, ending) := by
  induction s using iterate.induct c with
  | case1 s ih =>
    rcases iterate_returns.1 h with ⟨b, ending, -, rfl⟩ | ⟨e, he, -⟩ | ⟨t, ht, h⟩
    · exact ⟨b, ending, rfl⟩
    · exact absurd he fun he => not_failed_of_step hK he
    · exact ih t ht.returns h

/-- A run generates branches as many times as steps are left, and once more in its last step. -/
theorem length_generated_le (h : Runs c K s generated b ending) (hs : s.steps ≤ c.options.stepQuota) :
    generated.length + s.steps ≤ c.options.stepQuota + 1 := by
  induction h with
  | exhausted =>
    rw [List.length_nil]
    omega
  | stop =>
    rw [List.length_singleton]
    omega
  | next _ hr _ ih =>
    obtain ⟨hsteps, hquota⟩ := review_next c hr.returns
    have hrest := ih hquota
    rw [List.length_cons]
    omega

/-- What a run returns has at most one token for each step. -/
theorem length_of_runs (h : Runs c K s generated b ending) (hs : s.steps ≤ c.options.stepQuota) (hl : Level c s) :
    b.tokens.length ≤ c.options.start.length + c.options.stepQuota + 1 := by
  induction h with
  | exhausted =>
    have := hl.candidate
    omega
  | @stop s found b ending hg hr =>
    have hfound : ∀ d ∈ Branch.rank found, d.tokens.length ≤ c.options.start.length + s.steps + 1 :=
      fun d hd => (hl.length_of_generates hg (mem_rank.1 hd)).le
    have hcandidate : s.candidate.tokens.length ≤ c.options.start.length + s.steps + 1 := by
      have := hl.candidate
      omega
    have hall : b.tokens.length ≤ c.options.start.length + s.steps + 1 :=
      all_of_reviews (P := fun d => d.tokens.length ≤ c.options.start.length + s.steps + 1) (review_returns hr)
        hcandidate hfound
    omega
  | next hg hr _ ih =>
    obtain ⟨-, hquota⟩ := review_next c hr.returns
    exact ih hquota (level_of_step hl (step_returns_iff.2 (.inr (.inl ⟨_, hg, hr⟩))))

/-- A search with reliable collaborators fails only if no predictor takes the root. -/
theorem result_of_search (hK : K.Reliable) {capacities : List Nat} {r : Except DecodingError (Branch × Ending)}
    (h : (search c capacities).ReturnsWith K r) :
    if ∃ n ∈ capacities, c.options.inputLength ≤ n then
      ∃ b ending, r = .ok (b, ending) ∧ (∃ generated, Searches c K capacities generated b ending) ∧
        b.tokens.length ≤ max 1 c.options.primer.length + c.options.stepQuota + 1
    else r = .error (.noPredictor c.options.inputLength) := by
  obtain ⟨qs, hqs⟩ := Dialogue.returnsWith_iff_asks.1 h
  rcases asks_of_search hqs with ⟨hnone, -, hr⟩ | ⟨hfits, hrun⟩
  · rw [if_neg (RunOptions.not_large_of_start hnone)]
    exact hr
  · rw [if_pos (RunOptions.isSome_start_iff.1 hfits)]
    obtain ⟨b, ending, rfl⟩ := isOk_of_iterate hK hrun.returnsWith
    obtain ⟨generated, hs⟩ := search_returns_iff.1 h
    have hlen := length_of_runs hs.2 (Nat.zero_le _) (level_initialState capacities)
    rw [RunOptions.length_start] at hlen
    exact ⟨b, ending, rfl, ⟨generated, hs⟩, hlen⟩

end BeamSearch

/-! ## Both decoders -/

/-- **Both decoders come to an end within their quota**, whatever reliable collaborators answer. They fail only if no
predictor takes the start of the sequence. -/
theorem bounded_of_decoders {K : Collaborators} (hK : K.Reliable) (capacities : List Nat) :
    (∀ (c : Sampler.Setting) (masker : Option Masker) (random : Random),
        (∃ r, (Sampler.sample c capacities masker random).ReturnsWith K r) ∧
        (∀ qs r, (Sampler.sample c capacities masker random).Asks K qs r →
          r.result = (if ∃ n ∈ capacities, c.options.inputLength ≤ n then .ok r.tokens
            else .error (.noPredictor c.options.inputLength)) ∧
          (∃ log, Sampler.Records c K capacities masker random log r ∧ qs = log.flatten) ∧
          r.tokens.length ≤ max 1 c.options.primer.length + c.options.stepQuota + 1 ∧
          qs.countP Query.isPrediction ≤ c.options.stepQuota + 1 ∧
          qs.countP Query.isParse ≤ max 1 c.options.primer.length + 3 * c.options.stepQuota + 1) ∧
        ∀ log r, Sampler.Records c K capacities masker random log r →
          log.length ≤ max 1 c.options.primer.length + 2 * c.options.stepQuota + 1) ∧
      ∀ c : BeamSearch.Setting,
        (∃ r, (BeamSearch.search c capacities).ReturnsWith K r) ∧
        (∀ r, (BeamSearch.search c capacities).ReturnsWith K r →
          if ∃ n ∈ capacities, c.options.inputLength ≤ n then
            ∃ b ending, r = .ok (b, ending) ∧
              (∃ generated, BeamSearch.Searches c K capacities generated b ending) ∧
              b.tokens.length ≤ max 1 c.options.primer.length + c.options.stepQuota + 1
          else r = .error (.noPredictor c.options.inputLength)) ∧
        ∀ generated b ending, BeamSearch.Searches c K capacities generated b ending →
          generated.length ≤ c.options.stepQuota + 1 := by
  constructor
  · intro c masker random
    refine ⟨?_, ?_, ?_⟩
    · obtain ⟨qs, r, h⟩ := Dialogue.exists_asks hK.answers (Sampler.sample c capacities masker random)
      exact ⟨r, h.returnsWith⟩
    · intro qs r h
      obtain ⟨log, hlog, rfl⟩ := Sampler.sample_asks_iff.1 h
      exact ⟨Sampler.result_of_records hK hlog, ⟨log, hlog, rfl⟩, Sampler.cost_of_records hlog⟩
    · intro log r h
      exact Sampler.length_records_le h
  · intro c
    refine ⟨?_, ?_, ?_⟩
    · obtain ⟨qs, r, h⟩ := Dialogue.exists_asks hK.answers (BeamSearch.search c capacities)
      exact ⟨r, h.returnsWith⟩
    · intro r h
      exact BeamSearch.result_of_search hK h
    · intro generated b ending h
      exact BeamSearch.length_generated_le h.2 (Nat.zero_le _)

/-- A measure of one note, for which two steps are allowed. -/
def hastyHalves : Sampler.Setting where
  grammar := Sampler.halvesSetting.grammar
  options := { temperature := 0, forbidPartial := true, stepQuota := 2 }

/-- The same for a search. -/
def hastyHalvesSearch : BeamSearch.Setting where
  grammar := Sampler.halvesSetting.grammar
  options := { forbidPartial := true, stepQuota := 2 }
  elementary := BeamSearch.evenElementary

theorem reliable_wholeAnswer : (Collaborators.exactly Sampler.wholeAnswer).Reliable := by
  apply Collaborators.reliable_exactly
  intro q
  cases q with
  | predict => exact ⟨_, rfl⟩
  | parse text => exact ⟨_, rfl⟩

/-- A run that takes back its note and has no step left for another one, and a search that ends in its last step with as
many tokens as it may have. -/
theorem bounded_of_decoders_hastyHalves :
    (Collaborators.exactly Sampler.wholeAnswer).Reliable ∧
      (∃ qs r, (Sampler.sample hastyHalves [64] none (.ofSeed 4)).Asks (.exactly Sampler.wholeAnswer) qs r ∧
        r.result = .ok [.eom] ∧ qs.countP Query.isPrediction ≤ 3 ∧ qs.countP Query.isParse ≤ 8) ∧
      (∃ generated b, BeamSearch.Searches hastyHalvesSearch (.exactly Sampler.wholeAnswer) [64] generated b
          .bestComplete ∧ b.tokens = [.bom, .pitchC, .d2, .eom] ∧ b.tokens.length ≤ 4 ∧ generated.length ≤ 3) ∧
      ∀ r, (BeamSearch.search hastyHalvesSearch []).ReturnsWith (.exactly Sampler.wholeAnswer) r →
        r = .error (.noPredictor 1) := by
  have hbounded := bounded_of_decoders reliable_wholeAnswer
  refine ⟨reliable_wholeAnswer, ?_, ?_, ?_⟩
  · have hrun : (Sampler.runWithin hastyHalves Sampler.wholeAnswer 6
        (Sampler.initialState hastyHalves [64] none (.ofSeed 4))).map (fun r => (r.1.tokens, r.2)) =
        some ([.eom], .closed .quotaExceeded) := by decide +kernel
    obtain ⟨⟨t, ending⟩, hr, he⟩ := Option.map_eq_some_iff.1 hrun
    obtain ⟨ht, rfl⟩ := Prod.mk.inj he
    have h := Sampler.sample_of_runWithin (K := .exactly Sampler.wholeAnswer) (fun _ => rfl) (by decide +kernel) hr
    obtain ⟨qs, hqs⟩ := Dialogue.returnsWith_iff_asks.1 h
    obtain ⟨-, -, -, hpred, hparse⟩ := ((hbounded [64]).1 hastyHalves none (.ofSeed 4)).2.1 qs _ hqs
    exact ⟨qs, _, hqs, congrArg Except.ok ht, hpred, hparse⟩
  · have hrun : (BeamSearch.runWithin hastyHalvesSearch Sampler.wholeAnswer 4
        (BeamSearch.initialState hastyHalvesSearch [64])).map (fun r => (r.2.1.tokens, r.2.2)) =
        some ([.bom, .pitchC, .d2, .eom], .bestComplete) := by decide +kernel
    obtain ⟨⟨generated, b, ending⟩, hr, he⟩ := Option.map_eq_some_iff.1 hrun
    obtain ⟨hb, rfl⟩ := Prod.mk.inj he
    have hs : BeamSearch.Searches hastyHalvesSearch (.exactly Sampler.wholeAnswer) [64] generated b .bestComplete :=
      ⟨by decide +kernel, BeamSearch.runs_of_runWithin (fun _ => rfl) hr⟩
    have hsteps := ((hbounded [64]).2 hastyHalvesSearch).2.2 generated b _ hs
    refine ⟨generated, b, hs, hb, ?_, hsteps⟩
    have hresult := ((hbounded [64]).2 hastyHalvesSearch).2.1 _ (BeamSearch.search_returns_iff.2 ⟨_, hs⟩)
    rw [if_pos (by decide +kernel)] at hresult
    obtain ⟨b', ending', heq, -, hlen⟩ := hresult
    cases heq
    exact hlen
  · intro r h
    have hresult := ((hbounded []).2 hastyHalvesSearch).2.1 r h
    rw [if_neg (by simp)] at hresult
    exact hresult

end ScoreDecoding
