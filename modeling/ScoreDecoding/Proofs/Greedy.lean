import ScoreDecoding.Proofs.Twins

/-!
# Greedy sampling and a beam of width one

Guided sampling without a temperature and a beam of width one choose the same tokens as long as the search goes on. But
it keeps the best completion that it has passed, and ends with that one as soon as a start of the sequence scores less;
a score falls with every token unless the award makes up for it.

- `Abreast` relates a run to a search that has come as far, and `abreast_or_answers_of_iterates` says that both go on
  together unless the search stops with its candidate;
- `tokens_of_search_iff`: the search returns the sequence that was sampled exactly if that is not outscored;
- `differs_of_scenarios`: without its hypotheses the two may differ.
-/

namespace ScoreDecoding

variable {cs : Sampler.Setting} {cb : BeamSearch.Setting} {answer : (q : Query) → q.Answer} {capacities : List Nat}
  {s v w : Sampler.State} {b d : Branch} {predictor : Nat} {found : List Branch} {ts : List Token}

/-! ## One step of the search -/

namespace BeamSearch

variable {c : Setting} {t : State} {candidate best : Branch} {rest bs : List Branch}

/-- A search of width one continues the best open branch alone, if that has children. -/
theorem generates_of_expand {K : Collaborators} (hwidth : c.options.width = 1) (hf : t.frontier = b :: rest)
    (hp : t.cursor.current? = some predictor) (he : (expand c predictor b).ReturnsWith K (.ok found))
    (hne : found ≠ []) : Generates c K t found := by
  refine ⟨predictor, hp, ?_⟩
  have hone : c.width = 1 := by rw [Setting.width, hwidth]; rfl
  rw [hone, hf]
  refine Dialogue.returnsWith_bind.2 ⟨.ok found, he, ?_⟩
  cases found with
  | nil => exact absurd rfl hne
  | cons d ds =>
    refine Dialogue.returnsWith_map.2 ⟨.ok [], ?_, by simp [Except.map]⟩
    rw [expandRanked]
    exact .done _

/-- With plain reports a better candidate is looked for without a failure. -/
theorem exists_improves (hplain : Plain answer)
    (hc : candidate.isComplete = true → Double.isFinite candidate.score = true)
    (hranked : Ranked bs) (hbs : ∀ d ∈ bs, isFinished d = true ∧ d.tokens.getLast? = some d.last) :
    ∃ result, (improve candidate bs).ReturnsWith (.exactly answer) (.ok result) ∧
      Improves (fun text => answer (.parse text)) candidate bs result := by
  have hreturns : ∃ result, (improve candidate bs).ReturnsWith (.exactly answer) (.ok result) := by
    cases bs with
    | nil => exact ⟨candidate, .done _⟩
    | cons d ds =>
      unfold improve
      split
      · exact ⟨candidate, .done _⟩
      · exact ⟨d, Dialogue.returnsWith_bind.2 ⟨.ok false, hplain.isTimewarpInvalid _, .done _⟩⟩
  obtain ⟨result, hresult⟩ := hreturns
  refine ⟨result, hresult, improves_of_improve hc hranked hbs (hresult.mono ?_)⟩
  rintro q _ rfl
  exact Collaborators.validating_of_parse (fun _ => rfl) q

/-- Where a step is left and the best branch is open, the search goes on unless the candidate is ahead. -/
theorem settle_of_isOpen {pending : List Branch} {length : Nat} (hquota : t.steps < c.options.stepQuota)
    (hopen : isOpen best = true) :
    settle c t candidate (best :: rest) pending length =
      if candidate.isComplete && Double.lt best.score candidate.score then .stop candidate .candidateAhead
      else .next {
        cursor := t.cursor.fit (c.options.descriptors.length + length)
        frontier := best :: rest.filter isOpen
        candidate
        steps := t.steps + 1 } := by
  have hleft : ¬ c.options.stepQuota < t.steps + 1 := by omega
  rw [settle, if_neg hleft, List.filter_cons_of_pos hopen]

end BeamSearch

/-! ## A whole run -/

variable (cb answer capacities)

/-- A result of a search that follows a sequence to its end: a completion along it, and the sequence itself exactly if
that is not outscored. -/
structure Answers (ts : List Token) (d : Branch) : Prop where
  complete : d.isComplete = true
  after : d.tokens.dropLast <+: ts
  tokens_eq_iff : d.tokens = ts ↔ ¬ BeamSearch.Outscored cb answer capacities ts

/-- A search that has come as far as a run: its best open branch is in step, and its candidate is the best completion so
far and not ahead. -/
structure Abreast (ts : List Token) (s : Sampler.State) (t : BeamSearch.State) (b : Branch) : Prop where
  inStep : InStep cb answer capacities s b
  frontier : ∃ rest, t.frontier = b :: rest
  cursor : t.cursor = s.cursor
  steps : t.steps = s.steps
  best : BeamSearch.Best cb answer capacities ts b.tokens.length t.candidate
  ahead : BeamSearch.Ahead cb answer capacities ts b.tokens.length

variable {cb answer capacities} {t : BeamSearch.State} {candidate : Branch}

/-- A candidate that is ahead of a start is another completion. -/
theorem answers_of_lt {n : Nat} (hbest : BeamSearch.Best cb answer capacities ts n candidate)
    (hc : candidate.isComplete = true) (hd : BeamSearch.Reaches cb answer capacities d) (hts : d.tokens <+: ts)
    (hle : n ≤ d.tokens.length) (hlt : n < ts.length) (hscore : Double.lt d.score candidate.score = true) :
    Answers cb answer capacities ts candidate := by
  obtain ⟨hcompletion, hlength⟩ := hbest.found hc
  refine ⟨hc, hcompletion.after, iff_of_false ?_ (not_not_intro
    ⟨d, candidate, hd, hts, hcompletion, hlength.trans hle, hscore⟩)⟩
  intro heq
  rw [heq] at hlength
  omega

/-- A step of the search looks at what the branch is expanded to. -/
theorem Abreast.step_returns {rest : List Branch} {o : BeamSearch.Outcome} (h : Abreast cb answer capacities ts s t b)
    (ht : Twins cs cb) (hf : Follows cb answer capacities s b found d) (hrank : Branch.rank found = d :: rest)
    (ho : BeamSearch.Reviews cb (.exactly answer) t (d :: rest) o) :
    (BeamSearch.step cb t).ReturnsWith (.exactly answer) o := by
  obtain ⟨others, hothers⟩ := h.frontier
  obtain ⟨predictor, hp, -, he⟩ := hf.expands
  rw [← hrank] at ho
  exact BeamSearch.step_returns_iff.2 (.inr (.inl ⟨found,
    BeamSearch.generates_of_expand ht.narrow hothers (h.cursor ▸ hp) he (List.ne_nil_of_mem hf.mem),
    BeamSearch.review_of_reviews ho⟩))

/-- **Where the run samples the end**, the search has a complete branch as the best child and stops. -/
theorem exists_answers_of_sampled (hplain : Plain answer) (ht : Twins cs cb)
    (hr : BeamSearch.Resolves cb answer capacities ts) (h : Abreast cb answer capacities ts s t b)
    (hvb : b.last = .vb → cb.grammar.allows .vb .eom = false)
    (hi : Sampler.Iterates cs (.exactly answer) s (.stop v .sampled)) (hv : v.tokens = ts) :
    ∃ result ending, (BeamSearch.step cb t).ReturnsWith (.exactly answer) (.stop result ending) ∧
      Answers cb answer capacities ts result := by
  have hb := h.inStep.reached
  have htokens : ts = b.tokens ++ [.eom] := by
    rw [← hv, Sampler.tokens_of_sampled hplain ht.guided hi, h.inStep.tokens]
  have hbts : b.tokens <+: ts := htokens ▸ List.prefix_append _ _
  have hlength : ts.length = b.tokens.length + 1 := by rw [htokens, List.length_append, List.length_singleton]
  have hne : b.tokens ≠ ts := fun heq => by rw [heq] at hlength; omega
  obtain ⟨found, d, hf, hd⟩ := complete_of_iterates hplain ht h.inStep hvb (hr b hb hbts hne).2 hi
  obtain ⟨rest, hrank⟩ := hf.first
  obtain ⟨predictor, -, he⟩ := hf.expands
  have hdts : d.tokens = ts := by rw [htokens, hf.tokens_eq, BeamSearch.isComplete_iff.1 hd]
  have hd_reached := hf.reached hb
  have hd_length : d.tokens.length = b.tokens.length + 1 := (congrArg List.length hdts).trans hlength
  have hsound := hplain.isTimewarpInvalid d.tokens
  by_cases hlt : t.candidate.isComplete = true ∧ Double.lt d.score t.candidate.score = true
  · exact ⟨_, _, h.step_returns ht hf hrank (.candidateBetter hd hsound hlt.1 hlt.2),
      answers_of_lt h.best hlt.1 hd_reached (hdts ▸ List.prefix_refl _) (by omega) (by omega) hlt.2⟩
  · have hnlt : t.candidate.isComplete = true → Double.lt d.score t.candidate.score = false :=
      fun hc => Bool.eq_false_iff.2 fun hlt' => hlt ⟨hc, hlt'⟩
    have hahead := h.ahead.next hd_reached (hdts ▸ List.prefix_refl _) hd_length fun e hcompletion hle => by
      rcases Nat.le_or_eq_of_le_succ hle with hle | heq
      · exact h.best.not_lt hnlt e hcompletion hle
      · rw [hcompletion.eq_of_isComplete hb hbts he hf.mem hd heq]
        exact Double.lt_irrefl _
    refine ⟨d, _, h.step_returns ht hf hrank (.bestComplete hd hsound hnlt), hd, hdts ▸ List.dropLast_prefix _,
      iff_of_true hdts ?_⟩
    rw [BeamSearch.outscored_iff_not_ahead, hlength]
    exact not_not_intro hahead

/-- **Where the run goes on**, the search goes on as well, or stops with a candidate that is ahead. -/
theorem abreast_or_answers_of_iterates (hplain : Plain answer) (ht : Twins cs cb)
    (hr : BeamSearch.Resolves cb answer capacities ts) (h : Abreast cb answer capacities ts s t b)
    (hvb : b.last = .vb → cb.grammar.allows .vb .eom = false) (hi : Sampler.Iterates cs (.exactly answer) s (.next v))
    (hts : v.tokens <+: ts) (hlt : v.tokens.length < ts.length) :
    (∃ t' d, (BeamSearch.step cb t).ReturnsWith (.exactly answer) (.next t') ∧
      Abreast cb answer capacities ts v t' d) ∨
    ∃ result ending, (BeamSearch.step cb t).ReturnsWith (.exactly answer) (.stop result ending) ∧
      Answers cb answer capacities ts result := by
  have hb := h.inStep.reached
  obtain ⟨-, x, hx⟩ := Sampler.append_of_iterates hplain h.inStep.untouched hi
  rw [h.inStep.tokens] at hx
  have hbts : b.tokens <+: ts := (List.prefix_append _ _).trans (hx ▸ hts)
  have hne : b.tokens ≠ ts := by
    rintro rfl
    rw [hx, List.length_append] at hlt
    omega
  obtain ⟨found, d, hf, hd, hv, hsteps⟩ := inStep_of_iterates hplain ht h.inStep hvb (hr b hb hbts hne).2 hi
  obtain ⟨rest, hrank⟩ := hf.first
  obtain ⟨predictor, -, he⟩ := hf.expands
  rw [hv.tokens] at hts hlt
  have hlength := (he.child hf.mem).length_eq
  have hfinite := (hr d hv.reached hts fun heq => by rw [heq] at hlt; omega).1
  have hopen : BeamSearch.isOpen d = true := by rw [BeamSearch.isOpen, hd, hfinite]; rfl
  have hmem : ∀ e, e ∈ (d :: rest).filter BeamSearch.isFinished ↔ e ∈ found ∧ BeamSearch.isFinished e = true := by
    intro e
    rw [List.mem_filter, ← hrank, BeamSearch.mem_rank]
  obtain ⟨result, himprove, himproves⟩ := BeamSearch.exists_improves hplain (fun hc => (h.best.found hc).1.finite)
    ((hrank ▸ BeamSearch.ranked_rank found).sublist List.filter_sublist)
    fun e he' => ⟨((hmem e).1 he').2, (he.child ((hmem e).1 he').1).getLast?⟩
  have hbest := BeamSearch.best_of_improves h.best hb hbts he hmem himproves fun e _ =>
    hplain.hasSoundTimewarp e.tokens
  have hstep := h.step_returns ht hf hrank (.settled (.opened hd) himprove rfl)
  rw [BeamSearch.settle_of_isOpen (h.steps ▸ hf.inQuota) hopen] at hstep
  split at hstep
  · rename_i hscore
    rw [Bool.and_eq_true] at hscore
    exact .inr ⟨_, _, hstep, answers_of_lt hbest hscore.1 hv.reached hts (by omega) (by omega) hscore.2⟩
  · rename_i hno
    refine .inl ⟨_, d, hstep, hv, ⟨_, rfl⟩, ?_, ?_, hlength ▸ hbest, hlength ▸ ?_⟩
    · rw [hv.cursor, h.cursor, h.inStep.cursor]
      exact Cursor.fit_start (by omega)
    · rw [hsteps, h.steps]
    · refine h.ahead.next hv.reached hts hlength (hbest.not_lt fun hc => ?_)
      simpa [hc] using hno

/-- A search that has come as far as a run ends as it should. -/
theorem exists_answers_of_passes (hplain : Plain answer) (ht : Twins cs cb)
    (hr : BeamSearch.Resolves cb answer capacities ts)
    (hvb : .vb ∈ ts → cb.grammar.allows .vb .eom = false) (hpasses : Sampler.Passes cs (.exactly answer) s v)
    (hi : Sampler.Iterates cs (.exactly answer) v (.stop w .sampled)) (hw : w.tokens = ts)
    (h : Abreast cb answer capacities ts s t b) :
    ∃ result ending, (BeamSearch.iterate cb t).ReturnsWith (.exactly answer) (.ok (result, ending)) ∧
      Answers cb answer capacities ts result := by
  have htokens : ts = v.tokens ++ [.eom] := hw ▸ Sampler.tokens_of_sampled hplain ht.guided hi
  have hvoice : ∀ {s t b}, Sampler.Passes cs (.exactly answer) s v → Abreast cb answer capacities ts s t b →
      b.last = .vb → cb.grammar.allows .vb .eom = false := by
    intro s t b hpasses h hlast
    refine hvb (((Sampler.prefix_of_passes hplain h.inStep.untouched hpasses).trans ?_).subset ?_)
    · exact htokens ▸ List.prefix_append _ _
    · exact hlast ▸ List.mem_of_getLast? h.inStep.getLast?
  induction hpasses using Relation.ReflTransGen.head_induction_on generalizing t b with
  | refl =>
    obtain ⟨result, ending, hstep, hresult⟩ := exists_answers_of_sampled hplain ht hr h (hvoice .refl h) hi hw
    exact ⟨result, ending, BeamSearch.iterate_returns.2 (.inl ⟨_, _, hstep, rfl⟩), hresult⟩
  | @head s u hu hpasses ih =>
    have hiter := Sampler.step_returns hu
    obtain ⟨huntouched, -⟩ := Sampler.append_of_iterates hplain h.inStep.untouched hiter
    have hprefix := Sampler.prefix_of_passes hplain huntouched hpasses
    have hts : u.tokens <+: ts := hprefix.trans (htokens ▸ List.prefix_append _ _)
    have hlt : u.tokens.length < ts.length := by
      rw [htokens, List.length_append, List.length_singleton]
      exact Nat.lt_succ_of_le hprefix.length_le
    rcases abreast_or_answers_of_iterates hplain ht hr h (hvoice (.head hu hpasses) h) hiter hts hlt with
      ⟨t', d, hstep, hd⟩ | ⟨result, ending, hstep, hresult⟩
    · obtain ⟨result, ending, hrest, hresult⟩ := ih hd
      exact ⟨result, ending, BeamSearch.iterate_returns.2 (.inr (.inr ⟨t', hstep, hrest⟩)), hresult⟩
    · exact ⟨result, ending, BeamSearch.iterate_returns.2 (.inl ⟨_, _, hstep, rfl⟩), hresult⟩

/-- Both begin with the same sequence. -/
theorem abreast_initialState (ht : Twins cs cb) (random : Random) (hts : cb.options.start <+: ts) :
    Abreast cb answer capacities ts (Sampler.initialState cs capacities none random)
      (BeamSearch.initialState cb capacities) (BeamSearch.root cb) := by
  have hguide : cs.initialGuide = cb.initialGuide :=
    congrArg (fun o : RunOptions => Guide.initial o.staffLimit) ht.options
  refine ⟨⟨.root, Sampler.untouched_initialState .., ?_, ?_, ?_, Nat.le_refl _⟩, ⟨[], rfl⟩, ?_, rfl,
    BeamSearch.best_root hts, BeamSearch.ahead_root⟩
  · exact congrArg RunOptions.start ht.options
  · simp only [Sampler.initialState, ht.options]
    rfl
  · exact hguide.trans (ite_self _).symm
  · simp only [Sampler.initialState, ht.options]
    rfl

/-- **Greedy sampling and a beam of width one.** If a run samples the end, the search returns a completion along the
sequence that was sampled, and the sequence itself exactly if no completion that the search passes scores higher than a
start that is as long, or longer. -/
theorem tokens_of_search_iff {random : Random} {r : Sampler.Run} (hplain : Plain answer) (ht : Twins cs cb)
    (h : (Sampler.sample cs capacities none random).ReturnsWith (.exactly answer) r) (hend : r.ending = .sampled)
    (hvb : .vb ∈ r.tokens → cb.grammar.allows .vb .eom = false)
    (hr : BeamSearch.Resolves cb answer capacities r.tokens) :
    ∃ b ending, (BeamSearch.search cb capacities).ReturnsWith (.exactly answer) (.ok (b, ending)) ∧
      b.isComplete = true ∧ b.tokens.dropLast <+: r.tokens ∧
      (b.tokens = r.tokens ↔ ¬ BeamSearch.Outscored cb answer capacities r.tokens) := by
  obtain ⟨u, hu⟩ := (Sampler.sample_returns_iff_ends (by simp [hend])).1 h
  obtain ⟨v, hv, htokens⟩ := hu.iterates
  rw [hend] at hv
  have hstart : cb.options.start <+: r.tokens := by
    rw [htokens, Sampler.tokens_of_sampled hplain ht.guided hv, ← ht.options]
    exact (Sampler.prefix_of_passes hplain (Sampler.untouched_initialState ..) hu.passes).trans (List.prefix_append _ _)
  have habreast : Abreast cb answer capacities r.tokens _ _ _ := abreast_initialState ht random hstart
  obtain ⟨b, ending, hb, hresult⟩ := exists_answers_of_passes hplain ht hr hvb hu.passes hv htokens.symm habreast
  obtain ⟨generated, hruns⟩ := BeamSearch.runs_of_iterate hb
  refine ⟨b, ending, BeamSearch.search_returns_iff.2 ⟨generated, ?_, hruns⟩, hresult.complete, hresult.after,
    hresult.tokens_eq_iff⟩
  exact habreast.cursor ▸ hu.fits

/-! ## Runs and searches that differ -/

/-- What a run and a search are given to do: a predictor prefers one token to all others. -/
structure Scenario where
  sentences : List (List Token)
  options : RunOptions := {}
  stepAward : Float := 0.04
  preferred : Token

namespace Scenario

variable (x : Scenario)

/-- The two functions on what the scores below need: the exponentials of 0 and −1, and the logarithms of 1, of 1 + 1/e
and of 2. -/
def elementary : BeamSearch.Elementary where
  exp v := if v < 0 then 0.36787944117144233 else 1
  log v := if v ≤ 1 then 0 else if v < 1.5 then 0.31326168751822286 else 0.6931471805599453

/-- Guided sampling without a temperature. -/
def sampler : Sampler.Setting where
  grammar := .ofSentences x.sentences
  options := { x.options with temperature := 0 }

/-- A search with one branch. -/
def search : BeamSearch.Setting where
  grammar := .ofSentences x.sentences
  options := { x.options with stepAward := x.stepAward }
  elementary

/-- The predictor, beside a validator with plain reports. -/
def answers : (q : Query) → q.Answer
  | .predict .. => .ok (Token.all.map fun t => if t = x.preferred then 1 else 0).toArray
  | .parse _ => .ok {}

theorem plain : Plain x.answers := fun _ => ⟨{}, rfl, rfl⟩

theorem twins : Twins x.sampler x.search :=
  have hcold : ¬ 0 < (0 : Float) := by decide
  ⟨rfl, rfl, hcold, rfl, rfl, rfl, rfl⟩

/-- The run samples a sequence to its end. -/
def Samples (ts : List Token) : Prop :=
  ∃ r, (Sampler.sample x.sampler [64] none (.ofSeed 1)).ReturnsWith (.exactly x.answers) r ∧ r.ending = .sampled ∧
    r.tokens = ts

/-- The search finds a sequence. -/
def Finds (ts : List Token) : Prop :=
  ∃ b ending, (BeamSearch.search x.search [64]).ReturnsWith (.exactly x.answers) (.ok (b, ending)) ∧ b.tokens = ts

variable {x} {n : Nat} {ts : List Token}

theorem samples_of_runWithin
    (hfits : (Sampler.initialState x.sampler [64] none (.ofSeed 1)).cursor.current?.isSome = true)
    (h : (Sampler.runWithin x.sampler x.answers n (Sampler.initialState x.sampler [64] none (.ofSeed 1))).map
      (fun r => (r.1.tokens, r.2)) = some (ts, .sampled)) : x.Samples ts := by
  obtain ⟨⟨t, ending⟩, hr, he⟩ := Option.map_eq_some_iff.1 h
  obtain ⟨rfl, rfl⟩ := Prod.mk.inj he
  exact ⟨_, Sampler.sample_of_runWithin (K := .exactly x.answers) (fun _ => rfl) hfits hr, rfl, rfl⟩

theorem finds_of_runWithin (hfits : (BeamSearch.initialState x.search [64]).cursor.current?.isSome = true)
    (h : (BeamSearch.runWithin x.search x.answers n (BeamSearch.initialState x.search [64])).map (·.2.1.tokens) =
      some ts) : x.Finds ts := by
  obtain ⟨⟨generated, b, ending⟩, hb, rfl⟩ := Option.map_eq_some_iff.1 h
  exact ⟨b, ending, BeamSearch.search_returns_iff.2 ⟨generated, hfits, BeamSearch.runs_of_runWithin (fun _ => rfl) hb⟩,
    rfl⟩

/-- A search finds one sequence only. -/
theorem Finds.unique {us : List Token} (h : x.Finds ts) (h' : x.Finds us) : ts = us := by
  obtain ⟨b, _, hb, rfl⟩ := h
  obtain ⟨d, _, hd, rfl⟩ := h'
  obtain ⟨rfl, -⟩ := Prod.mk.inj (Except.ok.inj (hb.unique hd))
  rfl

variable (x) in
/-- The run samples a sequence, and the search, with the same to do, finds another one. -/
structure Differs (ts us : List Token) : Prop where
  plain : Plain x.answers
  twins : Twins x.sampler x.search
  samples : x.Samples ts
  finds : x.Finds us
  not_finds : ¬ x.Finds ts

theorem differs_of_finds {us : List Token} (hs : x.Samples ts) (hf : x.Finds us) (hne : us ≠ ts) : x.Differs ts us :=
  ⟨x.plain, x.twins, hs, hf, fun h => hne (hf.unique h)⟩

end Scenario

/-- A completion is passed on the way, but it scores less than all that follows. -/
def passedEnd : Scenario where
  sentences := [[.bom, .pitchC, .eom], [.bom, .pitchC, .d4, .eom]]
  preferred := .d4

/-- The search passes a completion, and finds the sequence that is sampled nevertheless. -/
theorem tokens_of_search_iff_passedEnd :
    passedEnd.Samples [.bom, .pitchC, .d4, .eom] ∧
      BeamSearch.Resolves passedEnd.search passedEnd.answers [64] [.bom, .pitchC, .d4, .eom] ∧
      passedEnd.Finds [.bom, .pitchC, .d4, .eom] ∧
      ¬ BeamSearch.Outscored passedEnd.search passedEnd.answers [64] [.bom, .pitchC, .d4, .eom] := by
  have hsamples : passedEnd.Samples [.bom, .pitchC, .d4, .eom] :=
    Scenario.samples_of_runWithin (n := 4) (by decide +kernel) (by decide +kernel)
  have hfinds : passedEnd.Finds [.bom, .pitchC, .d4, .eom] :=
    Scenario.finds_of_runWithin (n := 4) (by decide +kernel) (by decide +kernel)
  have hresolves : BeamSearch.Resolves passedEnd.search passedEnd.answers [64] ([.bom] ++ [.pitchC, .d4, .eom]) :=
    BeamSearch.resolves_of_resolvesFrom (by decide +kernel)
  obtain ⟨r, hr, hend, htokens⟩ := hsamples
  obtain ⟨b, ending, hb, -, -, hiff⟩ := tokens_of_search_iff passedEnd.plain passedEnd.twins hr hend
    (by rw [htokens]; decide) (htokens ▸ hresolves)
  rw [htokens] at hiff
  exact ⟨⟨r, hr, hend, htokens⟩, hresolves, hfinds, hiff.1 (Scenario.Finds.unique ⟨b, ending, hb, rfl⟩ hfinds)⟩

/-- A completion is passed that scores more than what follows it: each of the two notes is one of two. -/
def earlyEnd : Scenario where
  sentences := [[.bom, .pitchC, .eom], [.bom, .pitchC, .d4, .pitchE, .d8, .eom],
    [.bom, .pitchC, .d4, .pitchF, .d16, .eom], [.pitchE, .d16]]
  preferred := .d4

/-- The measure may end after a voice break, and a staff above the limit is preferred there. -/
def staffAfterBreak : Scenario where
  sentences := [[.bom, .pitchC, .d4, .vb, .s2, .pitchD, .d8, .eom], [.vb, .eom]]
  options := { staffLimit := some 1 }
  preferred := .s2

/-- The award is so large that all scores are rounded to one. -/
def coarseScores : Scenario where
  sentences := [[.bom, .pitchC, .eom], [.bom, .pitchD, .eom]]
  stepAward := 1e18
  preferred := .pitchD

/-- The award is so large that the second score is infinite. -/
def infiniteScores : Scenario where
  sentences := [[.bom, .pitchC, .d4, .eom]]
  stepAward := 1e308
  preferred := .d4

/-- **A search need not find what is sampled**: it may end with an earlier completion, admit other tokens after a voice
break, rank children of one score by their ids, and drop a branch without a finite score. -/
theorem differs_of_scenarios :
    earlyEnd.Differs [.bom, .pitchC, .d4, .pitchE, .d8, .eom] [.bom, .pitchC, .eom] ∧
      staffAfterBreak.Differs [.bom, .pitchC, .d4, .vb, .s2, .pitchD, .d8, .eom] [.bom, .pitchC, .d4, .vb, .eom] ∧
      coarseScores.Differs [.bom, .pitchD, .eom] [.bom, .pitchC, .eom] ∧
      infiniteScores.Differs [.bom, .pitchC, .d4, .eom] [.bom] := by
  have hearly : earlyEnd.Finds [.bom, .pitchC, .eom] :=
    Scenario.finds_of_runWithin (n := 6) (by decide +kernel) (by decide +kernel)
  have hbreak : staffAfterBreak.Finds [.bom, .pitchC, .d4, .vb, .eom] :=
    Scenario.finds_of_runWithin (n := 8) (by decide +kernel) (by decide +kernel)
  have hcoarse : coarseScores.Finds [.bom, .pitchC, .eom] :=
    Scenario.finds_of_runWithin (n := 4) (by decide +kernel) (by decide +kernel)
  have hinfinite : infiniteScores.Finds [.bom] :=
    Scenario.finds_of_runWithin (n := 4) (by decide +kernel) (by decide +kernel)
  refine ⟨Scenario.differs_of_finds ?_ hearly (by decide), Scenario.differs_of_finds ?_ hbreak (by decide),
    Scenario.differs_of_finds ?_ hcoarse (by decide), Scenario.differs_of_finds ?_ hinfinite (by decide)⟩
  · exact Scenario.samples_of_runWithin (n := 6) (by decide +kernel) (by decide +kernel)
  · exact Scenario.samples_of_runWithin (n := 8) (by decide +kernel) (by decide +kernel)
  · exact Scenario.samples_of_runWithin (n := 4) (by decide +kernel) (by decide +kernel)
  · exact Scenario.samples_of_runWithin (n := 4) (by decide +kernel) (by decide +kernel)

end ScoreDecoding
