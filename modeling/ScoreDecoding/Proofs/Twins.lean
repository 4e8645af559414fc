import ScoreDecoding.Proofs.Reach
import ScoreDecoding.Proofs.Trajectory

/-!
# A greedy run and the branches of a search

Guided sampling without a temperature takes the greatest logit, and a beam of width one goes on with the best child of
its branch. With the same to do and plain reports of the validator both admit the same tokens, and where rounding keeps
the greatest logit on top both make the same choice.

- `Plain` answers report nothing, so that sampling never changes what it has written (`Sampler.append_of_iterates`);
- `Twins` are the settings of a run and a search with the same to do;
- `InStep` relates a state to a branch that admits the same tokens (`exists_corresponds`);
- `exists_best_child`: the token that is drawn makes the best child, and an iteration that goes on leads to it
  (`inStep_of_iterates`).
-/

namespace ScoreDecoding

/-- Each text is answered with a measure, and nothing is reported of its tail. -/
def Plain (answer : (q : Query) → q.Answer) : Prop :=
  ∀ text, ∃ m, answer (.parse text) = .ok m ∧ m.tail = {}

/-- A run that takes the greatest logits and a search with one branch that are to do the same, each without the checks
that the other one does not make. -/
structure Twins (cs : Sampler.Setting) (cb : BeamSearch.Setting) : Prop where
  grammar : cs.grammar = cb.grammar
  options : cs.options.toRunOptions = cb.options.toRunOptions
  cold : ¬ 0 < cs.options.temperature
  guided : cs.options.parserGuide = true
  narrow : cb.options.width = 1
  anyPitch : cb.options.limitPitch = false
  anyHeads : cb.options.forbidCollisions = false

variable {cs : Sampler.Setting} {cb : BeamSearch.Setting} {answer : (q : Query) → q.Answer} {capacities : List Nat}

theorem Plain.isTimewarpInvalid (h : Plain answer) (ts : List Token) :
    (Validation.isTimewarpInvalid ts).ReturnsWith (.exactly answer) (.ok false) := by
  obtain ⟨m, hm, ht⟩ := h (Validation.endedText ts)
  exact Validation.isTimewarpInvalid_returns_ok.2 ⟨m, hm.symm, by rw [ht]⟩

theorem Plain.tail_eq (h : Plain answer) {text : String} {m : Measure}
    (hm : Collaborators.exactly answer (.parse text) (.ok m)) : m.tail = {} := by
  obtain ⟨n, hn, ht⟩ := h text
  obtain rfl := Except.ok.inj (hm.trans hn)
  exact ht

theorem Plain.hasSoundTimewarp (h : Plain answer) (ts : List Token) :
    Validation.HasSoundTimewarp (fun text => answer (.parse text)) ts := by
  obtain ⟨m, hm, ht⟩ := h (Token.code ts none)
  exact ⟨m, hm, by rw [ht]⟩

/-! ## Sampling with plain reports -/

namespace Sampler

/-- A state that no report has changed. -/
structure Untouched (s : State) : Prop where
  voiceGuide : s.voiceGuide = .full
  masker : s.masker = none
  status : s.status.getD {} = {}

/-- A state that takes a token, and what it leads to if that does not end the measure. -/
structure Takes (c : Setting) (s : State) (t : Token) (v : State) : Prop where
  untouched : Untouched v
  tokens : v.tokens = s.tokens ++ [t]
  cursor : v.cursor = s.cursor.fit (c.options.descriptors.length + (s.tokens.length + 1))
  guide : v.guide = if t = .vb then c.initialGuide else s.guide
  depth : v.depth = s.depth
  steps : v.steps = s.steps + 1

variable {c : Setting} {s u v w : State} {t : Token} {predictor : Nat} {row : TokenSet}

theorem untouched_initialState (c : Setting) (capacities : List Nat) (random : Random) :
    Untouched (initialState c capacities none random) := ⟨rfl, rfl, rfl⟩

theorem Untouched.any_status (h : Untouched s) {p : TailStatus → Bool} (hp : p {} = false) :
    s.status.any p = false := by
  have hs := h.status
  cases hstatus : s.status with
  | none => rfl
  | some status =>
    rw [hstatus, Option.getD_some] at hs
    rw [hs, Option.any_some, hp]

theorem Untouched.tidyBeams (h : Untouched s) (ts : List Token) : Repair.tidyBeams s.status ts = ts :=
  Repair.tidyBeams_of_closed (h.any_status rfl)

theorem takes_push (hs : Untouched s) (hd : Draws c (.exactly answer) s predictor row t w) (ht : t ≠ .vb) :
    Takes c s t (push c w t) := by
  obtain ⟨-, -, -⟩ := hd
  exact ⟨⟨hs.voiceGuide, by simp [push, countStep, hs.masker], hs.status⟩, rfl, by simp [push, countStep],
    (if_neg ht).symm, rfl, rfl⟩

theorem takes_endVoice (hs : Untouched s) (hd : Draws c (.exactly answer) s predictor row .vb w) :
    Takes c s .vb (resetGuides c (tidy (push c w .vb))) := by
  have htokens : (tidy (push c w .vb)).tokens = s.tokens ++ [.vb] := by
    rw [tokens_tidy_push (.inl rfl) hd]
    obtain ⟨-, -, -⟩ := hd
    exact congrArg (· ++ [Token.vb]) (hs.tidyBeams s.tokens)
  obtain ⟨-, -, -⟩ := hd
  exact ⟨⟨rfl, by simp [resetGuides, tidy, push, countStep, hs.masker], hs.status⟩, htokens,
    by simp [resetGuides, tidy, push, countStep], rfl, rfl, rfl⟩

/-- With plain reports the validator changes nothing. -/
theorem untouched_of_consults (hplain : Plain answer) (hs : Untouched s) {last : Token}
    (h : Consults c (.exactly answer) s last row (.ok u)) : Untouched u := by
  cases h with
  | unguided => exact hs
  | followed _ _ hm =>
    rw [hplain.tail_eq hm]
    exact ⟨hs.voiceGuide, hs.masker, rfl⟩
  | deepened =>
    obtain ⟨guide, hguide⟩ := guardDivisions_eq (deepen s) row
    rw [hguide]
    exact ⟨hs.voiceGuide, hs.masker, hs.status⟩

/-- With plain reports no token is taken back. -/
theorem takes_of_extends (hplain : Plain answer) (hs : Untouched s)
    (h : Extends c (.exactly answer) s predictor row (.next v)) :
    ∃ t w, Draws c (.exactly answer) s predictor row t w ∧ t ≠ .eom ∧ Takes c s t v := by
  cases h with
  | @pushed t w hd _ hv he => exact ⟨t, w, hd, he, takes_push hs hd hv⟩
  | backtracked hd ht hi => cases (hplain.isTimewarpInvalid _).unique hi
  | voiceEnded hd => exact ⟨.vb, _, hd, nofun, takes_endVoice hs hd⟩

/-- So the sequence only grows, by one token at a time. -/
theorem append_of_iterates (hplain : Plain answer) (hs : Untouched s)
    (h : Iterates c (.exactly answer) s (.next v)) : Untouched v ∧ ∃ t, v.tokens = s.tokens ++ [t] := by
  cases h with
  | consulted _ hc =>
    cases hc with
    | takenBack _ _ hm hover =>
      rw [hplain.tail_eq hm] at hover
      cases hover
  | extended _ _ hc he =>
    obtain ⟨t, w, -, -, hv⟩ := takes_of_extends hplain (untouched_of_consults hplain hs hc) he
    exact ⟨hv.untouched, t, tokens_of_consults hc ▸ hv.tokens⟩

theorem prefix_of_passes (hplain : Plain answer) (hs : Untouched s) (h : Passes c (.exactly answer) s v) :
    s.tokens <+: v.tokens := by
  refine (passes_induction (I := fun u => Untouched u ∧ s.tokens <+: u.tokens) (fun u v hu hi => ?_) h
    ⟨hs, List.prefix_refl _⟩).2
  obtain ⟨hv, t, ht⟩ := append_of_iterates hplain hu.1 hi
  exact ⟨hv, ht ▸ hu.2.trans (List.prefix_append _ _)⟩

/-- The sequence that is sampled is the one that the last iteration started with, and the end. -/
theorem tokens_of_sampled (hplain : Plain answer) (hguide : c.options.parserGuide = true)
    (h : Iterates c (.exactly answer) s (.stop v .sampled)) : v.tokens = s.tokens ++ [.eom] := by
  obtain ⟨m, hm, -, -, htokens, -⟩ := sampled_of_iterates hguide h
  rw [htokens, hplain.tail_eq hm]
  exact Repair.tidyBeams_of_closed rfl

end Sampler

/-! ## Consulting -/

/-- A token may be chosen in a state as it may be in a branch with a continuation. -/
structure Corresponds (u : Sampler.State) (k : BeamSearch.Continuation) : Prop where
  untouched : Sampler.Untouched u
  guide : u.guide = k.guide
  depth : k.depth ≤ u.depth

variable (cb answer capacities)

/-- A state and a branch with the same sequence. After the end of a voice the guide of the branch does not count. -/
structure InStep (s : Sampler.State) (b : Branch) : Prop where
  reached : BeamSearch.Reaches cb answer capacities b
  untouched : Sampler.Untouched s
  tokens : s.tokens = b.tokens
  cursor : s.cursor = Cursor.start capacities (cb.options.descriptors.length + b.tokens.length)
  guide : s.guide = if b.last = .vb then cb.initialGuide else b.guide
  depth : b.depth ≤ s.depth

variable {cb answer capacities} {s u v w : Sampler.State} {b d : Branch} {k : BeamSearch.Continuation} {predictor : Nat}
  {x : Token} {found : List Branch}

/-- Where both ask the validator, it reports the same, and otherwise a state is no less deep. A voice break after which
the measure may end is one where only sampling asks. -/
theorem exists_corresponds (hplain : Plain answer) (ht : Twins cs cb) (h : InStep cb answer capacities s b)
    (hvb : b.last = .vb → cb.grammar.allows .vb .eom = false)
    (hc : Sampler.Consults cs (.exactly answer) s b.last (cs.grammar.row b.last) (.ok u)) :
    ∃ k, BeamSearch.Continues cb (.exactly answer) b k ∧ Corresponds u k := by
  have hu := Sampler.untouched_of_consults hplain h.untouched hc
  cases hc with
  | unguided hno =>
    rw [ht.guided] at hno
    cases hno
  | @followed m _ hend hm =>
    have hallows : cb.grammar.allows b.last .eom = true := ht.grammar ▸ hend
    have hlast : b.last ≠ .vb := by
      intro hv
      rw [hv, hvb hv] at hallows
      cases hallows
    have htail := hplain.tail_eq hm
    rw [h.tokens] at hm
    refine ⟨⟨Guide.ofStatus {}, 0⟩, .judged hlast hallows hm ?_, ?_⟩
    · simp [BeamSearch.guideOf?, BeamSearch.leavesWindow, BeamSearch.mustFill, htail, ht.anyPitch, ht.anyHeads,
        TailStatus.isOverflowing, TailStatus.isPartial]
    · refine ⟨hu, ?_, Nat.le_refl _⟩
      simp [Sampler.follow, Sampler.mustFill, htail, TailStatus.isPartial]
  | deepened _ hno hdepth =>
    have hallows : cb.grammar.allows b.last .eom = false := by
      rw [← ht.grammar, Bool.eq_false_iff]
      exact hno
    have hguard : Sampler.guardDivisions (Sampler.deepen s) (cs.grammar.row b.last) = Sampler.deepen s := by
      have hstatus : (Sampler.deepen s).status.any (·.incompleteTimeWarping) = false := h.untouched.any_status rfl
      rw [Sampler.guardDivisions, hstatus, Bool.false_and, if_neg Bool.false_ne_true]
    have hguide := h.guide
    rw [hguard] at hu ⊢
    by_cases hv : b.last = .vb
    · rw [if_pos hv] at hguide
      exact ⟨_, .voiceStarted hv (hplain.isTimewarpInvalid _), hu, hguide, Nat.le_succ_of_le h.depth⟩
    · rw [if_neg hv] at hguide
      exact ⟨_, .deepened hv hallows (by have := h.depth; omega) (by rw [ht.anyPitch, Bool.false_and]),
        hu, hguide, Nat.succ_le_succ h.depth⟩

/-- The same tokens are admitted. -/
theorem Corresponds.mem_admissible (h : Corresponds u k) (ht : Twins cs cb) {row : TokenSet} {t : Token} :
    t ∈ Sampler.admissible cs u row ↔ t ∈ BeamSearch.admissible cb row k := by
  rw [Sampler.mem_admissible, BeamSearch.mem_admissible, Sampler.mem_permitted, h.guide, h.untouched.voiceGuide,
    h.untouched.masker, ht.options]
  simp

/-! ## One iteration -/

theorem InStep.getLast? (h : InStep cb answer capacities s b) : s.tokens.getLast? = some b.last := by
  rw [h.tokens, h.reached.descends.getLast?]

variable (cb answer capacities) in
/-- What an iteration that takes a token finds among the children of the branch. -/
structure Follows (s : Sampler.State) (b : Branch) (found : List Branch) (d : Branch) : Prop where
  expands : ∃ predictor, s.cursor.current? = some predictor ∧
    BeamSearch.Expands cb answer capacities b predictor found
  first : ∃ rest, Branch.rank found = d :: rest
  inQuota : s.steps < cb.options.stepQuota

/-- The token that is drawn makes the best child. -/
theorem exists_best_child (hplain : Plain answer) (ht : Twins cs cb) (h : InStep cb answer capacities s b)
    (hvb : b.last = .vb → cb.grammar.allows .vb .eom = false)
    (hranks : BeamSearch.FavorsGreatest cb answer capacities b) (hp : s.cursor.current? = some predictor)
    (hc : Sampler.Consults cs (.exactly answer) s b.last (cs.grammar.row b.last) (.ok u))
    (hd : Sampler.Draws cs (.exactly answer) u predictor (cs.grammar.row b.last) x w) :
    ∃ found d, Follows cb answer capacities s b found d ∧ d.last = x ∧ d.guide = u.guide ∧ d.depth ≤ u.depth := by
  obtain ⟨k, hk, hu⟩ := exists_corresponds hplain ht h hvb hc
  obtain ⟨hl, hquota, hchoose⟩ := hd
  rw [Sampler.tokens_of_consults hc, h.tokens, ht.options] at hl
  rw [Sampler.steps_of_consults hc, ht.options] at hquota
  rw [Sampler.choose, if_neg ht.cold, Option.map_eq_some_iff] at hchoose
  obtain ⟨i, hi, heq⟩ := hchoose
  obtain ⟨rfl, -⟩ := Prod.mk.inj heq
  obtain ⟨hx, l, hlogit, hfinite, hgreatest⟩ := Sampler.greatest_of_argmax ht.cold hi
  simp only [hu.mem_admissible ht, ht.grammar] at hx hgreatest
  have hexpands : BeamSearch.Expands cb answer capacities b predictor _ :=
    ⟨h.cursor ▸ hp, BeamSearch.expand_returns.2 (.inr ⟨k, _, hk, hl, rfl⟩)⟩
  obtain ⟨d, rest, hrank, hlast, hguide, hdepth⟩ := BeamSearch.exists_rank_children
    h.reached.score_ne (BeamSearch.mem_admitted.2 ⟨hx, hlogit, hfinite⟩) (hranks _ _ _ hexpands hl.symm) hgreatest
  exact ⟨_, d, ⟨⟨predictor, hp, hexpands⟩, ⟨rest, hrank⟩, hquota⟩, hlast, hguide.trans hu.guide.symm,
    hdepth.trans_le hu.depth⟩

theorem Follows.mem (h : Follows cb answer capacities s b found d) : d ∈ found := by
  obtain ⟨rest, hrest⟩ := h.first
  rw [← BeamSearch.mem_rank, hrest]
  exact List.mem_cons_self

theorem Follows.reached (h : Follows cb answer capacities s b found d)
    (hb : BeamSearch.Reaches cb answer capacities b) : BeamSearch.Reaches cb answer capacities d := by
  obtain ⟨predictor, -, he⟩ := h.expands
  exact .child hb he h.mem

theorem Follows.tokens_eq (h : Follows cb answer capacities s b found d) : d.tokens = b.tokens ++ [d.last] := by
  obtain ⟨predictor, -, he⟩ := h.expands
  exact (he.child h.mem).tokens_eq

/-- **An iteration that goes on leads to the best child**, which is open. -/
theorem inStep_of_iterates (hplain : Plain answer) (ht : Twins cs cb) (h : InStep cb answer capacities s b)
    (hvb : b.last = .vb → cb.grammar.allows .vb .eom = false)
    (hranks : BeamSearch.FavorsGreatest cb answer capacities b)
    (hi : Sampler.Iterates cs (.exactly answer) s (.next v)) :
    ∃ found d, Follows cb answer capacities s b found d ∧ d.isComplete = false ∧ InStep cb answer capacities v d ∧
      v.steps = s.steps + 1 := by
  cases hi with
  | consulted _ hc =>
    cases hc with
    | takenBack _ _ hm hover =>
      rw [hplain.tail_eq hm] at hover
      cases hover
  | extended hp hl hc he =>
    obtain rfl := Option.some.inj (h.getLast?.symm.trans hl)
    obtain ⟨x, w, hd, hx, hv⟩ :=
      Sampler.takes_of_extends hplain (Sampler.untouched_of_consults hplain h.untouched hc) he
    obtain ⟨found, d, hf, rfl, hguide, hdepth⟩ := exists_best_child hplain ht h hvb hranks hp hc hd
    refine ⟨found, d, hf, beq_eq_false_iff_ne.2 hx, ⟨hf.reached h.reached, hv.untouched, ?_, ?_, ?_, ?_⟩, ?_⟩
    · rw [hv.tokens, Sampler.tokens_of_consults hc, h.tokens, hf.tokens_eq]
    · rw [hv.cursor, Sampler.cursor_of_consults hc, Sampler.tokens_of_consults hc, h.tokens, h.cursor, ht.options,
        hf.tokens_eq, List.length_append, List.length_singleton]
      exact Cursor.fit_start (by omega)
    · rw [hv.guide, hguide, Sampler.Setting.initialGuide, ht.options]
      rfl
    · exact hv.depth ▸ hdepth
    · rw [hv.steps, Sampler.steps_of_consults hc]

/-- The end that is sampled makes the best child too. -/
theorem complete_of_iterates (hplain : Plain answer) (ht : Twins cs cb) (h : InStep cb answer capacities s b)
    (hvb : b.last = .vb → cb.grammar.allows .vb .eom = false)
    (hranks : BeamSearch.FavorsGreatest cb answer capacities b)
    (hi : Sampler.Iterates cs (.exactly answer) s (.stop v .sampled)) :
    ∃ found d, Follows cb answer capacities s b found d ∧ d.isComplete = true := by
  cases hi with
  | consulted _ hc => cases hc
  | extended hp hl hc he =>
    obtain rfl := Option.some.inj (h.getLast?.symm.trans hl)
    cases he with
    | sampled hd =>
      obtain ⟨found, d, hf, hlast, -, -⟩ := exists_best_child hplain ht h hvb hranks hp hc hd
      exact ⟨found, d, hf, BeamSearch.isComplete_iff.2 hlast⟩

end ScoreDecoding
