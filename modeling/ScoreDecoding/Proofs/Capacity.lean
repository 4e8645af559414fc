import ScoreDecoding.Proofs.Completions
import ScoreDecoding.Proofs.Frontier
import ScoreDecoding.Proofs.NaturalEnd
import ScoreDecoding.Proofs.Transcript

/-!
# Predictors within their capacities

The place in the list of predictors is fitted when a token is appended, and it only moves on. In guided sampling the
sequence may be cut afterwards, and grows again from there: the predictor in use takes what is shorter as well. In beam
search the place is found for the best branch of a step, which may have ended; all others are as long.

- `Cursor.Takes` is what a place keeps, `takes_start` and `Takes.fit` how it comes to it;
- `Query.Suits` are the questions that may be put at a place, and `withinFrom_append` orders those of a whole run;
- `within_of_decoders` says that both decoders ask within capacities and in order, and where a search has its place.
-/

namespace ScoreDecoding

/-! ## The place in the list of predictors -/

namespace Cursor

variable {capacities : List Nat} {cur : Cursor} {short length i : Nat}

/-- A place in a list of predictors, at which inputs of a length are taken. -/
structure Takes (cur : Cursor) (capacities : List Nat) (length : Nat) : Prop where
  capacities_eq : cur.capacities = capacities.drop cur.passed
  le_capacity : ∀ n, cur.capacities.head? = some n → length ≤ n

theorem takes_start (capacities : List Nat) (length : Nat) : (start capacities length).Takes capacities length := by
  refine ⟨?_, fun n hn => capacity_skipSmall hn⟩
  obtain ⟨k, hk, hdrop⟩ := capacities_skipSmall length 0 capacities
  rw [Nat.zero_add] at hk
  show (skipSmall length 0 capacities).capacities = capacities.drop (skipSmall length 0 capacities).passed
  rw [hk, hdrop]

theorem passed_le_fit (cur : Cursor) (length : Nat) : cur.passed ≤ (cur.fit length).passed := by
  obtain ⟨k, hk, -⟩ := capacities_skipSmall length cur.passed cur.capacities
  show cur.passed ≤ (skipSmall length cur.passed cur.capacities).passed
  omega

/-- Moving on leads to a place at which the new length is taken. -/
theorem Takes.fit (h : cur.Takes capacities short) (length : Nat) : (cur.fit length).Takes capacities length := by
  refine ⟨?_, fun n hn => capacity_fit hn⟩
  obtain ⟨k, hk, hdrop⟩ := capacities_skipSmall length cur.passed cur.capacities
  show (skipSmall length cur.passed cur.capacities).capacities =
    capacities.drop (skipSmall length cur.passed cur.capacities).passed
  rw [hk, hdrop, h.capacities_eq, List.drop_drop]

/-- What is shorter is taken as well. -/
theorem Takes.mono (h : cur.Takes capacities length) (hle : short ≤ length) : cur.Takes capacities short :=
  ⟨h.capacities_eq, fun n hn => hle.trans (h.le_capacity n hn)⟩

/-- The predictor in use is the one at this place of the list, and takes the length. -/
theorem Takes.current (h : cur.Takes capacities length) (hc : cur.current? = some i) :
    i = cur.passed ∧ ∃ n, capacities[cur.passed]? = some n ∧ length ≤ n := by
  obtain ⟨n, hn, rfl⟩ := Option.map_eq_some_iff.1 hc
  refine ⟨rfl, n, ?_, h.le_capacity n hn⟩
  rw [h.capacities_eq, List.head?_drop] at hn
  exact hn

end Cursor

/-! ## Questions in order -/

/-- A question that may be put where so many predictors were passed over: it is none to another predictor, and the one
that is asked takes its input. -/
inductive Query.Suits (capacities : List Nat) (passed : Nat) : Query → Prop
  | parse {text : String} : Suits capacities passed (.parse text)
  | predict {n : Nat} {descriptors : List Nat} {ts : List Token} : capacities[passed]? = some n →
      descriptors.length + ts.length ≤ n → Suits capacities passed (.predict passed descriptors ts)

/-- Questions to predictors that take their inputs, and none to a predictor before the one that was asked last. -/
structure WithinCapacity (capacities : List Nat) (qs : List Query) : Prop where
  fits : ∀ i descriptors ts, Query.predict i descriptors ts ∈ qs →
    ∃ n, capacities[i]? = some n ∧ descriptors.length + ts.length ≤ n
  ordered : (qs.filterMap Query.predictor?).Pairwise (· ≤ ·)

/-- The same where so many predictors were passed over before. -/
structure WithinFrom (capacities : List Nat) (passed : Nat) (qs : List Query) : Prop extends
    WithinCapacity capacities qs where
  later : ∀ i ∈ qs.filterMap Query.predictor?, passed ≤ i

section Order

variable {capacities : List Nat} {passed later i : Nat} {qs rest : List Query}

theorem eq_of_suits (h : ∀ q ∈ qs, q.Suits capacities passed) (hi : i ∈ qs.filterMap Query.predictor?) :
    i = passed := by
  obtain ⟨q, hq, hqi⟩ := List.mem_filterMap.1 hi
  cases h q hq with
  | parse => cases hqi
  | predict => exact (Option.some.inj hqi).symm

theorem withinFrom_nil (capacities : List Nat) (passed : Nat) : WithinFrom capacities passed [] where
  fits _ _ _ h := nomatch h
  ordered := .nil
  later _ h := nomatch h

/-- Questions at one place come before those at a later one. -/
theorem withinFrom_append (h : ∀ q ∈ qs, q.Suits capacities passed) (hle : passed ≤ later)
    (hrest : WithinFrom capacities later rest) : WithinFrom capacities passed (qs ++ rest) where
  fits i descriptors ts hmem := by
    rcases List.mem_append.1 hmem with hmem | hmem
    · cases h _ hmem with
      | predict hn hlen => exact ⟨_, hn, hlen⟩
    · exact hrest.fits i descriptors ts hmem
  ordered := by
    rw [List.filterMap_append, List.pairwise_append]
    refine ⟨?_, hrest.ordered, ?_⟩
    · apply List.pairwise_of_forall_mem_list
      intro i hi j hj
      rw [eq_of_suits h hi, eq_of_suits h hj]
    · intro i hi j hj
      rw [eq_of_suits h hi]
      exact hle.trans (hrest.later j hj)
  later i hi := by
    rw [List.filterMap_append] at hi
    rcases List.mem_append.1 hi with hi | hi
    · exact (eq_of_suits h hi).ge
    · exact hle.trans (hrest.later i hi)

/-- Questions at one place are in order. -/
theorem withinFrom_of_suits (h : ∀ q ∈ qs, q.Suits capacities passed) : WithinFrom capacities passed qs := by
  have hall := withinFrom_append h (Nat.le_refl passed) (withinFrom_nil capacities passed)
  rwa [List.append_nil] at hall

end Order

namespace Sampler

variable {c : Setting} {K : Collaborators} {s t u : State} {log : List (List Query)} {ending : Ending}
  {last : Token} {row : TokenSet} {predictor : Nat} {capacities : List Nat}

/-! ## Guided sampling -/

variable (c) in
/-- The predictor in use takes the prompt with the sequence. -/
def Fitted (capacities : List Nat) (s : State) : Prop :=
  s.cursor.Takes capacities (c.options.descriptors.length + s.tokens.length)

theorem fitted_initialState (capacities : List Nat) (masker : Option Masker) (random : Random) :
    Fitted c capacities (initialState c capacities masker random) :=
  Cursor.takes_start _ _

theorem Draws.cursor {x : Token} (h : Draws c K s predictor row x u) : u.cursor = s.cursor := by
  obtain ⟨-, -, -⟩ := h
  rfl

/-- Appending a token fits the place to it. -/
theorem fitted_push {x : Token} (hs : Fitted c capacities s) (h : Draws c K s predictor row x u) :
    Fitted c capacities (push c u x) ∧ s.cursor.passed ≤ (push c u x).cursor.passed := by
  rw [← h.cursor]
  refine ⟨?_, Cursor.passed_le_fit _ _⟩
  have hu : u.cursor.Takes capacities (c.options.descriptors.length + s.tokens.length) := by
    rw [h.cursor]
    exact hs
  exact hu.fit _

/-- Cutting the sequence leaves it fitted. -/
theorem Fitted.shorten (hs : Fitted c capacities s) (hcursor : t.cursor = s.cursor)
    (hlen : t.tokens.length ≤ s.tokens.length) : Fitted c capacities t := by
  unfold Fitted
  rw [hcursor]
  exact Cursor.Takes.mono hs (Nat.add_le_add_left hlen _)

theorem fitted_of_extends (hs : Fitted c capacities s) (h : Extends c K s predictor row (.next t)) :
    Fitted c capacities t ∧ s.cursor.passed ≤ t.cursor.passed := by
  cases h with
  | pushed hd => exact fitted_push hs hd
  | @backtracked x w hd =>
    obtain ⟨hfit, hpassed⟩ := fitted_push hs hd
    have hcut := List.length_take_le' (Repair.lastEventStart (tidy (push c w x)).tokens) (tidy (push c w x)).tokens
    exact ⟨hfit.shorten rfl (hcut.trans (length_tidy_le _)), hpassed⟩
  | voiceEnded hd =>
    obtain ⟨hfit, hpassed⟩ := fitted_push hs hd
    exact ⟨hfit.shorten rfl (length_tidy_le _), hpassed⟩

/-- **An iteration that goes on leaves the sequence fitted**, and the place is no earlier one. -/
theorem fitted_of_iterates (hs : Fitted c capacities s) (h : Iterates c K s (.next t)) :
    Fitted c capacities t ∧ s.cursor.passed ≤ t.cursor.passed := by
  cases h with
  | consulted _ hc =>
    cases hc with
    | takenBack =>
      refine ⟨hs.shorten rfl ?_, Nat.le_refl _⟩
      show s.tokens.dropLast.length ≤ s.tokens.length
      rw [List.length_dropLast]
      omega
  | extended _ _ hc he =>
    have hcursor := cursor_of_consults hc
    rw [← hcursor]
    exact fitted_of_extends (hs.shorten hcursor (tokens_of_consults hc ▸ Nat.le_refl _)) he

/-- The questions of an iteration suit its place. -/
theorem suits_of_poses (hs : Fitted c capacities s) {q : Query} (h : Poses c s q) :
    q.Suits capacities s.cursor.passed := by
  cases h with
  | probed => exact .parse
  | predicted hp =>
    obtain ⟨rfl, n, hn, hlen⟩ := Cursor.Takes.current hs hp
    exact .predict hn hlen
  | judged => exact .parse

/-- A run asks within capacities, from its place on. -/
theorem within_of_transcribes (hs : Fitted c capacities s) (h : Transcribes c K s log t ending) :
    WithinFrom capacities s.cursor.passed log.flatten := by
  induction h with
  | stop h =>
    rw [List.flatten_singleton]
    exact withinFrom_of_suits fun q hq => suits_of_poses hs ((step_asks h).poses hq)
  | next h _ ih =>
    have hi := step_asks h
    obtain ⟨hfit, hpassed⟩ := fitted_of_iterates hs hi.iterates
    rw [List.flatten_cons]
    exact withinFrom_append (fun q hq => suits_of_poses hs (hi.poses hq)) hpassed (ih hfit)

end Sampler

namespace BeamSearch

variable {c : Setting} {K : Collaborators} {s t : State} {qs : List Query} {capacities : List Nat}

/-! ## Beam search -/

variable (c) in
/-- The branches are equally long, and the place is that of the first predictor that takes them. -/
structure Fitted (capacities : List Nat) (s : State) : Prop extends Level c s where
  cursor_eq : s.cursor =
    .start capacities (c.options.descriptors.length + (c.options.start.length + s.steps))

theorem fitted_initialState (capacities : List Nat) : Fitted c capacities (initialState c capacities) where
  toLevel := level_initialState capacities
  cursor_eq := rfl

/-- **A step that goes on leaves the frontier fitted**, although the place is found for a branch that may be none of
it. -/
theorem fitted_of_step (hs : Fitted c capacities s) (h : (step c s).ReturnsWith K (.next t)) :
    Fitted c capacities t := by
  refine ⟨level_of_step hs.toLevel h, ?_⟩
  obtain ⟨found, best, candidate, hg, hbest, -, rfl⟩ := next_of_step h
  have hlen : best.tokens.length = c.options.start.length + (s.steps + 1) := hs.length_of_generates hg hbest
  show s.cursor.fit (c.options.descriptors.length + best.tokens.length) =
    .start capacities (c.options.descriptors.length + (c.options.start.length + (s.steps + 1)))
  rw [hs.cursor_eq, hlen]
  apply Cursor.fit_start
  omega

theorem fitted_of_passes (hs : Fitted c capacities s) (h : Passes c K s t) : Fitted c capacities t := by
  induction h with
  | refl => exact hs
  | tail _ ht ih => exact fitted_of_step ih ht

theorem Fitted.takes (hs : Fitted c capacities s) :
    s.cursor.Takes capacities (c.options.descriptors.length + (c.options.start.length + s.steps)) := by
  rw [hs.cursor_eq]
  exact Cursor.takes_start _ _

theorem passed_le_of_step (h : (step c s).ReturnsWith K (.next t)) :
    s.cursor.passed ≤ t.cursor.passed := by
  obtain ⟨found, best, candidate, -, -, -, rfl⟩ := next_of_step h
  exact Cursor.passed_le_fit _ _

/-- The questions of a step suit its place. -/
theorem suits_of_inquires (hs : Fitted c capacities s) {q : Query} (h : Inquires c K s q) :
    q.Suits capacities s.cursor.passed := by
  cases h with
  | parent hp hb he =>
    cases he with
    | ended => exact .parse
    | probed => exact .parse
    | predicted =>
      obtain ⟨rfl, n, hn, hlen⟩ := hs.takes.current hp
      refine .predict hn ?_
      rw [hs.frontier _ hb]
      exact hlen
  | completion => exact .parse

/-- A run asks within capacities, from its place on. -/
theorem within_of_iterate (hs : Fitted c capacities s) {r : Except DecodingError (Branch × Ending)}
    (h : (iterate c s).Asks K qs r) : WithinFrom capacities s.cursor.passed qs := by
  induction s using iterate.induct c generalizing qs with
  | case1 s ih =>
    rcases asks_of_iterate h with ⟨o, ho⟩ | ⟨before, after, t, ht, hrest, rfl⟩
    · exact withinFrom_of_suits fun q hq => suits_of_inquires hs (step_asks ho hq)
    · have hbefore : ∀ q ∈ before, q.Suits capacities s.cursor.passed :=
        fun q hq => suits_of_inquires hs (step_asks ht hq)
      have hafter := ih t ht.returnsWith.returns (fitted_of_step hs ht.returnsWith) hrest
      exact withinFrom_append hbefore (passed_le_of_step ht.returnsWith) hafter

end BeamSearch

/-! ## Both decoders -/

/-- **Both decoders ask within capacities**, and never go back to a predictor that they have passed over. The branches
of a frontier are equally long, and the search is at the first predictor that takes them. -/
theorem within_of_decoders (K : Collaborators) (capacities : List Nat) :
    (∀ (c : Sampler.Setting) (masker : Option Masker) (random : Random) (qs : List Query) (r : Sampler.Run),
        (Sampler.sample c capacities masker random).Asks K qs r → WithinCapacity capacities qs) ∧
      ∀ c : BeamSearch.Setting,
        (∀ (qs : List Query) (r : Except DecodingError (Branch × BeamSearch.Ending)),
          (BeamSearch.search c capacities).Asks K qs r → WithinCapacity capacities qs) ∧
        ∀ s : BeamSearch.State, BeamSearch.Passes c K (BeamSearch.initialState c capacities) s →
          (∀ b ∈ s.frontier, b.tokens.length = c.options.start.length + s.steps) ∧
            s.cursor = .start capacities (c.options.descriptors.length + (c.options.start.length + s.steps)) := by
  constructor
  · intro c masker random qs r h
    obtain ⟨log, hlog, rfl⟩ := Sampler.sample_asks_iff.1 h
    cases hlog with
    | refused => exact (withinFrom_nil capacities 0).toWithinCapacity
    | run _ hrun =>
      have hwithin := Sampler.within_of_transcribes (Sampler.fitted_initialState capacities masker random) hrun
      exact hwithin.toWithinCapacity
  · intro c
    have hinit := BeamSearch.fitted_initialState (c := c) capacities
    constructor
    · intro qs r h
      rcases BeamSearch.asks_of_search h with ⟨-, rfl, -⟩ | ⟨-, hrun⟩
      · exact (withinFrom_nil capacities 0).toWithinCapacity
      · exact (BeamSearch.within_of_iterate hinit hrun).toWithinCapacity
    · intro s h
      have hs := BeamSearch.fitted_of_passes hinit h
      exact ⟨hs.frontier, hs.cursor_eq⟩

/-- A run that is cut after it has moved on to its second predictor, and a search whose second step begins there. -/
theorem within_of_decoders_twoPredictors :
    (∃ qs r, (Sampler.sample Sampler.halvesSetting [2, 64] none (.ofSeed 4)).Asks (.exactly Sampler.wholeAnswer) qs r ∧
        r.tokens = [.bom, .pitchC, .d2, .eom] ∧ WithinCapacity [2, 64] qs) ∧
      (∃ qs b, (BeamSearch.search BeamSearch.shortSetting [1, 64]).Asks
          (.exactly (BeamSearch.evenAnswer BeamSearch.brokenFirst)) qs (.ok (b, .bestComplete)) ∧
        b.tokens = [.bom, .pitchD, .d4, .eom] ∧ WithinCapacity [1, 64] qs) ∧
      ∃ s, BeamSearch.Passes BeamSearch.shortSetting (.exactly (BeamSearch.evenAnswer BeamSearch.brokenFirst))
          (BeamSearch.initialState BeamSearch.shortSetting [1, 64]) s ∧ s.steps = 1 ∧
        (∀ b ∈ s.frontier, b.tokens.length = 2) ∧ s.cursor = ⟨1, [64]⟩ := by
  have hsearch : ∃ generated b, BeamSearch.Searches BeamSearch.shortSetting
      (.exactly (BeamSearch.evenAnswer BeamSearch.brokenFirst)) [1, 64] generated b .bestComplete ∧
      b.tokens = [.bom, .pitchD, .d4, .eom] ∧ generated.length = 3 := by
    have hrun : (BeamSearch.runWithin BeamSearch.shortSetting (BeamSearch.evenAnswer BeamSearch.brokenFirst) 4
        (BeamSearch.initialState BeamSearch.shortSetting [1, 64])).map
          (fun r => (r.1.length, r.2.1.tokens, r.2.2)) =
        some (3, [.bom, .pitchD, .d4, .eom], .bestComplete) := by decide +kernel
    obtain ⟨⟨generated, b, ending⟩, hr, he⟩ := Option.map_eq_some_iff.1 hrun
    obtain ⟨hlength, hb, rfl⟩ := by simpa only [Prod.mk.injEq] using he
    exact ⟨generated, b, ⟨by decide +kernel, BeamSearch.runs_of_runWithin (fun _ => rfl) hr⟩, hb, hlength⟩
  obtain ⟨generated, b, hs, hb, hlength⟩ := hsearch
  refine ⟨?_, ?_, ?_⟩
  · have hrun : (Sampler.runWithin Sampler.halvesSetting Sampler.wholeAnswer 6
        (Sampler.initialState Sampler.halvesSetting [2, 64] none (.ofSeed 4))).map (fun r => r.1.tokens) =
        some [.bom, .pitchC, .d2, .eom] := by decide +kernel
    obtain ⟨⟨t, ending⟩, hr, ht⟩ := Option.map_eq_some_iff.1 hrun
    have h := Sampler.sample_of_runWithin (K := .exactly Sampler.wholeAnswer) (fun _ => rfl) (by decide +kernel) hr
    obtain ⟨qs, hqs⟩ := Dialogue.returnsWith_iff_asks.1 h
    exact ⟨qs, _, hqs, ht, (within_of_decoders _ [2, 64]).1 _ _ _ qs _ hqs⟩
  · obtain ⟨qs, hqs⟩ := Dialogue.returnsWith_iff_asks.1 (BeamSearch.search_returns_iff.2 ⟨generated, hs⟩)
    exact ⟨qs, b, hqs, hb, ((within_of_decoders _ [1, 64]).2 _).1 qs _ hqs⟩
  · cases hs.2 with
    | stop => cases hlength
    | @next _ t _ _ _ _ hg hr _ =>
      have hpass : BeamSearch.Passes BeamSearch.shortSetting (.exactly (BeamSearch.evenAnswer BeamSearch.brokenFirst))
          (BeamSearch.initialState BeamSearch.shortSetting [1, 64]) t :=
        .single (BeamSearch.step_returns_iff.2 (.inr (.inl ⟨_, hg, hr⟩)))
      have hsteps : t.steps = 1 := (BeamSearch.review_next _ hr.returns).1
      obtain ⟨hlevel, hcursor⟩ := ((within_of_decoders _ [1, 64]).2 BeamSearch.shortSetting).2 t hpass
      rw [hsteps] at hlevel hcursor
      exact ⟨t, hpass, hsteps, hlevel, hcursor⟩

end ScoreDecoding
