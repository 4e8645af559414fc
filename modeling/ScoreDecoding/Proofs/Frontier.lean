import ScoreDecoding.Proofs.History
import ScoreDecoding.Proofs.Questions
import Mathlib.Logic.Relation

/-!
# The frontier of a beam search

All branches of a frontier have come equally far, since every step gives each of them one more token. A step asks about
the branches of its frontier, and then about the completions that it has found.

- `next_of_step` says all of a step that goes on, and `Level` that its branches are equally long (`level_of_step`);
- `Examines` are the questions about one branch, and `Inquires` those of a step (`step_asks`);
- `asked_induction`: what holds of the questions of every step holds of all questions of a search.
-/

namespace ScoreDecoding.BeamSearch

variable {c : Setting} {K : Collaborators} {s t : State} {b candidate : Branch} {found ranked : List Branch}
  {qs : List Query} {predictor : Nat}

/-! ## Steps that go on -/

/-- A step that goes on leads to its open branches, and to the first predictor that takes a branch as long as its best
one. -/
theorem next_of_settle {pending : List Branch} {length : Nat}
    (h : settle c s candidate ranked pending length = .next t) :
    t = { cursor := s.cursor.fit (c.options.descriptors.length + length), frontier := ranked.filter isOpen, candidate,
          steps := s.steps + 1 } := by
  unfold settle at h
  split at h
  · cases h
  · split at h
    · cases h
    · rename_i hopen
      split at h
      · cases h
      · rw [hopen]
        exact (Outcome.next.inj h).symm

/-- **What a step leads to that goes on.** -/
theorem next_of_step (h : (step c s).ReturnsWith K (.next t)) :
    ∃ found best candidate, Generates c K s found ∧ best ∈ found ∧ (candidate = s.candidate ∨ candidate ∈ found) ∧
      t = { cursor := s.cursor.fit (c.options.descriptors.length + best.tokens.length),
            frontier := (Branch.rank found).filter isOpen, candidate, steps := s.steps + 1 } := by
  rcases step_returns_iff.1 h with ⟨-, ho⟩ | ⟨found, hg, hr⟩ | ⟨_, _, _, _, ho⟩
  · cases ho
  · generalize hranked : Branch.rank found = ranked at hr
    cases review_returns hr with
    | @settled best candidate rest pending _ hp hi ho =>
      have hmem : ∀ d ∈ best :: rest, d ∈ found := by
        intro d hd
        rw [← hranked] at hd
        exact mem_rank.1 hd
      refine ⟨found, best, candidate, hg, hmem _ List.mem_cons_self, ?_, hranked ▸ next_of_settle ho⟩
      rcases mem_of_improve hi with hc | hc
      · exact .inl hc
      · exact .inr (hmem _ (hp.sublist.subset (List.mem_filter.1 hc).1))
  · cases ho

/-- The branches of the next frontier are open branches that the step has generated. -/
theorem mem_frontier_of_step (h : (step c s).ReturnsWith K (.next t)) {d : Branch} (hd : d ∈ t.frontier) :
    d.isComplete = false ∧ ∃ found, Generates c K s found ∧ d ∈ found := by
  obtain ⟨found, best, candidate, hg, -, -, rfl⟩ := next_of_step h
  obtain ⟨hmem, hopen⟩ := List.mem_filter.1 hd
  have hnot : (!d.isComplete) = true := (Bool.and_eq_true_iff.1 hopen).1
  exact ⟨by simpa using hnot, found, hg, mem_rank.1 hmem⟩

/-- A branch of a frontier ends with its last token. -/
theorem getLast?_of_step (h : (step c s).ReturnsWith K (.next t)) {d : Branch} (hd : d ∈ t.frontier) :
    d.tokens.getLast? = some d.last := by
  obtain ⟨-, found, hg, hmem⟩ := mem_frontier_of_step h hd
  exact getLast?_of_generates hg hmem

theorem getLast?_root : (root c).tokens.getLast? = some (root c).last := (Descends.root (K := .any)).getLast?

variable (c K) in
/-- Steps that go on lead from one state to another. -/
abbrev Passes : State → State → Prop := Relation.ReflTransGen fun s t => (step c s).ReturnsWith K (.next t)

/-! ## Lengths -/

variable (c) in
/-- The open branches have grown by one token at each step, and the candidate is no longer. -/
structure Level (s : State) : Prop where
  frontier : ∀ d ∈ s.frontier, d.tokens.length = c.options.start.length + s.steps
  candidate : s.candidate.tokens.length ≤ c.options.start.length + s.steps

theorem level_initialState (capacities : List Nat) : Level c (initialState c capacities) where
  frontier d hd := by
    rw [List.mem_singleton.1 hd]
    rfl
  candidate := Nat.le_refl _

theorem Child.length_eq {d : Branch} (h : Child c K predictor b d) : d.tokens.length = b.tokens.length + 1 := by
  rw [h.tokens_eq, List.length_append, List.length_singleton]

/-- What a step generates is one token longer. -/
theorem Level.length_of_generates (hs : Level c s) (h : Generates c K s found) {d : Branch} (hd : d ∈ found) :
    d.tokens.length = c.options.start.length + s.steps + 1 := by
  obtain ⟨_, b, hb, hc⟩ := child_of_generates h hd
  rw [hc.length_eq, hs.frontier b hb]

theorem level_of_step (hs : Level c s) (h : (step c s).ReturnsWith K (.next t)) : Level c t := by
  obtain ⟨found, best, candidate, hg, -, hc, rfl⟩ := next_of_step h
  refine ⟨?_, ?_⟩
  · intro d hd
    exact hs.length_of_generates hg (mem_rank.1 (List.mem_filter.1 hd).1)
  · show candidate.tokens.length ≤ c.options.start.length + (s.steps + 1)
    rcases hc with rfl | hc
    · have := hs.candidate
      omega
    · have := hs.length_of_generates hg hc
      omega

/-! ## The questions of a step -/

variable (c) in
/-- The questions about a branch that is to be continued: the validator is asked if a voice has ended with it or the
measure may end, and then a predictor. -/
inductive Examines (predictor : Nat) (b : Branch) : Query → Prop
  | ended : b.last = .vb → Examines predictor b (.parse (Validation.endedText b.tokens))
  | probed : Examines predictor b (.parse (Token.code b.tokens (some .eom)))
  | predicted : Examines predictor b (.predict predictor c.options.descriptors b.tokens)

theorem continuation_asks {row : TokenSet} {r : Except DecodingError (Option Continuation)}
    (h : (continuation? c b row).Asks K qs r) {q : Query} (hq : q ∈ qs) : Examines c predictor b q := by
  unfold continuation? at h
  split at h
  · rename_i hv
    obtain ⟨a, ha, -⟩ := Dialogue.asks_map.1 h
    rw [Validation.isTimewarpInvalid_asks ha, List.mem_singleton] at hq
    rw [hq]
    exact .ended hv
  · split at h
    · obtain ⟨a, ha, -⟩ := Dialogue.asks_map.1 h
      rw [Validation.validate_asks ha, List.mem_singleton] at hq
      rw [hq]
      exact .probed
    · split at h
      · obtain ⟨rfl, -⟩ := Dialogue.asks_done.1 h
        cases hq
      · obtain ⟨rfl, -⟩ := Dialogue.asks_done.1 h
        cases hq

theorem expand_asks {r : Except DecodingError (List Branch)} (h : (expand c predictor b).Asks K qs r) {q : Query}
    (hq : q ∈ qs) : Examines c predictor b q := by
  obtain ⟨before, after, answer, ha, h, rfl⟩ := Dialogue.asks_bind.1 h
  rcases List.mem_append.1 hq with hq | hq
  · exact continuation_asks ha hq
  · rcases answer with e | _ | k
    · obtain ⟨rfl, -⟩ := Dialogue.asks_done.1 h
      cases hq
    · obtain ⟨rfl, -⟩ := Dialogue.asks_done.1 h
      cases hq
    · obtain ⟨a, ha, -⟩ := Dialogue.asks_map.1 h
      rw [(Dialogue.asks_predict.1 ha).2, List.mem_singleton] at hq
      rw [hq]
      exact .predicted

theorem expandRanked_asks {wanted : Nat} {bs : List Branch} {r : Except DecodingError (List Branch)}
    (h : (expandRanked c predictor wanted bs).Asks K qs r) {q : Query} (hq : q ∈ qs) :
    ∃ b ∈ bs, Examines c predictor b q := by
  induction bs generalizing wanted qs r with
  | nil =>
    cases wanted with
    | zero =>
      obtain ⟨rfl, -⟩ := Dialogue.asks_done.1 h
      cases hq
    | succ wanted =>
      obtain ⟨rfl, -⟩ := Dialogue.asks_done.1 h
      cases hq
  | cons b bs ih =>
    cases wanted with
    | zero =>
      obtain ⟨rfl, -⟩ := Dialogue.asks_done.1 h
      cases hq
    | succ wanted =>
      have later : ∀ {q' : Query}, (∃ b' ∈ bs, Examines c predictor b' q') →
          ∃ b' ∈ b :: bs, Examines c predictor b' q' := by
        rintro q' ⟨b', hb', he⟩
        exact ⟨b', List.mem_cons_of_mem _ hb', he⟩
      obtain ⟨before, after, answer, ha, h, rfl⟩ := Dialogue.asks_bind.1 h
      rcases List.mem_append.1 hq with hq | hq
      · exact ⟨b, List.mem_cons_self, expand_asks ha hq⟩
      · rcases answer with e | _ | ⟨first, more⟩
        · obtain ⟨rfl, -⟩ := Dialogue.asks_done.1 h
          cases hq
        · exact later (ih h hq)
        · obtain ⟨a, ha, -⟩ := Dialogue.asks_map.1 h
          exact later (ih ha hq)

theorem improve_asks {bs : List Branch} {r : Except DecodingError Branch} (h : (improve candidate bs).Asks K qs r)
    {q : Query} (hq : q ∈ qs) : ∃ d ∈ bs, q = .parse (Validation.endedText d.tokens) := by
  induction bs generalizing qs with
  | nil =>
    obtain ⟨rfl, -⟩ := Dialogue.asks_done.1 h
    cases hq
  | cons d ds ih =>
    unfold improve at h
    split at h
    · obtain ⟨rfl, -⟩ := Dialogue.asks_done.1 h
      cases hq
    · obtain ⟨before, after, answer, ha, h, rfl⟩ := Dialogue.asks_bind.1 h
      rcases List.mem_append.1 hq with hq | hq
      · rw [Validation.isTimewarpInvalid_asks ha, List.mem_singleton] at hq
        exact ⟨d, List.mem_cons_self, hq⟩
      · rcases answer with e | _ | _
        · obtain ⟨rfl, -⟩ := Dialogue.asks_done.1 h
          cases hq
        · obtain ⟨rfl, -⟩ := Dialogue.asks_done.1 h
          cases hq
        · obtain ⟨d', hd', he⟩ := ih h hq
          exact ⟨d', List.mem_cons_of_mem _ hd', he⟩

theorem proceed_asks {pending : List Branch} {length : Nat} {o : Outcome}
    (h : (proceed c s ranked pending length).Asks K qs o) {q : Query} (hq : q ∈ qs) :
    ∃ d ∈ pending, d.isComplete = true ∧ q = .parse (Validation.endedText d.tokens) := by
  obtain ⟨a, ha, -⟩ := Dialogue.asks_map.1 h
  obtain ⟨d, hd, he⟩ := improve_asks ha hq
  obtain ⟨hmem, hfin⟩ := List.mem_filter.1 hd
  exact ⟨d, hmem, (Bool.and_eq_true_iff.1 hfin).1, he⟩

/-- Only completions are asked about once they are ranked. -/
theorem review_asks {o : Outcome} (h : (review c s ranked).Asks K qs o) {q : Query} (hq : q ∈ qs) :
    ∃ d ∈ ranked, d.isComplete = true ∧ q = .parse (Validation.endedText d.tokens) := by
  cases ranked with
  | nil =>
    obtain ⟨rfl, -⟩ := Dialogue.asks_done.1 h
    cases hq
  | cons best rest =>
    dsimp only [review] at h
    split at h
    · rename_i hb
      obtain ⟨before, after, answer, ha, h, rfl⟩ := Dialogue.asks_bind.1 h
      rcases List.mem_append.1 hq with hq | hq
      · rw [Validation.isTimewarpInvalid_asks ha, List.mem_singleton] at hq
        exact ⟨best, List.mem_cons_self, hb, hq⟩
      · rcases answer with e | _ | _
        · obtain ⟨rfl, -⟩ := Dialogue.asks_done.1 h
          cases hq
        · dsimp only at h
          split at h
          · obtain ⟨rfl, -⟩ := Dialogue.asks_done.1 h
            cases hq
          · obtain ⟨rfl, -⟩ := Dialogue.asks_done.1 h
            cases hq
        · obtain ⟨d, hd, he⟩ := proceed_asks h hq
          exact ⟨d, List.mem_cons_of_mem _ hd, he⟩
    · exact proceed_asks h hq

variable (c K) in
/-- The questions of a step. -/
inductive Inquires (s : State) : Query → Prop
  | parent {predictor : Nat} {b : Branch} {q : Query} : s.cursor.current? = some predictor → b ∈ s.frontier →
      Examines c predictor b q → Inquires s q
  | completion {found : List Branch} {d : Branch} : Generates c K s found → d ∈ found → d.isComplete = true →
      Inquires s (.parse (Validation.endedText d.tokens))

/-- Every question of a step is one of these. -/
theorem step_asks {o : Outcome} (h : (step c s).Asks K qs o) {q : Query} (hq : q ∈ qs) : Inquires c K s q := by
  unfold step at h
  split at h
  · obtain ⟨rfl, -⟩ := Dialogue.asks_done.1 h
    cases hq
  · rename_i predictor hp
    obtain ⟨before, after, answer, ha, h, rfl⟩ := Dialogue.asks_bind.1 h
    rcases List.mem_append.1 hq with hq | hq
    · obtain ⟨b, hb, he⟩ := expandRanked_asks ha hq
      exact .parent hp hb he
    · cases answer with
      | error e =>
        obtain ⟨rfl, -⟩ := Dialogue.asks_done.1 h
        cases hq
      | ok found =>
        obtain ⟨d, hd, hc, rfl⟩ := review_asks h hq
        exact .completion ⟨predictor, hp, ha.returnsWith⟩ (mem_rank.1 hd) hc

/-! ## The questions of a search -/

/-- A run that asks questions is a step and, if that goes on, the rest of the run. -/
theorem asks_of_iterate {r : Except DecodingError (Branch × Ending)} (h : (iterate c s).Asks K qs r) :
    (∃ o, (step c s).Asks K qs o) ∨
      ∃ before after t, (step c s).Asks K before (.next t) ∧ (iterate c t).Asks K after r ∧ qs = before ++ after := by
  rw [iterate.eq_def] at h
  obtain ⟨before, after, ⟨o, ho⟩, ha, h, rfl⟩ := Dialogue.asks_bind.1 h
  have hs := Dialogue.asks_attach.1 ha
  cases o with
  | stop b ending =>
    obtain ⟨rfl, -⟩ := Dialogue.asks_done.1 h
    exact .inl ⟨_, (List.append_nil before).symm ▸ hs⟩
  | failed e =>
    obtain ⟨rfl, -⟩ := Dialogue.asks_done.1 h
    exact .inl ⟨_, (List.append_nil before).symm ▸ hs⟩
  | next t => exact .inr ⟨before, after, t, hs, h, rfl⟩

/-- What holds of the questions of every step, from an invariant that steps keep, holds of all questions. -/
theorem asked_induction {I : State → Prop} {J : Query → Prop} (asked : ∀ s q, I s → Inquires c K s q → J q)
    (next : ∀ s t, I s → (step c s).ReturnsWith K (.next t) → I t) {r : Except DecodingError (Branch × Ending)}
    (hs : I s) (h : (iterate c s).Asks K qs r) : ∀ q ∈ qs, J q := by
  induction s using iterate.induct c generalizing qs with
  | case1 s ih =>
    intro q hq
    rcases asks_of_iterate h with ⟨o, ho⟩ | ⟨before, after, t, ht, hrest, rfl⟩
    · exact asked s q hs (step_asks ho hq)
    · rcases List.mem_append.1 hq with hq | hq
      · exact asked s q hs (step_asks ht hq)
      · exact ih t ht.returnsWith.returns (next s t hs ht.returnsWith) hrest q hq

/-- A search asks what its run asks, or nothing if no predictor takes the root. -/
theorem asks_of_search {capacities : List Nat} {r : Except DecodingError (Branch × Ending)}
    (h : (search c capacities).Asks K qs r) :
    ((initialState c capacities).cursor.current? = none ∧ qs = [] ∧
      r = .error (.noPredictor (c.options.descriptors.length + c.options.start.length))) ∨
      (initialState c capacities).cursor.current?.isSome = true ∧
        (iterate c (initialState c capacities)).Asks K qs r := by
  unfold search at h
  dsimp only at h
  split at h
  · rename_i hc
    obtain ⟨rfl, rfl⟩ := Dialogue.asks_done.1 h
    exact .inl ⟨hc, rfl, rfl⟩
  · rename_i predictor hc
    refine .inr ⟨?_, h⟩
    show (Cursor.start _ _).current?.isSome = true
    rw [hc]
    rfl

end ScoreDecoding.BeamSearch
