import ScoreDecoding.Proofs.Branches
import Mathlib.Data.List.Sort

/-!
# The history of a beam search

A step forgets most of what it generates. What is said of the result of a search is about all of it, so a search is
described together with the branches that it generates, step by step.

- `Reviews` are the ways in which a step ends (`review_returns`), and `Generates` are its branches;
- `Runs` is a search with its history: `search_returns_iff` says that every search has one;
- `descends_of_runs`: whatever is generated, and what is returned, comes from the root;
- ranking is sorting by insertion (`rank_eq_insertionSort`), so that `runWithin` computes a search with given answers
  (`runs_of_runWithin`).
-/

namespace ScoreDecoding.BeamSearch

variable (c : Setting) (K : Collaborators)

/-! ## One step -/

/-- The branches that a step generates. -/
def Generates (s : State) (found : List Branch) : Prop :=
  ∃ predictor, s.cursor.current? = some predictor ∧
    (expandRanked c predictor c.width s.frontier).ReturnsWith K (.ok found)

/-- The branches that are left after the best one has been looked at: all if it is open, the others if it is complete
and has a broken timewarp. -/
inductive Pending (best : Branch) (rest : List Branch) : List Branch → Prop
  | opened : best.isComplete = false → Pending best rest (best :: rest)
  | passedOver : best.isComplete = true → (Validation.isTimewarpInvalid best.tokens).ReturnsWith K (.ok true) →
      Pending best rest rest

/-- The ways in which the ranked branches of a step are dealt with. -/
inductive Reviews (s : State) : List Branch → Outcome → Prop
  | noChildren : Reviews s [] (.stop s.candidate .noChildren)
  | candidateBetter {best : Branch} {rest : List Branch} : best.isComplete = true →
      (Validation.isTimewarpInvalid best.tokens).ReturnsWith K (.ok false) → s.candidate.isComplete = true →
      Double.lt best.score s.candidate.score = true → Reviews s (best :: rest) (.stop s.candidate .candidateBetter)
  | bestComplete {best : Branch} {rest : List Branch} : best.isComplete = true →
      (Validation.isTimewarpInvalid best.tokens).ReturnsWith K (.ok false) →
      (s.candidate.isComplete = true → Double.lt best.score s.candidate.score = false) →
      Reviews s (best :: rest) (.stop best .bestComplete)
  | settled {best candidate : Branch} {rest pending : List Branch} {o : Outcome} : Pending K best rest pending →
      (improve s.candidate (pending.filter isFinished)).ReturnsWith K (.ok candidate) →
      settle c s candidate (best :: rest) pending best.tokens.length = o → Reviews s (best :: rest) o
  | unjudged {best : Branch} {rest : List Branch} {e : DecodingError} : best.isComplete = true →
      (Validation.isTimewarpInvalid best.tokens).ReturnsWith K (.error e) → Reviews s (best :: rest) (.failed e)
  | unimproved {best : Branch} {rest pending : List Branch} {e : DecodingError} : Pending K best rest pending →
      (improve s.candidate (pending.filter isFinished)).ReturnsWith K (.error e) →
      Reviews s (best :: rest) (.failed e)

variable {c K} {s t : State} {b candidate : Branch} {ending : Ending} {found ranked pending : List Branch}
  {generated : List (List Branch)}

theorem proceed_reviews {best : Branch} {rest : List Branch} {o : Outcome} (hp : Pending K best rest pending)
    (h : (proceed c s (best :: rest) pending best.tokens.length).ReturnsWith K o) : Reviews c K s (best :: rest) o := by
  obtain ⟨answer, ha, rfl⟩ := Dialogue.returnsWith_map.1 h
  cases answer with
  | error e => exact .unimproved hp ha
  | ok candidate => exact .settled hp ha rfl

theorem review_returns {o : Outcome} (h : (review c s ranked).ReturnsWith K o) : Reviews c K s ranked o := by
  cases ranked with
  | nil =>
    rw [Dialogue.returnsWith_done.1 h]
    exact .noChildren
  | cons best rest =>
    dsimp only [review] at h
    split at h
    · rename_i hb
      obtain ⟨answer, ha, h⟩ := Dialogue.returnsWith_bind.1 h
      cases answer with
      | error e =>
        rw [Dialogue.returnsWith_done.1 h]
        exact .unjudged hb ha
      | ok invalid =>
        cases invalid with
        | true => exact proceed_reviews (.passedOver hb ha) h
        | false =>
          dsimp only at h
          split at h
          · rename_i hl
            rw [Dialogue.returnsWith_done.1 h]
            rw [Bool.and_eq_true] at hl
            exact .candidateBetter hb ha hl.1 hl.2
          · rename_i hl
            rw [Dialogue.returnsWith_done.1 h]
            exact .bestComplete hb ha fun hc => by simpa [hc] using hl
    · rename_i hb
      exact proceed_reviews (.opened (by simpa using hb)) h

theorem review_of_proceed {best : Branch} {rest : List Branch} {o : Outcome} (hp : Pending K best rest pending)
    (h : (proceed c s (best :: rest) pending best.tokens.length).ReturnsWith K o) :
    (review c s (best :: rest)).ReturnsWith K o := by
  dsimp only [review]
  cases hp with
  | opened hb =>
    rw [hb]
    exact h
  | passedOver hb ha =>
    rw [if_pos hb]
    exact Dialogue.returnsWith_bind.2 ⟨.ok true, ha, h⟩

/-- A step may end in each of these ways. -/
theorem review_of_reviews {o : Outcome} (h : Reviews c K s ranked o) : (review c s ranked).ReturnsWith K o := by
  cases h with
  | noChildren => exact .done _
  | candidateBetter hb ha hc hlt =>
    dsimp only [review]
    rw [if_pos hb]
    refine Dialogue.returnsWith_bind.2 ⟨.ok false, ha, ?_⟩
    dsimp only
    rw [hc, hlt]
    exact .done _
  | bestComplete hb ha hc =>
    dsimp only [review]
    rw [if_pos hb]
    refine Dialogue.returnsWith_bind.2 ⟨.ok false, ha, ?_⟩
    dsimp only
    rw [if_neg]
    · exact .done _
    · rw [Bool.and_eq_true]
      rintro ⟨hcomplete, hlt⟩
      rw [hc hcomplete] at hlt
      cases hlt
  | settled hp hi ho => exact review_of_proceed hp (Dialogue.returnsWith_map.2 ⟨.ok _, hi, ho.symm⟩)
  | unjudged hb ha =>
    dsimp only [review]
    rw [if_pos hb]
    exact Dialogue.returnsWith_bind.2 ⟨.error _, ha, .done _⟩
  | unimproved hp hi => exact review_of_proceed hp (Dialogue.returnsWith_map.2 ⟨.error _, hi, rfl⟩)

/-- A step that stops with the candidate in hand returns it. When the steps are used up and it is not complete, the
first of the branches that are left is returned. -/
theorem settle_eq_stop {length : Nat} (h : settle c s candidate ranked pending length = .stop b ending) :
    (b = candidate ∧ ending ≠ .quotaExceeded) ∨
      (b = (if candidate.isComplete then candidate else pending.head?.getD candidate) ∧
        ending = .quotaExceeded) := by
  unfold settle at h
  split at h
  · cases h
    exact .inr ⟨rfl, rfl⟩
  · split at h
    · cases h
      exact .inl ⟨rfl, nofun⟩
    · split at h
      · cases h
        exact .inl ⟨rfl, nofun⟩
      · cases h

/-- A step that goes on keeps the candidate, and of the ranked branches those that are open. -/
theorem settle_eq_next {length : Nat} (h : settle c s candidate ranked pending length = .next t) :
    t.candidate = candidate ∧ t.frontier = ranked.filter isOpen := by
  unfold settle at h
  split at h
  · cases h
  · split at h
    · cases h
    · rename_i hopen
      split at h
      · cases h
      · cases h
        exact ⟨rfl, hopen.symm⟩

/-! ## A run -/

variable (c K)

/-- A search from a state: the branches that it generates, step by step, and how it ends. -/
inductive Runs : State → List (List Branch) → Branch → Ending → Prop
  | exhausted {s : State} : s.cursor.current? = none → Runs s [] s.candidate .predictorsExhausted
  | stop {s : State} {found : List Branch} {b : Branch} {ending : Ending} : Generates c K s found →
      (review c s (Branch.rank found)).ReturnsWith K (.stop b ending) → Runs s [found] b ending
  | next {s t : State} {found : List Branch} {generated : List (List Branch)} {b : Branch} {ending : Ending} :
      Generates c K s found → (review c s (Branch.rank found)).ReturnsWith K (.next t) →
      Runs t generated b ending → Runs s (found :: generated) b ending

variable {c K}

/-- A step that has a predictor reviews what it generates. -/
theorem step_returns_iff {o : Outcome} :
    (step c s).ReturnsWith K o ↔
      (s.cursor.current? = none ∧ o = .stop s.candidate .predictorsExhausted) ∨
      (∃ found, Generates c K s found ∧ (review c s (Branch.rank found)).ReturnsWith K o) ∨
      (∃ predictor e, s.cursor.current? = some predictor ∧
        (expandRanked c predictor c.width s.frontier).ReturnsWith K (.error e) ∧ o = .failed e) := by
  unfold step Generates
  cases s.cursor.current? with
  | none => simp
  | some predictor =>
    rw [Dialogue.returnsWith_bind]
    constructor
    · rintro ⟨answer, ha, h⟩
      cases answer with
      | error e => exact .inr (.inr ⟨predictor, e, rfl, ha, Dialogue.returnsWith_done.1 h⟩)
      | ok found => exact .inr (.inl ⟨found, ⟨predictor, rfl, ha⟩, h⟩)
    · rintro (⟨hn, -⟩ | ⟨found, ⟨p, hp, ha⟩, h⟩ | ⟨p, e, hp, ha, rfl⟩)
      · cases hn
      · cases hp
        exact ⟨.ok found, ha, h⟩
      · cases hp
        exact ⟨.error e, ha, .done _⟩

/-- A run is a step and, if that goes on, the rest of the run. -/
theorem iterate_returns {r : Except DecodingError (Branch × Ending)} :
    (iterate c s).ReturnsWith K r ↔
      (∃ b ending, (step c s).ReturnsWith K (.stop b ending) ∧ r = .ok (b, ending)) ∨
      (∃ e, (step c s).ReturnsWith K (.failed e) ∧ r = .error e) ∨
      ∃ t, (step c s).ReturnsWith K (.next t) ∧ (iterate c t).ReturnsWith K r := by
  rw [iterate.eq_def, Dialogue.returnsWith_bind]
  constructor
  · rintro ⟨⟨o, ho⟩, ha, h⟩
    have hs := Dialogue.returnsWith_attach.1 ha
    cases o with
    | stop b ending => exact .inl ⟨b, ending, hs, Dialogue.returnsWith_done.1 h⟩
    | failed e => exact .inr (.inl ⟨e, hs, Dialogue.returnsWith_done.1 h⟩)
    | next t => exact .inr (.inr ⟨t, hs, h⟩)
  · rintro (⟨b, ending, hs, rfl⟩ | ⟨e, hs, rfl⟩ | ⟨t, hs, h⟩)
    · exact ⟨⟨_, hs.returns⟩, Dialogue.returnsWith_attach.2 hs, .done _⟩
    · exact ⟨⟨_, hs.returns⟩, Dialogue.returnsWith_attach.2 hs, .done _⟩
    · exact ⟨⟨_, hs.returns⟩, Dialogue.returnsWith_attach.2 hs, h⟩

/-- A run that does not fail has a history. -/
theorem runs_of_iterate (h : (iterate c s).ReturnsWith K (.ok (b, ending))) :
    ∃ generated, Runs c K s generated b ending := by
  induction s using iterate.induct c with
  | case1 s ih =>
    rcases iterate_returns.1 h with ⟨b', ending', hs, hr⟩ | ⟨e, -, hr⟩ | ⟨t, hs, ht⟩
    · cases hr
      rcases step_returns_iff.1 hs with ⟨hc, ho⟩ | ⟨found, hg, hr⟩ | ⟨_, _, _, _, ho⟩
      · cases ho
        exact ⟨[], .exhausted hc⟩
      · exact ⟨[found], .stop hg hr⟩
      · cases ho
    · cases hr
    · obtain ⟨generated, hruns⟩ := ih t hs.returns ht
      rcases step_returns_iff.1 hs with ⟨_, ho⟩ | ⟨found, hg, hr⟩ | ⟨_, _, _, _, ho⟩
      · cases ho
      · exact ⟨found :: generated, .next hg hr hruns⟩
      · cases ho

/-- What has a history is a run. -/
theorem iterate_of_runs (h : Runs c K s generated b ending) : (iterate c s).ReturnsWith K (.ok (b, ending)) := by
  induction h with
  | exhausted hc => exact iterate_returns.2 (.inl ⟨_, _, step_returns_iff.2 (.inl ⟨hc, rfl⟩), rfl⟩)
  | stop hg hr => exact iterate_returns.2 (.inl ⟨_, _, step_returns_iff.2 (.inr (.inl ⟨_, hg, hr⟩)), rfl⟩)
  | next hg hr _ ih =>
    exact iterate_returns.2 (.inr (.inr ⟨_, step_returns_iff.2 (.inr (.inl ⟨_, hg, hr⟩)), ih⟩))

/-! ## A search -/

variable (c) in
/-- The state from which a search starts. -/
def initialState (capacities : List Nat) : State where
  cursor := .start capacities (c.options.descriptors.length + c.options.start.length)
  frontier := [root c]
  candidate := root c

variable (c K) in
/-- A whole search with its history: a predictor takes the root, and a run goes on from there. -/
def Searches (capacities : List Nat) (generated : List (List Branch)) (b : Branch) (ending : Ending) : Prop :=
  (initialState c capacities).cursor.current?.isSome = true ∧ Runs c K (initialState c capacities) generated b ending

/-- **Every search has a history**, and what has one is a search. -/
theorem search_returns_iff {capacities : List Nat} :
    (search c capacities).ReturnsWith K (.ok (b, ending)) ↔ ∃ generated, Searches c K capacities generated b ending := by
  unfold search Searches
  cases hc : (initialState c capacities).cursor.current? with
  | none =>
    simp only [initialState] at hc
    simp [hc]
  | some predictor =>
    simp only [initialState] at hc
    simp only [hc, Option.isSome_some, true_and]
    exact ⟨runs_of_iterate, fun ⟨_, h⟩ => iterate_of_runs h⟩

/-! ## Ranks -/

/-- Branches by falling score. -/
abbrev Ranked (bs : List Branch) : Prop := bs.Pairwise fun a b => Double.totalRank b.score ≤ Double.totalRank a.score

/-- Whether a branch may be ranked before another one. -/
abbrev mayPrecede (a b : Branch) : Bool := Double.totalRank b.score ≤ Double.totalRank a.score

theorem mayPrecede_trans (a b d : Branch) (hab : mayPrecede a b = true) (hbd : mayPrecede b d = true) :
    mayPrecede a d = true := by
  simp only [decide_eq_true_eq] at hab hbd ⊢
  omega

theorem mayPrecede_total (a b : Branch) : (mayPrecede a b || mayPrecede b a) = true := by
  simp only [Bool.or_eq_true, decide_eq_true_eq]
  omega

theorem ranked_rank (bs : List Branch) : Ranked (Branch.rank bs) := by
  have h : (Branch.rank bs).Pairwise fun a b => mayPrecede a b = true :=
    List.pairwise_mergeSort mayPrecede_trans mayPrecede_total bs
  simpa using h

/-- Ranking puts one branch after another in its place. -/
theorem rank_eq_insertionSort (bs : List Branch) : Branch.rank bs = bs.insertionSort (mayPrecede · ·) := by
  induction bs with
  | nil => simp [Branch.rank]
  | cons b bs ih =>
    obtain ⟨first, last, hsorted, hrest, hfirst⟩ := List.mergeSort_cons mayPrecede_trans mayPrecede_total b bs
    have hranked := ranked_rank (b :: bs)
    rw [show Branch.rank (b :: bs) = first ++ b :: last from hsorted] at hranked ⊢
    rw [List.insertionSort_cons, ← ih, show Branch.rank bs = first ++ last from hrest]
    obtain ⟨-, hlast, -⟩ := List.pairwise_append.1 hranked
    clear hsorted hrest hranked ih
    induction first with
    | nil =>
      cases last with
      | nil => rfl
      | cons d last =>
        have hd : mayPrecede b d = true := decide_eq_true ((List.pairwise_cons.1 hlast).1 d List.mem_cons_self)
        exact (if_pos hd).symm
    | cons d first ih =>
      have hd : ¬ mayPrecede b d = true := by simpa using hfirst d List.mem_cons_self
      rw [List.cons_append, List.cons_append, List.orderedInsert_cons, if_neg hd]
      exact congrArg (d :: ·) (ih fun e he => hfirst e (List.mem_cons_of_mem _ he))

/-! ## Where the branches come from -/

theorem mem_rank {bs : List Branch} {d : Branch} : d ∈ Branch.rank bs ↔ d ∈ bs := List.mem_mergeSort

/-- The candidate is only replaced by one of the branches that are looked at. -/
theorem mem_of_improve {bs : List Branch} (h : (improve b bs).ReturnsWith K (.ok candidate)) :
    candidate = b ∨ candidate ∈ bs := by
  induction bs with
  | nil =>
    cases Dialogue.returnsWith_done.1 h
    exact .inl rfl
  | cons d ds ih =>
    unfold improve at h
    split at h
    · cases Dialogue.returnsWith_done.1 h
      exact .inl rfl
    · obtain ⟨answer, -, h⟩ := Dialogue.returnsWith_bind.1 h
      rcases answer with e | _ | _
      · cases Dialogue.returnsWith_done.1 h
      · cases Dialogue.returnsWith_done.1 h
        exact .inr List.mem_cons_self
      · exact (ih h).imp_right (List.mem_cons_of_mem _)

theorem Pending.sublist {best : Branch} {rest : List Branch} (h : Pending K best rest pending) :
    pending.Sublist (best :: rest) := by
  cases h with
  | opened => exact .refl _
  | passedOver => exact List.sublist_cons_self _ _

/-- What a step leads to has a property: its result, or its candidate and its frontier. -/
def Outcome.All (P : Branch → Prop) : Outcome → Prop
  | .next t => P t.candidate ∧ ∀ d ∈ t.frontier, P d
  | .stop b _ => P b
  | .failed _ => True

/-- A step brings in no branch but those that it generates. -/
theorem all_of_reviews {P : Branch → Prop} {o : Outcome} (h : Reviews c K s ranked o) (hs : P s.candidate)
    (hranked : ∀ d ∈ ranked, P d) : o.All P := by
  cases h with
  | noChildren => exact hs
  | candidateBetter => exact hs
  | bestComplete => exact hranked _ List.mem_cons_self
  | unjudged => trivial
  | unimproved => trivial
  | @settled best candidate rest pending _ hp hi ho =>
    have hpending : ∀ d ∈ pending, P d := fun d hd => hranked d (hp.sublist.subset hd)
    have hcandidate : P candidate := by
      rcases mem_of_improve hi with rfl | hd
      · exact hs
      · exact hpending _ (List.mem_filter.1 hd).1
    cases o with
    | next t =>
      obtain ⟨hc, hf⟩ := settle_eq_next ho
      refine ⟨hc ▸ hcandidate, fun d hd => ?_⟩
      rw [hf] at hd
      exact hranked d (List.mem_filter.1 hd).1
    | stop b ending =>
      show P b
      rcases settle_eq_stop ho with ⟨rfl, -⟩ | ⟨rfl, -⟩
      · exact hcandidate
      · split
        · exact hcandidate
        · cases pending with
          | nil => exact hcandidate
          | cons d ds => exact hpending d List.mem_cons_self
    | failed e => trivial

/-- What a step generates are children of open branches. -/
theorem child_of_generates (h : Generates c K s found) {d : Branch} (hd : d ∈ found) :
    ∃ predictor, ∃ b ∈ s.frontier, Child c K predictor b d := by
  obtain ⟨predictor, -, h⟩ := h
  exact ⟨predictor, child_of_expandRanked h hd⟩

theorem getLast?_of_generates (h : Generates c K s found) {d : Branch} (hd : d ∈ found) :
    d.tokens.getLast? = some d.last := by
  obtain ⟨_, _, _, hc⟩ := child_of_generates h hd
  exact hc.getLast?

theorem descends_of_generates (hs : ∀ d ∈ s.frontier, Descends c K d) (h : Generates c K s found) :
    ∀ d ∈ found, Descends c K d := by
  intro d hd
  obtain ⟨_, b, hb, hc⟩ := child_of_generates h hd
  exact .child (hs b hb) hc

/-- A run from branches that come from the root generates and returns only such branches. -/
theorem descends_of_runs (h : Runs c K s generated b ending) (hs : Descends c K s.candidate)
    (hf : ∀ d ∈ s.frontier, Descends c K d) : (∀ d ∈ generated.flatten, Descends c K d) ∧ Descends c K b := by
  induction h with
  | exhausted => exact ⟨by simp, hs⟩
  | stop hg hr =>
    have hfound := descends_of_generates hf hg
    have hall := all_of_reviews (review_returns hr) hs fun d hd => hfound d (mem_rank.1 hd)
    refine ⟨fun d hd => hfound d ?_, hall⟩
    rwa [List.flatten_singleton] at hd
  | next hg hr _ ih =>
    have hfound := descends_of_generates hf hg
    have hall := all_of_reviews (review_returns hr) hs fun d hd => hfound d (mem_rank.1 hd)
    obtain ⟨hrest, hb⟩ := ih hall.1 hall.2
    refine ⟨fun d hd => ?_, hb⟩
    rw [List.flatten_cons] at hd
    exact (List.mem_append.1 hd).elim (hfound d) (hrest d)

/-- **All branches of a search come from the root**, those that it generates and the one that it returns. -/
theorem descends_of_searches {capacities : List Nat} (h : Searches c K capacities generated b ending) :
    (∀ d ∈ generated.flatten, Descends c K d) ∧ Descends c K b := by
  refine descends_of_runs h.2 .root fun d hd => ?_
  rw [List.mem_singleton.1 hd]
  exact .root

/-! ## Computing a run -/

/-- The history of a run with answers that depend on the questions alone, if it ends within so many steps. -/
def runWithin (c : Setting) (answer : (q : Query) → q.Answer) :
    Nat → State → Option (List (List Branch) × Branch × Ending)
  | 0, _ => none
  | n + 1, s => match s.cursor.current? with
    | none => some ([], s.candidate, .predictorsExhausted)
    | some predictor => match (expandRanked c predictor c.width s.frontier).eval answer with
      | .error _ => none
      | .ok found => match (review c s (found.insertionSort (mayPrecede · ·))).eval answer with
        | .stop b ending => some ([found], b, ending)
        | .failed _ => none
        | .next t => (runWithin c answer n t).map fun r => (found :: r.1, r.2)

theorem runs_of_runWithin {answer : (q : Query) → q.Answer} (hK : ∀ q, K q (answer q)) {n : Nat}
    (h : runWithin c answer n s = some (generated, b, ending)) : Runs c K s generated b ending := by
  induction n generalizing s generated with
  | zero => cases h
  | succ n ih =>
    unfold runWithin at h
    split at h
    · rename_i hc
      cases h
      exact .exhausted hc
    · rename_i predictor hc
      have hg := Dialogue.returnsWith_eval hK (expandRanked c predictor c.width s.frontier)
      split at h
      · cases h
      · rename_i found hfound
        rw [hfound] at hg
        have hr := Dialogue.returnsWith_eval hK (review c s (Branch.rank found))
        rw [← rank_eq_insertionSort] at h
        split at h
        · rename_i ho
          rw [ho] at hr
          cases h
          exact .stop ⟨predictor, hc, hg⟩ hr
        · cases h
        · rename_i t ho
          rw [ho] at hr
          obtain ⟨⟨rest, r⟩, hrest, he⟩ := Option.map_eq_some_iff.1 h
          cases he
          exact .next ⟨predictor, hc, hg⟩ hr (ih hrest)

/-- The two functions where all logits are equal and at most two tokens are admitted: then exponentials of zero are
summed, and the logarithms are those of one and of two. -/
def evenElementary : Elementary where
  exp _ := 1
  log x := if x ≤ 1 then 0 else 0.6931471805599453

/-- A predictor for which all tokens are equally good, beside a validator. -/
def evenAnswer (validator : String → Except String Measure) : (q : Query) → q.Answer
  | .predict .. => .ok (Token.all.map fun _ => 0).toArray
  | .parse text => validator text

/-- A search with such a predictor, computed. -/
theorem searches_of_runWithin {validator : String → Except String Measure} {capacities : List Nat} {n : Nat}
    (hfits : (initialState c capacities).cursor.current?.isSome = true)
    (h : runWithin c (evenAnswer validator) n (initialState c capacities) = some (generated, b, ending)) :
    Searches c (.validating validator) capacities generated b ending := by
  refine ⟨hfits, runs_of_runWithin (fun q => ?_) h⟩
  cases q with
  | predict => trivial
  | parse => rfl

end ScoreDecoding.BeamSearch
