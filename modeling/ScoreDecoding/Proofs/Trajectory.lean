import ScoreDecoding.Proofs.Guide
import ScoreDecoding.Proofs.Iteration
import ScoreDecoding.Proofs.Repair
import Mathlib.Logic.Relation

/-!
# The states of a run

A run of guided sampling passes from state to state by iterations that go on, and ends with one that stops. What is said
of its last iteration, such as which sequence the validator was asked about before the end was drawn, is about the state
in which that iteration starts.

- `Passes` leads from state to state, and `Ends` is a whole run with the state of its last iteration: every run that
  does not fail has one (`sample_returns_iff_ends`);
- `passes_induction`: what every iteration that goes on keeps holds in all states of a run;
- `followed_of_consults`: a guide that lets the measure end is the one that the validator has set in this iteration.
-/

namespace ScoreDecoding.Sampler

variable (c : Setting) (K : Collaborators)

/-- Iterations that go on lead from one state to another. -/
abbrev Passes : State → State → Prop := Relation.ReflTransGen fun s t => (step c s).ReturnsWith K (.next t)

/-- A whole run whose last iteration starts in a state. -/
structure Ends (capacities : List Nat) (masker : Option Masker) (random : Random) (u : State) (r : Run) : Prop where
  fits : (initialState c capacities masker random).cursor.current?.isSome = true
  passes : Passes c K (initialState c capacities masker random) u
  stops : ∃ t ending, (step c u).ReturnsWith K (.stop t ending) ∧ r = finish t ending

variable {c K} {s t u : State} {r : Run} {capacities : List Nat} {masker : Option Masker} {random : Random}

/-! ## Runs -/

/-- What iterations that go on keep holds wherever they lead. -/
theorem passes_induction {I : State → Prop} (next : ∀ s t, I s → Iterates c K s (.next t) → I t)
    (h : Passes c K s u) (hs : I s) : I u := by
  induction h with
  | refl => exact hs
  | tail _ h ih => exact next _ _ ih (step_returns h)

/-- A run passes to the state of its last iteration. -/
theorem iterate_returns_iff_passes {ending : Ending} :
    (iterate c s).ReturnsWith K (t, ending) ↔
      ∃ u, Passes c K s u ∧ (step c u).ReturnsWith K (.stop t ending) := by
  constructor
  · intro h
    induction s using iterate.induct c with
    | case1 s ih =>
      rcases iterate_returns_iff.1 h with ho | ⟨v, hv, h⟩
      · exact ⟨s, .refl, ho⟩
      · obtain ⟨u, hu, ho⟩ := ih v hv.returns h
        exact ⟨u, .head hv hu, ho⟩
  · rintro ⟨u, hu, ho⟩
    induction hu using Relation.ReflTransGen.head_induction_on with
    | refl => exact iterate_returns_iff.2 (.inl ho)
    | head hv _ ih => exact iterate_returns_iff.2 (.inr ⟨_, hv, ih⟩)

/-- The runs that give a sequence are those that have a last iteration. -/
theorem sample_returns_iff_ends (hr : ∀ e, r.ending ≠ .failed e) :
    (sample c capacities masker random).ReturnsWith K r ↔ ∃ u, Ends c K capacities masker random u r := by
  constructor
  · intro h
    cases hp : (initialState c capacities masker random).cursor.current? with
    | none =>
      simp only [sample, hp, Dialogue.returnsWith_done] at h
      rw [h] at hr
      exact absurd rfl (hr _)
    | some predictor =>
      obtain ⟨t, ending, ht, rfl⟩ := (sample_returns_iff hp).1 h
      obtain ⟨u, hu, ho⟩ := iterate_returns_iff_passes.1 ht
      exact ⟨u, hp ▸ rfl, hu, t, ending, ho, rfl⟩
  · rintro ⟨u, hp, hu, t, ending, ho, rfl⟩
    obtain ⟨predictor, hp⟩ := Option.isSome_iff_exists.1 hp
    exact (sample_returns_iff hp).2 ⟨t, ending, iterate_returns_iff_passes.2 ⟨u, hu, ho⟩, rfl⟩

/-- The result of a run is its sequence, unless a collaborator failed. -/
theorem result_eq_ok_iff {ts : List Token} : r.result = .ok ts ↔ (∀ e, r.ending ≠ .failed e) ∧ r.tokens = ts := by
  unfold Run.result
  split
  · rename_i e he
    constructor
    · intro h
      cases h
    · intro h
      exact absurd he (h.1 e)
  · rename_i hno
    rw [Except.ok.injEq]
    exact ⟨fun h => ⟨hno, h⟩, fun h => h.2⟩

theorem ends_induction {I : State → Prop} (next : ∀ s t, I s → Iterates c K s (.next t) → I t)
    (hs : I (initialState c capacities masker random)) (h : Ends c K capacities masker random u r) : I u :=
  passes_induction next h.passes hs

/-- The last iteration leaves the sequence that the run returns. -/
theorem Ends.iterates (h : Ends c K capacities masker random u r) :
    ∃ t, Iterates c K u (.stop t r.ending) ∧ r.tokens = t.tokens := by
  obtain ⟨-, -, t, ending, ho, rfl⟩ := h
  exact ⟨t, step_returns ho, rfl⟩

/-- The state after so many iterations with answers that depend on the questions alone, if they all go on. -/
def reached (c : Setting) (answer : (q : Query) → q.Answer) : Nat → State → Option State
  | 0, s => some s
  | n + 1, s => match (step c s).eval answer with
    | .stop .. => none
    | .next t => reached c answer n t

theorem passes_of_reached {answer : (q : Query) → q.Answer} (hK : ∀ q, K q (answer q)) {n : Nat}
    (h : reached c answer n s = some u) : Passes c K s u := by
  induction n generalizing s with
  | zero =>
    obtain rfl := Option.some.inj h
    exact .refl
  | succ n ih =>
    have hs := Dialogue.returnsWith_eval hK (step c s)
    unfold reached at h
    split at h
    · cases h
    · rename_i t ho
      rw [ho] at hs
      exact .head hs (ih h)

/-! ## The iteration in which a voice ends -/

/-- The guide that the validator sets lets no voice end while a beam is open, and none that has to go on. -/
theorem mem_follow {status : TailStatus} {x : Token} :
    x ∈ (follow c s status).guide ↔ x ∈ Guide.ofStatus status ∧ (status.beamOpen = true → x ≠ .vb) ∧
      (mustFill c s status = true → x ≠ .vb ∧ x ≠ .eom) := by
  cases hb : status.beamOpen <;> cases hf : mustFill c s status <;> simp [follow, hb, hf, and_assoc]

/-- Where the measure may end, a token is chosen under the guide that the validator has just set. -/
theorem followed_of_consults {last : Token} {row : TokenSet} (hguide : c.options.parserGuide = true) (hrow : .eom ∈ row)
    (h : Consults c K s last row (.ok u)) :
    ∃ m, K (.parse (Token.code s.tokens (some .eom))) (.ok m) ∧ m.tail.isOverflowing = false ∧
      u = follow c s m.tail := by
  cases h with
  | unguided hno =>
    rw [hguide] at hno
    cases hno
  | followed _ _ hm ho => exact ⟨_, hm, ho, rfl⟩
  | deepened _ hno => exact absurd hrow hno

/-- Drawing a token changes the number of steps and the generator. -/
theorem Draws.eq {predictor : Nat} {row : TokenSet} {x : Token} (h : Draws c K s predictor row x u) :
    ∃ random, u = { countStep s with random } := by
  obtain ⟨-, -, -⟩ := h
  exact ⟨_, rfl⟩

theorem Draws.tokens_push {predictor : Nat} {row : TokenSet} {x : Token} (h : Draws c K s predictor row x u) :
    (push c u x).tokens = s.tokens ++ [x] := by
  rw [push, h.tokens]

/-- A voice that has ended is what was there before with its beams tidied, and the token that ends it. -/
theorem tokens_tidy_push {predictor : Nat} {row : TokenSet} {x : Token} (hx : x = .vb ∨ x = .eom)
    (h : Draws c K s predictor row x u) :
    (tidy (push c u x)).tokens = Repair.tidyBeams u.status s.tokens ++ [x] := by
  show Repair.tidyBeams u.status (push c u x).tokens = _
  rw [h.tokens_push, Repair.tidyBeams_concat hx]

/-- Going back takes away the token that has ended the voice. -/
theorem tokens_backtrack {predictor : Nat} {row : TokenSet} {x : Token} (hx : x = .vb ∨ x = .eom)
    (h : Draws c K s predictor row x u) :
    ∃ n, (backtrack c (tidy (push c u x))).tokens = (Repair.tidyBeams u.status s.tokens).take n := by
  have htokens := tokens_tidy_push hx h
  refine ⟨Repair.lastEventStart (tidy (push c u x)).tokens, ?_⟩
  show (tidy (push c u x)).tokens.take _ = _
  rw [htokens]
  exact List.take_append_of_le_length (Repair.lastEventStart_concat_le hx _)

theorem Draws.admits {predictor : Nat} {row : TokenSet} {x : Token} (h : Draws c K s predictor row x u) :
    x ∈ row ∧ x ∈ s.guide :=
  have hm := mem_admissible.1 h.mem
  ⟨hm.1, hm.2.1⟩

/-- The end is sampled after the validator was asked about the sequence as it ends, and has let it end. -/
theorem sampled_of_iterates (hguide : c.options.parserGuide = true) (h : Iterates c K s (.stop t .sampled)) :
    ∃ m, K (.parse (Token.code s.tokens (some .eom))) (.ok m) ∧ m.tail.isOverflowing = false ∧
      .eom ∈ (follow c s m.tail).guide ∧ t.tokens = Repair.tidyBeams (some m.tail) (s.tokens ++ [.eom]) ∧
      (Validation.isTimewarpInvalid t.tokens).ReturnsWith K (.ok false) := by
  cases h with
  | consulted _ hc => cases hc
  | extended _ _ hc he =>
    cases he with
    | @sampled w hd hi =>
      obtain ⟨hrow, hmem⟩ := hd.admits
      obtain ⟨m, hm, ho, rfl⟩ := followed_of_consults hguide hrow hc
      obtain ⟨random, rfl⟩ := hd.eq
      exact ⟨m, hm, ho, hmem, rfl, hi⟩

end ScoreDecoding.Sampler
