import ScoreDecoding.Proofs.Requirements

/-!
# Failed runs and required tokens

A run that gives a sequence leaves the masker as that sequence wants it. A run that fails gives none, and leaves the
masker as it is at that time: set back by the repairs, and with all that was written since then taken for granted.

- `Breaks` are the iterations in which a collaborator fails, with what they have written before, and `Fails` the runs;
- `Masker.Undisturbed` is what it takes for the same tokens to be missing again;
- `masker_eq_iff_of_failed`: only then a failed run gives the masker back as it was.
-/

namespace ScoreDecoding

namespace Masker

variable {m n : Masker} {kept : Option (List Token)} {written : List Token}

/-- The same is missing again. Without a repair this says that nothing that was missing has been written, and after a
repair that what was missing before is all that is required and neither in the sequence nor written since then. -/
def Undisturbed (m : Masker) (kept : Option (List Token)) (written : List Token) : Prop :=
  kept.elim (∀ x ∈ written, x ∉ m.pending) fun ts => ∀ x, x ∈ m.pending ↔ x ∈ m.required ∧ x ∉ ts ∧ x ∉ written

theorem undisturbed_iff : m.Undisturbed kept written ↔ ∀ x, m.Misses kept written x ↔ x ∈ m.pending := by
  cases kept with
  | none =>
    constructor
    · intro h x
      exact ⟨And.right, fun hx => ⟨fun hw => h x hw hx, hx⟩⟩
    · intro h x hw hx
      exact ((h x).2 hx).1 hw
  | some ts =>
    refine forall_congr' fun x => ?_
    show (x ∈ m.pending ↔ _) ↔ (x ∉ written ∧ x ∈ m.required ∧ x ∉ ts ↔ x ∈ m.pending)
    tauto

/-- A masker is the same again if the same is missing. -/
theorem Tracks.eq_iff (h : m.Tracks kept written n) (hm : m.WellFormed) : n = m ↔ m.Undisturbed kept written := by
  rw [hm.eq_iff (h.wellFormed hm) h.required_eq, undisturbed_iff]
  simp only [h.mem_pending]

end Masker

namespace Sampler

variable (c : Setting) (K : Collaborators)

/-! ## Iterations that fail -/

/-- An iteration in which a collaborator fails, with what has been written before: nothing, or the token that was to
end a voice. -/
inductive Breaks (s : State) : List Token → State → DecodingError → Prop
  | unread {last : Token} {e : DecodingError} : s.tokens.getLast? = some last →
      Consults c K s last (c.grammar.row last) (.error (.stop s (.failed e))) → Breaks s [] s e
  | unanswered {predictor : Nat} {last : Token} {u : State} {reason : String} :
      s.cursor.current? = some predictor → s.tokens.getLast? = some last →
      Consults c K s last (c.grammar.row last) (.ok u) →
      K (.predict predictor c.options.descriptors u.tokens) (.error reason) → Breaks s [] u (.predictor reason)
  | unjudged {predictor : Nat} {last x : Token} {u v : State} {e : DecodingError} :
      s.cursor.current? = some predictor → s.tokens.getLast? = some last →
      Consults c K s last (c.grammar.row last) (.ok u) → Draws c K u predictor (c.grammar.row last) x v →
      x = .vb ∨ x = .eom → (Validation.isTimewarpInvalid (tidy (push c v x)).tokens).ReturnsWith K (.error e) →
      Breaks s [x] (tidy (push c v x)) e

variable {c K} {s t : State} {kept : Option (List Token)} {written : List Token} {e : DecodingError} {m n : Masker}

theorem breaks_of_iterates (h : Iterates c K s (.stop t (.failed e))) : ∃ xs, Breaks c K s xs t e := by
  cases h with
  | consulted hl hc =>
    cases hc with
    | unread hg hrow he => exact ⟨[], .unread hl (.unread hg hrow he)⟩
  | extended hp hl hc he =>
    cases he with
    | unanswered ha => exact ⟨[], .unanswered hp hl hc ha⟩
    | unjudged hd hx hi => exact ⟨_, .unjudged hp hl hc hd hx hi⟩

/-- The masker has heard of what was written before the failure. -/
theorem tracks_of_breaks {xs : List Token} (hs : s.masker = some n) (hn : m.Tracks kept written n)
    (h : Breaks c K s xs t e) : ∃ n', t.masker = some n' ∧ m.Tracks kept (written ++ xs) n' := by
  cases h with
  | unread => exact ⟨n, hs, by rwa [List.append_nil]⟩
  | unanswered _ _ hc => exact ⟨n, (masker_of_consults hc).trans hs, by rwa [List.append_nil]⟩
  | @unjudged predictor last x u v e _ _ hc hd =>
    refine ⟨n.next x, ?_, hn.next x⟩
    show (push c v x).masker = _
    rw [hd.masker_push, masker_of_consults hc, hs]
    rfl

/-! ## Runs that fail -/

variable {capacities : List Nat} {masker : Option Masker} {random : Random} {r : Run}

variable (c K) in
/-- A run that fails, with what was kept by its last repair, if there was one, and what was written after that. -/
inductive Fails (capacities : List Nat) (masker : Option Masker) (random : Random) :
    Option (List Token) → List Token → Run → Prop
  | refused : (initialState c capacities masker random).cursor.current? = none →
      Fails capacities masker random none [] {
        tokens := c.options.start
        ending := .failed (.noPredictor (c.options.descriptors.length + c.options.start.length))
        masker, random }
  | stopped {kept : Option (List Token)} {written xs : List Token} {s t : State} {e : DecodingError} :
      Trail c K (initialState c capacities masker random) kept written s → Breaks c K s xs t e →
      Fails capacities masker random kept (written ++ xs) (finish t (.failed e))

/-- **Runs without a result fail in one of these ways.** -/
theorem exists_fails (h : (sample c capacities masker random).ReturnsWith K r) (he : r.result = .error e) :
    ∃ kept written, Fails c K capacities masker random kept written r := by
  cases hp : (initialState c capacities masker random).cursor.current? with
  | none =>
    simp only [sample, hp, Dialogue.returnsWith_done] at h
    exact ⟨none, [], h ▸ .refused hp⟩
  | some predictor =>
    obtain ⟨t, ending, ht, rfl⟩ := (sample_returns_iff hp).1 h
    obtain ⟨u, hu, ho⟩ := iterate_returns_iff_passes.1 ht
    obtain ⟨kept, written, htrail⟩ := exists_trail hu
    cases ending with
    | failed e' =>
      obtain ⟨xs, hxs⟩ := breaks_of_iterates (step_returns ho)
      exact ⟨kept, written ++ xs, .stopped htrail hxs⟩
    | sampled => cases he
    | closed => cases he
    | noFiniteLogit => cases he
    | paddingDrawn => cases he

/-- What has become of the masker of a run that fails. -/
theorem tracks_of_fails (h : Fails c K capacities (some m) random kept written r) :
    ∃ n, r.masker = some n ∧ m.Tracks kept written n := by
  cases h with
  | refused => exact ⟨m, rfl, m.tracks_self⟩
  | stopped htrail hb =>
    obtain ⟨n, hn, htracks⟩ := tracks_of_trail htrail rfl
    exact tracks_of_breaks hn htracks hb

/-- **A failed run gives the masker back as it was exactly if it has left the same missing** by what it wrote and
repaired before the failure, whatever that was. -/
theorem masker_eq_iff_of_failed (hm : m.WellFormed)
    (h : (sample c capacities (some m) random).ReturnsWith K r) (he : r.result = .error e) :
    (∃ kept written, Fails c K capacities (some m) random kept written r) ∧
      ∀ kept written, Fails c K capacities (some m) random kept written r →
        (r.masker = some m ↔ m.Undisturbed kept written) := by
  refine ⟨exists_fails h he, fun kept written hfails => ?_⟩
  obtain ⟨n, hn, htracks⟩ := tracks_of_fails hfails
  rw [hn, Option.some.injEq]
  exact htracks.eq_iff hm

/-- A measure of one quarter. -/
def oneQuarter : Setting where
  grammar := .ofSentences [[.bom, .pitchC, .d4, .eom]]
  options := { temperature := 0 }

/-- A predictor that cannot say what comes after three tokens, beside a validator that is content with all texts. -/
def failsAfterThree : (q : Query) → q.Answer
  | .predict _ _ ts =>
    if ts.length < 3 then .ok (Token.all.map fun _ => 0).toArray else .error "predictor down at 3"
  | .parse _ => .ok {}

/-- The required quarter is written before the predictor fails. No sequence is returned that holds it, yet it is not
missing any more. -/
theorem masker_eq_iff_of_failed_quarter :
    ∃ r kept written, (Masker.ofList [.d4]).WellFormed ∧
      (sample oneQuarter [64] (some (.ofList [.d4])) (.ofSeed 1)).ReturnsWith (.exactly failsAfterThree) r ∧
      r.result = .error (.predictor "predictor down at 3") ∧
      Fails oneQuarter (.exactly failsAfterThree) [64] (some (.ofList [.d4])) (.ofSeed 1) kept written r ∧
      r.masker = some { required := .ofList [.d4], pending := .empty, mask := .full } ∧
      r.masker ≠ some (.ofList [.d4]) ∧ ¬ (Masker.ofList [.d4]).Undisturbed kept written := by
  have hrun : (runWithin oneQuarter failsAfterThree 3
      (initialState oneQuarter [64] (some (.ofList [.d4])) (.ofSeed 1))).map (fun r => (r.1.masker, r.2)) =
      some (some { required := .ofList [.d4], pending := .empty, mask := .full },
        .failed (.predictor "predictor down at 3")) := by decide +kernel
  obtain ⟨⟨t, ending⟩, hr, he⟩ := Option.map_eq_some_iff.1 hrun
  obtain ⟨ht, rfl⟩ := Prod.mk.inj he
  have hsample := sample_of_runWithin (K := .exactly failsAfterThree) (fun _ => rfl) (by decide +kernel) hr
  have hchanged : t.masker ≠ some (.ofList [.d4]) := by
    rw [ht]
    decide +kernel
  obtain ⟨⟨kept, written, hfails⟩, hiff⟩ := masker_eq_iff_of_failed (Masker.wellFormed_ofList [.d4]) hsample rfl
  exact ⟨_, kept, written, Masker.wellFormed_ofList _, hsample, rfl, hfails, ht, hchanged,
    fun h => hchanged ((hiff kept written hfails).2 h)⟩

end Sampler

end ScoreDecoding
