import ScoreDecoding.Proofs.Transcript
import ScoreDecoding.Proofs.Writing

/-!
# Required tokens during a run

The masker hears of every token that is written, and is set back to the sequence by every repair. So what it misses at
any time follows from what the sequence was when it was last repaired, and what has been written since then. Beam
openings that are taken out are not told to it; without them this is what the sequence itself lacks.

- `Trail` leads to a state of a run with these two sequences, and `tracks_of_trail` is what has become of the masker;
- `Chooses` are the states in which a token is chosen: every predictor is asked in one (`exists_chooses`);
- `masker_follows_of_sample`: the masker misses what the sequence lacks, and has nothing to miss in the end exactly if
  the result holds all that is required.
-/

namespace ScoreDecoding

namespace Masker

variable {m n : Masker} {kept : Option (List Token)} {written : List Token} {x : Token}

/-! ## What has become of a masker -/

/-- A token is missing after others were written. If the masker was set back to a sequence before, that is what counts,
and otherwise what was missing at the beginning. -/
def Misses (m : Masker) (kept : Option (List Token)) (written : List Token) (x : Token) : Prop :=
  x ∉ written ∧ kept.elim (x ∈ m.pending) fun ts => x ∈ m.required ∧ x ∉ ts

/-- A masker comes from another one by what was kept and written. -/
structure Tracks (m : Masker) (kept : Option (List Token)) (written : List Token) (n : Masker) : Prop where
  required_eq : n.required = m.required
  mem_pending : ∀ x, x ∈ n.pending ↔ m.Misses kept written x
  wellFormed : m.WellFormed → n.WellFormed

theorem tracks_self (m : Masker) : m.Tracks none [] m where
  required_eq := rfl
  mem_pending x := by simp [Misses]
  wellFormed := id

/-- One more token has been written. -/
theorem Tracks.next (h : m.Tracks kept written n) (x : Token) : m.Tracks kept (written ++ [x]) (n.next x) where
  required_eq := (required_next n x).trans h.required_eq
  mem_pending y := by
    rw [mem_pending_next, h.mem_pending, Misses, Misses, List.mem_append, List.mem_singleton]
    tauto
  wellFormed hm := (h.wellFormed hm).next x

/-- The sequence was repaired. -/
theorem Tracks.rewind (h : m.Tracks kept written n) (ts : List Token) : m.Tracks (some ts) [] (n.rewind ts) where
  required_eq := (required_rewind n ts).trans h.required_eq
  mem_pending y := by
    rw [mem_pending_rewind, h.required_eq]
    simp [Misses]
  wellFormed hm := (h.wellFormed hm).rewind ts

/-- The masker misses what is required and not in the sequence, and admits what is missing or of the class of nothing
that is missing, where the class of a token is that of the names that begin with its leading capitals. -/
structure Follows (m : Masker) (ts : List Token) : Prop where
  mem_pending : ∀ x, x ∈ m.pending ↔ x ∈ m.required ∧ x ∉ ts
  mem_mask : ∀ x, x ∈ m.mask ↔ x ∈ m.pending ∨ ∀ y ∈ m.pending, y.header ≠ [] → ¬ y.header <+: x.name.toList

/-- A masker that was set to a sequence and then heard of all that was written follows the whole. -/
theorem Tracks.follows {start : List Token} (h : m.Tracks kept written n) (hm : m.WellFormed)
    (hstart : m.pending = m.required.diff (.ofList start)) : n.Follows (kept.getD start ++ written) where
  mem_pending x := by
    rw [h.mem_pending, h.required_eq, Misses, List.mem_append]
    cases kept with
    | none =>
      rw [hstart, TokenSet.mem_diff, TokenSet.mem_ofList]
      simp only [Option.getD_none, Option.elim_none]
      tauto
    | some ts =>
      simp only [Option.getD_some, Option.elim_some]
      tauto
  mem_mask _ := (h.wellFormed hm).mem_mask

end Masker

namespace Sampler

variable (c : Setting) (K : Collaborators)

/-! ## The masker of a state -/

/-- Iterations that go on from a state to another one: what the sequence was when it was last repaired, if it was, and
what has been written since then. -/
inductive Trail (s₀ : State) : Option (List Token) → List Token → State → Prop
  | start : Trail s₀ none [] s₀
  | written {kept : Option (List Token)} {written : List Token} {s t : State} {x : Token} : Trail s₀ kept written s →
      Writes c K s x t → Trail s₀ kept (written ++ [x]) t
  | repaired {kept : Option (List Token)} {written : List Token} {s t : State} : Trail s₀ kept written s →
      Repairs c K s t → Trail s₀ (some t.tokens) [] t

variable {c K} {s s₀ t u : State} {kept : Option (List Token)} {written : List Token} {m n : Masker} {x last : Token}
  {row : TokenSet} {predictor : Nat} {ending : Ending}

theorem exists_trail (h : Passes c K s₀ u) : ∃ kept written, Trail c K s₀ kept written u := by
  induction h with
  | refl => exact ⟨none, [], .start⟩
  | tail _ hstep ih =>
    obtain ⟨kept, written, htrail⟩ := ih
    rcases writes_or_repairs (step_returns hstep) with ⟨x, hw⟩ | hr
    · exact ⟨kept, written ++ [x], htrail.written hw⟩
    · exact ⟨_, [], htrail.repaired hr⟩

theorem masker_of_consults (h : Consults c K s last row (.ok u)) : u.masker = s.masker := by
  cases h with
  | unguided => rfl
  | followed => rfl
  | deepened =>
    obtain ⟨guide, hguide⟩ := guardDivisions_eq (deepen s) row
    rw [hguide]
    rfl

/-- The masker hears of the token that is drawn. -/
theorem Draws.masker_push (h : Draws c K s predictor row x u) : (push c u x).masker = s.masker.map (·.next x) := by
  obtain ⟨random, rfl⟩ := h.eq
  rfl

theorem masker_of_writes (h : Writes c K s x t) : t.masker = s.masker.map (·.next x) := by
  cases h with
  | pushed _ hc hd => rw [hd.masker_push, masker_of_consults hc]
  | voiceEnded _ hc hd =>
    rw [← masker_of_consults hc]
    exact hd.masker_push

/-- A repair sets the masker back to the sequence that it leaves, perhaps after it has heard of one more token. -/
theorem masker_of_repairs (h : Repairs c K s t) :
    t.masker = s.masker.map (·.rewind t.tokens) ∨
      ∃ x, t.masker = (s.masker.map (·.next x)).map (·.rewind t.tokens) := by
  cases h with
  | takenBack => exact .inl rfl
  | @backtracked predictor last x u v _ hc hd =>
    refine .inr ⟨x, ?_⟩
    rw [← masker_of_consults hc, ← hd.masker_push]
    rfl

/-- **What has become of the masker** of a run. -/
theorem tracks_of_trail (h : Trail c K s₀ kept written u) (hs : s₀.masker = some m) :
    ∃ n, u.masker = some n ∧ m.Tracks kept written n := by
  induction h with
  | start => exact ⟨m, hs, m.tracks_self⟩
  | @written kept written s t x _ hw ih =>
    obtain ⟨n, hn, htracks⟩ := ih
    refine ⟨n.next x, ?_, htracks.next x⟩
    rw [masker_of_writes hw, hn]
    rfl
  | @repaired kept written s t _ hr ih =>
    obtain ⟨n, hn, htracks⟩ := ih
    rcases masker_of_repairs hr with ht | ⟨x, ht⟩
    · rw [hn] at ht
      exact ⟨_, ht, htracks.rewind _⟩
    · rw [hn] at ht
      exact ⟨_, ht, (htracks.next x).rewind _⟩

/-- Without open beams the sequence is what was kept, with what was written after it. -/
theorem tokens_of_trail (hK : K.NoBeams) (hs : Closed s₀) (h : Trail c K s₀ kept written u) :
    Closed u ∧ u.tokens = kept.getD s₀.tokens ++ written := by
  induction h with
  | start => exact ⟨hs, (List.append_nil _).symm⟩
  | written _ hw ih =>
    obtain ⟨hclosed, htokens⟩ := ih
    obtain ⟨ht, happend⟩ := tokens_of_writes hK hclosed hw
    exact ⟨ht, by rw [happend, htokens, List.append_assoc]⟩
  | repaired _ hr ih => exact ⟨(prefix_of_repairs hK ih.1 hr).1, (List.append_nil _).symm⟩

/-! ## States in which a token is chosen -/

variable (c K) in
/-- A run comes to choose a token, in a state that the validator has been consulted about, with a predictor to ask. -/
inductive Chooses (s₀ : State) (predictor : Nat) (u : State) : Prop
  | mk {s : State} {last : Token} : Passes c K s₀ s → s.cursor.current? = some predictor →
      s.tokens.getLast? = some last → Consults c K s last (c.grammar.row last) (.ok u) → Chooses s₀ predictor u

theorem predict_not_mem_probes {descriptors : List Nat} {ts : List Token} :
    .predict predictor descriptors ts ∉ probes c s row := by
  intro hq
  unfold probes at hq
  split at hq <;> simp at hq

/-- A predictor that an iteration asks is asked in such a state, about its sequence. -/
theorem exists_chooses_of_inquires {qs : List Query} {o : Outcome} (hs : Passes c K s₀ s) (h : Inquires c K s qs o)
    {descriptors : List Nat} {ts : List Token} (hq : .predict predictor descriptors ts ∈ qs) :
    ∃ u, Chooses c K s₀ predictor u ∧ u.tokens = ts := by
  cases h with
  | predictorsExhausted => cases hq
  | nothingLeft => cases hq
  | consulted => exact absurd hq predict_not_mem_probes
  | @extended predictor' last u more _ hp hl hc hr =>
    have hmore := (List.mem_append.1 hq).resolve_left predict_not_mem_probes
    have hasked : Query.predict predictor descriptors ts = .predict predictor' c.options.descriptors u.tokens := by
      cases hr with
      | nobody => cases hmore
      | predicted => simpa using hmore
      | judged => simpa using hmore
    cases hasked
    exact ⟨u, .mk hs hp hl hc, rfl⟩

/-- Every question to a predictor is put in such a state, about its sequence. -/
theorem exists_chooses {log : List (List Query)} (h : Transcribes c K s log t ending) (hs : Passes c K s₀ s)
    {descriptors : List Nat} {ts : List Token} (hq : .predict predictor descriptors ts ∈ log.flatten) :
    ∃ u, Chooses c K s₀ predictor u ∧ u.tokens = ts := by
  induction h with
  | stop hstep =>
    rw [List.flatten_singleton] at hq
    exact exists_chooses_of_inquires hs (step_asks hstep) hq
  | next hstep _ ih =>
    rw [List.flatten_cons] at hq
    rcases List.mem_append.1 hq with hq | hq
    · exact exists_chooses_of_inquires hs (step_asks hstep) hq
    · exact ih (hs.tail hstep.returnsWith) hq

/-! ## Results -/

/-- The last iteration leaves the masker as it is, or has it hear of one more token. -/
theorem masker_of_stop (h : Iterates c K s (.stop t ending)) :
    t.masker = s.masker ∨ ∃ x, t.masker = s.masker.map (·.next x) := by
  cases h with
  | predictorsExhausted => exact .inl rfl
  | nothingLeft => exact .inl rfl
  | consulted _ hc =>
    cases hc with
    | unread => exact .inl rfl
    | tooDeep => exact .inl rfl
  | extended _ _ hc he =>
    rw [← masker_of_consults hc]
    cases he with
    | nothingAdmissible => exact .inl rfl
    | unanswered => exact .inl rfl
    | quotaExceeded => exact .inl rfl
    | noFiniteLogit => exact .inl rfl
    | paddingDrawn hd =>
      obtain ⟨random, rfl⟩ := hd.eq
      exact .inl rfl
    | @unjudged x _ _ hd => exact .inr ⟨x, hd.masker_push⟩
    | sampled hd => exact .inr ⟨.eom, hd.masker_push⟩

variable {capacities : List Nat} {random : Random} {r : Run} {ts : List Token}

/-- A run that does not fail gives back the masker as its result leaves it. -/
theorem masker_of_ends (hno : ∀ e, r.ending ≠ .failed e) (h : Ends c K capacities (some m) random u r) :
    ∃ n : Masker, n.required = m.required ∧ r.masker = some (n.rewind r.tokens) := by
  obtain ⟨kept, written, htrail⟩ := exists_trail h.passes
  obtain ⟨n, hn, htracks⟩ := tracks_of_trail htrail (m := m) rfl
  obtain ⟨-, -, t, ending, ho, rfl⟩ := h
  have hfinish : (finish t ending).masker = t.masker.map (·.rewind t.tokens) := by
    unfold finish
    split
    · rename_i e
      exact absurd rfl (hno e)
    · rfl
  rw [hfinish]
  rcases masker_of_stop (step_returns ho) with ht | ⟨x, ht⟩
  · exact ⟨n, htracks.required_eq, by rw [ht, hn]; rfl⟩
  · exact ⟨n.next x, (Masker.required_next n x).trans htracks.required_eq, by rw [ht, hn]; rfl⟩

/-- **The masker follows the sequence.** If it starts so, and no open beam is ever reported, then whenever a token is
chosen it misses what is required and not in the sequence, and its mask is the one for that; every predictor is asked in
such a state. And from any masker, a run that gives a result leaves nothing missing exactly if the result holds all that
is required. -/
theorem masker_follows_of_sample (K : Collaborators) (m : Masker) :
    (K.NoBeams → m.WellFormed → m.pending = m.required.diff (.ofList c.options.start) →
      (∀ predictor u, Chooses c K (initialState c capacities (some m) random) predictor u →
        ∃ n, u.masker = some n ∧ n.required = m.required ∧ n.Follows u.tokens) ∧
      ∀ qs r, (sample c capacities (some m) random).Asks K qs r → ∀ predictor descriptors ts,
        .predict predictor descriptors ts ∈ qs →
        ∃ u, Chooses c K (initialState c capacities (some m) random) predictor u ∧ u.tokens = ts) ∧
    ∀ r ts, (sample c capacities (some m) random).ReturnsWith K r → r.result = .ok ts →
      ∃ n, r.masker = some n ∧ n.required = m.required ∧ (n.isDisposed = true ↔ ∀ x ∈ m.required, x ∈ ts) := by
  constructor
  · intro hK hm hstart
    constructor
    · rintro predictor u ⟨hs, -, -, hc⟩
      obtain ⟨kept, written, htrail⟩ := exists_trail hs
      obtain ⟨n, hn, htracks⟩ := tracks_of_trail htrail (m := m) rfl
      have hclosed : Closed (initialState c capacities (some m) random) := rfl
      have htokens := (tokens_of_trail hK hclosed htrail).2
      refine ⟨n, (masker_of_consults hc).trans hn, htracks.required_eq, ?_⟩
      rw [tokens_of_consults hc, htokens]
      exact htracks.follows hm hstart
    · intro qs r h predictor descriptors ts hq
      obtain ⟨log, hlog, rfl⟩ := sample_asks_iff.1 h
      cases hlog with
      | refused => cases hq
      | run _ hrun => exact exists_chooses hrun .refl hq
  · intro r ts h hok
    obtain ⟨hno, rfl⟩ := result_eq_ok_iff.1 hok
    obtain ⟨u, hu⟩ := (sample_returns_iff_ends hno).1 h
    obtain ⟨n, hrequired, hmasker⟩ := masker_of_ends hno hu
    refine ⟨_, hmasker, (Masker.required_rewind _ _).trans hrequired, ?_⟩
    rw [Masker.isDisposed_iff, ← hrequired]
    simp [Masker.mem_pending_rewind]

/-- A measure that is to go on after a quarter, with an eighth and a sixteenth required. -/
def eighthWanted : Setting where
  grammar := .ofSentences [[.bom, .pitchC, .d4, .eom], [.bom, .pitchC, .d8, .eom], [.bom, .pitchC, .d16, .eom]]
  options := { temperature := 0, primer := [.bom, .pitchC, .d4, .pitchC] }

/-- A validator for which an eighth after the quarter is too long, beside a predictor that likes eighths best, and the
end. -/
def eighthWantedAnswer : (q : Query) → q.Answer
  | .predict .. => .ok (Token.all.map fun t => if t = .d8 then 30 else if t = .eom then 20 else 0).toArray
  | .parse text => .ok { tail := { filling := some (if text == "BOM c D4 c D8 EOM" then 1 else -1) } }

/-- The eighth is written and taken back. Then both tokens are missing again, and after the sixteenth the measure ends
without the eighth. -/
theorem masker_follows_of_sample_takenBack :
    ∃ u r, Chooses eighthWanted (.exactly eighthWantedAnswer)
        (initialState eighthWanted [64] (some (.ofList [.d8, .d16])) (.ofSeed 1)) 0 u ∧
      u.tokens = [.bom, .pitchC, .d4, .pitchC] ∧ .d8 ∉ u.voiceGuide ∧
      (∃ n, u.masker = some n ∧ n.required = .ofList [.d8, .d16] ∧ n.Follows u.tokens ∧ .d8 ∈ n.pending) ∧
      (sample eighthWanted [64] (some (.ofList [.d8, .d16])) (.ofSeed 1)).ReturnsWith (.exactly eighthWantedAnswer) r ∧
      r.result = .ok [.bom, .pitchC, .d4, .pitchC, .d16, .eom] ∧
      ∃ n, r.masker = some n ∧ n.required = .ofList [.d8, .d16] ∧ ¬ n.isDisposed = true := by
  have hK : (Collaborators.exactly eighthWantedAnswer).NoBeams := by
    intro text m hm
    obtain rfl := Except.ok.inj hm
    rfl
  -- after the eighth was written and taken back
  have hreached : (reached eighthWanted eighthWantedAnswer 2
      (initialState eighthWanted [64] (some (.ofList [.d8, .d16])) (.ofSeed 1))).map
        (fun s => (s.tokens, s.cursor.current?, s.voiceGuide.contains .d8, s.depth)) =
      some ([.bom, .pitchC, .d4, .pitchC], some 0, false, 0) := by decide +kernel
  obtain ⟨s, hs, he⟩ := Option.map_eq_some_iff.1 hreached
  obtain ⟨htokens, hcursor, hguide, hdepth⟩ := by simpa only [Prod.mk.injEq] using he
  obtain ⟨guide, hguarded⟩ := guardDivisions_eq (deepen s) (eighthWanted.grammar.row .pitchC)
  have hconsults : Consults eighthWanted (.exactly eighthWantedAnswer) s .pitchC (eighthWanted.grammar.row .pitchC)
      (.ok { deepen s with guide }) :=
    hguarded ▸ .deepened rfl (by decide +kernel) (by rw [hdepth]; decide)
  have hchooses : Chooses eighthWanted (.exactly eighthWantedAnswer)
      (initialState eighthWanted [64] (some (.ofList [.d8, .d16])) (.ofSeed 1)) 0 { deepen s with guide } :=
    .mk (passes_of_reached (fun _ => rfl) hs) hcursor (by rw [htokens]; rfl) hconsults
  have hrun : (runWithin eighthWanted eighthWantedAnswer 6
      (initialState eighthWanted [64] (some (.ofList [.d8, .d16])) (.ofSeed 1))).map (fun r => (r.1.tokens, r.2)) =
      some ([.bom, .pitchC, .d4, .pitchC, .d16, .eom], .sampled) := by decide +kernel
  obtain ⟨⟨t, ending⟩, hr, he⟩ := Option.map_eq_some_iff.1 hrun
  obtain ⟨ht, rfl⟩ := Prod.mk.inj he
  have hsample := sample_of_runWithin (K := .exactly eighthWantedAnswer) (fun _ => rfl) (by decide +kernel) hr
  have hok : (finish t .sampled).result = .ok [.bom, .pitchC, .d4, .pitchC, .d16, .eom] := congrArg Except.ok ht
  obtain ⟨hfollows, hdisposed⟩ := masker_follows_of_sample (.exactly eighthWantedAnswer) (.ofList [.d8, .d16])
  obtain ⟨n, hn, hrequired, hn'⟩ :=
    (hfollows hK (Masker.wellFormed_ofList _) (by decide +kernel)).1 0 _ hchooses
  obtain ⟨n', hleft, hrequired', hend⟩ := hdisposed _ _ hsample hok
  have hmissing : .d8 ∈ n.pending := by
    refine (hn'.mem_pending .d8).2 ⟨by rw [hrequired]; decide +kernel, ?_⟩
    show .d8 ∉ s.tokens
    rw [htokens]
    decide
  refine ⟨_, _, hchooses, htokens, ?_, ⟨n, hn, hrequired, hn', hmissing⟩, hsample, hok, n', hleft, hrequired', ?_⟩
  · show .d8 ∉ s.voiceGuide
    rw [TokenSet.mem_iff, hguide]
    exact Bool.false_ne_true
  · rw [hend]
    decide +kernel

end Sampler

end ScoreDecoding
