import ScoreDecoding.Proofs.Trajectory

/-!
# What an iteration writes and takes back

An iteration that goes on either writes one token, or takes tokens back: the last one, which made a voice too long, or
the last event, whose timewarp is broken. Beam openings are taken out besides, but only if the validator has reported
an open beam. With a validator that never does, a sequence is a start that was left by a repair, and what was written
after it.

- `Writes` and `Repairs` are the two kinds of iterations (`writes_or_repairs`);
- `NoBeams` are such validators, with which writing appends (`tokens_of_writes`), repairing leaves a start of the
  sequence (`prefix_of_repairs`), and a run returns such a start, perhaps with an end (`prefix_of_stop`).
-/

namespace ScoreDecoding

/-- The validator never reports an open beam. -/
def Collaborators.NoBeams (K : Collaborators) : Prop :=
  ∀ text m, K (.parse text) (.ok m) → m.tail.beamOpen = false

namespace Sampler

variable (c : Setting) (K : Collaborators)

/-- An iteration that writes a token and goes on. Before a voice break it has asked about the voice that ends. -/
inductive Writes (s : State) : Token → State → Prop
  | pushed {predictor : Nat} {last x : Token} {u v : State} : s.tokens.getLast? = some last →
      Consults c K s last (c.grammar.row last) (.ok u) → Draws c K u predictor (c.grammar.row last) x v →
      x ≠ .vb → x ≠ .eom → Writes s x (push c v x)
  | voiceEnded {predictor : Nat} {last : Token} {u v : State} : s.tokens.getLast? = some last →
      Consults c K s last (c.grammar.row last) (.ok u) → Draws c K u predictor (c.grammar.row last) .vb v →
      (Validation.isTimewarpInvalid (tidy (push c v .vb)).tokens).ReturnsWith K (.ok false) →
      Writes s .vb (resetGuides c (tidy (push c v .vb)))

/-- An iteration that takes tokens back and goes on. -/
inductive Repairs (s : State) : State → Prop
  | takenBack {last : Token} {m : Measure} : s.tokens.getLast? = some last →
      K (.parse (Token.code s.tokens (some .eom))) (.ok m) → Repairs s (takeBack s last m.tail)
  | backtracked {predictor : Nat} {last x : Token} {u v : State} : s.tokens.getLast? = some last →
      Consults c K s last (c.grammar.row last) (.ok u) → Draws c K u predictor (c.grammar.row last) x v →
      x = .vb ∨ x = .eom → Repairs s (backtrack c (tidy (push c v x)))

variable {c K} {s t u v : State} {last x : Token} {row : TokenSet} {predictor : Nat} {ending : Ending}

/-- **An iteration that goes on writes or repairs.** -/
theorem writes_or_repairs (h : Iterates c K s (.next t)) : (∃ x, Writes c K s x t) ∨ Repairs c K s t := by
  cases h with
  | consulted hl hc =>
    cases hc with
    | takenBack _ _ hm => exact .inr (.takenBack hl hm)
  | extended _ hl hc he =>
    cases he with
    | pushed hd _ hv heom => exact .inl ⟨_, .pushed hl hc hd hv heom⟩
    | backtracked hd hx => exact .inr (.backtracked hl hc hd hx)
    | voiceEnded hd hi => exact .inl ⟨.vb, .voiceEnded hl hc hd hi⟩

/-! ## Without open beams -/

/-- No open beam was reported last. -/
def Closed (s : State) : Prop := s.status.any (·.beamOpen) = false

theorem closed_of_consults (hK : K.NoBeams) (hs : Closed s) (h : Consults c K s last row (.ok u)) : Closed u := by
  cases h with
  | unguided => exact hs
  | followed _ _ hm => exact hK _ _ hm
  | deepened =>
    obtain ⟨guide, hguide⟩ := guardDivisions_eq (deepen s) row
    rw [hguide]
    exact hs

theorem Draws.closed (h : Draws c K u predictor row x v) (hu : Closed u) : Closed v := by
  obtain ⟨random, rfl⟩ := h.eq
  exact hu

/-- A voice that ends is left as it is. -/
theorem tokens_tidy_of_closed (h : Draws c K u predictor row x v) (hu : Closed u) :
    (tidy (push c v x)).tokens = u.tokens ++ [x] := by
  show Repair.tidyBeams v.status (push c v x).tokens = _
  rw [Repair.tidyBeams_of_closed (h.closed hu), h.tokens_push]

/-- Writing a token appends it. -/
theorem tokens_of_writes (hK : K.NoBeams) (hs : Closed s) (h : Writes c K s x t) :
    Closed t ∧ t.tokens = s.tokens ++ [x] := by
  cases h with
  | pushed _ hc hd =>
    have hu := closed_of_consults hK hs hc
    rw [← tokens_of_consults hc]
    exact ⟨hd.closed hu, hd.tokens_push⟩
  | voiceEnded _ hc hd =>
    have hu := closed_of_consults hK hs hc
    rw [← tokens_of_consults hc]
    exact ⟨hd.closed hu, tokens_tidy_of_closed hd hu⟩

/-- Repairing leaves a start of the sequence. -/
theorem prefix_of_repairs (hK : K.NoBeams) (hs : Closed s) (h : Repairs c K s t) :
    Closed t ∧ t.tokens <+: s.tokens := by
  cases h with
  | takenBack _ hm => exact ⟨hK _ _ hm, List.dropLast_prefix _⟩
  | @backtracked predictor last x u v _ hc hd hx =>
    have hu := closed_of_consults hK hs hc
    refine ⟨hd.closed hu, ?_⟩
    obtain ⟨n, hn⟩ := tokens_backtrack hx hd
    rw [hn, Repair.tidyBeams_of_closed (hd.closed hu), tokens_of_consults hc]
    exact List.take_prefix _ _

/-- Closing a sequence leaves a start of it, and ends it. -/
theorem prefix_of_closeOut (g : Grammar) (hs : Closed s) :
    ∃ us, us <+: s.tokens ∧
      (Repair.closeOut g s.status s.tokens = us ∨ Repair.closeOut g s.status s.tokens = us ++ [.eom]) := by
  obtain ⟨n, hn⟩ := Repair.cutToEnd_eq_take g s.tokens
  refine ⟨s.tokens.take n, List.take_prefix _ _, .inr ?_⟩
  rw [Repair.closeOut, Repair.tidyBeams_of_closed hs, hn]

theorem prefix_of_extends (hs : Closed s) (h : Extends c K s predictor row (.stop t ending))
    (hok : ∀ e, ending ≠ .failed e) : ∃ us, us <+: s.tokens ∧ (t.tokens = us ∨ t.tokens = us ++ [.eom]) := by
  cases h with
  | nothingAdmissible => exact prefix_of_closeOut _ hs
  | quotaExceeded => exact prefix_of_closeOut (s := countStep s) _ hs
  | unanswered => exact absurd rfl (hok _)
  | unjudged => exact absurd rfl (hok _)
  | noFiniteLogit => exact ⟨_, List.prefix_refl _, .inl rfl⟩
  | paddingDrawn hd => exact ⟨_, List.prefix_refl _, .inl hd.tokens⟩
  | sampled hd => exact ⟨_, List.prefix_refl _, .inr (tokens_tidy_of_closed hd hs)⟩

/-- **An iteration that stops leaves a start of the sequence**, and may end it, unless it fails. -/
theorem prefix_of_stop (hK : K.NoBeams) (hs : Closed s) (h : Iterates c K s (.stop t ending))
    (hok : ∀ e, ending ≠ .failed e) : ∃ us, us <+: s.tokens ∧ (t.tokens = us ∨ t.tokens = us ++ [.eom]) := by
  cases h with
  | predictorsExhausted => exact prefix_of_closeOut _ hs
  | nothingLeft => exact prefix_of_closeOut _ hs
  | consulted _ hc =>
    cases hc with
    | unread => exact absurd rfl (hok _)
    | tooDeep => exact prefix_of_closeOut (s := deepen s) _ hs
  | extended _ _ hc he =>
    rw [← tokens_of_consults hc]
    exact prefix_of_extends (closed_of_consults hK hs hc) he hok

end Sampler

end ScoreDecoding
