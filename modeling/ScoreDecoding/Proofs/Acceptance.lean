import ScoreDecoding.Proofs.Guide
import ScoreDecoding.Proofs.History

/-!
# What a complete result has passed

A branch is judged as it stands, with the end of the measure added, before it is continued. The guide that it gets
decides whether the end may then be chosen, so that a complete branch has been judged on its own text.

- `Tolerates` is what the validator has said of a measure that goes on (`tolerates_of_guideOf`), and `Accepts` of one
  that may end (`accepts_of_guideOf`);
- `accepts_of_search`: it has said so of every complete result.
-/

namespace ScoreDecoding.BeamSearch

variable (c : Setting)

/-! ## Guides that let a measure go on -/

/-- What the validator has said of a measure that goes on or may end. -/
structure Tolerates (m : Measure) : Prop where
  not_long : ∀ f, m.tail.filling = some f → f ≤ 0
  not_stuck : ¬ (m.tail.beamOpen = true ∧ m.tail.filling = some 0)
  in_window : c.options.limitPitch = true → ∀ chord, m.tail.chord = some chord → ∀ p ∈ chord,
    c.options.pitchWindow.low ≤ p.note ∧ p.note ≤ c.options.pitchWindow.high
  no_collision : c.options.forbidCollisions = true → m.hasCollision false = false

/-- What the validator has said of a measure that may end. -/
structure Accepts (tokens : List Token) (m : Measure) : Prop where
  not_long : ∀ f, m.tail.filling = some f → f ≤ 0
  beam_closed : m.tail.beamOpen = false
  warp_finished : m.tail.filling = some 0 → m.tail.incompleteTimeWarping = false
  in_window : c.options.limitPitch = true → ∀ chord, m.tail.chord = some chord → ∀ p ∈ chord,
    c.options.pitchWindow.low ≤ p.note ∧ p.note ≤ c.options.pitchWindow.high
  no_collision : c.options.forbidCollisions = true → m.hasCollision false = false
  not_short : c.options.forbidPartial = true → .vb ∉ tokens → ∀ f, m.tail.filling = some f → 0 ≤ f

variable {c} {K : Collaborators} {b d : Branch}

/-- A branch that gets a guide is not rejected. -/
theorem tolerates_of_guideOf {tokens : List Token} {m : Measure} {guide : TokenSet}
    (h : guideOf? c tokens m = some guide) : Tolerates c m := by
  unfold guideOf? at h
  split at h
  · cases h
  · rename_i hkept
    simp only [Bool.or_eq_true, not_or, Bool.not_eq_true] at hkept
    obtain ⟨⟨⟨hlong, hwindow⟩, hcollision⟩, hstuck⟩ := hkept
    refine ⟨?_, ?_, ?_, ?_⟩
    · intro f hf
      rw [TailStatus.isOverflowing, hf] at hlong
      exact Int8.not_lt.1 (by simpa using hlong)
    · rintro ⟨hbeam, hfull⟩
      rw [hbeam, TailStatus.isFull, hfull] at hstuck
      exact absurd hstuck (by decide)
    · intro hl chord hc p hp
      have hin : ∀ p ∈ chord, c.options.pitchWindow.contains p.note = true := by
        simpa [leavesWindow, hl, hc] using hwindow
      simpa [PitchWindow.contains] using hin p hp
    · intro hc
      simpa [hc] using hcollision

/-- **Where a guide lets the measure end**, nothing stands against it. -/
theorem accepts_of_guideOf {tokens : List Token} {m : Measure} {guide : TokenSet}
    (h : guideOf? c tokens m = some guide) (he : .eom ∈ guide) : Accepts c tokens m := by
  have ht := tolerates_of_guideOf h
  obtain ⟨hstatus, hends⟩ := (mem_guideOf h).1 he
  have hfree : (m.tail.beamOpen || mustFill c tokens m.tail) = false := by
    rw [← Bool.not_eq_true]
    exact fun hb => (hends hb).2 rfl
  obtain ⟨hbeam, hfill⟩ := Bool.or_eq_false_iff.1 hfree
  refine ⟨ht.not_long, hbeam, Guide.not_incomplete_of_mem_ofStatus hstatus, ht.in_window, ht.no_collision, ?_⟩
  intro hp hv f hf
  have hpartial : m.tail.isPartial = false := by simpa [mustFill, hp, hv] using hfill
  rw [TailStatus.isPartial, hf] at hpartial
  exact Int8.not_lt.1 (by simpa using hpartial)

/-- A child that ends the measure was judged on its own text, unless the measure ends with a voice break. -/
theorem accepts_of_child {predictor : Nat} (hg : c.grammar.allows .vb .eom = false) (h : Child c K predictor b d)
    (hd : d.last = .eom) :
    ∃ m, K (.parse (Token.code d.tokens none)) (.ok m) ∧ Accepts c d.tokens m := by
  obtain ⟨hrow, hguide, -⟩ := h.admits
  rw [hd] at hrow hguide
  have htokens := h.tokens_eq
  rw [hd] at htokens
  obtain ⟨k, hk, hkg, -⟩ := h.continues
  rw [hkg] at hguide
  cases hk with
  | voiceStarted hv =>
    rw [hv, hg] at hrow
    cases hrow
  | @judged m _ _ _ hm hgm =>
    refine ⟨m, ?_, ?_⟩
    · rwa [htokens, Validation.code_append]
    · have ha := accepts_of_guideOf hgm hguide
      refine { ha with not_short := fun hp hv => ha.not_short hp fun hb => hv ?_ }
      rw [htokens]
      exact List.mem_append_left _ hb
  | deepened _ hno =>
    rw [hno] at hrow
    cases hrow

/-! ## Results -/

/-- **A complete result was accepted by the validator**, on its own text, if the grammar lets no measure end with a
voice break and the result is more than the primer. -/
theorem accepts_of_search {validator : String → Except String Measure} {capacities : List Nat} {ending : Ending}
    (hg : c.grammar.allows .vb .eom = false)
    (h : (search c capacities).ReturnsWith (.validating validator) (.ok (b, ending))) (hb : b.last = .eom)
    (hlong : c.options.primer.length < b.tokens.length) :
    ∃ m, validator (Token.code b.tokens none) = .ok m ∧ Accepts c b.tokens m := by
  obtain ⟨generated, hs⟩ := search_returns_iff.1 h
  cases (descends_of_searches hs).2 with
  | root =>
    -- the root is no longer than the primer, or it is the begin of a measure
    exfalso
    by_cases hp : c.options.primer = []
    · simp [root, RunOptions.start, hp] at hb
    · simp [root, RunOptions.start, hp] at hlong
  | child _ hd =>
    obtain ⟨m, hm, ha⟩ := accepts_of_child hg hd hb
    exact ⟨m, hm.symm, ha⟩

/-- Every check that may be asked for. -/
def strictSetting : Setting where
  grammar := .ofSentences [[.bom, .pitchC, .d1, .eom]]
  options := { limitPitch := true, forbidCollisions := true, forbidPartial := true }
  elementary := evenElementary

/-- A validator that hears the middle C in a whole measure. -/
def hearsMiddleC (text : String) : Except String Measure :=
  .ok { tail := { filling := some (if text == "BOM c D1 EOM" then 0 else -1), chord := some [{ letter := .pitchC }] } }

/-- The middle C for a whole measure passes every check. -/
theorem accepts_of_search_middleC :
    ∃ b m, (search strictSetting [64]).ReturnsWith (.validating hearsMiddleC) (.ok (b, .bestComplete)) ∧
      b.tokens = [.bom, .pitchC, .d1, .eom] ∧ hearsMiddleC "BOM c D1 EOM" = .ok m ∧
      Accepts strictSetting [.bom, .pitchC, .d1, .eom] m := by
  have hrun : (runWithin strictSetting (evenAnswer hearsMiddleC) 4 (initialState strictSetting [64])).map
      (fun r => (r.2.1.tokens, r.2.1.last, r.2.2)) =
      some ([.bom, .pitchC, .d1, .eom], .eom, .bestComplete) := by decide +kernel
  obtain ⟨⟨generated, b, ending⟩, hr, he⟩ := Option.map_eq_some_iff.1 hrun
  obtain ⟨hb, hlast, rfl⟩ := by simpa only [Prod.mk.injEq] using he
  have hs := search_returns_iff.2 ⟨_, searches_of_runWithin (by decide +kernel) hr⟩
  have hlong : strictSetting.options.primer.length < b.tokens.length := by
    rw [hb]
    decide
  obtain ⟨m, hm, ha⟩ := accepts_of_search (by decide +kernel) hs hlast hlong
  have htext : Token.code [.bom, .pitchC, .d1, .eom] none = "BOM c D1 EOM" := by decide +kernel
  rw [hb] at hm ha
  rw [htext] at hm
  exact ⟨b, m, hs, hb, hm, ha⟩

end ScoreDecoding.BeamSearch
