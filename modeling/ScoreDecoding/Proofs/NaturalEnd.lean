import ScoreDecoding.Proofs.Trajectory

/-!
# What a measure that was ended by sampling has passed

Guided sampling asks the validator about a sequence as if it ended there, before the end can be drawn. Whatever was
taken back or tried again before, the guide under which the end is drawn is the one that has just been set, for the very
text that is returned, unless beam openings are still taken out of it.

- `Accepts` is what the validator has said of such a measure (`accepts_of_follow`);
- `accepts_of_sample`: it has said so of every result that was ended by sampling and left as it was.
-/

namespace ScoreDecoding.Sampler

variable (c : Setting)

/-- What the validator has said of a measure whose end could be drawn. -/
structure Accepts (tokens : List Token) (m : Measure) : Prop where
  not_long : ∀ f, m.tail.filling = some f → f ≤ 0
  warp_valid : m.tail.invalidTimewarp = false
  warp_finished : m.tail.filling = some 0 → m.tail.incompleteTimeWarping = false
  not_short : c.options.forbidPartial = true → .vb ∉ tokens → ∀ f, m.tail.filling = some f → 0 ≤ f

variable {c} {s : State} {r : Run} {capacities : List Nat} {masker : Option Masker} {random : Random}

/-- **Where a guide lets the measure end**, nothing stands against it but a timewarp that turns out to be broken. -/
theorem accepts_of_follow {m : Measure} (ho : m.tail.isOverflowing = false)
    (he : .eom ∈ (follow c s m.tail).guide) (hw : m.tail.invalidTimewarp = false) :
    Accepts c (s.tokens ++ [.eom]) m := by
  obtain ⟨hstatus, -, hends⟩ := mem_follow.1 he
  refine ⟨?_, hw, Guide.not_incomplete_of_mem_ofStatus hstatus, ?_⟩
  · intro f hf
    rw [TailStatus.isOverflowing, hf] at ho
    exact Int8.not_lt.1 (by simpa using ho)
  · intro hp hv f hf
    have hvb : .vb ∉ s.tokens := by simpa using hv
    have hfill : mustFill c s m.tail = false := by
      cases hm : mustFill c s m.tail with
      | false => rfl
      | true => exact absurd rfl (hends hm).2
    have hpartial : m.tail.isPartial = false := by simpa [mustFill, hp, hvb] using hfill
    rw [TailStatus.isPartial, hf] at hpartial
    exact Int8.not_lt.1 (by simpa using hpartial)

/-- **A result that was ended by sampling was accepted by the validator**, on its own text, if nothing was taken out of
it after its end was drawn. -/
theorem accepts_of_sample {validator : String → Except String Measure} (hguide : c.options.parserGuide = true)
    (h : (sample c capacities masker random).ReturnsWith (.validating validator) r) (hr : r.ending = .sampled) :
    (∃ u, Ends c (.validating validator) capacities masker random u r) ∧
      ∀ u, Ends c (.validating validator) capacities masker random u r → r.tokens = u.tokens ++ [.eom] →
        ∃ m, validator (Token.code r.tokens none) = .ok m ∧ Accepts c r.tokens m := by
  refine ⟨(sample_returns_iff_ends (by simp [hr])).1 h, fun u hu hkept => ?_⟩
  obtain ⟨t, ho, ht⟩ := hu.iterates
  rw [hr] at ho
  obtain ⟨m, hm, hlong, hend, -, hsound⟩ := sampled_of_iterates hguide ho
  have hlast : (u.tokens ++ [Token.eom]).getLast? ≠ some .vb := by simp
  rw [← ht, hkept, Validation.isTimewarpInvalid_returns_iff hlast] at hsound
  -- the question about timewarps is the same text again
  obtain ⟨m', hm', hw⟩ := hsound
  have htext := Validation.validating_parse_iff.1 hm
  obtain rfl : m = m' := Except.ok.inj (htext.symm.trans hm')
  rw [hkept]
  exact ⟨m, htext, accepts_of_follow hlong hend hw⟩

/-- A measure of one note, which must not be shorter than a half. -/
def halvesSetting : Setting where
  grammar := .ofSentences [[.bom, .pitchC, .d1, .eom], [.bom, .pitchC, .d2, .eom]]
  options := { temperature := 0, forbidPartial := true }

/-- A validator for which a half fills the measure. -/
def hearsHalves (text : String) : Except String Measure :=
  .ok { tail := { filling := some (if text == "BOM c D1 EOM" then 1 else if text == "BOM c D2 EOM" then 0 else -1) } }

/-- A predictor that likes the whole note best. -/
def wholeAnswer : (q : Query) → q.Answer
  | .predict .. => .ok (Token.all.map fun t => if t = .d1 then 30 else 0).toArray
  | .parse text => hearsHalves text

/-- A run that takes back the whole note, which is too long, and ends with the half. -/
theorem accepts_of_sample_takenBack :
    ∃ u r, Ends halvesSetting (.validating hearsHalves) [64] none (.ofSeed 4) u r ∧ r.ending = .sampled ∧
      r.tokens = [.bom, .pitchC, .d2, .eom] ∧ r.tokens = u.tokens ++ [.eom] ∧
      ∃ m, hearsHalves "BOM c D2 EOM" = .ok m ∧ Accepts halvesSetting [.bom, .pitchC, .d2, .eom] m := by
  have hrun : (runWithin halvesSetting wholeAnswer 6 (initialState halvesSetting [64] none (.ofSeed 4))).map
      (fun r => (r.1.tokens, r.2)) = some ([.bom, .pitchC, .d2, .eom], .sampled) := by decide +kernel
  obtain ⟨⟨t, ending⟩, hr, he⟩ := Option.map_eq_some_iff.1 hrun
  obtain ⟨ht, rfl⟩ := Prod.mk.inj he
  have h := sample_of_runWithin (Collaborators.validating_of_parse fun _ => rfl) (by decide +kernel) hr
  obtain ⟨⟨u, hu⟩, haccepts⟩ := accepts_of_sample rfl h rfl
  have hkept : t.tokens = u.tokens ++ [.eom] := by
    obtain ⟨t', ho, ht'⟩ := hu.iterates
    obtain ⟨m, hm, -, -, htidy, -⟩ := sampled_of_iterates rfl ho
    obtain rfl : m = _ := Except.ok.inj hm
    exact ht'.trans htidy
  obtain ⟨m, hm, ha⟩ := haccepts u hu hkept
  have htokens : (finish t .sampled).tokens = [.bom, .pitchC, .d2, .eom] := ht
  have htext : Token.code [.bom, .pitchC, .d2, .eom] none = "BOM c D2 EOM" := by decide +kernel
  rw [htokens] at hm ha
  rw [htext] at hm
  exact ⟨u, finish t .sampled, hu, rfl, ht, hkept, m, hm, ha⟩

end ScoreDecoding.Sampler
