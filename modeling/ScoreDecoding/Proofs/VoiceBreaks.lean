import ScoreDecoding.Proofs.Questions
import ScoreDecoding.Proofs.Writing

/-!
# Voice breaks and the timewarps before them

A voice break is only written if the timewarps of the voice that it ends are sound. Later the sequence may be cut, even
past that place, and grow again in another way; but what stands before a voice break never changes while it stays.

- `BreaksSound` says of every voice break of a sequence that the timewarps before it are sound. It holds of every start
  of such a sequence (`BreaksSound.of_prefix`), and `breaksSound_concat` says what one more token takes;
- `breaksSound_of_sample`: it holds of every result, whichever way the run has ended.
-/

namespace ScoreDecoding.Sampler

open Validation (HasSoundTimewarp)

/-- Before every voice break the sequence has sound timewarps, as if the measure ended there. -/
def BreaksSound (validator : String → Except String Measure) (ts : List Token) : Prop :=
  ∀ before after, ts = before ++ .vb :: after → HasSoundTimewarp validator (before ++ [.eom])

variable {c : Setting} {validator : String → Except String Measure} {s t : State} {ts us : List Token} {x : Token}

/-! ## Sequences -/

theorem breaksSound_of_not_mem (h : .vb ∉ ts) : BreaksSound validator ts := by
  rintro before after rfl
  exact absurd (List.mem_append_right _ List.mem_cons_self) h

theorem BreaksSound.of_prefix (h : BreaksSound validator ts) (hus : us <+: ts) : BreaksSound validator us := by
  rintro before after rfl
  obtain ⟨rest, rfl⟩ := hus
  exact h before (after ++ rest) (by simp)

/-- What stands before one more token matters only if it is a voice break. -/
theorem breaksSound_concat :
    BreaksSound validator (ts ++ [x]) ↔
      BreaksSound validator ts ∧ (x = .vb → HasSoundTimewarp validator (ts ++ [.eom])) := by
  constructor
  · intro h
    refine ⟨h.of_prefix (List.prefix_append ts [x]), ?_⟩
    rintro rfl
    exact h ts [] rfl
  · rintro ⟨hts, hx⟩ before after he
    rcases concat_eq_append_cons_iff.1 he with ⟨-, rfl, rfl⟩ | ⟨rest, -, rfl⟩
    · exact hx rfl
    · exact hts before rest rfl

/-! ## One iteration -/

theorem noBeams_validating (h : ∀ text m, validator text = .ok m → m.tail.beamOpen = false) :
    (Collaborators.validating validator).NoBeams :=
  fun text m hm => h text m hm.symm

/-- A voice break is written after the validator was asked about the sequence that it ends. -/
theorem hasSoundTimewarp_of_writes (hK : (Collaborators.validating validator).NoBeams) (hs : Closed s)
    (h : Writes c (.validating validator) s .vb t) : HasSoundTimewarp validator (s.tokens ++ [.eom]) := by
  cases h with
  | pushed _ _ _ hno => exact absurd rfl hno
  | voiceEnded _ hc hd hi =>
    rw [tokens_tidy_of_closed hd (closed_of_consults hK hs hc), tokens_of_consults hc] at hi
    obtain ⟨m, hm, hsound⟩ := Validation.isTimewarpInvalid_returns_ok.1 hi
    rw [Validation.endedText_concat (.inl rfl)] at hm
    exact ⟨m, Validation.validating_parse_iff.1 hm, hsound⟩

/-- An iteration that goes on leaves only voice breaks that were checked. -/
theorem breaksSound_of_iterates (hK : (Collaborators.validating validator).NoBeams)
    (hs : Closed s ∧ BreaksSound validator s.tokens) (h : Iterates c (.validating validator) s (.next t)) :
    Closed t ∧ BreaksSound validator t.tokens := by
  obtain ⟨hclosed, hsound⟩ := hs
  rcases writes_or_repairs h with ⟨x, hw⟩ | hr
  · obtain ⟨ht, htokens⟩ := tokens_of_writes hK hclosed hw
    refine ⟨ht, htokens ▸ breaksSound_concat.2 ⟨hsound, ?_⟩⟩
    rintro rfl
    exact hasSoundTimewarp_of_writes hK hclosed hw
  · obtain ⟨ht, hprefix⟩ := prefix_of_repairs hK hclosed hr
    exact ⟨ht, hsound.of_prefix hprefix⟩

/-! ## Results -/

variable {r : Run} {capacities : List Nat} {masker : Option Masker} {random : Random}

theorem vb_not_mem_start {o : RunOptions} (h : .vb ∉ o.primer) : .vb ∉ o.start := by
  unfold RunOptions.start
  split
  · decide
  · exact h

/-- **Every voice break of a result was checked**: the validator finds the timewarps of what stands before it sound, as
if the measure ended there, whichever way the run has ended and with or without the guide. -/
theorem breaksSound_of_sample (hbeam : ∀ text m, validator text = .ok m → m.tail.beamOpen = false)
    (hprimer : .vb ∉ c.options.primer)
    (h : (sample c capacities masker random).ReturnsWith (.validating validator) r) (hok : r.result = .ok ts) :
    ∀ before after, ts = before ++ .vb :: after → HasSoundTimewarp validator (before ++ [.eom]) := by
  have hK := noBeams_validating hbeam
  obtain ⟨hno, rfl⟩ := result_eq_ok_iff.1 hok
  obtain ⟨u, hu⟩ := (sample_returns_iff_ends hno).1 h
  obtain ⟨hclosed, hsound⟩ : Closed u ∧ BreaksSound validator u.tokens :=
    ends_induction (fun s t hs ht => breaksSound_of_iterates hK hs ht)
      ⟨rfl, breaksSound_of_not_mem (vb_not_mem_start hprimer)⟩ hu
  obtain ⟨t, ho, ht⟩ := hu.iterates
  obtain ⟨us, hus, hend⟩ := prefix_of_stop hK hclosed ho hno
  have hleft : BreaksSound validator us := hsound.of_prefix hus
  rw [ht]
  rcases hend with he | he
  · rw [he]
    exact hleft
  · rw [he]
    exact breaksSound_concat.2 ⟨hleft, nofun⟩

/-- Two voices, the second one with a triplet or without. -/
def tripletVoices : Setting where
  grammar := .ofSentences [
    [.bom, .pitchC, .d4, .vb, .pitchC, .d4, .eom],
    [.bom, .pitchC, .warp3, .d4, .eom]]
  options := { temperature := 0, stepQuota := 10 }

/-- A validator for which one note is no triplet. -/
def hearsTriplets (text : String) : Except String Measure :=
  .ok { tail := { invalidTimewarp := text == "BOM c D4 VB c W3 D4 EOM" } }

/-- A predictor that likes to write triplets in the second voice, and to end voices. -/
def tripletVoicesAnswer : (q : Query) → q.Answer
  | .predict _ _ ts => .ok (Token.all.map fun t =>
      if t = .warp3 && ts.contains .vb then 30 else if t = .vb then 20 else if t = .d4 then 10 else 0).toArray
  | .parse text => hearsTriplets text

/-- A run that cannot end its second voice: it goes back to the voice break again, and is closed in the end. -/
theorem breaksSound_of_sample_secondVoice :
    ∃ r, (sample tripletVoices [64] none (.ofSeed 1)).ReturnsWith (.validating hearsTriplets) r ∧
      r.ending = .closed .quotaExceeded ∧
      r.result = .ok ([.bom, .pitchC, .d4] ++ .vb :: [.pitchC, .warp3, .d4, .eom]) ∧
      .vb ∉ tripletVoices.options.primer ∧
      Validation.HasBrokenTimewarp hearsTriplets [.bom, .pitchC, .d4, .vb, .pitchC, .warp3, .d4, .eom] ∧
      HasSoundTimewarp hearsTriplets [.bom, .pitchC, .d4, .eom] := by
  have hrun : (runWithin tripletVoices tripletVoicesAnswer 12 (initialState tripletVoices [64] none (.ofSeed 1))).map
      (fun r => (r.1.tokens, r.2)) =
      some ([.bom, .pitchC, .d4, .vb, .pitchC, .warp3, .d4, .eom], .closed .quotaExceeded) := by decide +kernel
  obtain ⟨⟨t, ending⟩, hr, he⟩ := Option.map_eq_some_iff.1 hrun
  obtain ⟨ht, rfl⟩ := Prod.mk.inj he
  have hsample := sample_of_runWithin (Collaborators.validating_of_parse fun _ => rfl) (by decide +kernel) hr
  have hok : (finish t (.closed .quotaExceeded)).result =
      .ok ([.bom, .pitchC, .d4] ++ .vb :: [.pitchC, .warp3, .d4, .eom]) := congrArg Except.ok ht
  have hbeam : ∀ text m, hearsTriplets text = .ok m → m.tail.beamOpen = false := by
    intro text m hm
    obtain rfl : _ = m := Except.ok.inj hm
    rfl
  have hbroken : Validation.HasBrokenTimewarp hearsTriplets
      [.bom, .pitchC, .d4, .vb, .pitchC, .warp3, .d4, .eom] := ⟨_, rfl, by decide +kernel⟩
  exact ⟨_, hsample, rfl, hok, by decide, hbroken, breaksSound_of_sample hbeam (by decide) hsample hok _ _ rfl⟩

end ScoreDecoding.Sampler
