import ScoreDecoding.Proofs.Completions
import ScoreDecoding.Proofs.Frontier
import ScoreDecoding.Proofs.NaturalEnd
import ScoreDecoding.Proofs.Transcript

/-!
# Where the end of the measure stands

From a primer without the end of a measure, a decoder works on open sequences: the end is appended only to ask the
validator, or to stop. In guided sampling an end that was drawn may be taken back, since going back to the last event
cuts it off; in beam search a completion leaves the frontier in the step that generates it.

- `WellPut` questions show the validator a text with one end, which is its last token, and a predictor an open sequence;
- `open_of_iterates` and `closes_of_stop` are what an iteration of guided sampling keeps and what it ends with;
- `Sound` is what a step of a search keeps (`sound_of_step`), `EndsAsSaid` what it has of its branches;
- `closed_of_decoders` says this of the questions and the results of both decoders.
-/

namespace ScoreDecoding

/-- A question as it should be put: the validator is shown a text that is ended once, at its end, and a predictor an
open sequence that is not empty. -/
inductive WellPut : Query → Prop
  | parse {ts : List Token} : .eom ∉ ts → WellPut (.parse (Token.code (ts ++ [.eom]) none))
  | predict {index : Nat} {descriptors : List Nat} {ts : List Token} : ts ≠ [] → .eom ∉ ts →
      WellPut (.predict index descriptors ts)

/-- An open sequence may be shown with the end given apart. -/
theorem wellPut_of_open {ts : List Token} (h : .eom ∉ ts) : WellPut (.parse (Token.code ts (some .eom))) := by
  rw [← Validation.code_append]
  exact .parse h

theorem eom_not_mem_start {o : RunOptions} (h : .eom ∉ o.primer) : .eom ∉ o.start := by
  unfold RunOptions.start
  split
  · decide
  · exact h

namespace Sampler

variable {c : Setting} {K : Collaborators} {s t u : State} {ending : Ending} {predictor : Nat} {row : TokenSet}

/-! ## Guided sampling -/

theorem eom_not_mem_tidyBeams (hs : .eom ∉ s.tokens) (status : Option TailStatus) :
    .eom ∉ Repair.tidyBeams status s.tokens :=
  fun h => hs ((Repair.tidyBeams_sublist status s.tokens).subset h)

theorem open_of_extends (hs : .eom ∉ s.tokens) (h : Extends c K s predictor row (.next t)) : .eom ∉ t.tokens := by
  cases h with
  | pushed hd _ _ hx =>
    rw [hd.tokens_push, List.mem_append, List.mem_singleton]
    rintro (hmem | heq)
    · exact hs hmem
    · exact hx heq.symm
  | @backtracked x w hd hx =>
    obtain ⟨n, hn⟩ := tokens_backtrack hx hd
    rw [hn]
    intro hmem
    exact eom_not_mem_tidyBeams hs w.status (List.mem_of_mem_take hmem)
  | @voiceEnded w hd =>
    show .eom ∉ (tidy (push c w .vb)).tokens
    rw [tokens_tidy_push (.inl rfl) hd, List.mem_append, List.mem_singleton]
    rintro (hmem | heq)
    · exact eom_not_mem_tidyBeams hs w.status hmem
    · cases heq

/-- An iteration that goes on leaves the sequence open. -/
theorem open_of_iterates (hs : .eom ∉ s.tokens) (h : Iterates c K s (.next t)) : .eom ∉ t.tokens := by
  cases h with
  | consulted _ hc =>
    cases hc with
    | takenBack =>
      intro hmem
      exact hs (List.dropLast_subset _ hmem)
  | extended _ _ hc he =>
    have htokens := tokens_of_consults hc
    exact open_of_extends (htokens ▸ hs) he

/-- An open sequence that is closed is ended once. -/
theorem ends_of_closeOut (g : Grammar) (status : Option TailStatus) {ts : List Token} (h : .eom ∉ ts) :
    ∃ us, Repair.closeOut g status ts = us ++ [.eom] ∧ .eom ∉ us :=
  ⟨_, rfl, fun hmem => h ((Repair.tidyBeams_cutToEnd_sublist g status ts).subset hmem)⟩

/-- An iteration that stops ends the sequence once, unless it fails or nothing can be drawn. -/
theorem closes_of_stop (hs : .eom ∉ s.tokens) (h : Iterates c K s (.stop t ending)) (hfail : ∀ e, ending ≠ .failed e) :
    ending = .noFiniteLogit ∨ ending = .paddingDrawn ∨ ∃ us, t.tokens = us ++ [.eom] ∧ .eom ∉ us := by
  cases h with
  | predictorsExhausted => exact .inr (.inr (ends_of_closeOut _ _ hs))
  | nothingLeft => exact .inr (.inr (ends_of_closeOut _ _ hs))
  | consulted _ hc =>
    cases hc with
    | unread => exact absurd rfl (hfail _)
    | tooDeep => exact .inr (.inr (ends_of_closeOut _ _ hs))
  | extended _ _ hc he =>
    have hu := tokens_of_consults hc ▸ hs
    cases he with
    | nothingAdmissible => exact .inr (.inr (ends_of_closeOut _ _ hu))
    | unanswered => exact absurd rfl (hfail _)
    | quotaExceeded => exact .inr (.inr (ends_of_closeOut _ _ hu))
    | noFiniteLogit => exact .inl rfl
    | paddingDrawn => exact .inr (.inl rfl)
    | unjudged => exact absurd rfl (hfail _)
    | sampled hd => exact .inr (.inr ⟨_, tokens_tidy_push (.inr rfl) hd, eom_not_mem_tidyBeams hu _⟩)

/-- From an open sequence an iteration asks well. -/
theorem wellPut_of_poses (hs : .eom ∉ s.tokens) {q : Query} (h : Poses c s q) : WellPut q := by
  cases h with
  | probed => exact wellPut_of_open hs
  | predicted _ hne => exact .predict hne hs
  | judged status => exact wellPut_of_open (eom_not_mem_tidyBeams hs status)

variable {capacities : List Nat} {masker : Option Masker} {random : Random} {qs : List Query} {r : Run}

/-- A run asks well. -/
theorem wellPut_of_sample (hprimer : .eom ∉ c.options.primer)
    (h : (sample c capacities masker random).Asks K qs r) : ∀ q ∈ qs, WellPut q := by
  obtain ⟨log, hlog, rfl⟩ := sample_asks_iff.1 h
  cases hlog with
  | refused =>
    intro q hq
    cases hq
  | run _ hrun =>
    exact asked_induction (I := fun s => .eom ∉ s.tokens) (fun s q hs hp => wellPut_of_poses hs hp)
      (fun s t hs hi => open_of_iterates hs hi) (eom_not_mem_start hprimer) hrun

/-- A run that does not fail ends its sequence once, unless nothing can be drawn. -/
theorem endsOnce_of_sample (hprimer : .eom ∉ c.options.primer) (hfail : ∀ e, r.ending ≠ .failed e)
    (h : (sample c capacities masker random).ReturnsWith K r) :
    r.ending = .noFiniteLogit ∨ r.ending = .paddingDrawn ∨ ∃ us, r.tokens = us ++ [.eom] ∧ .eom ∉ us := by
  obtain ⟨u, hu⟩ := (sample_returns_iff_ends hfail).1 h
  have hopen : .eom ∉ u.tokens := ends_induction (I := fun s => .eom ∉ s.tokens)
    (fun s t hs hi => open_of_iterates hs hi) (eom_not_mem_start hprimer) hu
  obtain ⟨t, ho, htokens⟩ := hu.iterates
  rw [htokens]
  exact closes_of_stop hopen ho hfail

end Sampler

namespace BeamSearch

variable {c : Setting} {K : Collaborators} {s t : State} {b d : Branch} {ending : Ending} {found : List Branch}
  {generated : List (List Branch)} {predictor : Nat}

/-! ## Beam search -/

/-- A branch holds the end of the measure once and last if that is its last token, and not at all otherwise. -/
def EndsAsSaid (d : Branch) : Prop :=
  (d.last = .eom ∧ ∃ us, d.tokens = us ++ [.eom] ∧ .eom ∉ us) ∨ (d.last ≠ .eom ∧ .eom ∉ d.tokens)

theorem EndsAsSaid.not_mem (h : EndsAsSaid d) (hopen : d.isComplete = false) : .eom ∉ d.tokens := by
  rcases h with ⟨he, -⟩ | ⟨-, hno⟩
  · rw [isComplete_iff.2 he] at hopen
    cases hopen
  · exact hno

theorem EndsAsSaid.ends (h : EndsAsSaid d) (hc : d.isComplete = true) : ∃ us, d.tokens = us ++ [.eom] ∧ .eom ∉ us := by
  rcases h with ⟨-, hends⟩ | ⟨hne, -⟩
  · exact hends
  · exact absurd (isComplete_iff.1 hc) hne

/-- A child of an open branch ends as its last token says. -/
theorem endsAsSaid_of_child (hb : .eom ∉ b.tokens) (h : Child c K predictor b d) : EndsAsSaid d := by
  have htokens := h.tokens_eq
  by_cases he : d.last = .eom
  · rw [he] at htokens
    exact .inl ⟨he, b.tokens, htokens, hb⟩
  · refine .inr ⟨he, ?_⟩
    rw [htokens, List.mem_append, List.mem_singleton]
    rintro (hmem | heq)
    · exact hb hmem
    · exact he heq.symm

/-- What a search keeps: its open branches hold no end and end with their last token, and its candidate ends as its last
token says. -/
structure Sound (s : State) : Prop where
  frontier : ∀ d ∈ s.frontier, .eom ∉ d.tokens ∧ d.tokens.getLast? = some d.last
  candidate : EndsAsSaid s.candidate

theorem sound_initialState (hstart : .eom ∉ c.options.start) (capacities : List Nat) :
    Sound (initialState c capacities) := by
  have hne : (root c).last ≠ .eom := by
    intro he
    have hlast := getLast?_root (c := c)
    rw [he] at hlast
    exact hstart (List.mem_of_getLast? hlast)
  refine ⟨?_, .inr ⟨hne, hstart⟩⟩
  intro d hd
  rw [List.mem_singleton.1 hd]
  exact ⟨hstart, getLast?_root⟩

theorem Sound.endsAsSaid_of_generates (hs : Sound s) (h : Generates c K s found) : ∀ d ∈ found, EndsAsSaid d := by
  intro d hd
  obtain ⟨_, b, hb, hc⟩ := child_of_generates h hd
  exact endsAsSaid_of_child (hs.frontier b hb).1 hc

/-- A step that goes on keeps this. -/
theorem sound_of_step (hs : Sound s) (h : (step c s).ReturnsWith K (.next t)) : Sound t := by
  refine ⟨?_, ?_⟩
  · intro d hd
    obtain ⟨hopen, found, hg, hmem⟩ := mem_frontier_of_step h hd
    exact ⟨(hs.endsAsSaid_of_generates hg d hmem).not_mem hopen, getLast?_of_step h hd⟩
  · obtain ⟨found, best, candidate, hg, -, hc, rfl⟩ := next_of_step h
    rcases hc with rfl | hc
    · exact hs.candidate
    · exact hs.endsAsSaid_of_generates hg candidate hc

/-- What a run returns ends as its last token says. -/
theorem endsAsSaid_of_runs (h : Runs c K s generated b ending) (hs : Sound s) : EndsAsSaid b := by
  induction h with
  | exhausted => exact hs.candidate
  | stop hg hr =>
    have hfound := hs.endsAsSaid_of_generates hg
    exact all_of_reviews (P := EndsAsSaid) (review_returns hr) hs.candidate fun d hd => hfound d (mem_rank.1 hd)
  | next hg hr _ ih => exact ih (sound_of_step hs (step_returns_iff.2 (.inr (.inl ⟨_, hg, hr⟩))))

/-- From such a state a step asks well. -/
theorem wellPut_of_inquires (hs : Sound s) {q : Query} (h : Inquires c K s q) : WellPut q := by
  cases h with
  | parent _ hb he =>
    obtain ⟨hopen, hlast⟩ := hs.frontier _ hb
    cases he with
    | ended hv =>
      rw [hv] at hlast
      rw [Validation.endedText, if_pos hlast]
      exact wellPut_of_open fun hmem => hopen (List.dropLast_subset _ hmem)
    | probed => exact wellPut_of_open hopen
    | predicted =>
      refine .predict ?_ hopen
      intro hnil
      rw [hnil] at hlast
      cases hlast
  | completion hg hd hc =>
    obtain ⟨us, htokens, hus⟩ := (hs.endsAsSaid_of_generates hg _ hd).ends hc
    rw [htokens, Validation.endedText_concat (.inr rfl)]
    exact wellPut_of_open hus

variable {capacities : List Nat}

/-- A search asks well. -/
theorem wellPut_of_search (hprimer : .eom ∉ c.options.primer) {qs : List Query}
    {r : Except DecodingError (Branch × Ending)} (h : (search c capacities).Asks K qs r) : ∀ q ∈ qs, WellPut q := by
  rcases asks_of_search h with ⟨-, rfl, -⟩ | ⟨-, hrun⟩
  · intro q hq
    cases hq
  · exact asked_induction (fun s q hs hi => wellPut_of_inquires hs hi) (fun s t hs ht => sound_of_step hs ht)
      (sound_initialState (eom_not_mem_start hprimer) capacities) hrun

theorem endsAsSaid_of_search (hprimer : .eom ∉ c.options.primer)
    (h : (search c capacities).ReturnsWith K (.ok (b, ending))) : EndsAsSaid b := by
  obtain ⟨generated, hs⟩ := search_returns_iff.1 h
  exact endsAsSaid_of_runs hs.2 (sound_initialState (eom_not_mem_start hprimer) capacities)

end BeamSearch

/-! ## Both decoders -/

/-- **Where the end of the measure stands** in the questions and results of both decoders, from a primer that does not
hold it. -/
theorem closed_of_decoders (K : Collaborators) (capacities : List Nat) :
    (∀ (c : Sampler.Setting) (masker : Option Masker) (random : Random) (qs : List Query) (r : Sampler.Run),
        .eom ∉ c.options.primer → (Sampler.sample c capacities masker random).Asks K qs r →
        (∀ q ∈ qs, WellPut q) ∧
          ∀ ts, r.result = .ok ts →
            r.ending = .noFiniteLogit ∨ r.ending = .paddingDrawn ∨ ∃ us, ts = us ++ [.eom] ∧ .eom ∉ us) ∧
      ∀ (c : BeamSearch.Setting) (qs : List Query) (r : Except DecodingError (Branch × BeamSearch.Ending)),
        .eom ∉ c.options.primer → (BeamSearch.search c capacities).Asks K qs r →
        (∀ q ∈ qs, WellPut q) ∧
          ∀ b ending, r = .ok (b, ending) →
            (b.last = .eom ∧ ∃ us, b.tokens = us ++ [.eom] ∧ .eom ∉ us) ∨ (b.last ≠ .eom ∧ .eom ∉ b.tokens) := by
  constructor
  · intro c masker random qs r hprimer h
    refine ⟨Sampler.wellPut_of_sample hprimer h, ?_⟩
    intro ts hts
    obtain ⟨hfail, rfl⟩ := Sampler.result_eq_ok_iff.1 hts
    exact Sampler.endsOnce_of_sample hprimer hfail h.returnsWith
  · intro c qs r hprimer h
    refine ⟨BeamSearch.wellPut_of_search hprimer h, ?_⟩
    rintro b ending rfl
    exact BeamSearch.endsAsSaid_of_search hprimer h.returnsWith

/-- A run that takes back a note before it ends, and a search in which completions stand beside open branches. -/
theorem closed_of_decoders_takenBack :
    (∃ qs r, (Sampler.sample Sampler.halvesSetting [64] none (.ofSeed 4)).Asks (.exactly Sampler.wholeAnswer) qs r ∧
        r.ending = .sampled ∧ r.result = .ok [.bom, .pitchC, .d2, .eom] ∧ (∀ q ∈ qs, WellPut q) ∧
        ∃ us, [.bom, .pitchC, .d2, .eom] = us ++ [Token.eom] ∧ .eom ∉ us) ∧
      ∃ qs b, (BeamSearch.search BeamSearch.shortSetting [64]).Asks
          (.exactly (BeamSearch.evenAnswer BeamSearch.brokenFirst)) qs (.ok (b, .bestComplete)) ∧
        b.tokens = [.bom, .pitchD, .d4, .eom] ∧ (∀ q ∈ qs, WellPut q) ∧
        ((b.last = .eom ∧ ∃ us, b.tokens = us ++ [.eom] ∧ .eom ∉ us) ∨ (b.last ≠ .eom ∧ .eom ∉ b.tokens)) := by
  refine ⟨?_, ?_⟩
  · have hrun : (Sampler.runWithin Sampler.halvesSetting Sampler.wholeAnswer 6
        (Sampler.initialState Sampler.halvesSetting [64] none (.ofSeed 4))).map (fun r => (r.1.tokens, r.2)) =
        some ([.bom, .pitchC, .d2, .eom], .sampled) := by decide +kernel
    obtain ⟨⟨t, ending⟩, hr, he⟩ := Option.map_eq_some_iff.1 hrun
    obtain ⟨ht, rfl⟩ := Prod.mk.inj he
    have h := Sampler.sample_of_runWithin (K := .exactly Sampler.wholeAnswer) (fun _ => rfl) (by decide +kernel) hr
    have hresult : (Sampler.finish t .sampled).result = .ok [.bom, .pitchC, .d2, .eom] := congrArg Except.ok ht
    obtain ⟨qs, hqs⟩ := Dialogue.returnsWith_iff_asks.1 h
    obtain ⟨hput, hclosed⟩ := (closed_of_decoders (.exactly Sampler.wholeAnswer) [64]).1 Sampler.halvesSetting none
      (.ofSeed 4) qs _ (by decide) hqs
    refine ⟨qs, _, hqs, rfl, hresult, hput, ?_⟩
    rcases hclosed _ hresult with he | he | hends
    · cases he
    · cases he
    · exact hends
  · have hrun : (BeamSearch.runWithin BeamSearch.shortSetting (BeamSearch.evenAnswer BeamSearch.brokenFirst) 4
        (BeamSearch.initialState BeamSearch.shortSetting [64])).map (fun r => (r.2.1.tokens, r.2.2)) =
        some ([.bom, .pitchD, .d4, .eom], .bestComplete) := by decide +kernel
    obtain ⟨⟨generated, b, ending⟩, hr, he⟩ := Option.map_eq_some_iff.1 hrun
    obtain ⟨hb, rfl⟩ := Prod.mk.inj he
    have hs : BeamSearch.Searches BeamSearch.shortSetting (.exactly (BeamSearch.evenAnswer BeamSearch.brokenFirst)) [64]
        generated b .bestComplete := ⟨by decide +kernel, BeamSearch.runs_of_runWithin (fun _ => rfl) hr⟩
    obtain ⟨qs, hqs⟩ := Dialogue.returnsWith_iff_asks.1 (BeamSearch.search_returns_iff.2 ⟨_, hs⟩)
    obtain ⟨hput, hends⟩ := (closed_of_decoders (.exactly (BeamSearch.evenAnswer BeamSearch.brokenFirst)) [64]).2
      BeamSearch.shortSetting qs _ (by decide) hqs
    exact ⟨qs, b, hqs, hb, hput, hends b _ rfl⟩

end ScoreDecoding
