import ScoreDecoding.Proofs.History

/-!
# The best completion of a beam search

The candidate of a search is the best of all completions that have been generated: ended, with a finite score and a
sound timewarp. Most of them are forgotten in the step that generates them, so this is said of the whole history.

- `BestSoFar` is what every step keeps of its candidate (`bestSoFar_of_improve`);
- `Concludes` are the ways in which a search ends (`concludes_of_searches`);
- `best_of_search`: no completion scores higher than the result, which is complete if there is one;
- `broken_iff_of_search` says exactly when the result is complete and has a broken timewarp.
-/

namespace ScoreDecoding.BeamSearch

open Validation (HasSoundTimewarp HasBrokenTimewarp)

variable {c : Setting} {K : Collaborators} {validator : String → Except String Measure} {s t : State}
  {b d best candidate result : Branch} {ending : Ending} {found rest pending bs : List Branch}
  {past generated : List (List Branch)}

theorem isComplete_iff : b.isComplete = true ↔ b.last = .eom := beq_iff_eq

/-! ## Ranks -/

/-- The first one of the ranked branches has the highest score. -/
theorem totalRank_le_of_rank (h : Branch.rank found = best :: rest) (hd : d ∈ found) :
    Double.totalRank d.score ≤ Double.totalRank best.score := by
  have hranked := ranked_rank found
  rw [h] at hranked
  rw [← mem_rank, h] at hd
  rcases List.mem_cons.1 hd with rfl | hd
  · exact Int.le_refl _
  · exact (List.pairwise_cons.1 hranked).1 d hd

/-- Among finite scores, a higher place is a score that is no lower. -/
theorem le_of_totalRank_le (hd : Double.isFinite d.score = true) (hb : Double.isFinite b.score = true)
    (h : Double.totalRank d.score ≤ Double.totalRank b.score) : Double.le d.score b.score = true :=
  (Double.le_of_finite hd hb).2 (Double.rank_le_of_totalRank_le h)

theorem le_self (hb : Double.isFinite b.score = true) : Double.le b.score b.score = true :=
  (Double.le_of_finite hb hb).2 (Int.le_refl _)

/-! ## Completions -/

variable (validator)

/-- An ended branch with a finite score and a sound timewarp. -/
structure Completes (d : Branch) : Prop where
  ended : d.last = .eom
  finite : Double.isFinite d.score = true
  sound : HasSoundTimewarp validator d.tokens

/-- What the search for a better candidate finds: one that is no worse than the old one and all the completions that
were looked at. -/
structure Improves (candidate : Branch) (bs : List Branch) (result : Branch) : Prop where
  found : result = candidate ∨ result ∈ bs ∧ Completes validator result
  not_worse : candidate.isComplete = true → result.isComplete = true ∧ Double.le candidate.score result.score = true
  best : ∀ d ∈ bs, Completes validator d → result.isComplete = true ∧ Double.le d.score result.score = true

variable {validator}

/-- An ended branch is asked about as it is. -/
theorem timewarp_returns_iff (hb : b.isComplete = true) (hl : b.tokens.getLast? = some b.last) {invalid : Bool} :
    (Validation.isTimewarpInvalid b.tokens).ReturnsWith (.validating validator) (.ok invalid) ↔
      if invalid then HasBrokenTimewarp validator b.tokens else HasSoundTimewarp validator b.tokens := by
  refine Validation.isTimewarpInvalid_returns_iff ?_
  rw [hl, isComplete_iff.1 hb]
  nofun

/-- The scan may stop at the first completion, since the branches come by falling score. -/
theorem improves_of_improve (hc : candidate.isComplete = true → Double.isFinite candidate.score = true)
    (hranked : Ranked bs) (hbs : ∀ d ∈ bs, isFinished d = true ∧ d.tokens.getLast? = some d.last)
    (h : (improve candidate bs).ReturnsWith (.validating validator) (.ok result)) :
    Improves validator candidate bs result := by
  induction bs with
  | nil =>
    cases Dialogue.returnsWith_done.1 h
    exact ⟨.inl rfl, fun hc' => ⟨hc', le_self (hc hc')⟩, nofun⟩
  | cons b bs ih =>
    obtain ⟨hfirst, hrest⟩ := List.pairwise_cons.1 hranked
    obtain ⟨hfinished, hl⟩ := hbs b List.mem_cons_self
    obtain ⟨hb, hfinite⟩ := Bool.and_eq_true_iff.1 hfinished
    have hbelow : ∀ d ∈ b :: bs, Completes validator d → Double.le d.score b.score = true := by
      intro d hd hcomp
      rcases List.mem_cons.1 hd with rfl | hd
      · exact le_self hfinite
      · exact le_of_totalRank_le hcomp.finite hfinite (hfirst d hd)
    unfold improve at h
    split at h
    · rename_i hstop
      obtain ⟨hc', hle⟩ := Bool.and_eq_true_iff.1 hstop
      cases Dialogue.returnsWith_done.1 h
      exact ⟨.inl rfl, fun _ => ⟨hc', le_self (hc hc')⟩,
        fun d hd hcomp => ⟨hc', Double.le_trans (hbelow d hd hcomp) hle⟩⟩
    · rename_i hgo
      obtain ⟨answer, ha, h⟩ := Dialogue.returnsWith_bind.1 h
      rcases answer with e | _ | _
      · cases Dialogue.returnsWith_done.1 h
      · cases Dialogue.returnsWith_done.1 h
        have hsound : HasSoundTimewarp validator result.tokens := (timewarp_returns_iff hb hl).1 ha
        refine ⟨.inr ⟨List.mem_cons_self, isComplete_iff.1 hb, hfinite, hsound⟩, fun hc' => ⟨hb, ?_⟩,
          fun d hd hcomp => ⟨hb, hbelow d hd hcomp⟩⟩
        exact Double.le_of_not_le hfinite (hc hc') (by simpa [hc'] using hgo)
      · have hbroken : HasBrokenTimewarp validator b.tokens := (timewarp_returns_iff hb hl).1 ha
        have himproves := ih hrest (fun d hd => hbs d (List.mem_cons_of_mem _ hd)) h
        refine ⟨himproves.found.imp_right fun hr => ⟨List.mem_cons_of_mem _ hr.1, hr.2⟩, himproves.not_worse, ?_⟩
        intro d hd hcomp
        rcases List.mem_cons.1 hd with rfl | hd
        · exact absurd hbroken hcomp.sound.not_broken
        · exact himproves.best d hd hcomp

/-! ## The candidate -/

variable (validator)

/-- The candidate is one of the completions that have been generated, unless it is open; and none of them is better. -/
structure BestSoFar (generated : List (List Branch)) (candidate : Branch) : Prop where
  found : candidate.isComplete = true → candidate ∈ generated.flatten ∧ Completes validator candidate
  best : ∀ d ∈ generated.flatten, Completes validator d →
    candidate.isComplete = true ∧ Double.le d.score candidate.score = true

variable {validator}

theorem mem_flatten_concat : d ∈ (past ++ [found]).flatten ↔ d ∈ past.flatten ∨ d ∈ found := by
  rw [List.flatten_append, List.flatten_singleton, List.mem_append]

/-- As long as the candidate is open, nothing has been completed. -/
theorem BestSoFar.not_completes (h : BestSoFar validator generated candidate) (hc : candidate.isComplete = false) :
    ∀ d ∈ generated.flatten, ¬ Completes validator d := by
  intro d hd hcomp
  rw [(h.best d hd hcomp).1] at hc
  cases hc

/-- The candidate stays the best one if no completion of a step is better. -/
theorem BestSoFar.keep (h : BestSoFar validator past candidate)
    (hfound : ∀ d ∈ found, Completes validator d →
      candidate.isComplete = true ∧ Double.le d.score candidate.score = true) :
    BestSoFar validator (past ++ [found]) candidate := by
  refine ⟨fun hc => ?_, fun d hd hcomp => ?_⟩
  · obtain ⟨hmem, hcomp⟩ := h.found hc
    exact ⟨mem_flatten_concat.2 (.inl hmem), hcomp⟩
  · rcases mem_flatten_concat.1 hd with hd | hd
    · exact h.best d hd hcomp
    · exact hfound d hd hcomp

/-- A completion of a step is still there after the best branch has been looked at. -/
theorem mem_of_pending (hp : Pending (.validating validator) best rest pending)
    (hl : best.tokens.getLast? = some best.last) (hd : d ∈ best :: rest) (hcomp : Completes validator d) :
    d ∈ pending.filter isFinished := by
  refine List.mem_filter.2 ⟨?_, by simp [isFinished, isComplete_iff.2 hcomp.ended, hcomp.finite]⟩
  cases hp with
  | opened => exact hd
  | passedOver hb ha =>
    have hbroken : HasBrokenTimewarp validator best.tokens := (timewarp_returns_iff hb hl).1 ha
    rcases List.mem_cons.1 hd with rfl | hd
    · exact absurd hbroken hcomp.sound.not_broken
    · exact hd

/-- **A step keeps the best completion** of all that have been generated, its own among them. -/
theorem bestSoFar_of_improve (h : BestSoFar validator past s.candidate)
    (hg : Generates c (.validating validator) s found) (hr : Branch.rank found = best :: rest)
    (hp : Pending (.validating validator) best rest pending)
    (hi : (improve s.candidate (pending.filter isFinished)).ReturnsWith (.validating validator) (.ok candidate)) :
    BestSoFar validator (past ++ [found]) candidate := by
  have hmem : ∀ d, d ∈ best :: rest ↔ d ∈ found := fun d => hr ▸ mem_rank
  have hlast : ∀ d ∈ best :: rest, d.tokens.getLast? = some d.last :=
    fun d hd => getLast?_of_generates hg ((hmem d).1 hd)
  have hsub : (pending.filter isFinished).Sublist (best :: rest) := List.filter_sublist.trans hp.sublist
  have himproves : Improves validator s.candidate (pending.filter isFinished) candidate := by
    refine improves_of_improve (fun hc => (h.found hc).2.finite) ?_ (fun d hd => ?_) hi
    · exact (hr ▸ ranked_rank found).sublist hsub
    · exact ⟨(List.mem_filter.1 hd).2, hlast d (hsub.subset hd)⟩
  refine ⟨fun hc => ?_, fun d hd hcomp => ?_⟩
  · rcases himproves.found with rfl | ⟨hd, hcomp⟩
    · obtain ⟨hmem, hcomp⟩ := h.found hc
      exact ⟨mem_flatten_concat.2 (.inl hmem), hcomp⟩
    · exact ⟨mem_flatten_concat.2 (.inr ((hmem _).1 (hsub.subset hd))), hcomp⟩
  · rcases mem_flatten_concat.1 hd with hd | hd
    · obtain ⟨hc, hle⟩ := h.best d hd hcomp
      obtain ⟨hc', hle'⟩ := himproves.not_worse hc
      exact ⟨hc', Double.le_trans hle hle'⟩
    · exact himproves.best d (mem_of_pending hp (hlast best List.mem_cons_self) ((hmem d).2 hd) hcomp) hcomp

/-! ## The ends of a search -/

variable (validator)

/-- How a search ends, by what it has generated: with the candidate; with the best branch of the last step, if that is a
completion no worse than the candidate; or, if there is no completion and the steps are used up, with the first branch
of the last step that is left. -/
inductive Concludes : List (List Branch) → Branch → Ending → Prop
  | candidate {generated : List (List Branch)} {b : Branch} {ending : Ending} : BestSoFar validator generated b →
      (ending = .quotaExceeded → b.isComplete = true) → Concludes generated b ending
  | bestComplete {past : List (List Branch)} {found rest : List Branch} {b candidate : Branch} :
      BestSoFar validator past candidate → Branch.rank found = b :: rest → b.isComplete = true →
      HasSoundTimewarp validator b.tokens →
      (candidate.isComplete = true → Double.lt b.score candidate.score = false) →
      Concludes (past ++ [found]) b .bestComplete
  | opened {past : List (List Branch)} {found rest : List Branch} {b candidate : Branch} :
      BestSoFar validator (past ++ [found]) candidate → candidate.isComplete = false →
      Branch.rank found = b :: rest → b.isComplete = false → Concludes (past ++ [found]) b .quotaExceeded
  | passedOver {past : List (List Branch)} {found rest : List Branch} {first b candidate : Branch} :
      BestSoFar validator (past ++ [found]) candidate → candidate.isComplete = false →
      Branch.rank found = first :: rest → first.isComplete = true → HasBrokenTimewarp validator first.tokens →
      rest.head?.getD candidate = b → Concludes (past ++ [found]) b .quotaExceeded

variable {validator}

/-- A step that stops concludes the search. -/
theorem concludes_of_reviews (h : BestSoFar validator past s.candidate)
    (hg : Generates c (.validating validator) s found)
    (hr : Reviews c (.validating validator) s (Branch.rank found) (.stop b ending)) :
    Concludes validator (past ++ [found]) b ending := by
  have hlast : ∀ d ∈ Branch.rank found, d.tokens.getLast? = some d.last :=
    fun d hd => getLast?_of_generates hg (mem_rank.1 hd)
  generalize hrank : Branch.rank found = ranked at hr hlast
  cases hr with
  | noChildren =>
    refine .candidate (h.keep fun d hd _ => ?_) nofun
    rw [← mem_rank, hrank] at hd
    cases hd
  | @candidateBetter best rest hb ha hc hlt =>
    refine .candidate (h.keep fun d hd hcomp => ⟨hc, ?_⟩) nofun
    -- the best branch need not have a finite score, but the candidate has
    have hle := Double.rank_le_of_totalRank_le (totalRank_le_of_rank hrank hd)
    obtain ⟨-, -, hlt⟩ := Double.lt_iff.1 hlt
    exact (Double.le_of_finite hcomp.finite (h.found hc).2.finite).2 (by omega)
  | bestComplete hb ha hc =>
    exact .bestComplete h hrank hb ((timewarp_returns_iff hb (hlast _ List.mem_cons_self)).1 ha) hc
  | @settled first candidate rest pending _ hp hi ho =>
    have hbest := bestSoFar_of_improve h hg hrank hp hi
    rcases settle_eq_stop ho with ⟨rfl, he⟩ | ⟨rfl, rfl⟩
    · exact .candidate hbest fun hq => absurd hq he
    · cases hc : candidate.isComplete with
      | true => exact .candidate hbest fun _ => hc
      | false =>
        cases hp with
        | opened hb => exact .opened hbest hc hrank hb
        | passedOver hb ha =>
          exact .passedOver hbest hc hrank hb ((timewarp_returns_iff hb (hlast _ List.mem_cons_self)).1 ha) rfl

/-- A step that goes on keeps the best completion as its candidate. -/
theorem bestSoFar_of_reviews (h : BestSoFar validator past s.candidate)
    (hg : Generates c (.validating validator) s found)
    (hr : Reviews c (.validating validator) s (Branch.rank found) (.next t)) :
    BestSoFar validator (past ++ [found]) t.candidate := by
  generalize hrank : Branch.rank found = ranked at hr
  cases hr with
  | settled hp hi ho =>
    rw [(settle_eq_next ho).1]
    exact bestSoFar_of_improve h hg hrank hp hi

/-- A run from the best candidate so far ends with what it concludes from the whole history. -/
theorem concludes_of_runs (h : Runs c (.validating validator) s generated b ending)
    (hs : BestSoFar validator past s.candidate) : Concludes validator (past ++ generated) b ending := by
  induction h generalizing past with
  | exhausted =>
    rw [List.append_nil]
    exact .candidate hs nofun
  | stop hg hr => exact concludes_of_reviews hs hg (review_returns hr)
  | next hg hr _ ih =>
    rw [List.append_cons]
    exact ih (bestSoFar_of_reviews hs hg (review_returns hr))

theorem concludes_of_searches {capacities : List Nat} (hprimer : c.options.primer.getLast? ≠ some .eom)
    (h : Searches c (.validating validator) capacities generated b ending) :
    Concludes validator generated b ending := by
  have hroot : (root c).isComplete = false := by
    have hl := (Descends.root (c := c) (K := .any)).getLast?
    rw [Bool.eq_false_iff, ne_eq, isComplete_iff]
    intro he
    rw [he] at hl
    by_cases hp : c.options.primer = []
    · simp [root, RunOptions.start, hp] at hl
    · exact hprimer (by simpa [root, RunOptions.start, hp] using hl)
  have hnothing : BestSoFar validator [] (initialState c capacities).candidate := by
    refine ⟨fun hc => ?_, fun d hd => by cases hd⟩
    rw [show (initialState c capacities).candidate = root c from rfl, hroot] at hc
    cases hc
  exact concludes_of_runs h.2 hnothing

/-! ## Results -/

/-- **No completion scores higher than the result**, among all that a search has ever generated; and if there is one at
all, the result is complete. -/
theorem best_of_search {capacities : List Nat} (hprimer : c.options.primer.getLast? ≠ some .eom)
    (h : (search c capacities).ReturnsWith (.validating validator) (.ok (b, ending))) :
    (∃ generated, Searches c (.validating validator) capacities generated b ending) ∧
      ∀ generated, Searches c (.validating validator) capacities generated b ending →
        (∀ d ∈ generated.flatten, Double.isFinite d.score = true) →
        ∀ d ∈ generated.flatten, d.last = .eom → HasSoundTimewarp validator d.tokens →
          b.last = .eom ∧ Double.le d.score b.score = true := by
  refine ⟨search_returns_iff.1 h, fun generated hs hfinite d hd he hsound => ?_⟩
  have hcomp : Completes validator d := ⟨he, hfinite d hd, hsound⟩
  cases concludes_of_searches hprimer hs with
  | candidate hbest =>
    obtain ⟨hb, hle⟩ := hbest.best d hd hcomp
    exact ⟨isComplete_iff.1 hb, hle⟩
  | @bestComplete past found rest _ candidate hbest hrank hb _ hnlt =>
    have hmem : b ∈ found := by
      rw [← mem_rank, hrank]
      exact List.mem_cons_self
    have hfb : Double.isFinite b.score = true := hfinite b (mem_flatten_concat.2 (.inr hmem))
    refine ⟨isComplete_iff.1 hb, ?_⟩
    rcases mem_flatten_concat.1 hd with hd | hd
    · -- an earlier completion is no better than the candidate, and the result beats that
      obtain ⟨hc, hle⟩ := hbest.best d hd hcomp
      exact Double.le_trans hle (Double.le_of_not_lt hfb (hbest.found hc).2.finite (hnlt hc))
    · exact le_of_totalRank_le hcomp.finite hfb (totalRank_le_of_rank hrank hd)
  | opened hbest hc => exact absurd hcomp (hbest.not_completes hc d hd)
  | passedOver hbest hc => exact absurd hcomp (hbest.not_completes hc d hd)

/-- Two short measures, and one that goes on. -/
def shortSetting : Setting where
  grammar := .ofSentences [[.bom, .pitchC, .eom], [.bom, .pitchD, .eom], [.bom, .pitchD, .d4, .eom]]
  options := { width := 2 }
  elementary := evenElementary

/-- A validator that finds a broken timewarp in one of the short measures. -/
def brokenFirst (text : String) : Except String Measure :=
  .ok { tail := { invalidTimewarp := text == "BOM c EOM" } }

/-- A search that passes over a broken completion, keeps a sound one, and finds a better one in its last step. -/
theorem best_of_search_laterCompletion :
    ∃ b generated, Searches shortSetting (.validating brokenFirst) [64] generated b .bestComplete ∧
      b.tokens = [.bom, .pitchD, .d4, .eom] ∧
      ∃ d ∈ generated.flatten, d.tokens = [.bom, .pitchD, .eom] ∧ Double.le d.score b.score = true := by
  have hrun : (runWithin shortSetting (evenAnswer brokenFirst) 4 (initialState shortSetting [64])).map
      (fun r => (r.1.flatten.map (·.tokens), r.1.flatten.all fun d => Double.isFinite d.score, r.2.1.tokens, r.2.2)) =
      some ([[.bom, .pitchC], [.bom, .pitchD], [.bom, .pitchC, .eom], [.bom, .pitchD, .eom], [.bom, .pitchD, .d4],
        [.bom, .pitchD, .d4, .eom]], true, [.bom, .pitchD, .d4, .eom], .bestComplete) := by decide +kernel
  obtain ⟨⟨generated, b, ending⟩, hr, he⟩ := Option.map_eq_some_iff.1 hrun
  obtain ⟨htokens, hfinite, hb, rfl⟩ := by simpa only [Prod.mk.injEq] using he
  have hs := searches_of_runWithin (by decide +kernel) hr
  obtain ⟨d, hd, hdt⟩ := List.mem_map.1 (htokens ▸ by decide : [.bom, .pitchD, .eom] ∈ generated.flatten.map (·.tokens))
  have hlast : d.last = .eom := ((descends_of_searches hs).1 d hd).last_eq (by rw [hdt]; rfl)
  have hsound : HasSoundTimewarp brokenFirst d.tokens := by
    rw [hdt]
    exact ⟨_, rfl, by decide +kernel⟩
  have hbest := best_of_search (by decide) (search_returns_iff.2 ⟨_, hs⟩)
  exact ⟨b, generated, hs, hb, d, hd, hdt,
    (hbest.2 generated hs (List.all_eq_true.1 hfinite) d hd hlast hsound).2⟩

/-- **Exactly when a complete result has a broken timewarp**: the steps are used up, no completion was ever generated,
and the two best branches of the last step are both ended and both broken. The first one is passed over, and the second
one is returned without a question. -/
theorem broken_iff_of_search {capacities : List Nat} (hprimer : c.options.primer.getLast? ≠ some .eom)
    (h : (search c capacities).ReturnsWith (.validating validator) (.ok (b, ending))) :
    (∃ generated, Searches c (.validating validator) capacities generated b ending) ∧
      ∀ generated, Searches c (.validating validator) capacities generated b ending →
        (b.last = .eom ∧ HasBrokenTimewarp validator b.tokens ↔
          ending = .quotaExceeded ∧ (∀ d ∈ generated.flatten, ¬ Completes validator d) ∧
            ∃ found first second rest, generated.getLast? = some found ∧
              Branch.rank found = first :: second :: rest ∧
              (first.last = .eom ∧ HasBrokenTimewarp validator first.tokens) ∧
              second.last = .eom ∧ HasBrokenTimewarp validator second.tokens) := by
  refine ⟨search_returns_iff.1 h, fun generated hs => ⟨?_, ?_⟩⟩
  · rintro ⟨he, hbroken⟩
    have hc := isComplete_iff.2 he
    cases concludes_of_searches hprimer hs with
    | candidate hbest => exact absurd hbroken (hbest.found hc).2.sound.not_broken
    | bestComplete _ _ _ hsound => exact absurd hbroken hsound.not_broken
    | opened _ _ _ ho =>
      rw [hc] at ho
      cases ho
    | @passedOver past found rest first _ candidate hbest ho hrank hfirst hfirstBroken hb =>
      have hnone := hbest.not_completes ho
      cases rest with
      | nil =>
        -- nothing is left, and the candidate is not complete
        rw [show candidate = b from hb, hc] at ho
        cases ho
      | cons second rest =>
        obtain rfl : second = b := hb
        exact ⟨rfl, hnone, found, first, second, rest, List.getLast?_concat, hrank,
          ⟨isComplete_iff.1 hfirst, hfirstBroken⟩, he, hbroken⟩
  · rintro ⟨rfl, hnone, found, first, second, rest, hlast, hrank, ⟨hfirst, -⟩, hsecond⟩
    cases concludes_of_searches hprimer hs with
    | candidate hbest hc =>
      obtain ⟨hmem, hcomp⟩ := hbest.found (hc rfl)
      exact absurd hcomp (hnone b hmem)
    | opened _ _ hrank' ho =>
      rw [List.getLast?_concat] at hlast
      cases hlast
      rw [hrank] at hrank'
      cases hrank'
      rw [isComplete_iff.2 hfirst] at ho
      cases ho
    | passedOver _ _ hrank' _ _ hb =>
      rw [List.getLast?_concat] at hlast
      cases hlast
      rw [hrank] at hrank'
      cases hrank'
      obtain rfl : second = b := hb
      exact hsecond

/-- The same with a single step before the quota is exceeded. -/
def hastySetting : Setting := { shortSetting with options := { width := 2, stepQuota := 1 } }

/-- A validator that finds broken timewarps only. -/
def brokenAlways (_ : String) : Except String Measure := .ok { tail := { invalidTimewarp := true } }

/-- A search that returns the second one of two broken completions. -/
theorem broken_iff_of_search_twoBroken :
    ∃ b generated, Searches hastySetting (.validating brokenAlways) [64] generated b .quotaExceeded ∧
      b.tokens = [.bom, .pitchD, .eom] ∧ b.last = .eom ∧ HasBrokenTimewarp brokenAlways b.tokens ∧
      ∃ found first second rest, generated.getLast? = some found ∧ Branch.rank found = first :: second :: rest ∧
        first.last = .eom ∧ second.last = .eom := by
  have hrun : (runWithin hastySetting (evenAnswer brokenAlways) 3 (initialState hastySetting [64])).map
      (fun r => (r.2.1.tokens, r.2.2)) = some ([.bom, .pitchD, .eom], .quotaExceeded) := by decide +kernel
  obtain ⟨⟨generated, b, ending⟩, hr, he⟩ := Option.map_eq_some_iff.1 hrun
  obtain ⟨hb, rfl⟩ := Prod.mk.inj he
  have hs := searches_of_runWithin (by decide +kernel) hr
  have hlast : b.last = .eom := (descends_of_searches hs).2.last_eq (by rw [hb]; rfl)
  have hbroken : HasBrokenTimewarp brokenAlways b.tokens := ⟨_, rfl, rfl⟩
  have hiff := (broken_iff_of_search (by decide) (search_returns_iff.2 ⟨_, hs⟩)).2 generated hs
  obtain ⟨-, -, found, first, second, rest, hfound, hrank, hfirst, hsecond⟩ := hiff.1 ⟨hlast, hbroken⟩
  exact ⟨b, generated, hs, hb, hlast, hbroken, found, first, second, rest, hfound, hrank, hfirst.1, hsecond.1⟩

end ScoreDecoding.BeamSearch
