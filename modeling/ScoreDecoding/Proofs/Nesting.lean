import ScoreDecoding.Proofs.Questions
import ScoreDecoding.Proofs.Trajectory
import Mathlib.Data.List.Infix

/-!
# How many tokens stand together after which the measure cannot end

Guided sampling counts the tokens since the measure might have ended, and closes a sequence whose counter goes beyond
the limit. The counter is set to zero before the validator is asked, and stays there when the last token is taken back;
it is left as it is when tokens are cut off or taken out of the middle. So it does not count the tokens of the sequence,
and a sequence holds more of them together than the limit allows if tokens were taken out.

- `Tallied` is a sequence with a counter that has started anew at so many places where the measure could not end, with
  what is left of it by a prefix (`Tallied.of_prefix`) and a sublist (`Tallied.sublist`);
- `tallied_of_iterates`: in a run each such place is paid for by a token that was drawn and taken out;
- `length_block_le_of_sample`: the limit holds as often as tokens were taken out, and once more.
-/

namespace ScoreDecoding

/-! ## Counters -/

/-- A sequence with what a counter shows at its end. It counts the tokens after which the measure cannot end, starts
anew after the others, and does not go beyond the limit; `n` times it has started anew elsewhere. -/
inductive Tallied (g : Grammar) : (n depth : Nat) → List Token → Prop
  | nil : Tallied g 0 0 []
  | surfaced {n depth : Nat} {ts : List Token} {t : Token} : Tallied g n depth ts → g.allows t .eom = true →
      Tallied g n 0 (ts ++ [t])
  | deepened {n depth : Nat} {ts : List Token} {t : Token} : Tallied g n depth ts → g.allows t .eom = false →
      depth + 1 ≤ Guide.maxDepth → Tallied g n (depth + 1) (ts ++ [t])
  | restarted {n depth : Nat} {ts : List Token} : Tallied g n depth ts → Tallied g (n + 1) 0 ts

namespace Tallied

variable {g : Grammar} {n depth : Nat} {ts us vs : List Token} {t : Token}

theorem depth_le (h : Tallied g n depth ts) : depth ≤ Guide.maxDepth := by
  cases h with
  | nil => exact Nat.zero_le _
  | surfaced => exact Nat.zero_le _
  | deepened _ _ hle => exact hle
  | restarted => exact Nat.zero_le _

/-- The counter shows zero where the measure may end. -/
theorem depth_eq_zero (h : Tallied g n depth ts) (hts : g.MayEnd ts) : depth = 0 := by
  cases h with
  | nil => rfl
  | surfaced => rfl
  | deepened _ hno =>
    obtain ⟨last, hl, hend⟩ := hts
    rw [List.getLast?_concat] at hl
    cases hl
    rw [hno] at hend
    cases hend
  | restarted => rfl

/-- The counter has been there at each start of the sequence. -/
theorem of_prefix (h : Tallied g n depth ts) (hus : us <+: ts) : ∃ m d, m ≤ n ∧ Tallied g m d us := by
  induction h with
  | nil =>
    rw [List.prefix_nil.1 hus]
    exact ⟨0, 0, Nat.le_refl 0, nil⟩
  | surfaced h ht ih =>
    rcases List.prefix_concat_iff.1 hus with rfl | hus
    · exact ⟨_, _, Nat.le_refl _, h.surfaced ht⟩
    · exact ih hus
  | deepened h ht hle ih =>
    rcases List.prefix_concat_iff.1 hus with rfl | hus
    · exact ⟨_, _, Nat.le_refl _, h.deepened ht hle⟩
    · exact ih hus
  | restarted _ ih =>
    obtain ⟨m, d, hm, h⟩ := ih hus
    exact ⟨m, d, by omega, h⟩

/-- Without one of its tokens, a sequence has a counter that shows no more. It starts anew in the place of a token after
which the measure could end. -/
theorem erase (h : Tallied g n depth (us ++ t :: vs)) :
    ∃ d, d ≤ depth ∧ Tallied g (n + if g.allows t .eom then 1 else 0) d (us ++ vs) := by
  generalize hts : us ++ t :: vs = ts at h
  induction h generalizing vs with
  | nil => simp at hts
  | @surfaced n depth ts x h hx ih =>
    rcases concat_eq_append_cons_iff.1 hts.symm with ⟨rfl, rfl, rfl⟩ | ⟨vs, rfl, hrest⟩
    · rw [if_pos hx, List.append_nil]
      exact ⟨0, Nat.le_refl 0, h.restarted⟩
    · obtain ⟨d, -, hd⟩ := ih hrest.symm
      rw [← List.append_assoc]
      exact ⟨0, Nat.le_refl 0, hd.surfaced hx⟩
  | @deepened n depth ts x h hx hle ih =>
    rcases concat_eq_append_cons_iff.1 hts.symm with ⟨rfl, rfl, rfl⟩ | ⟨vs, rfl, hrest⟩
    · rw [hx, if_neg Bool.false_ne_true, List.append_nil]
      exact ⟨depth, Nat.le_succ depth, h⟩
    · obtain ⟨d, hd, h⟩ := ih hrest.symm
      rw [← List.append_assoc]
      exact ⟨d + 1, by omega, h.deepened hx (by omega)⟩
  | restarted _ ih =>
    obtain ⟨d, -, h⟩ := ih hts
    rw [Nat.add_right_comm]
    exact ⟨0, Nat.le_refl 0, h.restarted⟩

theorem append_sublist (hvs : us.Sublist vs) (h : Tallied g n depth (ts ++ vs)) :
    ∃ m d, d ≤ depth ∧ m + us.countP (g.allows · .eom) ≤ n + vs.countP (g.allows · .eom) ∧
      Tallied g m d (ts ++ us) := by
  induction hvs generalizing ts n depth with
  | slnil => exact ⟨n, depth, Nat.le_refl _, Nat.le_refl _, h⟩
  | @cons us vs t _ ih =>
    obtain ⟨d, hd, h⟩ := h.erase
    obtain ⟨m, e, he, hm, h⟩ := ih h
    refine ⟨m, e, he.trans hd, ?_, h⟩
    rw [List.countP_cons]
    omega
  | @cons_cons us vs t _ ih =>
    rw [← List.singleton_append, ← List.append_assoc] at h
    obtain ⟨m, d, hd, hm, h⟩ := ih h
    rw [List.append_assoc, List.singleton_append] at h
    refine ⟨m, d, hd, ?_, h⟩
    rw [List.countP_cons, List.countP_cons]
    omega

/-- What is left of a sequence has a counter that shows no more, and that starts anew in the places of the tokens after
which the measure could end. -/
theorem sublist (h : Tallied g n depth ts) (hus : us.Sublist ts) :
    ∃ m d, d ≤ depth ∧ m + us.countP (g.allows · .eom) ≤ n + ts.countP (g.allows · .eom) ∧ Tallied g m d us := by
  have happend : Tallied g n depth ([] ++ ts) := h
  exact append_sublist hus happend

theorem sublist_length (h : Tallied g n depth ts) (hus : us.Sublist ts) :
    ∃ m d, d ≤ depth ∧ m + us.length ≤ n + ts.length ∧ Tallied g m d us := by
  obtain ⟨m, d, hd, hm, h⟩ := h.sublist hus
  have hrest := hus.countP_le (p := fun t => decide ¬ g.allows t .eom = true)
  rw [List.length_eq_countP_add_countP (g.allows · .eom), List.length_eq_countP_add_countP (l := ts) (g.allows · .eom)]
  exact ⟨m, d, hd, by omega, h⟩

/-- One more token may come where the counter shows zero. -/
theorem concat (h : Tallied g n 0 ts) (t : Token) : ∃ d, Tallied g n d (ts ++ [t]) := by
  cases ht : g.allows t .eom with
  | true => exact ⟨0, h.surfaced ht⟩
  | false => exact ⟨1, h.deepened ht (by decide)⟩

/-- The tokens that stand together at the end have been counted, and elsewhere the limit holds between two places where
the counter has started anew. -/
theorem length_le (h : Tallied g n depth ts) :
    (∀ block, block <:+ ts → (∀ t ∈ block, g.allows t .eom = false) → block.length ≤ Guide.maxDepth * n + depth) ∧
      ∀ block, block <:+: ts → (∀ t ∈ block, g.allows t .eom = false) → block.length ≤ Guide.maxDepth * (n + 1) := by
  induction h with
  | nil => simp
  | @surfaced n depth ts t h ht ih =>
    have hend : ∀ block, block <:+ ts ++ [t] → (∀ x ∈ block, g.allows x .eom = false) → block = [] := by
      intro block hb hno
      rcases List.suffix_concat_iff.1 hb with rfl | ⟨us, rfl, -⟩
      · rfl
      · have := hno t (by simp)
        rw [ht] at this
        cases this
    refine ⟨fun block hb hno => by simp [hend block hb hno], fun block hb hno => ?_⟩
    rcases List.infix_concat_iff.1 hb with hb | hb
    · simp [hend block hb hno]
    · exact ih.2 block hb hno
  | @deepened n depth ts t h ht hle ih =>
    have hend : ∀ block, block <:+ ts ++ [t] → (∀ x ∈ block, g.allows x .eom = false) →
        block.length ≤ Guide.maxDepth * n + (depth + 1) := by
      intro block hb hno
      rcases List.suffix_concat_iff.1 hb with rfl | ⟨us, rfl, hus⟩
      · exact Nat.zero_le _
      · have := ih.1 us hus fun x hx => hno x (List.mem_append_left _ hx)
        rw [List.length_append, List.length_singleton]
        omega
    refine ⟨hend, fun block hb hno => ?_⟩
    rcases List.infix_concat_iff.1 hb with hb | hb
    · refine (hend block hb hno).trans ?_
      rw [Nat.mul_succ]
      omega
    · exact ih.2 block hb hno
  | @restarted n depth ts h ih =>
    have hdepth := h.depth_le
    constructor
    · intro block hb hno
      have := ih.1 block hb hno
      rw [Nat.mul_succ]
      omega
    · intro block hb hno
      have := ih.2 block hb hno
      rw [Nat.mul_succ]
      omega

end Tallied

/-! ## Repairs -/

variable {g : Grammar} {status : Option TailStatus} {n depth : Nat} {ts us : List Token}

/-- How many beam openings one sequence has more than another, if the measure may end after one. -/
def openingsLost (g : Grammar) (ts us : List Token) : Nat :=
  if g.allows .beamOpen .eom then ts.count .beamOpen - us.count .beamOpen else 0

theorem openingsLost_concat {t : Token} (ht : t ≠ .beamOpen) : openingsLost g ts (us ++ [t]) = openingsLost g ts us := by
  simp [openingsLost, List.count_append, ht]

theorem openingsLost_mono {vs : List Token} (h : ts.Sublist us) : openingsLost g ts vs ≤ openingsLost g us vs := by
  have := h.count_le .beamOpen
  unfold openingsLost
  split
  · omega
  · exact Nat.le_refl 0

theorem countP_eq_countP_filter_add_count (p : Token → Bool) (x : Token) (ts : List Token) :
    ts.countP p = (ts.filter (· != x)).countP p + if p x then ts.count x else 0 := by
  induction ts with
  | nil => simp
  | cons t ts ih =>
    by_cases ht : t = x
    · subst ht
      rw [List.countP_cons, List.filter_cons_of_neg (by simp), List.count_cons_self, ih]
      split <;> omega
    · rw [List.countP_cons, List.filter_cons_of_pos (by simpa using ht), List.countP_cons, List.count_cons_of_ne ht, ih]
      omega

theorem Tallied.tidyBeams (h : Tallied g n depth ts) (status : Option TailStatus) :
    ∃ m d, d ≤ depth ∧ m ≤ n + openingsLost g ts (Repair.tidyBeams status ts) ∧
      Tallied g m d (Repair.tidyBeams status ts) := by
  have hsub := Repair.tidyBeams_sublist status ts
  obtain ⟨m, d, hd, hm, h⟩ := h.sublist hsub
  have hcount := hsub.count_le .beamOpen
  refine ⟨m, d, hd, ?_, h⟩
  rw [countP_eq_countP_filter_add_count _ .beamOpen, countP_eq_countP_filter_add_count _ .beamOpen ts,
    Repair.filter_tidyBeams] at hm
  unfold openingsLost
  by_cases ho : g.allows .beamOpen .eom = true
  · rw [if_pos ho, if_pos ho] at hm
    rw [if_pos ho]
    omega
  · rw [if_neg ho, if_neg ho] at hm
    rw [if_neg ho]
    omega

/-- A sequence that is cut to where the measure may end has a counter that shows zero. -/
theorem Tallied.cutToEnd (h : Tallied g n depth ts.dropLast) : ∃ m, m ≤ n ∧ Tallied g m 0 (Repair.cutToEnd g ts) := by
  by_cases hend : g.MayEnd ts
  · obtain ⟨last, hl, ht⟩ := hend
    obtain ⟨us, rfl⟩ := List.getLast?_eq_some_iff.1 hl
    rw [List.dropLast_concat] at h
    rw [Repair.cutToEnd_of_mayEnd ⟨last, hl, ht⟩]
    exact ⟨n, Nat.le_refl n, h.surfaced ht⟩
  · obtain ⟨m, d, hm, h⟩ := h.of_prefix (Repair.cutToEnd_prefix_dropLast hend)
    by_cases hnil : Repair.cutToEnd g ts = []
    · rw [hnil]
      exact ⟨0, Nat.zero_le n, .nil⟩
    · exact ⟨m, hm, h.depth_eq_zero (Repair.mayEnd_cutToEnd hnil) ▸ h⟩

theorem Tallied.closeOut (h : Tallied g n depth ts.dropLast) (status : Option TailStatus) :
    ∃ m d, m ≤ n + openingsLost g ts (Repair.closeOut g status ts) ∧ Tallied g m d (Repair.closeOut g status ts) := by
  obtain ⟨m, hm, hcut⟩ := h.cutToEnd
  obtain ⟨k, d, hd, hk, htidy⟩ := hcut.tidyBeams status
  obtain rfl : d = 0 := Nat.le_zero.1 hd
  obtain ⟨d, hclose⟩ := htidy.concat .eom
  refine ⟨k, d, ?_, hclose⟩
  have hlost : openingsLost g (Repair.cutToEnd g ts) (Repair.tidyBeams status (Repair.cutToEnd g ts)) ≤
      openingsLost g ts (Repair.closeOut g status ts) := by
    rw [Repair.closeOut, openingsLost_concat (by decide)]
    exact openingsLost_mono (List.rdropWhile_prefix _ ts).sublist
  omega

end ScoreDecoding

namespace ScoreDecoding.Sampler

variable {c : Setting} {K : Collaborators} {s t u v : State} {r : Run} {last x : Token} {predictor : Nat} {row : TokenSet}
  {capacities : List Nat} {masker : Option Masker} {random : Random} {ts us : List Token}

/-! ## One iteration -/

variable (c) in
/-- A part of the sequence has a counter that shows no more than that of the state, and each place where it has started
anew is paid for by a token that was drawn and is not in the sequence. -/
def Accounts (s : State) (ts : List Token) : Prop :=
  ∃ n depth, Tallied c.grammar n depth ts ∧ depth ≤ s.depth ∧ n + s.tokens.length ≤ c.options.start.length + s.steps

/-- A place where the measure may end sets the counter to zero, and another one counts. -/
theorem accounts_of_consults (hguide : c.options.parserGuide = true) (hl : s.tokens.getLast? = some last)
    (hs : Accounts c s s.tokens.dropLast) (h : Consults c K s last (c.grammar.row last) (.ok u)) :
    Accounts c u u.tokens := by
  obtain ⟨n, depth, htally, hdepth, hpaid⟩ := hs
  obtain ⟨ts, hts⟩ := List.getLast?_eq_some_iff.1 hl
  rw [hts, List.dropLast_concat] at htally
  cases h with
  | unguided hno =>
    rw [hguide] at hno
    cases hno
  | followed _ hrow =>
    refine ⟨n, 0, ?_, Nat.zero_le _, hpaid⟩
    show Tallied c.grammar n 0 s.tokens
    rw [hts]
    exact htally.surfaced hrow
  | deepened _ hrow hle =>
    have hno : c.grammar.allows last .eom = false := Bool.eq_false_iff.2 hrow
    obtain ⟨guide, hg⟩ := guardDivisions_eq (deepen s) (c.grammar.row last)
    rw [hg]
    refine ⟨n, depth + 1, ?_, Nat.succ_le_succ hdepth, hpaid⟩
    show Tallied c.grammar n (depth + 1) s.tokens
    rw [hts]
    exact htally.deepened hno (by omega)

/-- A voice that ends has been tidied: the tokens taken out of it have been drawn. -/
theorem accounts_tidy (hs : Accounts c s s.tokens) (hx : x = .vb ∨ x = .eom) (h : Draws c K s predictor row x u) :
    Accounts c (tidy (push c u x)) (Repair.tidyBeams u.status s.tokens) := by
  obtain ⟨n, depth, htally, hdepth, hpaid⟩ := hs
  obtain ⟨m, d, hd, hm, htally⟩ := htally.sublist_length (Repair.tidyBeams_sublist u.status s.tokens)
  have htokens := congrArg List.length (tokens_tidy_push hx h)
  rw [List.length_append, List.length_singleton] at htokens
  obtain ⟨random, rfl⟩ := h.eq
  refine ⟨m, d, htally, hd.trans hdepth, ?_⟩
  show m + (tidy (push c { countStep s with random } x)).tokens.length ≤ c.options.start.length + (s.steps + 1)
  omega

/-- Where a sequence goes back, the token that has ended the voice pays for the counter that goes on. -/
theorem accounts_backtrack (hs : Accounts c s s.tokens) (hx : x = .vb ∨ x = .eom) (h : Draws c K s predictor row x u) :
    Accounts c (backtrack c (tidy (push c u x))) (backtrack c (tidy (push c u x))).tokens.dropLast := by
  obtain ⟨n, depth, htally, -, hpaid⟩ := accounts_tidy hs hx h
  obtain ⟨k, hk⟩ := tokens_backtrack hx h
  obtain ⟨m, d, hm, htally⟩ := htally.of_prefix ((List.dropLast_prefix _).trans (List.take_prefix k _))
  have hcut := List.length_take_le' k (Repair.tidyBeams u.status s.tokens)
  rw [tokens_tidy_push hx h, List.length_append, List.length_singleton] at hpaid
  refine ⟨m + 1, 0, ?_, Nat.zero_le _, ?_⟩
  · rw [hk]
    exact htally.restarted
  · rw [hk]
    exact le_trans (by omega) hpaid

/-- An iteration that goes on keeps the account of all tokens but the last one. -/
theorem accounts_of_iterates (hguide : c.options.parserGuide = true) (hs : Accounts c s s.tokens.dropLast)
    (h : Iterates c K s (.next t)) : Accounts c t t.tokens.dropLast := by
  cases h with
  | consulted hl hc =>
    cases hc with
    | takenBack =>
      obtain ⟨n, depth, htally, -, hpaid⟩ := hs
      obtain ⟨m, d, hm, htally⟩ := htally.of_prefix (List.dropLast_prefix s.tokens.dropLast)
      have hpos : 0 < s.tokens.length := List.length_pos_iff.2 fun hnil => by simp [hnil] at hl
      refine ⟨m + 1, 0, htally.restarted, Nat.zero_le _, ?_⟩
      show m + 1 + s.tokens.dropLast.length ≤ c.options.start.length + s.steps
      rw [List.length_dropLast]
      omega
  | extended _ hl hc he =>
    have hu := accounts_of_consults hguide hl hs hc
    cases he with
    | pushed hd =>
      obtain ⟨random, rfl⟩ := hd.eq
      obtain ⟨n, depth, htally, hdepth, hpaid⟩ := hu
      refine ⟨n, depth, ?_, hdepth, ?_⟩
      · rw [hd.tokens_push, List.dropLast_concat]
        exact htally
      · rw [hd.tokens_push, List.length_append, List.length_singleton]
        exact Nat.succ_le_succ hpaid
    | @voiceEnded w hd =>
      have hv := accounts_tidy hu (.inl rfl) hd
      have htokens : (resetGuides c (tidy (push c w .vb))).tokens = _ := tokens_tidy_push (.inl rfl) hd
      rw [htokens, List.dropLast_concat]
      exact hv
    | backtracked hd hx => exact accounts_backtrack hu hx hd

/-! ## Results -/

variable (c) in
/-- How many tokens have been taken out of a sequence before its end: those that a run has drawn and no longer has when
its last iteration starts, and the beam openings that this iteration has taken out, if the measure may end after one. -/
def takenOut (s : State) (ts : List Token) : Nat :=
  c.options.start.length + s.steps - s.tokens.length + openingsLost c.grammar s.tokens ts

theorem tallied_of_close {n depth : Nat} (h : Tallied c.grammar n depth s.tokens.dropLast)
    (hpaid : n + s.tokens.length ≤ c.options.start.length + s.steps) (status : Option TailStatus) :
    ∃ m d, m ≤ takenOut c s (Repair.closeOut c.grammar status s.tokens) ∧
      Tallied c.grammar m d (Repair.closeOut c.grammar status s.tokens) := by
  obtain ⟨m, d, hm, htally⟩ := h.closeOut status
  refine ⟨m, d, ?_, htally⟩
  unfold takenOut
  omega

/-- Where the measure may end, the counter shows zero, so that the sequence may be ended when it has been tidied. -/
theorem tallied_of_sampled (hs : Accounts c s s.tokens) (hdepth : s.depth = 0) (h : Draws c K s predictor row .eom u) :
    ∃ n depth, n ≤ takenOut c s (tidy (push c u .eom)).tokens ∧
      Tallied c.grammar n depth (tidy (push c u .eom)).tokens := by
  obtain ⟨n, depth, htally, hle, hpaid⟩ := hs
  obtain ⟨m, d, hd, hm, htally⟩ := htally.tidyBeams u.status
  obtain rfl : d = 0 := by omega
  obtain ⟨d, htally⟩ := htally.concat .eom
  rw [tokens_tidy_push (.inr rfl) h]
  refine ⟨m, d, ?_, htally⟩
  rw [takenOut, openingsLost_concat (by decide)]
  omega

theorem tallied_of_extends {ending : Ending} (hs : Accounts c s s.tokens) (hend : .eom ∈ row → s.depth = 0)
    (h : Extends c K s predictor row (.stop t ending)) (hok : ∀ e, ending ≠ .failed e) :
    ∃ n depth, n ≤ takenOut c s t.tokens ∧ Tallied c.grammar n depth t.tokens := by
  obtain ⟨n, depth, htally, hle, hpaid⟩ := hs
  have hwhole : n ≤ takenOut c s s.tokens := by
    unfold takenOut
    omega
  obtain ⟨m, d, hm, hpart⟩ := htally.of_prefix (List.dropLast_prefix s.tokens)
  have hclose := tallied_of_close hpart (by omega)
  cases h with
  | nothingAdmissible => exact hclose s.status
  | quotaExceeded => exact hclose s.status
  | unanswered => exact absurd rfl (hok _)
  | unjudged => exact absurd rfl (hok _)
  | noFiniteLogit => exact ⟨n, depth, hwhole, htally⟩
  | paddingDrawn hd =>
    rw [hd.tokens]
    exact ⟨n, depth, hwhole, htally⟩
  | sampled hd => exact tallied_of_sampled ⟨n, depth, htally, hle, hpaid⟩ (hend hd.admits.1) hd

/-- The last iteration of a run that does not fail takes out openings, or cuts off the end. -/
theorem tallied_of_iterates {ending : Ending} (hguide : c.options.parserGuide = true)
    (hs : Accounts c s s.tokens.dropLast) (h : Iterates c K s (.stop t ending)) (hok : ∀ e, ending ≠ .failed e) :
    ∃ n depth, n ≤ takenOut c s t.tokens ∧ Tallied c.grammar n depth t.tokens := by
  have hclose : ∀ status, ∃ m d, m ≤ takenOut c s (Repair.closeOut c.grammar status s.tokens) ∧
      Tallied c.grammar m d (Repair.closeOut c.grammar status s.tokens) := by
    obtain ⟨n, depth, htally, -, hpaid⟩ := hs
    exact tallied_of_close htally hpaid
  cases h with
  | predictorsExhausted => exact hclose s.status
  | nothingLeft => exact hclose s.status
  | consulted hl hc =>
    cases hc with
    | unread => exact absurd rfl (hok _)
    | tooDeep => exact hclose s.status
  | @extended _ last u _ _ hl hc he =>
    have hu := accounts_of_consults hguide hl hs hc
    have hend : .eom ∈ c.grammar.row last → u.depth = 0 := by
      intro hrow
      obtain ⟨m, -, -, rfl⟩ := followed_of_consults hguide hrow hc
      rfl
    have htaken : ∀ ts, takenOut c u ts = takenOut c s ts := fun ts => by
      rw [takenOut, takenOut, tokens_of_consults hc, steps_of_consults hc]
    rw [← htaken]
    exact tallied_of_extends hu hend he hok

/-- **How many tokens stand together after which the measure cannot end**: as many as the limit says for each token that
was taken out, and once more. In a run that takes none out the limit holds. -/
theorem length_block_le_of_sample (hguide : c.options.parserGuide = true) (hstart : c.options.start = [.bom])
    (h : (sample c capacities masker random).ReturnsWith K r) (hok : r.result = .ok ts) :
    (∃ u, Ends c K capacities masker random u r) ∧
      ∀ u, Ends c K capacities masker random u r →
        ∀ block, block <:+: ts → (∀ t ∈ block, c.grammar.allows t .eom = false) →
          block.length ≤ Guide.maxDepth * (takenOut c u ts + 1) := by
  obtain ⟨hno, rfl⟩ := result_eq_ok_iff.1 hok
  refine ⟨(sample_returns_iff_ends hno).1 h, fun u hu block hb hblock => ?_⟩
  have hinitial : Accounts c (initialState c capacities masker random)
      (initialState c capacities masker random).tokens.dropLast := by
    refine ⟨0, 0, ?_, Nat.zero_le _, Nat.le_of_eq (Nat.zero_add _)⟩
    rw [show (initialState c capacities masker random).tokens = [.bom] from hstart]
    exact .nil
  have hs : Accounts c u u.tokens.dropLast :=
    ends_induction (I := fun s => Accounts c s s.tokens.dropLast) (fun s t hs ht => accounts_of_iterates hguide hs ht)
      hinitial hu
  obtain ⟨t, ho, ht⟩ := hu.iterates
  obtain ⟨n, depth, hn, htally⟩ := tallied_of_iterates hguide hs ho hno
  rw [ht] at hb ⊢
  exact (htally.length_le.2 block hb hblock).trans (Nat.mul_le_mul_left _ (Nat.succ_le_succ hn))

/-- Chords of any number of notes, after which the measure may end. -/
def chordSetting : Setting where
  grammar := .ofSentences [[.bom, .eom], [.bom, .pitchC, .pitchC, .d4, .eom], [.pitchC, .d8, .eom]]
  options := { temperature := 0 }

/-- A predictor that writes twenty notes and a quarter, and goes on with an eighth after one more note; and a validator
for which the quarter is too long. -/
def chordAnswer : (q : Query) → q.Answer
  | .predict _ _ ts =>
    let like := if ts.length = 21 then Token.d4 else if ts.length = 22 then .d8 else .pitchC
    .ok (Token.all.map fun t => if t = like then 30 else if t = .pitchC then 20 else 0).toArray
  | .parse text =>
    let quarter := text == "BOM c c c c c c c c c c c c c c c c c c c c D4 EOM"
    .ok { tail := { filling := some (if quarter then 1 else -1) } }

/-- The quarter is taken back, and the counter starts anew in the middle of a chord of twenty-one notes. -/
theorem length_block_le_of_sample_takenBack :
    ∃ u r, Ends chordSetting (.exactly chordAnswer) [64] none (.ofSeed 1) u r ∧ r.ending = .sampled ∧
      r.tokens = [.bom] ++ List.replicate 21 .pitchC ++ [.d8, .eom] ∧
      chordSetting.grammar.allows .pitchC .eom = false ∧ 0 < takenOut chordSetting u r.tokens := by
  have hrun : (runWithin chordSetting chordAnswer 25 (initialState chordSetting [64] none (.ofSeed 1))).map
      (fun r => (r.1.tokens, r.2)) = some ([.bom] ++ List.replicate 21 .pitchC ++ [.d8, .eom], .sampled) := by
    decide +kernel
  obtain ⟨⟨t, ending⟩, hr, he⟩ := Option.map_eq_some_iff.1 hrun
  obtain ⟨ht, rfl⟩ := Prod.mk.inj he
  have hsample := sample_of_runWithin (K := .exactly chordAnswer) (fun _ => rfl) (by decide +kernel) hr
  have hok : (finish t .sampled).result = .ok ([.bom] ++ List.replicate 21 .pitchC ++ [.d8, .eom]) :=
    congrArg Except.ok ht
  have hno : chordSetting.grammar.allows .pitchC .eom = false := by decide +kernel
  obtain ⟨⟨u, hu⟩, hle⟩ := length_block_le_of_sample rfl rfl hsample hok
  refine ⟨u, _, hu, rfl, ht, hno, Nat.pos_of_ne_zero fun hzero => ?_⟩
  -- otherwise the limit would hold
  have hlimit := hle u hu (List.replicate 21 .pitchC) (List.infix_append _ _ _) fun x hx =>
    (List.eq_of_mem_replicate hx).symm ▸ hno
  rw [show takenOut chordSetting u _ = 0 from ht ▸ hzero] at hlimit
  exact absurd hlimit (by decide)

end ScoreDecoding.Sampler
