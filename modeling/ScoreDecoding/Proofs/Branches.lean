import ScoreDecoding.Decoding.BeamSearch
import ScoreDecoding.Proofs.Validation

/-!
# How a branch of a beam search is continued

`BeamSearch.expand` asks the validator and a predictor about one branch. Here the answers that give a branch a
continuation, and a child, are spelled out.

- `Continues` are the ways in which a branch gets a guide (`continuation_returns`);
- `Child` is one more token under such a guide (`child_of_expand`, `child_of_expandRanked`);
- `Descends` are the branches that come from the root by one child after another.
-/

namespace ScoreDecoding.BeamSearch

variable (c : Setting) (K : Collaborators)

/-! ## Continuations -/

/-- The ways in which a branch gets a continuation: a voice starts after a sound one, the measure may end and has been
judged, or it may not end yet. -/
inductive Continues (b : Branch) : Continuation → Prop
  | voiceStarted : b.last = .vb → (Validation.isTimewarpInvalid b.tokens).ReturnsWith K (.ok false) →
      Continues b ⟨c.initialGuide, b.depth⟩
  | judged {m : Measure} {guide : TokenSet} : b.last ≠ .vb → c.grammar.allows b.last .eom = true →
      K (.parse (Token.code b.tokens (some .eom))) (.ok m) → guideOf? c b.tokens m = some guide →
      Continues b ⟨guide, 0⟩
  | deepened : b.last ≠ .vb → c.grammar.allows b.last .eom = false → b.depth + 1 ≤ Guide.maxDepth →
      (c.options.limitPitch && endsInOctaveMarks b.tokens) = false → Continues b ⟨b.guide, b.depth + 1⟩

variable {c K}

theorem continuation_returns {b : Branch} {k : Continuation}
    (h : (continuation? c b (c.grammar.row b.last)).ReturnsWith K (.ok (some k))) : Continues c K b k := by
  unfold continuation? at h
  split at h
  · rename_i hv
    obtain ⟨answer, ha, hk⟩ := Dialogue.returnsWith_map.1 h
    cases answer with
    | error e => cases hk
    | ok invalid =>
      cases invalid with
      | true => cases hk
      | false => cases hk; exact .voiceStarted hv ha
  · rename_i hv
    split at h
    · rename_i hrow
      obtain ⟨answer, ha, hk⟩ := Dialogue.returnsWith_map.1 h
      cases answer with
      | error e => cases hk
      | ok m =>
        have hguide : some k = (guideOf? c b.tokens m).map fun guide => ⟨guide, 0⟩ := Except.ok.inj hk
        obtain ⟨guide, hg, rfl⟩ := Option.map_eq_some_iff.1 hguide.symm
        exact .judged hv hrow (Validation.validate_returns_ok.1 ha) hg
    · rename_i hrow
      split at h
      · cases Dialogue.returnsWith_done.1 h
      · rename_i hr
        rw [Bool.or_eq_true, not_or, decide_eq_true_eq, Bool.not_eq_true] at hr
        cases Dialogue.returnsWith_done.1 h
        exact .deepened hv (by simpa [Grammar.allows] using hrow) (by omega) hr.2

/-- Each of these ways leads to the continuation. -/
theorem continuation_of_continues {b : Branch} {k : Continuation} (h : Continues c K b k) :
    (continuation? c b (c.grammar.row b.last)).ReturnsWith K (.ok (some k)) := by
  unfold continuation?
  cases h with
  | voiceStarted hv hsound =>
    rw [if_pos hv]
    exact Dialogue.returnsWith_map.2 ⟨.ok false, hsound, rfl⟩
  | @judged m guide hv hrow hm hg =>
    have hend : (c.grammar.row b.last).contains .eom = true := hrow
    rw [if_neg hv, if_pos hend]
    refine Dialogue.returnsWith_map.2 ⟨.ok m, Validation.validate_returns_ok.2 hm, ?_⟩
    show _ = Except.ok ((guideOf? c b.tokens m).map _)
    rw [hg]
    rfl
  | deepened hv hrow hdepth hoctaves =>
    have hdeep : ¬ Guide.maxDepth < b.depth + 1 := by omega
    have hno : ¬ (c.grammar.row b.last).contains .eom = true := by simpa [Grammar.allows] using hrow
    rw [if_neg hv, if_neg hno, decide_eq_false hdeep, hoctaves]
    exact .done _

/-- The guide where the measure may end lets no voice end while a beam is open, and none that has to go on. -/
theorem mem_guideOf {tokens : List Token} {m : Measure} {guide : TokenSet} {t : Token}
    (h : guideOf? c tokens m = some guide) :
    t ∈ guide ↔ t ∈ Guide.ofStatus m.tail ∧
      ((m.tail.beamOpen || mustFill c tokens m.tail) = true → t ≠ .vb ∧ t ≠ .eom) := by
  unfold guideOf? at h
  split at h
  · cases h
  · cases h
    cases m.tail.beamOpen || mustFill c tokens m.tail <;> simp

/-! ## Children -/

/-- What is admitted is in the row, in the guide, and not on the caller's list. -/
theorem mem_admissible {row : TokenSet} {k : Continuation} {t : Token} :
    t ∈ admissible c row k ↔ t ∈ row ∧ t ∈ k.guide ∧ t ∉ c.options.forbiddenTokens := by
  simp [admissible, Setting.permitted, Guide.allExcept]

/-- The choices are the admitted tokens with a finite logit. -/
theorem mem_admitted {logits : Array Float} {s : TokenSet} {t : Token} {l : Float} :
    (t, l) ∈ admitted logits s ↔ t ∈ s ∧ logits[t.id]? = some l ∧ Double.isFinite l = true := by
  unfold admitted
  rw [List.mem_filterMap]
  constructor
  · rintro ⟨u, hu, h⟩
    obtain ⟨x, hx, h⟩ := Option.bind_eq_some_iff.1 h
    split at h
    · rename_i hf
      cases h
      exact ⟨TokenSet.mem_toList.1 hu, hx, hf⟩
    · cases h
  · rintro ⟨ht, hl, hf⟩
    exact ⟨t, TokenSet.mem_toList.2 ht, by simp [hl, hf]⟩

variable (c K)

/-- A branch with one more token, which is admitted under a continuation and has a finite logit. Its score grows by the
logarithm of the probability of the token among the admitted ones, and by the award. -/
inductive Child (predictor : Nat) (b : Branch) : Branch → Prop
  | mk {k : Continuation} {logits : Array Float} {base l : Float} {t : Token} : Continues c K b k →
      K (.predict predictor c.options.descriptors b.tokens) (.ok logits) →
      logSumExp? c.elementary ((admitted logits (admissible c (c.grammar.row b.last) k)).map (·.2)) = some base →
      (t, l) ∈ admitted logits (admissible c (c.grammar.row b.last) k) →
      Child predictor b (b.extend t (b.score + (l - base) + c.options.stepAward) k.guide k.depth)

variable {c K} {predictor : Nat} {b d : Branch}

/-- The children of a branch are its extensions by the choices, if there is a sum of exponentials. -/
theorem mem_children {k : Continuation} {choices : List (Token × Float)} :
    d ∈ children c b k choices ↔ ∃ base t l, logSumExp? c.elementary (choices.map (·.2)) = some base ∧
      (t, l) ∈ choices ∧ d = b.extend t (b.score + (l - base) + c.options.stepAward) k.guide k.depth := by
  unfold children
  cases logSumExp? c.elementary (choices.map (·.2)) with
  | none => simp
  | some base => simp [eq_comm]

/-- A branch is expanded to nothing if it is rejected, and to its children otherwise. -/
theorem expand_returns {found : List Branch} :
    (expand c predictor b).ReturnsWith K (.ok found) ↔
      ((continuation? c b (c.grammar.row b.last)).ReturnsWith K (.ok none) ∧ found = []) ∨
        ∃ k logits, Continues c K b k ∧ K (.predict predictor c.options.descriptors b.tokens) (.ok logits) ∧
          found = children c b k (admitted logits (admissible c (c.grammar.row b.last) k)) := by
  unfold expand
  rw [Dialogue.returnsWith_bind]
  constructor
  · rintro ⟨answer, ha, h⟩
    rcases answer with e | _ | k
    · cases Dialogue.returnsWith_done.1 h
    · cases Dialogue.returnsWith_done.1 h
      exact .inl ⟨ha, rfl⟩
    · obtain ⟨logits, hl, h⟩ := Dialogue.returnsWith_map.1 h
      cases logits with
      | error reason => cases h
      | ok logits =>
        cases h
        exact .inr ⟨k, logits, continuation_returns ha, Dialogue.returnsWith_predict.1 hl, rfl⟩
  · rintro (⟨ha, rfl⟩ | ⟨k, logits, hk, hl, rfl⟩)
    · exact ⟨.ok none, ha, .done _⟩
    · exact ⟨.ok (some k), continuation_of_continues hk,
        Dialogue.returnsWith_map.2 ⟨.ok logits, Dialogue.returnsWith_predict.2 hl, rfl⟩⟩

/-- What a branch is expanded to are its children. -/
theorem child_of_expand {found : List Branch} (h : (expand c predictor b).ReturnsWith K (.ok found))
    (hd : d ∈ found) : Child c K predictor b d := by
  rcases expand_returns.1 h with ⟨-, rfl⟩ | ⟨k, logits, hk, hl, rfl⟩
  · cases hd
  · obtain ⟨base, t, l, hbase, ht, rfl⟩ := mem_children.1 hd
    exact .mk hk hl hbase ht

/-- What some branches are expanded to are their children. -/
theorem child_of_expandRanked {wanted : Nat} {bs found : List Branch}
    (h : (expandRanked c predictor wanted bs).ReturnsWith K (.ok found)) (hd : d ∈ found) :
    ∃ b ∈ bs, Child c K predictor b d := by
  induction bs generalizing wanted found with
  | nil =>
    cases wanted with
    | zero => cases Dialogue.returnsWith_done.1 h; cases hd
    | succ wanted => cases Dialogue.returnsWith_done.1 h; cases hd
  | cons b bs ih =>
    cases wanted with
    | zero => cases Dialogue.returnsWith_done.1 h; cases hd
    | succ wanted =>
      obtain ⟨answer, ha, h⟩ := Dialogue.returnsWith_bind.1 h
      rcases answer with e | _ | ⟨first, more⟩
      · cases Dialogue.returnsWith_done.1 h
      · obtain ⟨b', hb', hc⟩ := ih h hd
        exact ⟨b', List.mem_cons_of_mem _ hb', hc⟩
      · obtain ⟨rest, hr, h⟩ := Dialogue.returnsWith_map.1 h
        cases rest with
        | error e => cases h
        | ok rest =>
          cases h
          rcases List.mem_append.1 hd with hd | hd
          · exact ⟨b, List.mem_cons_self, child_of_expand ha hd⟩
          · obtain ⟨b', hb', hc⟩ := ih hr hd
            exact ⟨b', List.mem_cons_of_mem _ hb', hc⟩

namespace Child

/-- A child has one more token, which is its last one. -/
theorem tokens_eq (h : Child c K predictor b d) : d.tokens = b.tokens ++ [d.last] := by
  obtain ⟨-, -, -, -⟩ := h
  rfl

theorem getLast? (h : Child c K predictor b d) : d.tokens.getLast? = some d.last := by
  rw [h.tokens_eq, List.getLast?_concat]

/-- The last token of a child is admitted under the guide that the child has. -/
theorem admits (h : Child c K predictor b d) : c.grammar.allows b.last d.last = true ∧ d.last ∈ d.guide ∧
    d.last ∉ c.options.forbiddenTokens := by
  obtain ⟨-, -, -, ht⟩ := h
  exact mem_admissible.1 (mem_admitted.1 ht).1

/-- A child has the guide and the depth of a continuation. -/
theorem continues (h : Child c K predictor b d) :
    ∃ k, Continues c K b k ∧ d.guide = k.guide ∧ d.depth = k.depth := by
  obtain ⟨hk, -, -, -⟩ := h
  exact ⟨_, hk, rfl, rfl⟩

end Child

variable (c K)

/-- A branch that comes from the root by one token after another. -/
inductive Descends : Branch → Prop
  | root : Descends (root c)
  | child {predictor : Nat} {b d : Branch} : Descends b → Child c K predictor b d → Descends d

variable {c K}

/-- The start of a search is the primer, or the begin of a measure in place of an empty one. -/
theorem start_ne_nil : c.options.start ≠ [] := by
  unfold RunOptions.start
  split
  · exact List.cons_ne_nil _ _
  · assumption

/-- A branch ends with its last token. -/
theorem Descends.getLast? (h : Descends c K b) : b.tokens.getLast? = some b.last := by
  cases h with
  | root =>
    obtain ⟨t, ht⟩ := Option.ne_none_iff_exists'.1 (mt List.getLast?_eq_none_iff.1 (start_ne_nil (c := c)))
    simp only [BeamSearch.root, ht, Option.getD_some]
  | child _ hd => exact hd.getLast?

theorem Descends.last_eq (h : Descends c K b) {t : Token} (ht : b.tokens.getLast? = some t) : b.last = t := by
  rw [h.getLast?] at ht
  exact Option.some.inj ht

end ScoreDecoding.BeamSearch
