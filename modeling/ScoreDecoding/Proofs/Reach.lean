import ScoreDecoding.Proofs.Frontier
import ScoreDecoding.Proofs.Greatest
import ScoreDecoding.Proofs.Lineage

/-!
# The branches along a sequence

Where answers depend on the questions alone, the branches that a search can come to are a tree: a branch is known by its
tokens (`Reaches.unique`). So is what there is along one sequence: its starts, and the completions that end the measure
after one of them. A search that follows the sequence compares the starts with the completions that it has passed.

- `Completion` are these completions, and the new ones of a step are among the children of a start
  (`mem_finished_iff`);
- `Outscored` says that a start scores less than a completion that is no longer;
- `Best` is what a search knows of its candidate, and `Ahead` of the starts that it has come to (`best_of_improves`,
  `Ahead.next`).
-/

namespace ScoreDecoding.BeamSearch

variable (c : Setting) (answer : (q : Query) → q.Answer) (capacities : List Nat)

/-! ## Branches that a search can come to -/

/-- A branch with what it is expanded to by the predictor that takes a sequence of its length. -/
def Expands (b : Branch) (predictor : Nat) (found : List Branch) : Prop :=
  (Cursor.start capacities (c.options.descriptors.length + b.tokens.length)).current? = some predictor ∧
    (expand c predictor b).ReturnsWith (.exactly answer) (.ok found)

/-- The branches that come from the root by expansions. -/
inductive Reaches : Branch → Prop
  | root : Reaches (root c)
  | child {predictor : Nat} {b d : Branch} {found : List Branch} : Reaches b →
      Expands c answer capacities b predictor found → d ∈ found → Reaches d

/-- The highest score among what a branch is expanded to is that of a greatest logit: no smaller one is rounded up to
it. -/
def FavorsGreatest (b : Branch) : Prop :=
  ∀ predictor found logits, Expands c answer capacities b predictor found →
    answer (.predict predictor c.options.descriptors b.tokens) = .ok logits →
    ∀ d ∈ found, (∀ e ∈ found, Double.totalRank e.score ≤ Double.totalRank d.score) →
      ∀ e ∈ found, ∀ l m, logits[d.last.id]? = some l → logits[e.last.id]? = some m → Double.lt l m = false

variable {c answer capacities} {a b d e candidate result : Branch} {predictor : Nat} {found : List Branch}
  {ts : List Token} {n : Nat}

theorem Expands.unique {predictor' : Nat} {found' : List Branch} (h : Expands c answer capacities b predictor found)
    (h' : Expands c answer capacities b predictor' found') : predictor = predictor' ∧ found = found' := by
  obtain rfl := Option.some.inj (h.1.symm.trans h'.1)
  exact ⟨rfl, Except.ok.inj (h.2.unique h'.2)⟩

theorem Expands.child (h : Expands c answer capacities b predictor found) (hd : d ∈ found) :
    Child c (.exactly answer) predictor b d :=
  child_of_expand h.2 hd

/-- What a branch is expanded to differs in the last token. -/
theorem Expands.eq_of_last (h : Expands c answer capacities b predictor found) (hd : d ∈ found) (he : e ∈ found)
    (hlast : d.last = e.last) : d = e := by
  rcases expand_returns.1 h.2 with ⟨-, rfl⟩ | ⟨k, logits, -, -, rfl⟩
  · cases hd
  · obtain ⟨base, t, l, hbase, ht, rfl⟩ := mem_children.1 hd
    obtain ⟨base', u, m, hbase', hu, rfl⟩ := mem_children.1 he
    obtain rfl : t = u := hlast
    obtain rfl := Option.some.inj (hbase.symm.trans hbase')
    obtain rfl := Option.some.inj ((mem_admitted.1 ht).2.1.symm.trans (mem_admitted.1 hu).2.1)
    rfl

theorem Reaches.descends (h : Reaches c answer capacities b) : Descends c (.exactly answer) b := by
  induction h with
  | root => exact .root
  | child _ he hd ih => exact .child ih (he.child hd)

/-- No score is the negative zero, since the first one is not. -/
theorem Reaches.score_ne (h : Reaches c answer capacities b) : b.score ≠ -0 := by
  induction h with
  | root =>
    show (0 : Float) ≠ -0
    decide
  | child _ he hd ih =>
    obtain ⟨-, -, -, -⟩ := he.child hd
    exact Double.add_ne_neg_zero _ (Double.add_ne_neg_zero _ ih)

theorem Reaches.length_le (h : Reaches c answer capacities b) : c.options.start.length ≤ b.tokens.length :=
  h.descends.start_prefix.length_le

/-- A branch that is longer than the root has a parent. -/
theorem Reaches.exists_parent (h : Reaches c answer capacities d) (hlt : c.options.start.length < d.tokens.length) :
    ∃ b predictor found, Reaches c answer capacities b ∧ Expands c answer capacities b predictor found ∧
      d ∈ found ∧ d.tokens = b.tokens ++ [d.last] := by
  cases h with
  | root => exact absurd hlt (Nat.lt_irrefl _)
  | child hb he hd => exact ⟨_, _, _, hb, he, hd, (he.child hd).tokens_eq⟩

/-- No other branch is as short as the root. -/
theorem Reaches.eq_root (h : Reaches c answer capacities b) (hle : b.tokens.length ≤ c.options.start.length) :
    b = BeamSearch.root c := by
  cases h with
  | root => rfl
  | child ha he hb =>
    have hlength := (he.child hb).length_eq
    have := ha.length_le
    omega

/-- **A branch that a search can come to is known by its tokens.** -/
theorem Reaches.unique (hb : Reaches c answer capacities b) (hd : Reaches c answer capacities d)
    (h : b.tokens = d.tokens) : b = d := by
  induction hb generalizing d with
  | root => exact (hd.eq_root (h ▸ Nat.le_refl _)).symm
  | @child predictor a b found ha he hx ih =>
    have hlt : c.options.start.length < d.tokens.length := by
      rw [← h, (he.child hx).length_eq]
      exact Nat.lt_succ_of_le ha.length_le
    obtain ⟨a', predictor', found', ha', he', hx', htokens⟩ := hd.exists_parent hlt
    rw [(he.child hx).tokens_eq, htokens, List.append_singleton_inj] at h
    obtain rfl := ih ha' h.1
    obtain ⟨rfl, rfl⟩ := he.unique he'
    exact he.eq_of_last hx hx' h.2

/-- The starts of a sequence are known by their lengths. -/
theorem Reaches.eq_of_length (hb : Reaches c answer capacities b) (hd : Reaches c answer capacities d)
    (hbts : b.tokens <+: ts) (hdts : d.tokens <+: ts) (h : b.tokens.length = d.tokens.length) : b = d :=
  hb.unique hd ((List.prefix_of_prefix_length_le hbts hdts h.le).eq_of_length h)

/-! ## Completions along a sequence -/

variable (c answer capacities)

/-- A branch that ends the measure after a start of a sequence, with a finite score. -/
structure Completion (ts : List Token) (d : Branch) : Prop where
  reached : Reaches c answer capacities d
  ended : d.isComplete = true
  finite : Double.isFinite d.score = true
  after : d.tokens.dropLast <+: ts

/-- A start of a sequence scores less than a completion along the sequence that is no longer. -/
def Outscored (ts : List Token) : Prop :=
  ∃ b d, Reaches c answer capacities b ∧ b.tokens <+: ts ∧ Completion c answer capacities ts d ∧
    d.tokens.length ≤ b.tokens.length ∧ Double.lt b.score d.score = true

variable {c answer capacities}

/-- What is finished among the children of a start are the completions that are one token longer. -/
theorem mem_finished_iff (hb : Reaches c answer capacities b) (hts : b.tokens <+: ts)
    (he : Expands c answer capacities b predictor found) :
    d ∈ found ∧ isFinished d = true ↔
      Completion c answer capacities ts d ∧ d.tokens.length = b.tokens.length + 1 := by
  unfold isFinished
  rw [Bool.and_eq_true]
  constructor
  · rintro ⟨hd, hended, hfinite⟩
    have htokens := (he.child hd).tokens_eq
    refine ⟨⟨.child hb he hd, hended, hfinite, ?_⟩, (he.child hd).length_eq⟩
    rwa [htokens, List.dropLast_concat]
  · rintro ⟨hd, hlength⟩
    have hlt : c.options.start.length < d.tokens.length := hlength ▸ Nat.lt_succ_of_le hb.length_le
    obtain ⟨a, predictor', found', ha, he', hmem, htokens⟩ := hd.reached.exists_parent hlt
    have hafter := hd.after
    rw [htokens, List.dropLast_concat] at hafter
    rw [htokens, List.length_append, List.length_singleton] at hlength
    obtain rfl := hb.eq_of_length ha hts hafter (by omega)
    obtain ⟨rfl, rfl⟩ := he.unique he'
    exact ⟨hmem, hd.ended, hd.finite⟩

/-! ## The candidate and the starts -/

variable (c answer capacities)

/-- The candidate is the best completion along a sequence that is no longer than so many tokens, unless it is open and
there is none. -/
structure Best (ts : List Token) (n : Nat) (candidate : Branch) : Prop where
  found : candidate.isComplete = true → Completion c answer capacities ts candidate ∧ candidate.tokens.length ≤ n
  best : ∀ d, Completion c answer capacities ts d → d.tokens.length ≤ n →
    candidate.isComplete = true ∧ Double.le d.score candidate.score = true

/-- No start of so many tokens at most scores less than a completion that is no longer. -/
def Ahead (ts : List Token) (n : Nat) : Prop :=
  ∀ b d, Reaches c answer capacities b → b.tokens <+: ts → b.tokens.length ≤ n → Completion c answer capacities ts d →
    d.tokens.length ≤ b.tokens.length → Double.lt b.score d.score = false

variable {c answer capacities}

/-- A sequence is outscored unless all its starts are ahead. -/
theorem outscored_iff_not_ahead : Outscored c answer capacities ts ↔ ¬ Ahead c answer capacities ts ts.length := by
  constructor
  · rintro ⟨b, d, hb, hts, hd, hle, hlt⟩ hahead
    rw [hahead b d hb hts hts.length_le hd hle] at hlt
    cases hlt
  · intro hno
    by_contra hnot
    refine hno fun b d hb hts _ hd hle => ?_
    rw [Bool.eq_false_iff]
    exact fun hlt => hnot ⟨b, d, hb, hts, hd, hle, hlt⟩

/-- The score of the root is zero. -/
theorem isFinite_root : Double.isFinite (root c).score = true := by
  show Double.isFinite 0 = true
  decide

/-- At the root there is no completion but the root. -/
theorem best_root (hts : c.options.start <+: ts) : Best c answer capacities ts c.options.start.length (root c) where
  found hc := ⟨⟨.root, hc, isFinite_root, (List.dropLast_prefix _).trans hts⟩, Nat.le_refl _⟩
  best d hd hle := by
    obtain rfl := hd.reached.eq_root hle
    exact ⟨hd.ended, le_self isFinite_root⟩

theorem ahead_root : Ahead c answer capacities ts c.options.start.length := by
  intro b d hb hts hlen hd hle
  obtain rfl := hb.eq_root hlen
  obtain rfl := hd.reached.eq_root hle
  exact Double.lt_irrefl _

/-- The best completion is still the best one with those among the children of a start. -/
theorem best_of_improves {validator : String → Except String Measure} {finished : List Branch}
    (h : Best c answer capacities ts b.tokens.length candidate) (hb : Reaches c answer capacities b)
    (hts : b.tokens <+: ts) (he : Expands c answer capacities b predictor found)
    (hfinished : ∀ d, d ∈ finished ↔ d ∈ found ∧ isFinished d = true)
    (hi : Improves validator candidate finished result)
    (hsound : ∀ d ∈ finished, Validation.HasSoundTimewarp validator d.tokens) :
    Best c answer capacities ts (b.tokens.length + 1) result where
  found hc := by
    rcases hi.found with rfl | ⟨hmem, -⟩
    · exact ⟨(h.found hc).1, Nat.le_succ_of_le (h.found hc).2⟩
    · exact ((mem_finished_iff hb hts he).1 ((hfinished _).1 hmem)).imp_right Nat.le_of_eq
  best d hd hle := by
    rcases Nat.le_or_eq_of_le_succ hle with hle | hlength
    · obtain ⟨hc, hbest⟩ := h.best d hd hle
      exact (hi.not_worse hc).imp_right (Double.le_trans hbest)
    · have hmem := (hfinished d).2 ((mem_finished_iff hb hts he).2 ⟨hd, hlength⟩)
      exact hi.best d hmem ⟨isComplete_iff.1 hd.ended, hd.finite, hsound d hmem⟩

/-- What does not score less than the candidate does not score less than a completion. -/
theorem Best.not_lt (h : Best c answer capacities ts n candidate) {x : Float}
    (hnlt : candidate.isComplete = true → Double.lt x candidate.score = false) :
    ∀ e, Completion c answer capacities ts e → e.tokens.length ≤ n → Double.lt x e.score = false := by
  intro e he hle
  obtain ⟨hc, hbest⟩ := h.best e he hle
  rw [Bool.eq_false_iff]
  intro hlt
  rw [Double.lt_of_lt_of_le hlt hbest] at hnlt
  cases hnlt hc

/-- A start that ends the measure is the only completion of its length. -/
theorem Completion.eq_of_isComplete (he : Completion c answer capacities ts e) (hb : Reaches c answer capacities b)
    (hts : b.tokens <+: ts) (hexpands : Expands c answer capacities b predictor found) (hd : d ∈ found)
    (hc : d.isComplete = true) (hlength : e.tokens.length = b.tokens.length + 1) : e = d := by
  obtain ⟨hmem, -⟩ := (mem_finished_iff hb hts hexpands).2 ⟨he, hlength⟩
  exact hexpands.eq_of_last hmem hd ((isComplete_iff.1 he.ended).trans (isComplete_iff.1 hc).symm)

/-- The next start is ahead, if it does not score less than a completion that is no longer. -/
theorem Ahead.next (h : Ahead c answer capacities ts n) (hd : Reaches c answer capacities d) (hts : d.tokens <+: ts)
    (hlength : d.tokens.length = n + 1)
    (hnlt : ∀ e, Completion c answer capacities ts e → e.tokens.length ≤ n + 1 → Double.lt d.score e.score = false) :
    Ahead c answer capacities ts (n + 1) := by
  intro a e ha hats hlen he hle
  rcases Nat.le_or_eq_of_le_succ hlen with hlen | heq
  · exact h a e ha hats hlen he hle
  · obtain rfl := ha.eq_of_length hd hats hts (heq.trans hlength.symm)
    exact hnlt e he (hle.trans heq.le)

/-! ## Rounding along a sequence -/

variable (c answer capacities)

/-- Rounding keeps the choices along a sequence: before its end the scores are finite, and the highest one among the
children of a start is that of a greatest logit. -/
def Resolves (ts : List Token) : Prop :=
  ∀ b, Reaches c answer capacities b → b.tokens <+: ts → b.tokens ≠ ts →
    Double.isFinite b.score = true ∧ FavorsGreatest c answer capacities b

/-- Whether the highest score among branches is that of a greatest logit. -/
def favors (logits : Array Float) (found : List Branch) : Bool :=
  found.all fun d => !(found.all fun e => Double.totalRank e.score ≤ Double.totalRank d.score) ||
    found.all fun e => (logits[d.last.id]?).all fun l => (logits[e.last.id]?).all fun m => !Double.lt l m

/-- Whether rounding keeps the choices from a branch on, for the tokens that are left. -/
def resolvesFrom (b : Branch) : List Token → Bool
  | [] => true
  | t :: ts => Double.isFinite b.score &&
      (Cursor.start capacities (c.options.descriptors.length + b.tokens.length)).current?.all fun predictor =>
        match (expand c predictor b).eval answer, answer (.predict predictor c.options.descriptors b.tokens) with
        | .ok found, .ok logits => favors logits found && found.all fun d => d.last != t || resolvesFrom d ts
        | _, _ => true

variable {c answer capacities}

/-- A start of a branch that is no shorter than the root is a branch. -/
theorem Reaches.exists_start (h : Reaches c answer capacities d) (hts : ts <+: d.tokens)
    (hlen : c.options.start.length ≤ ts.length) : ∃ b, Reaches c answer capacities b ∧ b.tokens = ts := by
  induction h with
  | root => exact ⟨_, .root, (hts.eq_of_length (Nat.le_antisymm hts.length_le hlen)).symm⟩
  | @child predictor b d found hb he hd ih =>
    rw [(he.child hd).tokens_eq] at hts
    rcases List.prefix_concat_iff.1 hts with heq | hts
    · exact ⟨d, .child hb he hd, (he.child hd).tokens_eq.trans heq.symm⟩
    · exact ih hts

theorem favorsGreatest_of_favors (h : ∀ predictor found logits, Expands c answer capacities b predictor found →
    answer (.predict predictor c.options.descriptors b.tokens) = .ok logits → favors logits found = true) :
    FavorsGreatest c answer capacities b := by
  intro predictor found logits he hlogits d hd hhighest e hmem l m hl hm
  have hfavors := List.all_eq_true.1 (h predictor found logits he hlogits) d hd
  have htop : found.all (fun e => Double.totalRank e.score ≤ Double.totalRank d.score) = true := by
    rw [List.all_eq_true]
    exact fun e he => decide_eq_true (hhighest e he)
  rw [htop, Bool.not_true, Bool.false_or] at hfavors
  simpa [hl, hm] using List.all_eq_true.1 hfavors e hmem

/-- What is computed for a branch holds of all branches along the tokens that are left. -/
theorem favorsGreatest_of_resolvesFrom (h : resolvesFrom c answer capacities b ts = true)
    (hb : Reaches c answer capacities b) (hd : Reaches c answer capacities d) (hbd : b.tokens <+: d.tokens)
    (hts : d.tokens <+: b.tokens ++ ts) (hne : d.tokens ≠ b.tokens ++ ts) :
    Double.isFinite d.score = true ∧ FavorsGreatest c answer capacities d := by
  induction ts generalizing b with
  | nil =>
    rw [List.append_nil] at hts hne
    exact absurd (hts.eq_of_length (Nat.le_antisymm hts.length_le hbd.length_le)) hne
  | cons t ts ih =>
    rw [resolvesFrom, Bool.and_eq_true] at h
    obtain ⟨hfinite, hexpands⟩ := h
    have hfound : ∀ predictor found logits, Expands c answer capacities b predictor found →
        answer (.predict predictor c.options.descriptors b.tokens) = .ok logits →
        favors logits found = true ∧ ∀ e ∈ found, e.last = t → resolvesFrom c answer capacities e ts = true := by
      intro predictor found logits he hlogits
      have heval := (Dialogue.returnsWith_eval (K := .exactly answer) (fun _ => rfl) (expand c predictor b)).unique he.2
      rw [he.1, Option.all_some, heval, hlogits, Bool.and_eq_true] at hexpands
      refine ⟨hexpands.1, fun e hmem hlast => ?_⟩
      simpa [hlast] using List.all_eq_true.1 hexpands.2 e hmem
    by_cases heq : d.tokens = b.tokens
    · obtain rfl := hd.unique hb heq
      exact ⟨hfinite, favorsGreatest_of_favors fun predictor found logits he hlogits =>
        (hfound predictor found logits he hlogits).1⟩
    · -- the branch comes from the child that the next token makes
      have hnext : b.tokens ++ [t] <+: d.tokens := by
        obtain ⟨us, hus⟩ := hbd
        rw [← hus] at hts heq ⊢
        rw [List.prefix_append_right_inj] at hts ⊢
        cases us with
        | nil => exact absurd (List.append_nil _) heq
        | cons u us =>
          obtain ⟨rfl, -⟩ := List.cons_prefix_cons.1 hts
          exact List.cons_prefix_cons.2 ⟨rfl, List.nil_prefix⟩
      have hlength : (b.tokens ++ [t]).length = b.tokens.length + 1 := by simp
      obtain ⟨a, ha, hat⟩ := hd.exists_start hnext (hlength ▸ Nat.le_succ_of_le hb.length_le)
      obtain ⟨p, predictor, found, hp, he, hmem, htokens⟩ :=
        ha.exists_parent (by rw [hat, hlength]; exact Nat.lt_succ_of_le hb.length_le)
      obtain ⟨hpb, hlast⟩ := List.append_singleton_inj.1 (hat.symm.trans htokens)
      obtain rfl := hb.unique hp hpb
      obtain ⟨logits, hlogits⟩ : ∃ logits, answer (.predict predictor c.options.descriptors b.tokens) = .ok logits := by
        obtain ⟨-, hlogits, -, -⟩ := he.child hmem
        exact ⟨_, hlogits.symm⟩
      refine ih ((hfound _ _ _ he hlogits).2 a hmem hlast.symm) ha (hat ▸ hnext) ?_ ?_
      · rwa [hat, List.append_assoc, List.singleton_append]
      · rwa [hat, List.append_assoc, List.singleton_append]

/-- Whether rounding keeps the choices along a sequence can be computed. -/
theorem resolves_of_resolvesFrom (h : resolvesFrom c answer capacities (root c) ts = true) :
    Resolves c answer capacities (c.options.start ++ ts) := by
  intro b hb hts hne
  have hstart : c.options.start <+: b.tokens := hb.descends.start_prefix
  exact favorsGreatest_of_resolvesFrom h .root hb hstart hts hne

end ScoreDecoding.BeamSearch
