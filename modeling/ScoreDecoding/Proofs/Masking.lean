import ScoreDecoding.Proofs.Completions
import ScoreDecoding.Proofs.Frontier
import ScoreDecoding.Proofs.NaturalEnd
import Mathlib.Data.List.Forall2

/-!
# What predictors cannot influence

The logits of tokens that the grammar does not allow, and those beyond the alphabet, do not count. A decoder uses the
answer of a predictor in one place, where it is cut down to the admitted tokens; what comes after is the same for two
answers that agree there, so that two decodings with such answers never part.

- `Dialogue.Respects` are the dialogues that go on in the same way for related answers, operator by operator
  (`Respects.bind`, ...); running one gives the same with related answers (`Respects.run_eq`);
- `Query.Alike` relates answers that agree where the grammar allows; `Sampler.sample_respects` and
  `BeamSearch.search_respects` are read off the definitions of the decoders;
- `run_eq_of_alike` says this of both decoders with two lists of predictors.
-/

namespace ScoreDecoding

namespace Dialogue

variable {α β : Type} {R : (q : Query) → q.Answer → q.Answer → Prop} {d : Dialogue α} {f : α → Dialogue β}

/-! ## Dialogues that respect a relation -/

/-- Where what follows does not look at the proofs, they need not be carried along. -/
theorem attach_bind (d : Dialogue α) (f : α → Dialogue β) : (d.attach.bind fun x => f x.1) = d.bind f := by
  induction d with
  | done a => rfl
  | ask q next ih =>
    simp only [attach, bind, map, bind_assoc]
    congr 1
    funext r
    exact ih r

/-- A dialogue that goes on in the same way whichever of two related answers it gets. -/
inductive Respects (R : (q : Query) → q.Answer → q.Answer → Prop) : Dialogue α → Prop
  | done (a : α) : Respects R (done a)
  | ask (q : Query) (next : q.Answer → Dialogue α) : (∀ r r', R q r r' → next r = next r') →
      (∀ r, Respects R (next r)) → Respects R (ask q next)

theorem Respects.bind (hd : d.Respects R) (hf : ∀ a, d.Returns a → (f a).Respects R) : (d.bind f).Respects R := by
  induction hd with
  | done a => exact hf a (.done a)
  | ask q next hsame _ ih =>
    refine .ask q _ ?_ ?_
    · intro r r' hr
      rw [hsame r r' hr]
    · intro r
      exact ih r fun a ha => hf a (.ask q next r ha)

theorem Respects.map {f : α → β} (hd : d.Respects R) : (d.map f).Respects R :=
  hd.bind fun a _ => .done (f a)

/-- **Related answers lead to the same result**, in any monad in which they are given. -/
theorem Respects.run_eq {m : Type → Type} [Monad m] [LawfulMonad m] {answer answer' : (q : Query) → m q.Answer}
    (hd : d.Respects R)
    (hR : ∀ q, answer q = answer' q ∨ ∃ r r', answer q = pure r ∧ answer' q = pure r' ∧ R q r r') :
    d.run answer = d.run answer' := by
  induction hd with
  | done a => rfl
  | ask q next hsame _ ih =>
    show (answer q >>= fun r => (next r).run answer) = answer' q >>= fun r => (next r).run answer'
    rcases hR q with heq | ⟨r, r', hr, hr', hrel⟩
    · rw [heq]
      congr 1
      funext r
      exact ih r
    · rw [hr, hr', pure_bind, pure_bind, ih r, hsame r r' hrel]

/-- The result with answers that depend on the questions alone is what running it with them gives. -/
theorem run_id {answer : (q : Query) → q.Answer} {a : α} (h : d.ReturnsWith (.exactly answer) a) :
    d.run (m := Id) answer = a := by
  induction h with
  | done a => rfl
  | ask q next r hr _ ih =>
    obtain rfl := hr
    exact ih

end Dialogue

/-! ## Answers that agree where the grammar allows -/

/-- Answers that agree at some tokens: both fail in the same way, or both have the same logits there or none. -/
inductive Agrees (row : TokenSet) : Except String (Array Float) → Except String (Array Float) → Prop
  | ok {logits logits' : Array Float} : (∀ t ∈ row, logits[t.id]? = logits'[t.id]?) →
      Agrees row (.ok logits) (.ok logits')
  | error (reason : String) : Agrees row (.error reason) (.error reason)

/-- Answers of which the difference must not be seen. -/
def Query.Alike (g : Grammar) : (q : Query) → q.Answer → q.Answer → Prop
  | .predict _ _ ts, r, r' => ∀ last, ts.getLast? = some last → Agrees (g.row last) r r'
  | .parse _, r, r' => r = r'

section Questions

variable {g : Grammar} {ts : List Token}

theorem respects_parse (text : String) : (Dialogue.parse text).Respects (Query.Alike g) := by
  refine .ask _ _ ?_ fun r => .done r
  intro r r' hr
  obtain rfl : r = r' := hr
  rfl

/-- A prediction is respected by what uses no more of it than the logits of the tokens that the grammar allows. -/
theorem respects_predict {β : Type} {f : Except String (Array Float) → Dialogue β} {last : Token} (i : Nat)
    (descriptors : List Nat) (hl : ts.getLast? = some last) (hsame : ∀ r r', Agrees (g.row last) r r' → f r = f r')
    (hf : ∀ r, (f r).Respects (Query.Alike g)) :
    ((Dialogue.predict i descriptors ts).bind f).Respects (Query.Alike g) :=
  .ask _ _ (fun r r' hr => hsame r r' (hr last hl)) hf

end Questions

namespace Validation

variable {g : Grammar} {ts : List Token}

theorem validate_respects (tail : Option Token) : (validate ts tail).Respects (Query.Alike g) := (respects_parse _).map

theorem probeTail_respects : (probeTail ts).Respects (Query.Alike g) := (validate_respects _).map

theorem isTimewarpInvalid_respects : (isTimewarpInvalid ts).Respects (Query.Alike g) := by
  apply Dialogue.Respects.map
  unfold validateEnded
  split
  · exact validate_respects _
  · exact validate_respects _

end Validation

namespace Sampler

variable {c : Setting} {s t : State} {logits logits' : Array Float} {allowed : TokenSet}

/-! ## Guided sampling -/

/-- What is not admitted is masked, whatever its logit. -/
theorem maskLogits_congr (temperature : Float) (h : ∀ t ∈ allowed, logits[t.id]? = logits'[t.id]?) :
    maskLogits logits allowed temperature = maskLogits logits' allowed temperature := by
  unfold maskLogits
  apply List.map_congr_left
  intro t _
  by_cases ht : t ∈ allowed
  · rw [h t ht]
  · have hout : allowed.contains t = false := by simpa [TokenSet.mem_iff] using ht
    simp only [hout, Bool.false_eq_true, if_false]
    cases logits[t.id]? with
    | none => cases logits'[t.id]? <;> rfl
    | some l => cases logits'[t.id]? <;> rfl

theorem select_congr (h : ∀ t ∈ allowed, logits[t.id]? = logits'[t.id]?) :
    select c s logits allowed = select c s logits' allowed := by
  unfold select
  rw [maskLogits_congr c.options.temperature h]

theorem consult_respects (s : State) (last : Token) (row : TokenSet) :
    (consult c s last row).Respects (Query.Alike c.grammar) := by
  unfold consult
  split
  · exact .done _
  · split
    · exact Validation.probeTail_respects.map
    · split
      · exact .done _
      · exact .done _

theorem accept_respects (s : State) (t : Token) : (accept c s t).Respects (Query.Alike c.grammar) := by
  unfold accept
  split
  · exact .done _
  · split
    · exact Validation.isTimewarpInvalid_respects.map
    · exact .done _

theorem select_respects (s : State) (logits : Array Float) (allowed : TokenSet) :
    (select c s logits allowed).Respects (Query.Alike c.grammar) := by
  unfold select
  split
  · exact .done _
  · split
    · exact .done _
    · split
      · exact .done _
      · exact accept_respects _ _

theorem extend_respects {last : Token} (predictor : Nat) (hl : s.tokens.getLast? = some last) :
    (extend c s predictor (c.grammar.row last)).Respects (Query.Alike c.grammar) := by
  unfold extend
  split
  · exact .done _
  · refine respects_predict predictor _ hl ?_ ?_
    · intro r r' hr
      cases hr with
      | ok hsame => exact select_congr fun t ht => hsame t (mem_admissible.1 ht).1
      | error => rfl
    · intro r
      cases r with
      | error => exact .done _
      | ok logits => exact select_respects _ _ _

theorem step_respects (s : State) : (step c s).Respects (Query.Alike c.grammar) := by
  unfold step
  split
  · exact .done _
  · exact .done _
  · rename_i predictor last _ hl
    apply (consult_respects s last _).bind
    intro r hr
    cases r with
    | error => exact .done _
    | ok u =>
      have hu : u.tokens.getLast? = some last := by rw [(consult_returns_ok c hr).1, hl]
      exact extend_respects predictor hu

theorem iterate_eq (s : State) :
    iterate c s = (step c s).bind fun
      | .stop t ending => .done (t, ending)
      | .next t => iterate c t := by
  rw [iterate.eq_def]
  refine Eq.trans ?_ (Dialogue.attach_bind (step c s) _)
  congr 1
  funext ⟨o, ho⟩
  cases o with
  | stop => rfl
  | next => rfl

theorem iterate_respects (s : State) : (iterate c s).Respects (Query.Alike c.grammar) := by
  induction s using iterate.induct c with
  | case1 s ih =>
    rw [iterate_eq]
    apply (step_respects s).bind
    intro o ho
    cases o with
    | stop => exact .done _
    | next t => exact ih t ho

theorem sample_respects (capacities : List Nat) (masker : Option Masker) (random : Random) :
    (sample c capacities masker random).Respects (Query.Alike c.grammar) := by
  unfold sample
  dsimp only
  split
  · exact .done _
  · exact (iterate_respects _).map

end Sampler

namespace BeamSearch

variable {c : Setting} {s t : State} {b : Branch} {bs : List Branch} {logits logits' : Array Float} {allowed : TokenSet}

/-! ## Beam search -/

/-- What is not admitted is left out, whatever its logit. -/
theorem admitted_congr (h : ∀ t ∈ allowed, logits[t.id]? = logits'[t.id]?) :
    admitted logits allowed = admitted logits' allowed := by
  unfold admitted
  apply List.filterMap_congr
  intro t ht
  rw [h t (TokenSet.mem_toList.1 ht)]

theorem continuation_respects (b : Branch) (row : TokenSet) :
    (continuation? c b row).Respects (Query.Alike c.grammar) := by
  unfold continuation?
  split
  · exact Validation.isTimewarpInvalid_respects.map
  · split
    · exact (Validation.validate_respects _).map
    · split
      · exact .done _
      · exact .done _

theorem expand_respects (predictor : Nat) (hl : b.tokens.getLast? = some b.last) :
    (expand c predictor b).Respects (Query.Alike c.grammar) := by
  apply (continuation_respects b _).bind
  intro r _
  rcases r with e | _ | k
  · exact .done _
  · exact .done _
  · refine respects_predict predictor _ hl ?_ fun r => .done _
    intro r r' hr
    cases hr with
    | @ok logits logits' hsame =>
      have hadmitted : admitted logits (admissible c (c.grammar.row b.last) k) =
          admitted logits' (admissible c (c.grammar.row b.last) k) :=
        admitted_congr fun t ht => hsame t (TokenSet.mem_interAll.1 ht _ List.mem_cons_self)
      simp only [hadmitted]
    | error => rfl

theorem expandRanked_respects (predictor wanted : Nat) (hl : ∀ b ∈ bs, b.tokens.getLast? = some b.last) :
    (expandRanked c predictor wanted bs).Respects (Query.Alike c.grammar) := by
  induction bs generalizing wanted with
  | nil =>
    cases wanted with
    | zero => exact .done _
    | succ wanted => exact .done _
  | cons b bs ih =>
    have hbs : ∀ d ∈ bs, d.tokens.getLast? = some d.last := fun d hd => hl d (List.mem_cons_of_mem _ hd)
    cases wanted with
    | zero => exact .done _
    | succ wanted =>
      apply (expand_respects predictor (hl b List.mem_cons_self)).bind
      intro r _
      rcases r with e | _ | ⟨first, more⟩
      · exact .done _
      · exact ih _ hbs
      · exact (ih _ hbs).map

theorem improve_respects (candidate : Branch) (bs : List Branch) :
    (improve candidate bs).Respects (Query.Alike c.grammar) := by
  induction bs with
  | nil => exact .done _
  | cons b bs ih =>
    unfold improve
    split
    · exact .done _
    · apply Validation.isTimewarpInvalid_respects.bind
      intro r _
      rcases r with e | _ | _
      · exact .done _
      · exact .done _
      · exact ih

theorem review_respects (s : State) (ranked : List Branch) :
    (review c s ranked).Respects (Query.Alike c.grammar) := by
  cases ranked with
  | nil => exact .done _
  | cons best rest =>
    dsimp only [review]
    split
    · apply Validation.isTimewarpInvalid_respects.bind
      intro r _
      rcases r with e | _ | _
      · exact .done _
      · dsimp only
        split
        · exact .done _
        · exact .done _
      · exact (improve_respects _ _).map
    · exact (improve_respects _ _).map

theorem step_respects (hl : ∀ b ∈ s.frontier, b.tokens.getLast? = some b.last) :
    (step c s).Respects (Query.Alike c.grammar) := by
  unfold step
  split
  · exact .done _
  · apply (expandRanked_respects _ _ hl).bind
    intro r _
    cases r with
    | error => exact .done _
    | ok found => exact review_respects _ _

theorem iterate_eq (s : State) :
    iterate c s = (step c s).bind fun
      | .stop b ending => .done (.ok (b, ending))
      | .failed e => .done (.error e)
      | .next t => iterate c t := by
  rw [iterate.eq_def]
  refine Eq.trans ?_ (Dialogue.attach_bind (step c s) _)
  congr 1
  funext ⟨o, ho⟩
  cases o with
  | stop => rfl
  | failed => rfl
  | next => rfl

/-- The branches of a frontier end with their last tokens, so that what is asked about them is what the grammar is asked
about. -/
theorem iterate_respects (hl : ∀ b ∈ s.frontier, b.tokens.getLast? = some b.last) :
    (iterate c s).Respects (Query.Alike c.grammar) := by
  induction s using iterate.induct c with
  | case1 s ih =>
    rw [iterate_eq]
    apply (step_respects hl).bind
    intro o ho
    cases o with
    | stop => exact .done _
    | failed => exact .done _
    | next t => exact ih t ho fun d hd => getLast?_of_step (Dialogue.returnsWith_any.2 ho) hd

theorem search_respects (capacities : List Nat) : (search c capacities).Respects (Query.Alike c.grammar) := by
  unfold search
  dsimp only
  split
  · exact .done _
  · refine iterate_respects fun d hd => ?_
    rw [List.mem_singleton.1 hd]
    exact getLast?_root

end BeamSearch

/-! ## Lists of predictors -/

/-- A predictor that answers by its input. -/
structure Predictor where
  capacity : Nat
  deduce : List Nat → List Token → Except String (Array Float)

namespace Predictor

/-- Predictors with the same capacity and with answers that agree at every token that the grammar allows next. -/
structure Alike (g : Grammar) (p p' : Predictor) : Prop where
  capacity_eq : p.capacity = p'.capacity
  agrees : ∀ descriptors ts last, ts.getLast? = some last →
    Agrees (g.row last) (p.deduce descriptors ts) (p'.deduce descriptors ts)

/-- The answers of predictors, which are asked by their index, beside a validator. -/
def answers {m : Type → Type} [Monad m] (ps : List Predictor) (validator : String → m (Except String Measure)) :
    (q : Query) → m q.Answer
  | .predict i descriptors ts => pure <|
      match ps[i]? with
      | some p => p.deduce descriptors ts
      | none => .error "there is no such predictor"
  | .parse text => validator text

variable {g : Grammar} {ps ps' : List Predictor}

theorem capacities_eq (h : List.Forall₂ (Alike g) ps ps') : ps.map capacity = ps'.map capacity := by
  induction h with
  | nil => rfl
  | cons hp _ ih => rw [List.map_cons, List.map_cons, hp.capacity_eq, ih]

theorem alike_of_answers {m : Type → Type} [Monad m] {validator : String → m (Except String Measure)}
    (h : List.Forall₂ (Alike g) ps ps') (q : Query) :
    answers ps validator q = answers ps' validator q ∨
      ∃ r r', answers ps validator q = pure r ∧ answers ps' validator q = pure r' ∧ q.Alike g r r' := by
  cases q with
  | parse text => exact .inl rfl
  | predict i descriptors ts =>
    refine .inr ⟨_, _, rfl, rfl, ?_⟩
    intro last hl
    rcases Nat.lt_or_ge i ps.length with hi | hi
    · have hi' : i < ps'.length := h.length_eq ▸ hi
      rw [List.getElem?_eq_getElem hi, List.getElem?_eq_getElem hi']
      exact (h.get hi hi').agrees descriptors ts last hl
    · have hi' : ps'.length ≤ i := h.length_eq ▸ hi
      rw [List.getElem?_eq_none hi, List.getElem?_eq_none hi']
      exact .error _

end Predictor

/-! ## Both decoders -/

/-- **Logits of tokens that the grammar does not allow have no influence**: with predictors whose answers agree
elsewhere, both decoders give the same, and guided sampling leaves the same masker and the same generator. -/
theorem run_eq_of_alike {m : Type → Type} [Monad m] [LawfulMonad m] (validator : String → m (Except String Measure))
    {g : Grammar} {ps ps' : List Predictor} (h : List.Forall₂ (Predictor.Alike g) ps ps') :
    (∀ (c : Sampler.Setting) (masker : Option Masker) (random : Random), c.grammar = g →
        (Sampler.sample c (ps.map (·.capacity)) masker random).run (Predictor.answers ps validator) =
          (Sampler.sample c (ps'.map (·.capacity)) masker random).run (Predictor.answers ps' validator)) ∧
      ∀ c : BeamSearch.Setting, c.grammar = g →
        (BeamSearch.search c (ps.map (·.capacity))).run (Predictor.answers ps validator) =
          (BeamSearch.search c (ps'.map (·.capacity))).run (Predictor.answers ps' validator) := by
  constructor
  · rintro c masker random rfl
    rw [Predictor.capacities_eq h]
    exact (Sampler.sample_respects _ masker random).run_eq (Predictor.alike_of_answers h)
  · rintro c rfl
    rw [Predictor.capacities_eq h]
    exact (BeamSearch.search_respects _).run_eq (Predictor.alike_of_answers h)

namespace Predictor

/-- A predictor that always scores tokens in the same way. -/
def steady (score : Token → Float) : Predictor where
  capacity := 64
  deduce _ _ := .ok (Token.all.map score).toArray

/-- One that likes best what the grammar does not allow, and gives more logits than there are tokens. -/
def distracted (g : Grammar) (score : Token → Float) : Predictor where
  capacity := 64
  deduce _ ts :=
    let scores := Token.all.map fun t => if ts.getLast?.all (g.allows · t) then score t else 1000
    .ok (scores ++ [1000]).toArray

theorem alike_distracted (g : Grammar) (score : Token → Float) : (steady score).Alike g (distracted g score) := by
  refine ⟨rfl, fun descriptors ts last hl => .ok fun t ht => ?_⟩
  have hallows : ts.getLast?.all (g.allows · t) = true := by
    rw [hl]
    exact ht
  have hlength : ∀ f : Token → Float, t.id < (Token.all.map f).length := by
    intro f
    rw [List.length_map]
    exact t.id_lt
  rw [List.getElem?_toArray, List.getElem?_toArray, List.getElem?_append_left (hlength _), List.getElem?_map,
    List.getElem?_map, Token.all_getElem?_id, Option.map_some, Option.map_some, if_pos hallows]

end Predictor

/-- Predictors that a run and a search cannot tell apart, although their best logits differ from the first step on. -/
theorem run_eq_of_alike_distracted :
    (∃ r, (Sampler.sample Sampler.halvesSetting [64] none (.ofSeed 4)).run (m := Id)
          (Predictor.answers [.distracted Sampler.halvesSetting.grammar fun t => if t = .d1 then 30 else 0]
            Sampler.hearsHalves) = r ∧
        r.ending = .sampled ∧ r.tokens = [.bom, .pitchC, .d2, .eom]) ∧
      ∃ b, (BeamSearch.search BeamSearch.shortSetting [64]).run (m := Id)
          (Predictor.answers [.distracted BeamSearch.shortSetting.grammar fun _ => 0] BeamSearch.brokenFirst) =
            .ok (b, .bestComplete) ∧
        b.tokens = [.bom, .pitchD, .d4, .eom] := by
  refine ⟨?_, ?_⟩
  · have hrun : (Sampler.runWithin Sampler.halvesSetting
        (Predictor.answers (m := Id) [.steady fun t => if t = .d1 then 30 else 0] Sampler.hearsHalves) 6
        (Sampler.initialState Sampler.halvesSetting [64] none (.ofSeed 4))).map (fun r => (r.1.tokens, r.2)) =
        some ([.bom, .pitchC, .d2, .eom], .sampled) := by decide +kernel
    obtain ⟨⟨t, ending⟩, hr, he⟩ := Option.map_eq_some_iff.1 hrun
    obtain ⟨ht, rfl⟩ := Prod.mk.inj he
    have h := Sampler.sample_of_runWithin (K := .exactly (Predictor.answers (m := Id)
      [.steady fun t => if t = .d1 then 30 else 0] Sampler.hearsHalves)) (fun _ => rfl) (by decide +kernel) hr
    have heq := (run_eq_of_alike (m := Id) Sampler.hearsHalves
      (.cons (Predictor.alike_distracted Sampler.halvesSetting.grammar fun t => if t = .d1 then 30 else 0) .nil)).1
      Sampler.halvesSetting none (.ofSeed 4) rfl
    exact ⟨_, heq.symm.trans (Dialogue.run_id h), rfl, ht⟩
  · have hrun : (BeamSearch.runWithin BeamSearch.shortSetting
        (Predictor.answers (m := Id) [.steady fun _ => 0] BeamSearch.brokenFirst) 4
        (BeamSearch.initialState BeamSearch.shortSetting [64])).map (fun r => (r.2.1.tokens, r.2.2)) =
        some ([.bom, .pitchD, .d4, .eom], .bestComplete) := by decide +kernel
    obtain ⟨⟨generated, b, ending⟩, hr, he⟩ := Option.map_eq_some_iff.1 hrun
    obtain ⟨hb, rfl⟩ := Prod.mk.inj he
    have hs : BeamSearch.Searches BeamSearch.shortSetting
        (.exactly (Predictor.answers (m := Id) [.steady fun _ => 0] BeamSearch.brokenFirst)) [64] generated b
          .bestComplete := ⟨by decide +kernel, BeamSearch.runs_of_runWithin (fun _ => rfl) hr⟩
    have heq := (run_eq_of_alike (m := Id) BeamSearch.brokenFirst
      (.cons (Predictor.alike_distracted BeamSearch.shortSetting.grammar fun _ => 0) .nil)).2
      BeamSearch.shortSetting rfl
    exact ⟨b, heq.symm.trans (Dialogue.run_id (BeamSearch.search_returns_iff.2 ⟨_, hs⟩)), hb⟩

end ScoreDecoding
