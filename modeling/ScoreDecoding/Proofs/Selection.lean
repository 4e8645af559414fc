import ScoreDecoding.Proofs.Bounds

/-!
# Which branches a step of a beam search expands

A step goes through its frontier from the best branch on until as many branches as are wanted have had children. The
ones that are rejected do not count, and may stand anywhere before the last one that does.

- `Selects` says which branches are expanded, with the children of each and the questions about it. This is all that a
  step asks before it ranks what it has found (`expandRanked_asks_iff`);
- `expandInBlock_eq`: the first branches may as well be expanded as one block, which is filled up from the others where
  branches were rejected, and so a step may as well be taken (`step_eq_stepInBlock`);
- `selects_of_step` says both of every step of a search, whose frontier is ranked.
-/

namespace ScoreDecoding.BeamSearch

/-! ## Expanded branches -/

/-- How many branches have been expanded to something. -/
def yielding (expanded : List (List Branch)) : Nat := expanded.countP (!·.isEmpty)

theorem yielding_cons (found : List Branch) (expanded : List (List Branch)) :
    yielding (found :: expanded) = yielding expanded + if found = [] then 0 else 1 := by
  unfold yielding
  rw [List.countP_cons]
  cases found <;> simp

theorem yielding_concat (expanded : List (List Branch)) (found : List Branch) :
    yielding (expanded ++ [found]) = yielding expanded + if found = [] then 0 else 1 := by
  unfold yielding
  rw [List.countP_append, List.countP_singleton]
  cases found <;> simp

/-- A branch that was expanded: its children, and the questions that were asked about it. -/
structure Expansion where
  parent : Branch
  children : List Branch
  questions : List Query

variable (c : Setting) (K : Collaborators)

/-- The branches that are expanded when `n` of them are to have children: they are the first ones, each expansion comes
while fewer than `n` have had some, and there is an end only when `n` have or no branch is left. -/
structure Selects (predictor n : Nat) (bs : List Branch) (done : List Expansion) : Prop where
  answered : ∀ x ∈ done, (expand c predictor x.parent).Asks K x.questions (.ok x.children)
  first : done.map (·.parent) <+: bs
  needed : done ≠ [] → yielding (done.dropLast.map (·.children)) < n
  enough : yielding (done.map (·.children)) = n ∨ done.map (·.parent) = bs

variable {c K} {predictor n : Nat} {b : Branch} {bs found : List Branch} {x : Expansion} {done : List Expansion}
  {qs : List Query}

theorem selects_zero : Selects c K predictor 0 bs done ↔ done = [] := by
  constructor
  · intro h
    by_contra hne
    exact absurd (h.needed hne) (Nat.not_lt_zero _)
  · rintro rfl
    exact ⟨List.forall_mem_nil _, List.nil_prefix, fun h => absurd rfl h, .inl rfl⟩

theorem selects_nil : Selects c K predictor n [] done ↔ done = [] := by
  constructor
  · intro h
    exact List.map_eq_nil_iff.1 (List.prefix_nil.1 h.first)
  · rintro rfl
    exact ⟨List.forall_mem_nil _, List.nil_prefix, fun h => absurd rfl h, .inr rfl⟩

/-- While some are wanted, the next branch is expanded. -/
theorem ne_nil_of_selects (h : Selects c K predictor (n + 1) (b :: bs) done) : done ≠ [] := by
  rintro rfl
  rcases h.enough with hcount | hall
  · cases hcount
  · cases hall

/-- After a branch is expanded, one fewer is wanted if it has had children. -/
theorem selects_cons :
    Selects c K predictor (n + 1) (b :: bs) (x :: done) ↔
      x.parent = b ∧ (expand c predictor b).Asks K x.questions (.ok x.children) ∧
        Selects c K predictor (if x.children = [] then n + 1 else n) bs done := by
  have hcons : ∀ rest : List Expansion, yielding ((x :: rest).map (·.children)) =
      yielding (rest.map (·.children)) + if x.children = [] then 0 else 1 :=
    fun rest => yielding_cons x.children (rest.map Expansion.children)
  constructor
  · intro h
    obtain ⟨hx, hdone⟩ := List.forall_mem_cons.1 h.answered
    obtain ⟨rfl, hfirst⟩ := List.cons_prefix_cons.1 h.first
    refine ⟨rfl, hx, hdone, hfirst, fun hne => ?_, ?_⟩
    · have hneeded := h.needed (List.cons_ne_nil x done)
      rw [List.dropLast_cons_of_ne_nil hne, hcons] at hneeded
      grind
    · rcases h.enough with hcount | hall
      · rw [hcons] at hcount
        exact .inl (by grind)
      · exact .inr (List.cons.inj hall).2
  · rintro ⟨rfl, hx, h⟩
    refine ⟨List.forall_mem_cons.2 ⟨hx, h.answered⟩, List.cons_prefix_cons.2 ⟨rfl, h.first⟩, fun _ => ?_, ?_⟩
    · by_cases hne : done = []
      · subst hne
        exact Nat.succ_pos n
      · have hneeded := h.needed hne
        rw [List.dropLast_cons_of_ne_nil hne, hcons]
        grind
    · rcases h.enough with hcount | hall
      · rw [hcons]
        exact .inl (by grind)
      · exact .inr (congrArg (x.parent :: ·) hall)

/-- **What the ranked branches are expanded to** is what the selected ones have for children, in their order, and no
question is asked about any other. -/
theorem expandRanked_asks_iff :
    (expandRanked c predictor n bs).Asks K qs (.ok found) ↔
      ∃ done, Selects c K predictor n bs done ∧ qs = done.flatMap (·.questions) ∧
        found = done.flatMap (·.children) := by
  induction bs generalizing n qs found with
  | nil =>
    have hnil : expandRanked c predictor n [] = .done (.ok []) := by cases n <;> rfl
    rw [hnil, Dialogue.asks_done]
    simp only [selects_nil, exists_eq_left, List.flatMap_nil, Except.ok.injEq]
  | cons b bs ih =>
    cases n with
    | zero =>
      rw [expandRanked, Dialogue.asks_done]
      simp only [selects_zero, exists_eq_left, List.flatMap_nil, Except.ok.injEq]
    | succ n =>
      rw [expandRanked, Dialogue.asks_bind]
      constructor
      · rintro ⟨before, after, answer, ha, h, rfl⟩
        rcases answer with e | _ | ⟨first, more⟩
        · cases (Dialogue.asks_done.1 h).2
        · obtain ⟨done, hdone, rfl, rfl⟩ := ih.1 h
          exact ⟨⟨b, [], before⟩ :: done, selects_cons.2 ⟨rfl, ha, hdone⟩, rfl, rfl⟩
        · obtain ⟨rest, hr, h⟩ := Dialogue.asks_map.1 h
          cases rest with
          | error e => cases h
          | ok rest =>
            obtain ⟨done, hdone, rfl, rfl⟩ := ih.1 hr
            cases h
            exact ⟨⟨b, first :: more, before⟩ :: done, selects_cons.2 ⟨rfl, ha, hdone⟩, rfl, rfl⟩
      · rintro ⟨done, hs, rfl, rfl⟩
        obtain ⟨⟨_, children, questions⟩, rest, rfl⟩ := List.exists_cons_of_ne_nil (ne_nil_of_selects hs)
        obtain ⟨rfl, hx, hrest⟩ := selects_cons.1 hs
        refine ⟨questions, _, .ok children, hx, ?_, rfl⟩
        cases children with
        | nil => exact ih.2 ⟨rest, hrest, rfl, rfl⟩
        | cons first more => exact Dialogue.asks_map.2 ⟨.ok _, ih.2 ⟨rest, hrest, rfl, rfl⟩, rfl⟩

/-! ## As one block -/

variable (c)

/-- Expands all of some branches. -/
def expandAll (predictor : Nat) : List Branch → Dialogue (Except DecodingError (List (List Branch)))
  | [] => .done (.ok [])
  | b :: bs => (expand c predictor b).bind fun
    | .error e => .done (.error e)
    | .ok found => (expandAll predictor bs).map fun answer => answer.map (found :: ·)

/-- Expands one more branch at a time, while fewer than `n` have been expanded to something. -/
def fillUp (predictor n : Nat) (expanded : List (List Branch)) :
    List Branch → Dialogue (Except DecodingError (List (List Branch)))
  | [] => .done (.ok expanded)
  | b :: bs =>
    if n ≤ yielding expanded then .done (.ok expanded)
    else (expand c predictor b).bind fun
      | .error e => .done (.error e)
      | .ok found => fillUp predictor n (expanded ++ [found]) bs

/-- Expands the first `n` branches, and then others in place of those that were rejected. -/
def expandInBlock (predictor n : Nat) (bs : List Branch) : Dialogue (Except DecodingError (List Branch)) :=
  (expandAll c predictor (bs.take n)).bind fun
    | .error e => .done (.error e)
    | .ok expanded => (fillUp c predictor n expanded (bs.drop n)).map fun answer => answer.map List.flatten

variable {c} {expanded : List (List Branch)}

/-- Filling up expands a block as a whole, if there is room for all of it. -/
theorem fillUp_append {block : List Branch} (h : yielding expanded + block.length ≤ n) :
    fillUp c predictor n expanded (block ++ bs) =
      (expandAll c predictor block).bind fun
        | .error e => .done (.error e)
        | .ok more => fillUp c predictor n (expanded ++ more) bs := by
  induction block generalizing expanded with
  | nil =>
    show _ = fillUp c predictor n (expanded ++ []) bs
    rw [List.append_nil, List.nil_append]
  | cons b block ih =>
    rw [List.length_cons] at h
    have hroom : ¬ n ≤ yielding expanded := by omega
    rw [List.cons_append, fillUp, if_neg hroom, expandAll, Dialogue.bind_assoc]
    congr 1
    funext answer
    cases answer with
    | error e => rfl
    | ok found =>
      have hcount := yielding_concat expanded found
      have hroom : yielding (expanded ++ [found]) + block.length ≤ n := by
        split at hcount <;> omega
      show fillUp c predictor n (expanded ++ [found]) (block ++ bs) = _
      rw [ih hroom]
      show _ = ((expandAll c predictor block).map _).bind _
      rw [Dialogue.map, Dialogue.bind_assoc]
      congr 1
      funext answer
      cases answer with
      | error e => rfl
      | ok more =>
        show fillUp c predictor n (expanded ++ [found] ++ more) bs = fillUp c predictor n (expanded ++ found :: more) bs
        rw [List.append_assoc, List.singleton_append]

/-- What is put before the children of a list of branches. -/
abbrev prepend (front : List Branch) (answer : Except DecodingError (List Branch)) :
    Except DecodingError (List Branch) :=
  answer.map (front ++ ·)

theorem prepend_prepend (front more : List Branch) (answer : Except DecodingError (List Branch)) :
    prepend front (prepend more answer) = prepend (front ++ more) answer := by
  cases answer with
  | error e => rfl
  | ok found => exact congrArg Except.ok (List.append_assoc front more found).symm

/-- Filling up goes through the ranked branches until so many as are missing have been expanded to something. -/
theorem fillUp_eq :
    ((fillUp c predictor n expanded bs).map fun answer => answer.map List.flatten) =
      (expandRanked c predictor (n - yielding expanded) bs).map (prepend expanded.flatten) := by
  induction bs generalizing expanded with
  | nil =>
    have hnil : expandRanked c predictor (n - yielding expanded) [] = .done (.ok []) := by
      cases n - yielding expanded <;> rfl
    rw [hnil]
    show Dialogue.done (Except.ok expanded.flatten) = .done (.ok (expanded.flatten ++ []))
    rw [List.append_nil]
  | cons b bs ih =>
    rw [fillUp]
    split
    · rename_i hfull
      rw [Nat.sub_eq_zero_of_le hfull, expandRanked]
      show Dialogue.done (Except.ok expanded.flatten) = .done (.ok (expanded.flatten ++ []))
      rw [List.append_nil]
    · rename_i hroom
      obtain ⟨wanted, hwanted⟩ : ∃ wanted, n - yielding expanded = wanted + 1 := ⟨n - yielding expanded - 1, by omega⟩
      rw [hwanted, expandRanked, Dialogue.map, Dialogue.map, Dialogue.bind_assoc, Dialogue.bind_assoc]
      congr 1
      funext answer
      -- the branch has failed, was rejected, or has had children
      rcases answer with e | _ | ⟨first, more⟩
      · rfl
      · have hcount : yielding (expanded ++ [[]]) = yielding expanded := yielding_concat expanded []
        refine ih.trans ?_
        rw [hcount, hwanted, List.flatten_append, List.flatten_singleton, List.append_nil]
        rfl
      · have hcount : n - yielding (expanded ++ [first :: more]) = wanted := by
          rw [yielding_concat, if_neg (List.cons_ne_nil first more)]
          omega
        refine ih.trans ?_
        show _ = ((expandRanked c predictor wanted bs).map (prepend (first :: more))).map (prepend expanded.flatten)
        rw [hcount, Dialogue.map_map, List.flatten_append, List.flatten_singleton]
        simp only [prepend_prepend]

/-- **Expanding the first branches as one block** and filling it up asks the same and finds the same as going through
the ranked branches one by one. -/
theorem expandInBlock_eq : expandInBlock c predictor n bs = expandRanked c predictor n bs := by
  have hroom : yielding [] + (bs.take n).length ≤ n := by
    rw [List.length_take, show yielding [] = 0 from rfl, Nat.zero_add]
    exact Nat.min_le_left n bs.length
  have hid : prepend [] = id := by
    funext answer
    cases answer <;> rfl
  calc expandInBlock c predictor n bs
    _ = (fillUp c predictor n [] (bs.take n ++ bs.drop n)).map fun answer => answer.map List.flatten := by
        rw [fillUp_append hroom, Dialogue.map, Dialogue.bind_assoc]
        unfold expandInBlock
        congr 1
        funext answer
        cases answer <;> rfl
    _ = (expandRanked c predictor n bs).map (prepend []) := by
        rw [List.take_append_drop]
        exact fillUp_eq
    _ = expandRanked c predictor n bs := by rw [hid, Dialogue.map_id]

/-! ## The steps of a search -/

/-- Every frontier of a search is ranked. -/
theorem ranked_of_passes {capacities : List Nat} {s : State} (h : Passes c K (initialState c capacities) s) :
    Ranked s.frontier := by
  induction h with
  | refl => exact List.pairwise_singleton _ _
  | tail _ hs _ =>
    obtain ⟨found, best, candidate, -, -, -, rfl⟩ := next_of_step hs
    exact (ranked_rank found).filter _

/-- A step that expands its first branches as one block. -/
def stepInBlock (c : Setting) (predictor : Nat) (s : State) : Dialogue Outcome :=
  (expandInBlock c predictor c.width s.frontier).bind fun
    | .error e => .done (.failed e)
    | .ok found => review c s (Branch.rank found)

theorem step_eq_stepInBlock {s : State} (hp : s.cursor.current? = some predictor) :
    step c s = stepInBlock c predictor s := by
  rw [stepInBlock, expandInBlock_eq]
  unfold step
  split
  · rename_i hnone
    cases hp.symm.trans hnone
  · rename_i hsome
    obtain rfl := Option.some.inj (hp.symm.trans hsome)
    rfl

/-- **Each step expands the first branches that can be expanded**, so many as the search is wide, or all if there are
fewer. The frontier is ranked, the questions of the step are those about these branches and then those about completions
among their children, and what is ranked next are all children in the order of their parents. The step is the same if
it expands its first branches as one block and fills that up where branches were rejected. -/
theorem selects_of_step {capacities : List Nat} {s : State} {o : Outcome}
    (hs : Passes c K (initialState c capacities) s) (hp : s.cursor.current? = some predictor)
    (h : (step c s).Asks K qs o) (hok : ∀ e, o ≠ .failed e) :
    Ranked s.frontier ∧ step c s = stepInBlock c predictor s ∧
      ∃ done after, Selects c K predictor c.width s.frontier done ∧
        qs = done.flatMap (·.questions) ++ after ∧
        (∀ q ∈ after, ∃ d ∈ done.flatMap (·.children), d.isComplete = true ∧
          q = .parse (Validation.endedText d.tokens)) ∧
        (review c s (Branch.rank (done.flatMap (·.children)))).Asks K after o := by
  refine ⟨ranked_of_passes hs, step_eq_stepInBlock hp, ?_⟩
  unfold step at h
  rw [hp] at h
  obtain ⟨before, after, answer, ha, hr, rfl⟩ := Dialogue.asks_bind.1 h
  cases answer with
  | error e => exact absurd (Dialogue.asks_done.1 hr).2 (hok e)
  | ok found =>
    obtain ⟨done, hdone, rfl, rfl⟩ := expandRanked_asks_iff.1 ha
    refine ⟨done, after, hdone, rfl, fun q hq => ?_, hr⟩
    obtain ⟨d, hd, hc, rfl⟩ := review_asks hr hq
    exact ⟨d, mem_rank.1 hd, hc, rfl⟩

/-- The state after a step with answers that depend on the questions alone, if it goes on. -/
def after? (c : Setting) (answer : (q : Query) → q.Answer) (s : State) : Option State :=
  s.cursor.current?.bind fun predictor => match (expandRanked c predictor c.width s.frontier).eval answer with
    | .error _ => none
    | .ok found => match (review c s (found.insertionSort (mayPrecede · ·))).eval answer with
      | .next t => some t
      | _ => none

theorem step_of_after? {answer : (q : Query) → q.Answer} {s t : State} (h : after? c answer s = some t) :
    (step c s).ReturnsWith (.exactly answer) (.next t) := by
  obtain ⟨predictor, hp, h⟩ := Option.bind_eq_some_iff.1 h
  have hg := Dialogue.returnsWith_eval (K := .exactly answer) (fun _ => rfl)
    (expandRanked c predictor c.width s.frontier)
  split at h
  · cases h
  · rename_i found hfound
    rw [hfound] at hg
    have hr := Dialogue.returnsWith_eval (K := .exactly answer) (fun _ => rfl) (review c s (Branch.rank found))
    rw [← rank_eq_insertionSort] at h
    split at h
    · rename_i ho
      rw [ho] at hr
      cases h
      exact step_returns_iff.2 (.inr (.inl ⟨found, ⟨predictor, hp, hg⟩, hr⟩))
    · cases h

/-- Three notes, of which the first one fills a measure. -/
def threeNotes : Setting where
  grammar := .ofSentences [[.bom, .pitchC, .eom], [.bom, .pitchD, .d4, .eom], [.bom, .pitchE, .d4, .eom]]
  options := { width := 1 }
  elementary := { exp := fun _ => 1, log := fun x => if x ≤ 1 then 0 else 1.0986122886681098 }

/-- A validator for which the first note is too long. -/
def hearsLongNote (text : String) : Except String Measure :=
  .ok { tail := { filling := some (if text == "BOM c EOM" then 1 else -1) } }

theorem reliable_evenAnswer {validator : String → Except String Measure} (h : ∀ text, ∃ m, validator text = .ok m) :
    (Collaborators.exactly (evenAnswer validator)).Reliable := by
  apply Collaborators.reliable_exactly
  intro q
  cases q with
  | predict => exact ⟨_, rfl⟩
  | parse text => exact h text

/-- The second step of a search of width one: the best branch is rejected, the second one has a child, and the third one
is not expanded. -/
theorem selects_of_step_rejectedNote :
    ∃ s qs o done after, Passes threeNotes (.exactly (evenAnswer hearsLongNote)) (initialState threeNotes [64]) s ∧
      s.frontier.map (·.tokens) = [[.bom, .pitchC], [.bom, .pitchD], [.bom, .pitchE]] ∧
      (step threeNotes s).Asks (.exactly (evenAnswer hearsLongNote)) qs o ∧
      step threeNotes s = stepInBlock threeNotes 0 s ∧
      Selects threeNotes (.exactly (evenAnswer hearsLongNote)) 0 1 s.frontier done ∧
      qs = done.flatMap (·.questions) ++ after ∧
      (done.flatMap (·.children)).map (·.tokens) = [[.bom, .pitchD, .d4]] := by
  have hafter : (after? threeNotes (evenAnswer hearsLongNote) (initialState threeNotes [64])).map (fun s =>
      (s.frontier.map (·.tokens), s.cursor.current?,
        ((expandRanked threeNotes 0 1 s.frontier).eval (evenAnswer hearsLongNote)).toOption.map
          (·.map (·.tokens)))) =
      some ([[.bom, .pitchC], [.bom, .pitchD], [.bom, .pitchE]], some 0, some [[.bom, .pitchD, .d4]]) := by
    decide +kernel
  obtain ⟨s, hs, hview⟩ := Option.map_eq_some_iff.1 hafter
  simp only [Prod.mk.injEq] at hview
  obtain ⟨hfrontier, hp, hfound⟩ := hview
  have hK : (Collaborators.exactly (evenAnswer hearsLongNote)).Reliable := reliable_evenAnswer fun _ => ⟨_, rfl⟩
  obtain ⟨qs, o, h⟩ := Dialogue.exists_asks hK.answers (step threeNotes s)
  have hok : ∀ e, o ≠ .failed e := by
    rintro e rfl
    exact not_failed_of_step hK h.returnsWith
  have hpasses : Passes threeNotes (.exactly (evenAnswer hearsLongNote)) (initialState threeNotes [64]) s :=
    .single (step_of_after? hs)
  obtain ⟨-, hblock, done, after, hdone, hqs, -, -⟩ := selects_of_step hpasses hp h hok
  refine ⟨s, qs, o, done, after, hpasses, hfrontier, h, hblock, hdone, hqs, ?_⟩
  have hasks := (expandRanked_asks_iff.2 ⟨done, hdone, rfl, rfl⟩).returnsWith
  have heval := Dialogue.returnsWith_eval (K := .exactly (evenAnswer hearsLongNote)) (fun _ => rfl)
    (expandRanked threeNotes 0 1 s.frontier)
  rw [← hasks.unique heval] at hfound
  exact Option.some.inj hfound

end ScoreDecoding.BeamSearch
