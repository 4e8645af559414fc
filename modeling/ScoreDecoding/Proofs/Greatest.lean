import ScoreDecoding.Double.Zero
import ScoreDecoding.Proofs.Choice
import ScoreDecoding.Proofs.Completions

/-!
# The greatest logit and the highest rank

Without a temperature guided sampling takes the first one of the greatest logits. Beam search ranks all children of a
branch, and children of equal rank keep the order of their tokens. Both choices are described by what comes before the
chosen one and what comes after it.

- `Sampler.FirstGreatest` is the choice of guided sampling (`Sampler.firstGreatest_of_argmax`,
  `Sampler.greatest_of_argmax`);
- `BeamSearch.rank_eq_cons` says which branch is ranked first;
- `BeamSearch.exists_rank_children`: that is the child of the first greatest logit, if the highest score is that of a
  greatest one.
-/

namespace ScoreDecoding

namespace Sampler

/-! ## The greatest logit -/

/-- An index of a list has a finite value that no finite value exceeds, and that those before it do not reach. -/
structure FirstGreatest (logits : List Float) (i : Nat) (l : Float) : Prop where
  value : logits[i]? = some l
  finite : Double.isFinite l = true
  le : ∀ (j : Nat) (m : Float), logits[j]? = some m → Double.isFinite m = true → Double.le m l = true
  lt : ∀ (j : Nat) (m : Float), j < i → logits[j]? = some m → Double.isFinite m = true → Double.lt m l = true

/-- What is known when a part of a list has been looked at. -/
inductive Seen (logits : List Float) : Option (Nat × Float) → Prop
  | none : (∀ m ∈ logits, Double.isFinite m = false) → Seen logits none
  | some {i : Nat} {l : Float} : FirstGreatest logits i l → Seen logits (some (i, l))

variable {logits rest : List Float} {best : Option (Nat × Float)} {i : Nat} {l : Float}

/-- The next value is the greatest one, since it is greater than the greatest one before. -/
theorem firstGreatest_concat (hbest : Seen logits best) (hl : Double.isFinite l = true)
    (hlt : best.all (fun b => Double.lt b.2 l) = true) : FirstGreatest (logits ++ [l]) logits.length l := by
  have hbefore : ∀ (j : Nat) (m : Float), logits[j]? = some m → Double.isFinite m = true → Double.lt m l = true := by
    intro j m hj hm
    cases hbest with
    | none hnone =>
      rw [hnone m (List.mem_of_getElem? hj)] at hm
      cases hm
    | some hb =>
      have hle := (Double.le_of_finite hm hb.finite).1 (hb.le j m hj hm)
      have hlt := (Double.lt_of_finite hb.finite hl).1 (by simpa using hlt)
      exact (Double.lt_of_finite hm hl).2 (by omega)
  refine ⟨by simp, hl, fun j m hj hm => ?_, fun j m hlt hj hm => ?_⟩
  · rcases Nat.lt_or_ge j logits.length with hlt | hge
    · rw [List.getElem?_append_left hlt] at hj
      have := (Double.lt_of_finite hm hl).1 (hbefore j m hj hm)
      exact (Double.le_of_finite hm hl).2 (by omega)
    · rw [List.getElem?_append_right hge] at hj
      obtain rfl : m = l := by simpa using List.mem_of_getElem? hj
      exact (Double.le_of_finite hl hl).2 (Int.le_refl _)
  · rw [List.getElem?_append_left hlt] at hj
    exact hbefore j m hj hm

/-- The next value is not the greatest one. -/
theorem seen_concat_of_not (hbest : Seen logits best)
    (hno : ¬ (Double.isFinite l && best.all fun b => Double.lt b.2 l) = true) : Seen (logits ++ [l]) best := by
  cases hbest with
  | none hnone =>
    refine .none fun m hm => ?_
    rcases List.mem_append.1 hm with hm | hm
    · exact hnone m hm
    · rw [List.mem_singleton.1 hm]
      simpa using hno
  | @some i b hb =>
    have hi : i < logits.length := (List.getElem?_eq_some_iff.1 hb.value).1
    refine .some ⟨?_, hb.finite, fun j m hj hm => ?_, fun j m hlt hj hm => ?_⟩
    · rw [List.getElem?_append_left hi]
      exact hb.value
    · rcases Nat.lt_or_ge j logits.length with hlt | hge
      · rw [List.getElem?_append_left hlt] at hj
        exact hb.le j m hj hm
      · rw [List.getElem?_append_right hge] at hj
        obtain rfl : m = l := by simpa using List.mem_of_getElem? hj
        exact Double.le_of_not_lt hb.finite hm (by simpa [hm] using hno)
    · rw [List.getElem?_append_left (hlt.trans hi)] at hj
      exact hb.lt j m hlt hj hm

theorem firstGreatest_of_argmaxFrom (hbest : Seen logits best)
    (h : argmaxFrom best logits.length rest = some i) : ∃ l, FirstGreatest (logits ++ rest) i l := by
  induction rest generalizing logits best with
  | nil =>
    rw [List.append_nil]
    cases hbest with
    | none => cases h
    | some hb =>
      cases h
      exact ⟨_, hb⟩
  | cons l rest ih =>
    have hlength : (logits ++ [l]).length = logits.length + 1 := by simp
    rw [List.append_cons]
    unfold argmaxFrom at h
    rw [← hlength] at h
    split at h
    · rename_i hl
      rw [Bool.and_eq_true] at hl
      exact ih (.some (firstGreatest_concat hbest hl.1 hl.2)) h
    · rename_i hno
      exact ih (seen_concat_of_not hbest hno) h

/-- The index that is taken is the first one of a greatest value. -/
theorem firstGreatest_of_argmax (h : argmax logits = some i) : ∃ l, FirstGreatest logits i l := by
  have hseen : Seen [] none := .none nofun
  exact firstGreatest_of_argmaxFrom hseen h

/-- Without a temperature the logits are those of the admitted tokens. -/
theorem getElem?_maskLogits {logits : Array Float} {allowed : TokenSet} {temperature : Float} {t : Token} {m : Float}
    (htemperature : ¬ 0 < temperature) (hm : Double.isFinite m = true) :
    (maskLogits logits allowed temperature)[t.id]? = some m ↔ t ∈ allowed ∧ logits[t.id]? = some m := by
  have hinf : Double.isFinite (-1 / 0 : Float) = false := by decide
  unfold maskLogits
  rw [List.getElem?_map, Token.all_getElem?_id, if_neg htemperature, Option.map_some, Option.some_inj]
  split
  · rename_i l hl
    rw [hl, Option.some_inj]
    split
    · rename_i ha
      rw [Double.div_one]
      exact (and_iff_right ha).symm
    · rename_i ha
      refine iff_of_false ?_ fun h => ha h.1
      rintro rfl
      rw [hinf] at hm
      cases hm
  · rename_i hl
    refine iff_of_false ?_ (by simp [hl])
    rintro rfl
    rw [hinf] at hm
    cases hm

/-- **What guided sampling takes without a temperature**: an admitted token with a finite logit that no admitted one
exceeds, and that those with smaller ids do not reach. -/
theorem greatest_of_argmax {logits : Array Float} {allowed : TokenSet} {temperature : Float} {t : Token}
    (htemperature : ¬ 0 < temperature) (h : argmax (maskLogits logits allowed temperature) = some t.id) :
    t ∈ allowed ∧ ∃ l, logits[t.id]? = some l ∧ Double.isFinite l = true ∧
      ∀ u ∈ allowed, ∀ m, logits[u.id]? = some m → Double.isFinite m = true →
        Double.le m l = true ∧ (u.id < t.id → Double.lt m l = true) := by
  obtain ⟨l, hg⟩ := firstGreatest_of_argmax h
  obtain ⟨ht, hl⟩ := (getElem?_maskLogits htemperature hg.finite).1 hg.value
  refine ⟨ht, l, hl, hg.finite, fun u hu m hm hfinite => ?_⟩
  have hmasked := (getElem?_maskLogits htemperature hfinite).2 ⟨hu, hm⟩
  exact ⟨hg.le u.id m hmasked hfinite, fun hlt => hg.lt u.id m hlt hmasked hfinite⟩

end Sampler

namespace BeamSearch

/-! ## The highest rank -/

/-- A branch is ranked first if those before it rank below it and those after it not above it. -/
theorem rank_eq_cons {before after : List Branch} {b : Branch}
    (hbefore : ∀ d ∈ before, Double.totalRank d.score < Double.totalRank b.score)
    (hafter : ∀ d ∈ after, Double.totalRank d.score ≤ Double.totalRank b.score) :
    ∃ rest, Branch.rank (before ++ b :: after) = b :: rest := by
  induction before with
  | nil =>
    rw [List.nil_append, rank_eq_insertionSort, List.insertionSort_cons, ← rank_eq_insertionSort]
    cases hrank : Branch.rank after with
    | nil => exact ⟨[], rfl⟩
    | cons d rest =>
      have hd : mayPrecede b d = true :=
        decide_eq_true (hafter d (mem_rank.1 (hrank ▸ List.mem_cons_self)))
      exact ⟨d :: rest, if_pos hd⟩
  | cons d before ih =>
    obtain ⟨rest, hrest⟩ := ih fun x hx => hbefore x (List.mem_cons_of_mem _ hx)
    have hd : ¬ mayPrecede d b = true := by simpa using hbefore d List.mem_cons_self
    rw [List.cons_append, rank_eq_insertionSort, List.insertionSort_cons, ← rank_eq_insertionSort, hrest]
    exact ⟨_, if_neg hd⟩

variable {logits : Array Float} {s : TokenSet} {t : Token} {l : Float}

/-- Admitted tokens come in the order of their ids. -/
theorem pairwise_admitted (logits : Array Float) (s : TokenSet) :
    (admitted logits s).Pairwise fun p q => p.1.id < q.1.id := by
  have hall : Token.all.Pairwise fun t u => t.id < u.id := by
    rw [← List.pairwise_map, Token.map_id_all]
    exact List.pairwise_lt_range
  unfold admitted
  rw [List.pairwise_filterMap]
  refine (hall.sublist List.filter_sublist).imp fun hlt p hp q hq => ?_
  obtain ⟨l, -, hl⟩ := Option.bind_eq_some_iff.1 hp
  obtain ⟨m, -, hm⟩ := Option.bind_eq_some_iff.1 hq
  split at hl
  · split at hm
    · cases hl
      cases hm
      exact hlt
    · cases hm
  · cases hl

/-- The admitted tokens before a token have smaller ids. -/
theorem exists_admitted_eq (h : (t, l) ∈ admitted logits s) :
    ∃ before after, admitted logits s = before ++ (t, l) :: after ∧ ∀ p ∈ before, p.1.id < t.id := by
  obtain ⟨before, after, he⟩ := List.append_of_mem h
  refine ⟨before, after, he, fun p hp => ?_⟩
  have hids := pairwise_admitted logits s
  rw [he, List.pairwise_append] at hids
  exact hids.2.2 p hp (t, l) List.mem_cons_self

/-- There is a sum of exponentials as soon as there is a value, if all are finite. -/
theorem exists_logSumExp (f : Elementary) {values : List Float} (hne : values ≠ [])
    (hfinite : ∀ v ∈ values, Double.isFinite v = true) : ∃ base, logSumExp? f values = some base := by
  cases values with
  | nil => exact absurd rfl hne
  | cons v vs =>
    have hgreatest : Double.isFinite (vs.foldl Double.max v) = true := by
      rw [List.forall_mem_cons] at hfinite
      obtain ⟨hv, hvs⟩ := hfinite
      clear hne
      induction vs generalizing v with
      | nil => exact hv
      | cons w vs ih =>
        rw [List.forall_mem_cons] at hvs
        refine ih (Double.max v w) ?_ hvs.2
        unfold Double.max
        split
        · exact hvs.1
        · exact hv
    exact ⟨_, by rw [logSumExp?, if_pos hgreatest]⟩

/-- **Which child is ranked first** if the highest score is that of a greatest logit: the one whose logit no other one
exceeds, and those with smaller ids do not reach. -/
theorem exists_rank_children {c : Setting} {b : Branch} {k : Continuation} (hscore : b.score ≠ -0)
    (ht : (t, l) ∈ admitted logits s)
    (hhighest : ∀ d ∈ children c b k (admitted logits s),
      (∀ e ∈ children c b k (admitted logits s), Double.totalRank e.score ≤ Double.totalRank d.score) →
        ∀ e ∈ children c b k (admitted logits s), ∀ m n, logits[d.last.id]? = some m → logits[e.last.id]? = some n →
          Double.lt m n = false)
    (hgreatest : ∀ u ∈ s, ∀ m, logits[u.id]? = some m → Double.isFinite m = true →
      Double.le m l = true ∧ (u.id < t.id → Double.lt m l = true)) :
    ∃ d rest, Branch.rank (children c b k (admitted logits s)) = d :: rest ∧ d.last = t ∧ d.guide = k.guide ∧
      d.depth = k.depth := by
  have hfinite : ∀ v ∈ (admitted logits s).map (·.2), Double.isFinite v = true := fun v hv => by
    obtain ⟨⟨u, m⟩, hu, rfl⟩ := List.mem_map.1 hv
    exact (mem_admitted.1 hu).2.2
  obtain ⟨base, hbase⟩ := exists_logSumExp c.elementary (List.ne_nil_of_mem (List.mem_map_of_mem ht)) hfinite
  let child (p : Token × Float) : Branch := b.extend p.1 (b.score + (p.2 - base) + c.options.stepAward) k.guide k.depth
  have heq : children c b k (admitted logits s) = (admitted logits s).map child := by
    rw [children, hbase]
  rw [heq] at hhighest ⊢
  have hlogit : ∀ p ∈ admitted logits s, logits[p.1.id]? = some p.2 := fun p hp => (mem_admitted.1 hp).2.1
  have hgreatest' : ∀ p ∈ admitted logits s, Double.le p.2 l = true ∧ (p.1.id < t.id → Double.lt p.2 l = true) :=
    fun p hp => hgreatest p.1 (mem_admitted.1 hp).1 p.2 (hlogit p hp) (mem_admitted.1 hp).2.2
  -- the highest score is that of a logit as great as that of the token, so the child of the token has it
  have htop : ∀ e ∈ (admitted logits s).map child,
      Double.totalRank e.score ≤ Double.totalRank (child (t, l)).score := by
    obtain ⟨first, others, hfirst⟩ := List.exists_cons_of_ne_nil (l := Branch.rank ((admitted logits s).map child))
      (List.ne_nil_of_mem (mem_rank.2 (List.mem_map_of_mem ht)))
    have hmem : first ∈ (admitted logits s).map child := mem_rank.1 (hfirst ▸ List.mem_cons_self)
    have hle : ∀ e ∈ (admitted logits s).map child, Double.totalRank e.score ≤ Double.totalRank first.score :=
      fun e he => totalRank_le_of_rank hfirst he
    obtain ⟨p, hp, rfl⟩ := List.mem_map.1 hmem
    have hnlt := hhighest _ hmem hle _ (List.mem_map_of_mem ht) p.2 l (hlogit p hp) (hlogit _ ht)
    rw [Bool.eq_false_iff, ne_eq, Double.lt_of_finite (mem_admitted.1 hp).2.2 (mem_admitted.1 ht).2.2] at hnlt
    have hrank : Double.rank p.2 = Double.rank l := by
      have := (Double.le_iff.1 (hgreatest' p hp).1).2.2
      omega
    have hequal : (child p).score = (child (t, l)).score :=
      congrArg (· + c.options.stepAward) (Double.add_sub_eq_of_rank_eq base hscore hrank)
    exact fun e he => hequal ▸ hle e he
  obtain ⟨before, after, hsplit, hids⟩ := exists_admitted_eq ht
  have hbefore : ∀ p ∈ before, p ∈ admitted logits s := fun p hp => hsplit ▸ List.mem_append_left _ hp
  have hafter : ∀ p ∈ after, p ∈ admitted logits s :=
    fun p hp => hsplit ▸ List.mem_append_right _ (List.mem_cons_of_mem _ hp)
  have hbelow : ∀ d ∈ before.map child, Double.totalRank d.score < Double.totalRank (child (t, l)).score := by
    intro d hd
    obtain ⟨p, hp, rfl⟩ := List.mem_map.1 hd
    have hmem := List.mem_map_of_mem (f := child) (hbefore p hp)
    refine lt_of_le_of_ne (htop _ hmem) fun hequal => ?_
    have hnlt := hhighest _ hmem (fun e he => hequal ▸ htop e he) _ (List.mem_map_of_mem ht) p.2 l
      (hlogit p (hbefore p hp)) (hlogit _ ht)
    rw [(hgreatest' p (hbefore p hp)).2 (hids p hp)] at hnlt
    cases hnlt
  have habove : ∀ d ∈ after.map child, Double.totalRank d.score ≤ Double.totalRank (child (t, l)).score := by
    intro d hd
    obtain ⟨p, hp, rfl⟩ := List.mem_map.1 hd
    exact htop _ (List.mem_map_of_mem (hafter p hp))
  obtain ⟨rest, hrest⟩ := rank_eq_cons hbelow habove
  refine ⟨child (t, l), rest, ?_, rfl, rfl, rfl⟩
  rw [hsplit, List.map_append, List.map_cons, hrest]

end BeamSearch

end ScoreDecoding
