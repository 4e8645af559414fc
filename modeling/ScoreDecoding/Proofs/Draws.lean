import ScoreDecoding.Double.Positive
import ScoreDecoding.Random

/-!
# What is picked

However the roll falls, what is picked is the index of an entry that can be picked: of a positive finite weight, or of a
finite logit. The walk may leave the last weight behind by rounding, and the sum may have grown to infinity and the roll
be NaN; the last usable weight is taken then. There is nothing to pick just if no entry can be picked, and the generator
gives one word otherwise.

- `pick_cases` and `pickLogits_cases` say what is picked and where the generator stands, in both cases;
- `picks_usable` says so of weights and logits, for any function in place of the exponential. Only that something is
  picked wherever a logit is finite needs the exponential of zero, which is the weight of the greatest logit.
-/

namespace ScoreDecoding.Random

variable {r : Random} {weights logits : List Float} {roll w : Float} {last : Option Nat} {i j : Nat}

theorem usable_iff : usable w = true ↔ Double.isFinite w = true ∧ 0 < w := by
  rw [usable, Bool.and_eq_true, decide_eq_true_iff]

theorem isPositive_of_usable (h : usable w = true) : Double.IsPositive w :=
  Double.zero_lt_iff.1 (usable_iff.1 h).2

/-! ## The walk -/

/-- A walk ends at a usable weight, or where it was before. -/
theorem walk_eq_some (h : walk roll last i weights = some j) :
    last = some j ∨ ∃ k w, j = i + k ∧ weights[k]? = some w ∧ usable w = true := by
  induction weights generalizing roll last i with
  | nil => exact .inl h
  | cons v ws ih =>
    unfold walk at h
    -- what is found behind the first weight is found there
    have hbehind : ∀ {k w}, j = i + 1 + k → ws[k]? = some w → usable w = true →
        ∃ k w, j = i + k ∧ (v :: ws)[k]? = some w ∧ usable w = true :=
      fun {k w} hj hk hw => ⟨k + 1, w, by omega, hk, hw⟩
    split at h
    · rcases ih h with hlast | ⟨k, w, hj, hk, hw⟩
      · exact .inl hlast
      · exact .inr (hbehind hj hk hw)
    · rename_i husable
      have hv : usable v = true := by simpa using husable
      have hhere : j = i → ∃ k w, j = i + k ∧ (v :: ws)[k]? = some w ∧ usable w = true :=
        fun hj => ⟨0, v, hj, rfl, hv⟩
      split at h
      · exact .inr (hhere (Option.some.inj h).symm)
      · rcases ih h with hlast | ⟨k, w, hj, hk, hw⟩
        · exact .inr (hhere (Option.some.inj hlast).symm)
        · exact .inr (hbehind hj hk hw)

/-- A walk that passes a usable weight ends at one. -/
theorem isSome_walk (h : last.isSome = true ∨ ∃ w ∈ weights, usable w = true) :
    (walk roll last i weights).isSome = true := by
  induction weights generalizing roll last i with
  | nil => simpa [walk] using h
  | cons v ws ih =>
    unfold walk
    split
    · rename_i hv
      refine ih (h.imp_right ?_)
      rintro ⟨w, hw, husable⟩
      rcases List.mem_cons.1 hw with rfl | hw
      · simp [husable] at hv
      · exact ⟨w, hw, husable⟩
    · split
      · rfl
      · exact ih (.inl rfl)

/-! ## Weights -/

theorem isPositive_foldl {sum : Float} (hsum : Double.IsPositive sum) (h : ∀ w ∈ weights, Double.IsPositive w) :
    Double.IsPositive (weights.foldl (· + ·) sum) := by
  induction weights generalizing sum with
  | nil => exact hsum
  | cons w ws ih =>
    rw [List.forall_mem_cons] at h
    exact ih (.add (.inr hsum) h.1) h.2

/-- The sum of the usable weights is above zero just if there is one. -/
theorem total_le_zero_iff : total weights ≤ 0 ↔ ∀ w ∈ weights, usable w = false := by
  have hfilter : weights.filter usable = [] ↔ ∀ w ∈ weights, usable w = false := by simp
  rw [total, ← hfilter]
  cases hws : weights.filter usable with
  | nil => exact iff_of_true (by decide) rfl
  | cons w ws =>
    have hall : ∀ v ∈ w :: ws, Double.IsPositive v := fun v hv =>
      isPositive_of_usable (List.mem_filter.1 (hws ▸ hv)).2
    rw [List.forall_mem_cons] at hall
    have hfirst : Double.IsPositive (0 + w) := .add (.inl rfl) hall.1
    rw [List.foldl_cons]
    exact iff_of_false (isPositive_foldl hfirst hall.2).not_le_zero (List.cons_ne_nil w ws)

/-- **What is picked by weights**: nothing and no word if no weight is usable, and the index of a usable weight for one
word otherwise. -/
theorem pick_cases (r : Random) (weights : List Float) :
    ((∀ w ∈ weights, usable w = false) ∧ r.pick weights = (none, r)) ∨
      ∃ i w, weights[i]? = some w ∧ usable w = true ∧ r.pick weights = (some i, r.next.2) := by
  by_cases hsum : total weights ≤ 0
  · exact .inl ⟨total_le_zero_iff.1 hsum, if_pos hsum⟩
  · right
    have husable : ∃ w ∈ weights, usable w = true := by simpa [total_le_zero_iff] using hsum
    have hwalk : (walk (total weights * r.uniform.1) none 0 weights).isSome = true := isSome_walk (.inr husable)
    obtain ⟨i, hi⟩ := Option.isSome_iff_exists.1 hwalk
    rcases walk_eq_some hi with hnone | ⟨k, w, rfl, hk, hw⟩
    · cases hnone
    · rw [Nat.zero_add] at hi
      refine ⟨k, w, hk, hw, ?_⟩
      rw [pick, if_neg hsum, hi]
      rfl

/-! ## Logits -/

theorem foldl_max_mem (l : Float) (ls : List Float) : ls.foldl Double.max l ∈ l :: ls := by
  induction ls generalizing l with
  | nil => exact List.mem_cons_self
  | cons m ls ih =>
    have hmax : Double.max l m = l ∨ Double.max l m = m := by
      unfold Double.max
      split
      · exact .inr rfl
      · exact .inl rfl
    have hmem := ih (Double.max l m)
    rw [List.foldl_cons]
    rcases hmax with hmax | hmax <;> rw [hmax] at hmem ⊢ <;> simp only [List.mem_cons] at hmem ⊢ <;> tauto

/-- Minus infinity is below every finite logit. -/
theorem max_infinity {l : Float} (h : Double.isFinite l = true) : Double.max (-1 / 0) l = l := by
  have hrank : Double.rank (-1 / 0) = -Double.infinityMagnitude := by decide
  have hlt : Double.lt (-1 / 0) l = true := by
    rw [Double.lt_iff, hrank]
    refine ⟨by decide, Double.not_nan_of_finite h, ?_⟩
    rw [Double.isFinite, decide_eq_true_iff] at h
    unfold Double.rank
    split <;> omega
  rw [Double.max, hlt]
  rfl

/-- The greatest logit is one of the finite ones, if there are any. -/
theorem greatest_cases (logits : List Float) :
    ((∀ l ∈ logits, Double.isFinite l = false) ∧ Double.isFinite (greatest logits) = false) ∨
      (greatest logits ∈ logits ∧ Double.isFinite (greatest logits) = true) := by
  unfold greatest
  cases hls : logits.filter Double.isFinite with
  | nil => exact .inl ⟨by simpa using hls, by decide⟩
  | cons l ls =>
    right
    have hl : Double.isFinite l = true := (List.mem_filter.1 (hls ▸ List.mem_cons_self : l ∈ logits.filter _)).2
    have hmem := foldl_max_mem l ls
    rw [List.foldl_cons, max_infinity hl]
    rw [← hls, List.mem_filter] at hmem
    exact hmem

/-- A logit that is not finite weighs nothing. -/
theorem isFinite_of_usable_weight {exp : Float → Float} {top l : Float} (h : usable (weight exp top l) = true) :
    Double.isFinite l = true := by
  by_contra hl
  rw [weight, if_neg hl] at h
  exact absurd h (by decide)

/-- **What is picked by logits**: the index of a finite logit for one word, or nothing and no word. Nothing is picked if
no logit is finite, and otherwise only if the exponential of zero is no usable weight. -/
theorem pickLogits_cases (exp : Float → Float) (r : Random) (logits : List Float) :
    (((∀ l ∈ logits, Double.isFinite l = false) ∨ usable (exp 0) = false) ∧ r.pickLogits exp logits = (none, r)) ∨
      ∃ i l, logits[i]? = some l ∧ Double.isFinite l = true ∧ r.pickLogits exp logits = (some i, r.next.2) := by
  rcases greatest_cases logits with ⟨hnone, hinfinite⟩ | ⟨hmem, hfinite⟩
  · exact .inl ⟨.inl hnone, by rw [pickLogits, hinfinite]; rfl⟩
  · have hpick : r.pickLogits exp logits = r.pick (logits.map (weight exp (greatest logits))) := by
      rw [pickLogits, hfinite]
      rfl
    rw [hpick]
    rcases pick_cases r (logits.map (weight exp (greatest logits))) with ⟨hnone, heq⟩ | ⟨i, w, hi, hw, heq⟩
    · refine .inl ⟨.inr ?_, heq⟩
      have hzero := hnone _ (List.mem_map_of_mem hmem)
      rwa [weight, if_pos hfinite, Double.sub_self_eq hfinite] at hzero
    · rw [List.getElem?_map] at hi
      obtain ⟨l, hl, rfl⟩ := Option.map_eq_some_iff.1 hi
      exact .inr ⟨i, l, hl, isFinite_of_usable_weight hw, heq⟩

/-! ## Draws -/

/-- A result of a draw: the index of an entry that can be picked, and one word is taken, or nothing and no word. -/
structure Picks (r : Random) (entries : List Float) (isUsable : Float → Prop) (result : Option Nat × Random) :
    Prop where
  index : ∀ i, result.1 = some i → ∃ x, entries[i]? = some x ∧ isUsable x
  advanced : ∀ i, result.1 = some i → result.2 = r.next.2
  kept : result.1 = none → result.2 = r

variable {entries : List Float} {isUsable : Float → Prop} {result : Option Nat × Random}

theorem picks_none (h : result = (none, r)) : Picks r entries isUsable result := by
  subst h
  exact ⟨nofun, nofun, fun _ => rfl⟩

theorem picks_some {x : Float} (hx : entries[i]? = some x) (h : isUsable x) (hresult : result = (some i, r.next.2)) :
    Picks r entries isUsable result := by
  subst hresult
  refine ⟨fun j hj => ?_, fun _ _ => rfl, nofun⟩
  obtain rfl : i = j := Option.some.inj hj
  exact ⟨x, hx, h⟩

/-- **A draw picks only what can be picked and takes one word**, whatever the entries are: a positive finite weight, or
a finite logit. It picks nothing, and takes no word, just if there is no such entry. For logits the last is said of
every function whose value at zero is positive and finite, as that of the exponential is. -/
theorem picks_usable (exp : Float → Float) (r : Random) (weights logits : List Float) :
    Picks r weights (fun w => Double.isFinite w = true ∧ 0 < w) (r.pick weights) ∧
      ((r.pick weights).1 = none ↔ ∀ w ∈ weights, ¬ (Double.isFinite w = true ∧ 0 < w)) ∧
      Picks r logits (fun l => Double.isFinite l = true) (r.pickLogits exp logits) ∧
      (Double.isFinite (exp 0) = true → 0 < exp 0 →
        ((r.pickLogits exp logits).1 = none ↔ ∀ l ∈ logits, Double.isFinite l = false)) := by
  refine ⟨?_, ?_, ?_, fun hfinite hpositive => ?_⟩
  · rcases pick_cases r weights with ⟨-, heq⟩ | ⟨i, w, hi, hw, heq⟩
    · exact picks_none heq
    · exact picks_some hi (usable_iff.1 hw) heq
  · simp only [← usable_iff, Bool.not_eq_true]
    rcases pick_cases r weights with ⟨hnone, heq⟩ | ⟨i, w, hi, hw, heq⟩
    · exact iff_of_true (congrArg Prod.fst heq) hnone
    · refine iff_of_false (by simp [heq]) fun hnone => ?_
      exact absurd (hnone w (List.mem_of_getElem? hi)) (by simp [hw])
  · rcases pickLogits_cases exp r logits with ⟨-, heq⟩ | ⟨i, l, hi, hl, heq⟩
    · exact picks_none heq
    · exact picks_some hi hl heq
  · have hexp : usable (exp 0) = true := usable_iff.2 ⟨hfinite, hpositive⟩
    rcases pickLogits_cases exp r logits with ⟨hnone | hzero, heq⟩ | ⟨i, l, hi, hl, heq⟩
    · exact iff_of_true (congrArg Prod.fst heq) hnone
    · rw [hexp] at hzero
      cases hzero
    · refine iff_of_false (by simp [heq]) fun hnone => ?_
      exact absurd (hnone l (List.mem_of_getElem? hi)) (by simp [hl])

/-- The exponentials of 0 and −1. -/
def smallExp (x : Float) : Float := if x == 0 then 1 else 0.36787944117144233

/-- Draws among weights and logits of which some cannot be picked, and among logits of which none can. -/
theorem picks_usable_mixed :
    (∃ w, ([0 / 0, -1, 2, 1 / 0, 3] : List Float)[4]? = some w ∧ Double.isFinite w = true ∧ 0 < w) ∧
      ((ofSeed 1).pick [0 / 0, -1, 2, 1 / 0, 3]).2 = (ofSeed 1).next.2 ∧
      ((ofSeed 1).pickLogits smallExp [-1 / 0, 0, 0 / 0, 1]).1 ≠ none ∧
      ((ofSeed 1).pickLogits smallExp [-1 / 0, 0 / 0]).1 = none ∧
      ((ofSeed 1).pickLogits smallExp [-1 / 0, 0 / 0]).2 = ofSeed 1 := by
  obtain ⟨hpick, -, -, hsome⟩ := picks_usable smallExp (ofSeed 1) [0 / 0, -1, 2, 1 / 0, 3] [-1 / 0, 0, 0 / 0, 1]
  obtain ⟨-, -, hlogits, hnone⟩ := picks_usable smallExp (ofSeed 1) [] [-1 / 0, 0 / 0]
  have hindex : ((ofSeed 1).pick [0 / 0, -1, 2, 1 / 0, 3]).1 = some 4 := by decide +kernel
  have hexp : Double.isFinite (smallExp 0) = true ∧ 0 < smallExp 0 := by decide
  have hempty := (hnone hexp.1 hexp.2).2 (by decide)
  refine ⟨hpick.index 4 hindex, hpick.advanced 4 hindex, fun h => ?_, hempty, hlogits.kept hempty⟩
  exact absurd ((hsome hexp.1 hexp.2).1 h) (by decide)

end ScoreDecoding.Random
