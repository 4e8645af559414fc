import ScoreDecoding.Decoding.Sampler
import ScoreDecoding.Proofs.Draws

/-!
# What can be drawn

Whether it is drawn or is that of the greatest logit, the index that is chosen is that of a finite logit. Logits that are
not admitted are set to minus infinity, so the token of the index is admitted.

- `Random.logit_of_drawLogits` for draws, `Sampler.logit_of_argmax` for the greatest logit;
- `Sampler.exists_token_of_choose`: a choice among masked logits is an admitted token with a logit.
-/

namespace ScoreDecoding

namespace Random

/-- The index that is drawn by logits is that of a finite logit. -/
theorem logit_of_drawLogits {r s : Random} {logits : List Float} {i : Nat}
    (h : r.drawLogits logits = some (i, s)) : ∃ l, logits[i]? = some l ∧ Double.isFinite l = true := by
  rw [drawLogits] at h
  rcases pickLogits_cases Float.exp r logits with ⟨-, heq⟩ | ⟨j, l, hj, hl, heq⟩
  · rw [heq] at h
    cases h
  · rw [heq] at h
    cases h
    exact ⟨l, hj, hl⟩

end Random

namespace Sampler

/-- The greatest logit comes from the list, or was the best one before. -/
theorem logit_of_argmaxFrom {best : Option (Nat × Float)} {i j : Nat} {logits : List Float}
    (h : argmaxFrom best i logits = some j) :
    best.map (·.1) = some j ∨ ∃ k l, j = i + k ∧ logits[k]? = some l ∧ Double.isFinite l = true := by
  induction logits generalizing best i with
  | nil => exact .inl h
  | cons l ls ih =>
    unfold argmaxFrom at h
    split at h
    · rename_i hc
      have hf : Double.isFinite l = true := (Bool.and_eq_true_iff.1 hc).1
      rcases ih h with hj | ⟨k, m, rfl, hk, hm⟩
      · exact .inr ⟨0, l, (Option.some.inj hj).symm, rfl, hf⟩
      · exact .inr ⟨k + 1, m, by omega, hk, hm⟩
    · rcases ih h with hj | ⟨k, m, rfl, hk, hm⟩
      · exact .inl hj
      · exact .inr ⟨k + 1, m, by omega, hk, hm⟩

theorem logit_of_argmax {logits : List Float} {i : Nat} (h : argmax logits = some i) :
    ∃ l, logits[i]? = some l ∧ Double.isFinite l = true := by
  rcases logit_of_argmaxFrom h with hj | ⟨k, l, rfl, hk, hl⟩
  · cases hj
  · exact ⟨l, by rwa [Nat.zero_add], hl⟩

theorem logit_of_choose {r s : Random} {temperature : Float} {masked : List Float} {i : Nat}
    (h : choose r temperature masked = some (i, s)) : ∃ l, masked[i]? = some l ∧ Double.isFinite l = true := by
  unfold choose at h
  split at h
  · exact Random.logit_of_drawLogits h
  · obtain ⟨j, hj, he⟩ := Option.map_eq_some_iff.1 h
    cases he
    exact logit_of_argmax hj

/-- A choice among masked logits is an admitted token that has a logit. -/
theorem exists_token_of_choose {r s : Random} {temperature : Float} {logits : Array Float} {allowed : TokenSet}
    {i : Nat} (h : choose r temperature (maskLogits logits allowed temperature) = some (i, s)) :
    ∃ t : Token, t.id = i ∧ t ∈ allowed ∧ ∃ l, logits[i]? = some l := by
  obtain ⟨l, hl, hf⟩ := logit_of_choose h
  have hinf : Double.isFinite (-1 / 0 : Float) = false := by decide
  unfold maskLogits at hl
  rw [List.getElem?_map] at hl
  obtain ⟨t, ht, rfl⟩ := Option.map_eq_some_iff.1 hl
  have hid : t.id = i := by
    have hlt : i < Token.all.length := (List.getElem?_eq_some_iff.1 ht).1
    have hmap := congrArg (·[i]?) Token.map_id_all
    simp only [List.getElem?_map, ht, Option.map_some] at hmap
    rw [List.getElem?_range (Token.length_all ▸ hlt)] at hmap
    exact Option.some.inj hmap
  subst hid
  split at hf
  · rename_i m hm
    split at hf
    · rename_i ha
      exact ⟨t, rfl, ha, m, hm⟩
    · rw [hinf] at hf
      cases hf
  · rw [hinf] at hf
    cases hf

end Sampler

end ScoreDecoding
