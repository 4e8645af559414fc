import ScoreDecoding.Measure.Tokens
import ScoreDecoding.Proofs.FinishedVoices

/-!
# Voices taken apart and joined again

Taking a sequence apart gives parts that hold something and no voice break. Joining closes each part with a break or
with the end of the measure, and taking apart drops both, so each of the two undoes the other.

- `isVoice_of_mem_split`: whatever a sequence is taken apart into are voices;
- `split_intercalate`: what is found between the begin and the end of a measure;
- `split_join` and `join_split_eq_iff`: when the one undoes the other, which `split_join_eq_iff` puts together;
- `split_tokens_eq_iff`: what is found in a measure that is written.
-/

namespace ScoreDecoding.Voices

/-- A voice that can be told from the others: it holds something, and no voice break. -/
def IsVoice (v : List Token) : Prop := v ≠ [] ∧ Token.vb ∉ v

variable {vs : List (List Token)} {v ts : List Token}

/-- Between breaks there is no break. -/
theorem vb_not_mem_of_mem_splitOn (h : v ∈ ts.splitOn .vb) : Token.vb ∉ v := by
  induction ts generalizing v with
  | nil =>
    rw [List.mem_singleton.1 h]
    exact List.not_mem_nil
  | cons t ts ih =>
    rw [List.splitOn, List.splitOnP_cons_eq_if_modifyHead] at h
    obtain ⟨w, ws, hws⟩ := List.exists_cons_of_ne_nil (List.splitOnP_ne_nil (· == Token.vb) ts)
    rw [List.splitOn, hws] at ih
    obtain ⟨hw, hrest⟩ := List.forall_mem_cons.1 fun v => @ih v
    rw [hws] at h
    split at h
    · rcases List.mem_cons.1 h with rfl | h
      · exact List.not_mem_nil
      · exact ih h
    · rename_i ht
      rcases List.mem_cons.1 h with rfl | h
      · rw [List.mem_cons, not_or]
        exact ⟨fun hvb => ht (beq_iff_eq.2 hvb.symm), hw⟩
      · exact hrest v h

theorem isVoice_of_mem_split (h : v ∈ split ts) : IsVoice v := by
  obtain ⟨hmem, hne⟩ := List.mem_filter.1 h
  exact ⟨by simpa using hne, vb_not_mem_of_mem_splitOn hmem⟩

/-- Of parts without breaks those that hold something are found, in their order. -/
theorem split_intercalate (h : ∀ v ∈ vs, Token.vb ∉ v) :
    split (.bom :: [.vb].intercalate vs ++ [.eom]) = vs.filter (!·.isEmpty) := by
  rw [List.cons_append, split, body, List.dropLast_concat]
  by_cases hvs : vs = []
  · subst hvs
    rfl
  · rw [List.splitOn_intercalate _ h hvs]

theorem split_intercalate_of_isVoice (h : ∀ v ∈ vs, IsVoice v) :
    split (.bom :: [.vb].intercalate vs ++ [.eom]) = vs := by
  rw [split_intercalate fun v hv => (h v hv).2, filter_not_isEmpty fun v hv => (h v hv).1]

theorem split_join (h : ∀ v ∈ vs, IsVoice v) : split (.bom :: join vs) = vs := by
  by_cases hvs : vs = []
  · subst hvs
    rfl
  · rw [join_eq_intercalate hvs, ← List.cons_append, split_intercalate_of_isVoice h]

/-- Just what is made of voices comes back from the parts that are found in it. -/
theorem join_split_eq_iff :
    .bom :: join (split (.bom :: ts ++ [.eom])) = .bom :: ts ++ [.eom] ↔
      ∃ vs, vs ≠ [] ∧ (∀ v ∈ vs, IsVoice v) ∧ ts = [.vb].intercalate vs := by
  constructor
  · intro h
    have hvs : split (.bom :: ts ++ [.eom]) ≠ [] := by
      intro hnil
      rw [hnil] at h
      simp [join] at h
    refine ⟨_, hvs, fun v => isVoice_of_mem_split, ?_⟩
    rw [join_eq_intercalate hvs, ← List.cons_append] at h
    exact (List.cons.inj (List.append_cancel_right h)).2.symm
  · rintro ⟨vs, hvs, hvoices, rfl⟩
    rw [split_intercalate_of_isVoice hvoices, join_eq_intercalate hvs, List.cons_append]

/-- Just the voices of a measure are found in what is written of it, unless one of them holds a break. -/
theorem split_tokens_eq_iff {m : Measure} :
    split m.tokens = (m.voices.map Measure.Voice.tokens).filter (!·.isEmpty) ↔ ∀ v ∈ m.voices, Token.vb ∉ v.tokens := by
  constructor
  · intro h v hv hvb
    -- a voice with a break would be found as it is
    have hmem : v.tokens ∈ split m.tokens := by
      rw [h, List.mem_filter]
      exact ⟨List.mem_map_of_mem hv, by simpa using List.ne_nil_of_mem hvb⟩
    exact (isVoice_of_mem_split hmem).2 hvb
  · intro h
    exact split_intercalate (List.forall_mem_map.2 h)

/-- **Taking apart and joining undo each other.** Parts come back from what they are joined to if and only if each of
them is a voice, and a sequence comes back from its parts if and only if it is made of voices with a break between them.
In a measure that is written just the voices that hold something are found, if and only if no token of theirs is a
break. -/
theorem split_join_eq_iff :
    (∀ vs, split (.bom :: join vs) = vs ↔ ∀ v ∈ vs, IsVoice v) ∧
      (∀ ts, .bom :: join (split (.bom :: ts ++ [.eom])) = .bom :: ts ++ [.eom] ↔
        ∃ vs, vs ≠ [] ∧ (∀ v ∈ vs, IsVoice v) ∧ ts = [.vb].intercalate vs) ∧
      ∀ m : Measure, split m.tokens = (m.voices.map Measure.Voice.tokens).filter (!·.isEmpty) ↔
        ∀ v ∈ m.voices, Token.vb ∉ v.tokens := by
  refine ⟨fun vs => ⟨fun h v hv => ?_, split_join⟩, fun ts => join_split_eq_iff, fun m => split_tokens_eq_iff⟩
  rw [← h] at hv
  exact isVoice_of_mem_split hv

example : .bom :: join (split [.bom, .pitchC, .d4, .vb, .pitchE, .d4, .vb, .pitchG, .d2, .eom]) =
    [.bom, .pitchC, .d4, .vb, .pitchE, .d4, .vb, .pitchG, .d2, .eom] := by
  decide

end ScoreDecoding.Voices
