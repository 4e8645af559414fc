import ScoreDecoding.Voices

/-!
# Voices that were finished

Completing a sequence takes away the voice that is still being written and closes the others. The voices are found by
taking the sequence apart, and this drops the last token, whatever it is. So nothing is left of a voice of one token,
or of one that has not been begun, and the finished voice before it is taken away in its place.

- `join_eq_intercalate`: joined voices have a voice break between them and the end of the measure behind them;
- `split_unfinished` and `complete_unfinished`: the voices of a sequence that has no end, and which of them are kept;
- `complete_eq_iff_of_unfinished`: all finished voices are kept if and only if the one that is being written has two
  tokens at least.
-/

namespace ScoreDecoding.Voices

/-- A part of a voice holds nothing that begins or ends a measure or ends a voice. -/
def IsPart (v : List Token) : Prop := ∀ t ∈ v, t ≠ .bom ∧ t ≠ .vb ∧ t ≠ .eom

instance (v : List Token) : Decidable (IsPart v) :=
  inferInstanceAs (Decidable (∀ t ∈ v, t ≠ Token.bom ∧ t ≠ Token.vb ∧ t ≠ Token.eom))

variable {vs : List (List Token)} {r start : List Token}

theorem IsPart.vb_not_mem (h : IsPart r) : Token.vb ∉ r := fun hmem => (h _ hmem).2.1 rfl

theorem IsPart.dropLast (h : IsPart r) : IsPart r.dropLast := fun t ht => h t (List.dropLast_sublist r |>.mem ht)

/-- Before the last of some voices stand the others, each with a voice break. -/
theorem intercalate_concat (vs : List (List Token)) (r : List Token) :
    [Token.vb].intercalate (vs ++ [r]) = vs.flatMap (· ++ [.vb]) ++ r := by
  induction vs with
  | nil => exact List.append_nil r
  | cons v vs ih =>
    obtain ⟨w, ws, hws⟩ := List.exists_cons_of_ne_nil (List.append_ne_nil_of_right_ne_nil vs (List.cons_ne_nil r []))
    rw [List.cons_append, hws, List.intercalate_cons_cons, ← hws, ih, List.flatMap_cons, List.append_assoc (v ++ _)]

theorem join_eq_intercalate (h : vs ≠ []) : join vs = [.vb].intercalate vs ++ [.eom] := by
  fun_induction join vs with
  | case1 => exact absurd rfl h
  | case2 v => rw [List.intercalate_singleton]
  | case3 v vs hne ih =>
    obtain ⟨w, ws, rfl⟩ := List.exists_cons_of_ne_nil hne
    rw [ih (List.cons_ne_nil w ws), List.intercalate_cons_cons]
    simp

/-- A sequence that has no end is closed with the voices that are left of it. -/
theorem complete_of_getLast?_ne {ts : List Token} (h : ts.getLast? ≠ some .eom) :
    complete ts = if (split ts).dropLast = [] then [] else
      (if ts.head? = some .bom then [.bom] else []) ++ [.vb].intercalate (split ts).dropLast ++ [.eom] := by
  rw [complete, if_neg h]
  split
  · rename_i hnil
    rw [if_pos hnil]
  · rename_i hne
    rw [if_neg hne, join_eq_intercalate hne, List.append_assoc]

/-! ## Taking an unfinished sequence apart -/

theorem filter_not_isEmpty (h : ∀ v ∈ vs, v ≠ []) : vs.filter (!·.isEmpty) = vs :=
  List.filter_eq_self.2 fun v hv => by simpa using h v hv

theorem body_append (hstart : start = [] ∨ start = [.bom]) {ts : List Token} (hts : ts.head? ≠ some .bom) :
    body (start ++ ts) = ts.dropLast := by
  rcases hstart with rfl | rfl
  · rw [List.nil_append]
    unfold body
    split
    · exact absurd rfl hts
    · rfl
  · rfl

/-- The last token goes: that of the voice that is being written, or else the last voice break. -/
theorem dropLast_intercalate (hvs : vs ≠ []) :
    ([Token.vb].intercalate (vs ++ [r])).dropLast =
      [.vb].intercalate (if r = [] then vs else vs ++ [r.dropLast]) := by
  rw [intercalate_concat]
  by_cases hr : r = []
  · have hvs' := List.dropLast_concat_getLast hvs
    rw [if_pos hr, hr, List.append_nil, ← hvs', intercalate_concat, List.flatMap_append, List.flatMap_singleton,
      ← List.append_assoc, List.dropLast_concat]
  · rw [if_neg hr, intercalate_concat, List.dropLast_append_of_ne_nil hr]

section

variable (hvs : vs ≠ []) (hvoices : ∀ v ∈ vs, v ≠ [] ∧ IsPart v)
include hvs hvoices

/-- The first voice begins with a token of its own. -/
theorem head?_unfinished (r : List Token) : ([Token.vb].intercalate (vs ++ [r])).head? ≠ some .bom := by
  obtain ⟨v, ws, rfl⟩ := List.exists_cons_of_ne_nil hvs
  obtain ⟨hv, hpart⟩ := hvoices v List.mem_cons_self
  obtain ⟨t, v', rfl⟩ := List.exists_cons_of_ne_nil hv
  rw [intercalate_concat]
  intro h
  exact (hpart t List.mem_cons_self).1 (Option.some.inj h)

variable (hstart : start = [] ∨ start = [.bom]) (hr : IsPart r)
include hstart hr

/-- A voice that is being written is found if it has two tokens at least. -/
theorem split_unfinished :
    split (start ++ [.vb].intercalate (vs ++ [r])) = if 2 ≤ r.length then vs ++ [r.dropLast] else vs := by
  have hfull := filter_not_isEmpty fun v hv => (hvoices v hv).1
  have hbreaks : ∀ v ∈ (if r = [] then vs else vs ++ [r.dropLast]), Token.vb ∉ v := by
    intro v hv
    split at hv
    · exact (hvoices v hv).2.vb_not_mem
    · rcases List.mem_append.1 hv with hv | hv
      · exact (hvoices v hv).2.vb_not_mem
      · rw [List.mem_singleton.1 hv]
        exact hr.dropLast.vb_not_mem
  have hne : (if r = [] then vs else vs ++ [r.dropLast]) ≠ [] := by split <;> simp [hvs]
  rw [split, body_append hstart (head?_unfinished hvs hvoices r), dropLast_intercalate hvs,
    List.splitOn_intercalate _ hbreaks hne]
  match r with
  | [] => exact hfull
  | [t] => rw [if_neg (List.cons_ne_nil t []), List.filter_append, hfull]; exact List.append_nil vs
  | t :: u :: r => rw [if_neg (List.cons_ne_nil t _), List.filter_append, hfull]; rfl

omit hvs in
/-- Nothing in it ends the measure. -/
theorem eom_not_mem_unfinished : Token.eom ∉ start ++ [.vb].intercalate (vs ++ [r]) := by
  rw [intercalate_concat, List.mem_append, List.mem_append, List.mem_flatMap]
  rintro (h | ⟨v, hv, h⟩ | h)
  · rcases hstart with rfl | rfl
    · cases h
    · cases List.mem_singleton.1 h
  · rcases List.mem_append.1 h with h | h
    · exact ((hvoices v hv).2 _ h).2.2 rfl
    · cases List.mem_singleton.1 h
  · exact (hr _ h).2.2 rfl

/-- The voices that are found are closed, all but the last of them. -/
theorem complete_unfinished :
    complete (start ++ [.vb].intercalate (vs ++ [r])) =
      if 2 ≤ r.length then start ++ [.vb].intercalate vs ++ [.eom]
      else if vs.length = 1 then [] else start ++ [.vb].intercalate vs.dropLast ++ [.eom] := by
  have hopen : (start ++ [.vb].intercalate (vs ++ [r])).getLast? ≠ some .eom := fun h =>
    eom_not_mem_unfinished hvoices hstart hr (List.mem_of_getLast? h)
  have hhead : (if (start ++ [.vb].intercalate (vs ++ [r])).head? = some .bom then [Token.bom] else []) = start := by
    rcases hstart with rfl | rfl
    · exact if_neg (head?_unfinished hvs hvoices r)
    · rfl
  rw [complete_of_getLast?_ne hopen, hhead, split_unfinished hvs hvoices hstart hr]
  by_cases hlong : 2 ≤ r.length
  · rw [if_pos hlong, if_pos hlong, List.dropLast_concat, if_neg hvs]
  · rw [if_neg hlong, if_neg hlong]
    have hpos := List.length_pos_iff.2 hvs
    have hdrop : vs.dropLast = [] ↔ vs.length = 1 := by
      rw [← List.length_eq_zero_iff, List.length_dropLast]
      omega
    simp only [hdrop]

end

/-- **All finished voices are kept if and only if the one that is being written has two tokens at least.** If it has
fewer, the last finished voice goes as well, and with it the whole sequence if there is no other. -/
theorem complete_eq_iff_of_unfinished (hvs : vs ≠ []) (hvoices : ∀ v ∈ vs, v ≠ [] ∧ IsPart v)
    (hstart : start = [] ∨ start = [.bom]) (hr : IsPart r) :
    (complete (start ++ [.vb].intercalate (vs ++ [r])) = start ++ [.vb].intercalate vs ++ [.eom] ↔ 2 ≤ r.length) ∧
      (r.length < 2 → complete (start ++ [.vb].intercalate (vs ++ [r])) =
        if vs.length = 1 then [] else start ++ [.vb].intercalate vs.dropLast ++ [.eom]) := by
  have hcomplete := complete_unfinished hvs hvoices hstart hr
  refine ⟨⟨fun h => Decidable.byContradiction fun hshort => ?_, fun h => by rw [hcomplete, if_pos h]⟩,
    fun h => by rw [hcomplete, if_neg (by omega)]⟩
  rw [hcomplete, if_neg hshort] at h
  split at h
  · simp at h
  · -- the voices are known from what they join to, and there is one less
    rename_i hone
    have hpos := List.length_pos_iff.2 hvs
    have hcut : ∀ ws : List (List Token), ws ≠ [] → (∀ v ∈ ws, v ∈ vs) → ([Token.vb].intercalate ws).splitOn .vb = ws :=
      fun ws hws hmem => List.splitOn_intercalate _ (fun v hv => (hvoices v (hmem v hv)).2.vb_not_mem) hws
    have hne : vs.dropLast ≠ [] := by
      rw [← List.length_pos_iff, List.length_dropLast]
      omega
    have heq := congrArg (List.splitOn Token.vb) (List.append_cancel_left (List.append_cancel_right h))
    rw [hcut _ hne fun v hv => (List.dropLast_sublist vs).mem hv, hcut vs hvs fun v hv => hv] at heq
    have hlen := congrArg List.length heq
    rw [List.length_dropLast] at hlen
    omega

/-- Of the third voice only one token has been written, and the second one is lost. -/
theorem complete_eq_iff_of_unfinished_oneToken :
    let vs : List (List Token) := [[.pitchC, .d4], [.pitchE, .d4]]
    let r : List Token := [.pitchG]
    (vs ≠ [] ∧ (∀ v ∈ vs, v ≠ [] ∧ IsPart v) ∧ IsPart r) ∧
      complete ([.bom] ++ [.vb].intercalate (vs ++ [r])) = [.bom, .pitchC, .d4, .eom] ∧
      complete ([.bom] ++ [.vb].intercalate (vs ++ [r])) ≠ [.bom] ++ [.vb].intercalate vs ++ [.eom] := by
  intro vs r
  have hvoices : ∀ v ∈ vs, v ≠ [] ∧ IsPart v := by decide +kernel
  have hr : IsPart r := by decide +kernel
  obtain ⟨hiff, hshort⟩ := @complete_eq_iff_of_unfinished vs r [.bom] (List.cons_ne_nil _ _) hvoices (.inr rfl) hr
  exact ⟨⟨List.cons_ne_nil _ _, hvoices, hr⟩, hshort (by decide), fun h => absurd (hiff.1 h) (by decide)⟩

end ScoreDecoding.Voices
