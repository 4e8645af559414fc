import ScoreDecoding.Guide.Repair
import Mathlib.Data.List.DropRight

/-!
# What repairs leave of a sequence

- Tidying beams takes tokens out and moves none (`tidyBeams_sublist`), and leaves alone what is appended after it
  unless that is a beam (`tidyBeams_append`).
- Cutting leaves a start of it after which the measure may end (`cutToEnd_eq_take`, `allows_of_getLast?_cutToEnd`), and
  all of it if the measure may end there (`cutToEnd_of_mayEnd`).
- Closing is cutting, ending and tidying (`closeOut_eq`).
- Going back to the last event takes away the token that ends its voice (`lastEventStart_concat_le`).
-/

namespace ScoreDecoding

/-- The measure may end after a sequence. -/
def Grammar.MayEnd (g : Grammar) (ts : List Token) : Prop :=
  ∃ last, ts.getLast? = some last ∧ g.allows last .eom = true

/-- A token of a sequence with one more is the last one, or stands before it. -/
theorem concat_eq_append_cons_iff {ts before after : List Token} {t u : Token} :
    ts ++ [t] = before ++ u :: after ↔
      (after = [] ∧ ts = before ∧ t = u) ∨ ∃ rest, after = rest ++ [t] ∧ ts = before ++ u :: rest := by
  constructor
  · intro h
    induction after using List.reverseRecOn with
    | nil => exact .inl ⟨rfl, List.append_inj' h rfl |>.imp_right List.head_eq_of_cons_eq⟩
    | append_singleton rest x =>
      rw [← List.cons_append, ← List.append_assoc] at h
      obtain ⟨hts, hx⟩ := List.append_inj' h rfl
      exact .inr ⟨rest, by rw [hx], hts⟩
  · rintro (⟨rfl, rfl, rfl⟩ | ⟨rest, rfl, rfl⟩)
    · rfl
    · simp

namespace Repair

variable {status : Option TailStatus} {ts : List Token}

/-! ## Tidying -/

theorem dropOpenings_sublist (ts : List Token) : (dropOpenings ts).Sublist ts := by
  fun_induction dropOpenings ts with
  | case1 => exact .refl _
  | case2 => exact .refl _
  | case3 ts ih => exact ih.cons _
  | case4 t ts _ _ ih => exact ih.cons_cons t

theorem tidyBeams_sublist (status : Option TailStatus) (ts : List Token) : (tidyBeams status ts).Sublist ts := by
  unfold tidyBeams
  split
  · have h := (dropOpenings_sublist ts.reverse).reverse
    rwa [List.reverse_reverse] at h
  · exact .refl ts

theorem tidyBeams_of_closed (h : status.any (·.beamOpen) = false) : tidyBeams status ts = ts := by
  rw [tidyBeams, h, if_neg Bool.false_ne_true]

/-- A token that is no beam stays where it is. -/
theorem dropOpenings_cons {t : Token} (ho : t ≠ .beamOpen) (hc : t ≠ .beamClose) (ts : List Token) :
    dropOpenings (t :: ts) = t :: dropOpenings ts := by
  rw [dropOpenings.eq_def]
  split
  · contradiction
  · rename_i h; cases h; exact absurd rfl hc
  · rename_i h; cases h; exact absurd rfl ho
  · rename_i h; cases h; rfl

/-- A token that is no beam may be appended before or after tidying. -/
theorem tidyBeams_append {t : Token} (ho : t ≠ .beamOpen) (hc : t ≠ .beamClose) :
    tidyBeams status (ts ++ [t]) = tidyBeams status ts ++ [t] := by
  unfold tidyBeams
  split
  · rw [List.reverse_append, List.reverse_singleton, List.singleton_append, dropOpenings_cons ho hc,
      List.reverse_cons]
  · rfl

/-- So may a token that ends a voice. -/
theorem tidyBeams_concat {t : Token} (ht : t = .vb ∨ t = .eom) :
    tidyBeams status (ts ++ [t]) = tidyBeams status ts ++ [t] := by
  rcases ht with rfl | rfl
  · exact tidyBeams_append (by decide) (by decide)
  · exact tidyBeams_append (by decide) (by decide)

theorem filter_dropOpenings (ts : List Token) :
    (dropOpenings ts).filter (· != .beamOpen) = ts.filter (· != .beamOpen) := by
  fun_induction dropOpenings ts with
  | case1 => rfl
  | case2 => rfl
  | case3 ts ih => rw [ih, List.filter_cons_of_neg (by simp)]
  | case4 t ts _ ho ih => rw [List.filter_cons, List.filter_cons, ih]

/-- Tidying takes out nothing but openings. -/
theorem filter_tidyBeams (status : Option TailStatus) (ts : List Token) :
    (tidyBeams status ts).filter (· != .beamOpen) = ts.filter (· != .beamOpen) := by
  unfold tidyBeams
  split
  · rw [List.filter_reverse, filter_dropOpenings, ← List.filter_reverse, List.reverse_reverse]
  · rfl

/-! ## Cutting and closing -/

/-- What is left of a list when its end is dropped does not end in what is dropped. -/
theorem eq_false_of_getLast?_rdropWhile {α : Type} {p : α → Bool} {l : List α} {x : α}
    (h : (l.rdropWhile p).getLast? = some x) : p x = false := by
  have hne : l.rdropWhile p ≠ [] := by
    intro he
    rw [he] at h
    cases h
  rw [List.getLast?_eq_some_getLast hne] at h
  rw [← Option.some.inj h]
  exact Bool.eq_false_iff.2 (List.rdropWhile_last_not p l hne)

theorem cutToEnd_eq_rdropWhile (g : Grammar) (ts : List Token) :
    cutToEnd g ts = ts.rdropWhile fun t => !g.allows t .eom := rfl

theorem cutToEnd_eq_take (g : Grammar) (ts : List Token) : ∃ n, cutToEnd g ts = ts.take n := by
  rw [cutToEnd_eq_rdropWhile]
  exact ⟨_, List.prefix_iff_eq_take.1 (List.rdropWhile_prefix _ ts)⟩

/-- The measure may end after what is left. -/
theorem allows_of_getLast?_cutToEnd {g : Grammar} {t : Token} (h : (cutToEnd g ts).getLast? = some t) :
    g.allows t .eom = true := by
  have hstop := eq_false_of_getLast?_rdropWhile (p := fun t => !g.allows t .eom) h
  simpa using hstop

theorem cutToEnd_of_mayEnd {g : Grammar} (h : g.MayEnd ts) : cutToEnd g ts = ts := by
  obtain ⟨last, hl, hend⟩ := h
  obtain ⟨us, rfl⟩ := List.getLast?_eq_some_iff.1 hl
  rw [cutToEnd_eq_rdropWhile, List.rdropWhile_concat, hend, Bool.not_true, if_neg Bool.false_ne_true]

theorem cutToEnd_prefix_dropLast {g : Grammar} (h : ¬ g.MayEnd ts) : cutToEnd g ts <+: ts.dropLast := by
  rw [cutToEnd_eq_rdropWhile]
  induction ts using List.reverseRecOn with
  | nil => exact List.prefix_refl []
  | append_singleton us t =>
    have hno : (!g.allows t .eom) = true := by
      rw [Bool.not_eq_true', Bool.eq_false_iff]
      exact fun ht => h ⟨t, List.getLast?_concat, ht⟩
    rw [List.rdropWhile_concat, if_pos hno, List.dropLast_concat]
    exact List.rdropWhile_prefix _ us

theorem mayEnd_cutToEnd {g : Grammar} (h : cutToEnd g ts ≠ []) : g.MayEnd (cutToEnd g ts) :=
  ⟨_, List.getLast?_eq_some_getLast h, allows_of_getLast?_cutToEnd (List.getLast?_eq_some_getLast h)⟩

theorem closeOut_eq (g : Grammar) (status : Option TailStatus) (ts : List Token) :
    closeOut g status ts = tidyBeams status (cutToEnd g ts ++ [.eom]) :=
  (tidyBeams_append (by decide) (by decide)).symm

theorem length_closeOut_le (g : Grammar) (status : Option TailStatus) (ts : List Token) :
    (closeOut g status ts).length ≤ ts.length + 1 := by
  obtain ⟨n, hn⟩ := cutToEnd_eq_take g ts
  have htidy := length_tidyBeams_le status (cutToEnd g ts)
  rw [hn] at htidy
  rw [closeOut, hn, List.length_append, List.length_singleton]
  have htake := List.length_take_le' n ts
  omega

/-- What closing a sequence keeps of it stood there before. -/
theorem tidyBeams_cutToEnd_sublist (g : Grammar) (status : Option TailStatus) (ts : List Token) :
    (tidyBeams status (cutToEnd g ts)).Sublist ts := by
  obtain ⟨n, hn⟩ := cutToEnd_eq_take g ts
  have htidy := tidyBeams_sublist status (cutToEnd g ts)
  rw [hn] at htidy ⊢
  exact htidy.trans (List.take_sublist n ts)

/-! ## Going back -/

theorem voiceStart_le (body : List Token) : voiceStart body ≤ body.length := by
  have hdrop := List.length_dropWhile_le (· != .vb) body.reverse
  rw [List.length_reverse] at hdrop
  unfold voiceStart
  split
  · split
    · rename_i hb
      cases body with
      | nil => cases hb
      | cons t ts => exact Nat.le_add_left 1 ts.length
    · exact Nat.zero_le _
  · exact hdrop

theorem tokensBeforeLastEvent_le (voice : List Token) : tokensBeforeLastEvent voice ≤ voice.length := by
  have hdrop := List.length_dropWhile_le (·.group != .letter) voice.reverse
  rw [List.length_reverse] at hdrop
  unfold tokensBeforeLastEvent
  split
  · exact Nat.zero_le _
  · rename_i letter before he
    rw [he, List.length_cons] at hdrop
    have hhead := List.length_dropWhile_le isEventHead before
    omega

/-- What ends a voice is not part of it. -/
theorem openBody_concat {t : Token} (ht : t = .vb ∨ t = .eom) (ts : List Token) : openBody (ts ++ [t]) = ts := by
  unfold openBody
  rw [List.getLast?_concat, List.dropLast_concat]
  rcases ht with rfl | rfl
  · rfl
  · rfl

/-- The last event of a voice starts before the token that ends the voice. -/
theorem lastEventStart_concat_le {t : Token} (ht : t = .vb ∨ t = .eom) (ts : List Token) :
    lastEventStart (ts ++ [t]) ≤ ts.length := by
  have hstart := voiceStart_le ts
  have hbefore := tokensBeforeLastEvent_le (ts.drop (voiceStart ts))
  rw [List.length_drop] at hbefore
  rw [lastEventStart, openBody_concat ht]
  omega

end Repair

end ScoreDecoding
