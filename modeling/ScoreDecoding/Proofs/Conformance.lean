import ScoreDecoding.Proofs.Repair
import Mathlib.Data.List.Chain

/-!
# Sequences that conform to a grammar

A sequence conforms if every token may follow the one before it, so what is left of it after a cut conforms as well.
Taking a token out of the middle makes new neighbours; this is sound for beam openings if the grammar lets their
neighbours stand side by side (`BeamTransparent`).

- `conforms_take`, `conforms_append` and `conforms_tidyBeams` are the ways in which a sequence is edited;
- `conforms_closeOut`: every conforming sequence can be closed.
-/

namespace ScoreDecoding.Grammar

/-- What may stand before and after a beam opening may stand side by side. -/
def BeamTransparent (g : Grammar) : Prop :=
  ∀ before after : Token, g.allows before .beamOpen = true → g.allows .beamOpen after = true →
    g.allows before after = true

instance (g : Grammar) : Decidable g.BeamTransparent :=
  inferInstanceAs (Decidable (∀ x y : Token, g.allows x .beamOpen = true → g.allows .beamOpen y = true →
    g.allows x y = true))

variable {g : Grammar} {ts : List Token}

/-- Conforming is a property of neighbours. -/
theorem conforms_iff_isChain : g.conforms ts = true ↔ ts.IsChain fun a b => g.allows a b = true := by
  induction ts with
  | nil => simp [conforms, neighbours]
  | cons a ts ih =>
    cases ts with
    | nil => simp [conforms, neighbours]
    | cons b ts =>
      rw [List.isChain_cons_cons, ← ih]
      simp [conforms, neighbours]

theorem conforms_take (h : g.conforms ts = true) (n : Nat) : g.conforms (ts.take n) = true :=
  conforms_iff_isChain.2 ((conforms_iff_isChain.1 h).take n)

/-- A token that may follow the last one can be appended. -/
theorem conforms_append {t : Token} (h : g.conforms ts = true)
    (hl : ∀ last, ts.getLast? = some last → g.allows last t = true) : g.conforms (ts ++ [t]) = true := by
  rw [conforms_iff_isChain] at h ⊢
  refine h.append (.singleton t) ?_
  intro last hlast u hu
  cases hu
  exact hl last hlast

/-! ## Tidying -/

/-- The neighbours of a sequence that is read from its end, behind a token that stays. -/
theorem isChain_cons_dropOpenings (hg : g.BeamTransparent) {x : Token} {ts : List Token}
    (h : (x :: ts).IsChain fun a b => g.allows b a = true) :
    (x :: Repair.dropOpenings ts).IsChain fun a b => g.allows b a = true := by
  induction ts generalizing x with
  | nil => exact h
  | cons t ts ih =>
    obtain ⟨hxt, hts⟩ := List.isChain_cons_cons.1 h
    by_cases hc : t = .beamClose
    · subst hc
      exact h
    · by_cases ho : t = .beamOpen
      · -- the opening goes: its two neighbours become neighbours
        subst ho
        refine ih ?_
        cases ts with
        | nil => exact .singleton x
        | cons u us =>
          obtain ⟨hu, hus⟩ := List.isChain_cons_cons.1 hts
          exact List.isChain_cons_cons.2 ⟨hg u x hu hxt, hus⟩
      · rw [Repair.dropOpenings_cons ho hc]
        exact List.isChain_cons_cons.2 ⟨hxt, ih hts⟩

theorem isChain_dropOpenings (hg : g.BeamTransparent) {ts : List Token}
    (h : ts.IsChain fun a b => g.allows b a = true) :
    (Repair.dropOpenings ts).IsChain fun a b => g.allows b a = true := by
  fun_induction Repair.dropOpenings ts with
  | case1 => exact h
  | case2 => exact h
  | case3 ts ih => exact ih h.tail
  | case4 t ts _ _ _ => exact isChain_cons_dropOpenings hg h

/-- Tidying beams keeps a sequence conforming. -/
theorem conforms_tidyBeams (hg : g.BeamTransparent) (status : Option TailStatus) (h : g.conforms ts = true) :
    g.conforms (Repair.tidyBeams status ts) = true := by
  unfold Repair.tidyBeams
  split
  · rw [conforms_iff_isChain] at h ⊢
    rw [List.isChain_reverse]
    apply isChain_dropOpenings hg
    rwa [← List.isChain_reverse, List.reverse_reverse]
  · exact h

/-- A conforming sequence that is closed conforms. -/
theorem conforms_closeOut (hg : g.BeamTransparent) (status : Option TailStatus) (h : g.conforms ts = true) :
    g.conforms (Repair.closeOut g status ts) = true := by
  rw [Repair.closeOut_eq]
  apply conforms_tidyBeams hg
  obtain ⟨n, hn⟩ := Repair.cutToEnd_eq_take g ts
  have hcut : g.conforms (Repair.cutToEnd g ts) = true := hn ▸ conforms_take h n
  exact conforms_append hcut fun _ hlast => Repair.allows_of_getLast?_cutToEnd hlast

end ScoreDecoding.Grammar
