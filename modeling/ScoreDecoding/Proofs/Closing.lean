import ScoreDecoding.Proofs.Conformance

/-!
# Closing a sequence

A sequence is closed by a cut, after which the measure may end, then by tidying its beams, and then by its end. Tidying
does not ask the grammar. It may take out the very token after which the measure may end, and where an opening goes, the
tokens around it become neighbours.

- `isChain_filter_iff`: when a sequence of which some elements are left out is a chain;
- `tidyBeams_append`: what tidying leaves of a sequence, before and after its last closing;
- `conforms_closeOut_iff`: a conforming sequence that is closed conforms if and only if all tokens that tidying
  makes neighbours may be neighbours.
-/

namespace ScoreDecoding

/-- A filtered list is a chain if and only if two elements are related whenever they stay and nothing between them
does. -/
theorem isChain_filter_iff {α : Type} {R : α → α → Prop} {p : α → Bool} {l : List α} :
    (l.filter p).IsChain R ↔
      ∀ before x gap y after, l = before ++ x :: (gap ++ y :: after) → p x = true → p y = true →
        (∀ z ∈ gap, p z = false) → R x y := by
  induction l with
  | nil => simp
  | cons a l ih =>
    by_cases ha : p a = true
    · rw [List.filter_cons_of_pos ha, List.isChain_cons, ih]
      constructor
      · rintro ⟨hhead, htail⟩ before x gap y after heq hx hy hgap
        cases before with
        | nil =>
          obtain ⟨rfl, rfl⟩ := List.cons.inj heq
          refine hhead y ?_
          rw [List.head?_filter, Option.mem_def, List.find?_eq_some_iff_append]
          exact ⟨hy, gap, after, rfl, fun z hz => by rw [hgap z hz]; rfl⟩
        | cons b before => exact htail before x gap y after (List.cons.inj heq).2 hx hy hgap
      · refine fun h => ⟨fun y hy => ?_, fun before x gap y after heq => h (a :: before) x gap y after (heq ▸ rfl)⟩
        rw [List.head?_filter, Option.mem_def, List.find?_eq_some_iff_append] at hy
        obtain ⟨hy, gap, after, rfl, hgap⟩ := hy
        exact h [] a gap y after rfl ha hy fun z hz => by simpa using hgap z hz
    · rw [List.filter_cons_of_neg ha, ih]
      constructor
      · intro h before x gap y after heq hx
        cases before with
        | nil => exact absurd ((List.cons.inj heq).1 ▸ hx) ha
        | cons b before => exact h before x gap y after (List.cons.inj heq).2 hx
      · exact fun h before x gap y after heq => h (a :: before) x gap y after (heq ▸ rfl)

namespace Repair

variable {status : Option TailStatus} {closed opened : List Token}

/-! ## What tidying leaves -/

theorem dropOpenings_append (h : Token.beamClose ∉ opened) (hclosed : ∀ t ∈ closed.head?, t = .beamClose) :
    dropOpenings (opened ++ closed) = opened.filter (· != .beamOpen) ++ closed := by
  induction opened with
  | nil =>
    cases closed with
    | nil => rfl
    | cons t ts =>
      obtain rfl := hclosed t rfl
      rfl
  | cons t opened ih =>
    have hrest := ih fun hmem => h (List.mem_cons_of_mem t hmem)
    by_cases ho : t = .beamOpen
    · subst ho
      exact hrest
    · have hc : t ≠ .beamClose := fun hc => h (hc ▸ List.mem_cons_self)
      rw [List.cons_append, dropOpenings_cons ho hc, hrest, List.filter_cons_of_pos (by simpa using ho),
        List.cons_append]

/-- Up to the last closing everything stays, and behind it everything but the openings. -/
theorem tidyBeams_append_of_open (hstatus : status.any (·.beamOpen) = true) (h : Token.beamClose ∉ opened)
    (hclosed : ∀ t ∈ closed.getLast?, t = .beamClose) :
    tidyBeams status (closed ++ opened) = closed ++ opened.filter (· != .beamOpen) := by
  rw [tidyBeams, if_pos hstatus, List.reverse_append, dropOpenings_append (by simpa using h) (by simpa using hclosed),
    List.reverse_append, List.reverse_reverse, List.filter_reverse, List.reverse_reverse]

/-- Tokens with openings between them and no closing behind: tidying makes them neighbours. -/
def Rejoined (ts : List Token) (x y : Token) : Prop :=
  ∃ before n after, ts = before ++ x :: (List.replicate (n + 1) .beamOpen ++ y :: after) ∧
    x ≠ .beamOpen ∧ y ≠ .beamOpen ∧ .beamClose ∉ y :: after

/-- They stand behind everything up to the last closing, which may be the first of them. -/
theorem rejoined_append_iff {before ts : List Token} {x y : Token} :
    Rejoined (before ++ .beamClose :: ts) x y ↔ Rejoined (.beamClose :: ts) x y := by
  constructor
  · rintro ⟨front, n, after, heq, hx, hy, hafter⟩
    rcases List.append_eq_append_iff.1 heq with ⟨rest, rfl, hback⟩ | ⟨rest, rfl, hback⟩
    · exact ⟨rest, n, after, hback, hx, hy, hafter⟩
    · cases rest with
      | nil => exact ⟨[], n, after, hback.symm, hx, hy, hafter⟩
      | cons t rest =>
        have hclose : Token.beamClose ∈ List.replicate (n + 1) Token.beamOpen ++ y :: after := by
          rw [(List.cons.inj hback).2]
          exact List.mem_append_right rest List.mem_cons_self
        rcases List.mem_append.1 hclose with hmem | hmem
        · cases List.eq_of_mem_replicate hmem
        · exact absurd hmem hafter
  · rintro ⟨front, n, after, heq, h⟩
    exact ⟨before ++ front, n, after, by rw [heq, List.append_assoc], h⟩

section

variable {R : Token → Token → Prop} {ts : List Token}

/-- A chain behind its last closing, of which the openings are left out. -/
theorem isChain_filter_openings_iff (h : ts.IsChain R) (htail : Token.beamClose ∉ ts.tail) :
    (ts.filter (· != .beamOpen)).IsChain R ↔ ∀ x y, Rejoined ts x y → R x y := by
  rw [isChain_filter_iff]
  constructor
  · rintro hfilter x y ⟨before, n, after, heq, hx, hy, -⟩
    refine hfilter before x _ y after heq (by simpa using hx) (by simpa using hy) fun z hz => ?_
    rw [List.eq_of_mem_replicate hz]
    rfl
  · intro hjoined before x gap y after heq hx hy hgap
    obtain ⟨n, rfl⟩ : ∃ n, gap = List.replicate n .beamOpen :=
      ⟨_, List.eq_replicate_iff.2 ⟨rfl, fun z hz => by simpa using hgap z hz⟩⟩
    cases n with
    | zero =>
      rw [heq] at h
      exact (List.isChain_append_cons_cons.1 h).2.1
    | succ n =>
      refine hjoined x y ⟨before, n, after, heq, by simpa using hx, by simpa using hy, fun hmem => htail ?_⟩
      have hback : Token.beamClose ∈ List.replicate (n + 1) Token.beamOpen ++ y :: after :=
        List.mem_append_right _ hmem
      rw [heq]
      cases before with
      | nil => exact hback
      | cons t before => exact List.mem_append_right before (List.mem_cons_of_mem x hback)

/-- **Tidying a chain leaves a chain if and only if all tokens that it makes neighbours are related.** -/
theorem isChain_tidyBeams_iff (h : ts.IsChain R) (hstatus : status.any (·.beamOpen) = true) :
    (tidyBeams status ts).IsChain R ↔ ∀ x y, Rejoined ts x y → R x y := by
  have hopened : Token.beamClose ∉ ts.rtakeWhile (· != .beamClose) := fun hmem => by
    simpa using List.mem_rtakeWhile_imp hmem
  have hcut := List.rdropWhile_append_rtakeWhile (p := fun t => t != Token.beamClose) (l := ts)
  have hclosed : ∀ t ∈ (ts.rdropWhile (· != .beamClose)).getLast?, t = .beamClose := fun t ht => by
    simpa using eq_false_of_getLast?_rdropWhile ht
  generalize ts.rdropWhile (· != .beamClose) = closed at hcut hclosed
  generalize ts.rtakeWhile (· != .beamClose) = opened at hcut hopened
  subst hcut
  rw [tidyBeams_append_of_open hstatus hopened hclosed]
  rcases List.eq_nil_or_concat closed with rfl | ⟨before, t, rfl⟩
  · exact isChain_filter_openings_iff h fun hmem => hopened (List.mem_of_mem_tail hmem)
  · rw [List.concat_eq_append] at *
    obtain rfl := hclosed t List.getLast?_concat
    have hkeep : Token.beamClose :: opened.filter (· != .beamOpen) =
        (Token.beamClose :: opened).filter (· != .beamOpen) := rfl
    rw [List.append_assoc, List.singleton_append] at *
    obtain ⟨hbefore, hback⟩ := List.isChain_split.1 h
    rw [List.append_assoc, List.singleton_append, List.isChain_split, and_iff_right hbefore, hkeep,
      isChain_filter_openings_iff hback hopened]
    simp only [rejoined_append_iff]

end

end Repair

/-- **A conforming sequence that is closed conforms if and only if all tokens that tidying makes neighbours may be
neighbours.** The tokens are those of the longest part after which the measure may end, and its end. -/
theorem Grammar.conforms_closeOut_iff {g : Grammar} {ts : List Token} (status : Option TailStatus)
    (h : g.conforms ts = true) (hend : ∃ t ∈ ts, g.allows t .eom = true) :
    (Repair.closeOut g status ts).getLast? = some .eom ∧
      ∃ kept lost, ts = kept ++ lost ∧ g.MayEnd kept ∧ (∀ t ∈ lost, g.allows t .eom = false) ∧
        (g.conforms (Repair.closeOut g status ts) = true ↔
          (status.any (·.beamOpen) = true → ∀ x y, Repair.Rejoined (kept ++ [.eom]) x y → g.allows x y = true)) := by
  refine ⟨List.getLast?_concat, Repair.cutToEnd g ts, ts.rtakeWhile fun t => !g.allows t .eom, ?_, ?_, ?_, ?_⟩
  · rw [Repair.cutToEnd_eq_rdropWhile, List.rdropWhile_append_rtakeWhile]
  · refine Repair.mayEnd_cutToEnd fun hnil => ?_
    obtain ⟨t, ht, hallows⟩ := hend
    rw [Repair.cutToEnd_eq_rdropWhile, List.rdropWhile_eq_nil_iff] at hnil
    simpa [hallows] using hnil t ht
  · intro t ht
    simpa using List.mem_rtakeWhile_imp ht
  · obtain ⟨n, hn⟩ := Repair.cutToEnd_eq_take g ts
    have hcut : g.conforms (Repair.cutToEnd g ts) = true := hn ▸ conforms_take h n
    have hclosed : g.conforms (Repair.cutToEnd g ts ++ [.eom]) = true :=
      conforms_append hcut fun _ hlast => Repair.allows_of_getLast?_cutToEnd hlast
    rw [Repair.closeOut_eq]
    by_cases hstatus : status.any (·.beamOpen) = true
    · rw [conforms_iff_isChain] at hclosed ⊢
      rw [Repair.isChain_tidyBeams_iff hclosed hstatus, forall_prop_of_true hstatus]
    · rw [Repair.tidyBeams_of_closed (Bool.eq_false_iff.2 hstatus)]
      exact iff_of_true hclosed fun hopen => absurd hopen hstatus

/-- A beam opening is the last token after which the measure may end. It is taken out, and the end comes to stand after
a token after which the measure may not end. -/
theorem Grammar.conforms_closeOut_iff_openBeam :
    let g : Grammar := .ofSentences [[.bom, .eom], [.bom, .pitchC, .d8, .beamOpen, .eom]]
    let ts : List Token := [.bom, .pitchC, .d8, .beamOpen]
    let status : Option TailStatus := some { beamOpen := true }
    (g.conforms ts = true ∧ ∃ t ∈ ts, g.allows t .eom = true) ∧
      Repair.closeOut g status ts = [.bom, .pitchC, .d8, .eom] ∧
      g.conforms (Repair.closeOut g status ts) = false := by
  intro g ts status
  have hconforms : g.conforms ts = true := by decide +kernel
  have hend : ∃ t ∈ ts, g.allows t .eom = true := by decide +kernel
  have hclose : g.allows .d8 .eom = false := by decide +kernel
  refine ⟨⟨hconforms, hend⟩, by decide +kernel, ?_⟩
  obtain ⟨-, kept, lost, hts, -, hlost, hiff⟩ := conforms_closeOut_iff status hconforms hend
  -- the measure may end after the opening, so nothing is cut
  have hnil : lost = [] := by
    rcases List.eq_nil_or_concat lost with rfl | ⟨front, t, rfl⟩
    · rfl
    · rw [List.concat_eq_append, ← List.append_assoc] at hts
      have ht : Token.beamOpen = t := Option.some.inj ((congrArg List.getLast? hts).trans List.getLast?_concat)
      have hopen : g.allows .beamOpen .eom = false := ht ▸ hlost t (by simp)
      exact absurd hopen (by decide +kernel)
  have hkept : kept = ts := by rw [hts, hnil, List.append_nil]
  rw [Bool.eq_false_iff]
  intro hall
  have heighth := hiff.1 hall rfl .d8 .eom ⟨[.bom, .pitchC], 0, [], by rw [hkept]; rfl, by decide, by decide, by decide⟩
  exact absurd (heighth.symm.trans hclose) (by decide)

end ScoreDecoding
