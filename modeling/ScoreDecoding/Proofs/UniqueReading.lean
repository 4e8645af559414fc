import ScoreDecoding.Proofs.Parts

/-!
# Measures read back from their tokens

Nothing stands between the terms of a voice. But an event ends with its division or with what may come after it, and no
term begins with any of these tokens, so every place tells whether one term ends there and another one begins. A measure
that has a token for everything is thus the only one that is written as it is, up to the fields that are never written.

- `Term.Canonical.isBlock_tokens`: terms show by themselves where they begin and end;
- `Measure.tokens_eq_iff_written` is the main statement.
-/

namespace ScoreDecoding

namespace Measure

variable {e : Event}

/-! ## Terms -/

/-- Whether a term may begin with a token of a group. -/
def Term.begins : Token.Group → Bool
  | .grace | .tremolo | .tremoloCast | .stem | .letter => true
  | .staff | .key | .beats | .clef | .octaveShift => true
  | _ => false

/-- Whether a term may end with a token of a group. -/
def Term.ends : Token.Group → Bool
  | .division | .dot | .rest | .beam | .mark => true
  | .staff | .key | .unit | .clef | .octaveShift => true
  | _ => false

/-- Tokens that show by themselves that they are a term. -/
abbrev Term.IsBlock : List Token → Prop := ScoreDecoding.IsBlock (Term.begins ·.group) (Term.ends ·.group)

theorem Term.begins_of_part : ∀ t : Token, ∀ p ∈ [Part.grace, .tremolo, .tremoloCast, .stem],
    Part.ofGroup? t.group = some p → Term.begins t.group = true := by decide +kernel

theorem Term.begins_of_late : ∀ t : Token, ∀ p ∈ Part.late,
    Part.ofGroup? t.group = some p → Term.begins t.group = false := by decide +kernel

theorem Term.ends_of_early : ∀ t : Token, ∀ p ∈ Part.early,
    Part.ofGroup? t.group = some p → Term.ends t.group = false := by decide +kernel

theorem Term.ends_of_late : ∀ t : Token, ∀ p ∈ Part.division :: Part.late,
    Part.ofGroup? t.group = some p → Term.ends t.group = true := by decide +kernel

/-- Every event has a division, and nothing ends before it or begins after it. -/
theorem Event.Canonical.isBlock_tokens (h : e.Canonical) : Term.IsBlock e.tokens := by
  have mem : ∀ {ps : List Part} {t : Token}, t ∈ ps.flatMap e.part → ∃ p ∈ ps, Part.ofGroup? t.group = some p := by
    intro ps t ht
    obtain ⟨p, hp, ht⟩ := List.mem_flatMap.1 ht
    exact ⟨p, hp, h.part_of_mem p t ht⟩
  obtain ⟨division, hdivision⟩ : ∃ t, e.part .division = [t] := by
    obtain ⟨d, hd, hcanonical⟩ := h.duration
    obtain ⟨t, ht⟩ := ValueTable.exists_token? hcanonical.mem_division
    exact ⟨t, by simp only [Event.part, hd, Option.bind_some, ht, Option.toList_some]⟩
  obtain ⟨p, ps, hchord⟩ := List.exists_cons_of_ne_nil h.chord_ne_nil
  have hgroup : Part.ofGroup? division.group = some .division :=
    h.part_of_mem .division division (by rw [hdivision]; exact List.mem_singleton_self _)
  rw [h.tokens_eq, List.flatMap_append, List.flatMap_cons, hdivision]
  refine isBlock_append_cons (fun t ht => ?_) (fun t ht => ?_) ?_ fun t ht => ?_
  · obtain ⟨p, hp, ht⟩ := mem ht
    exact Term.ends_of_early t p hp ht
  · obtain ⟨p, hp, ht⟩ := mem ht
    exact Term.begins_of_late t p hp ht
  · -- the first note comes before the division, and only onsets and stems come before it
    obtain ⟨ts, hts⟩ : ∃ ts, e.part .chord = p.letter :: ts := by
      refine ⟨[Token.Group.accidental, .octaveMark].flatMap p.part ++ ps.flatMap Pitch.tokens, ?_⟩
      rw [Event.part, hchord, List.flatMap_cons, p.tokens_eq]
      rfl
    have hfirst : Part.early.flatMap e.part ++ [division] =
        [Part.grace, .tremolo, .tremoloCast, .stem].flatMap e.part ++
          p.letter :: (ts ++ e.part .warp ++ [division]) := by
      simp [Part.early, hts]
    rw [hfirst]
    refine head_append_cons (fun t ht => ?_) ?_
    · obtain ⟨p, hp, ht⟩ := mem ht
      exact Term.begins_of_part t p hp ht
    · rw [h.group_letter p (by rw [hchord]; exact List.mem_cons_self)]
      rfl
  · rcases List.mem_cons.1 (List.mem_of_getLast? ht) with rfl | ht
    · exact Term.ends_of_late _ .division (by decide) hgroup
    · obtain ⟨p, hp, ht⟩ := mem ht
      exact Term.ends_of_late t p (List.mem_cons_of_mem _ hp) ht

/-- A change of context is one token that begins and ends it, or the two of a time signature. -/
theorem Context.Spells.isBlock {c : Context} {ts : List Token} (h : c.Spells ts) : Term.IsBlock ts := by
  rcases h.shape with ⟨t, rfl, ht, hgroup⟩ | ⟨b, u, rfl, hb, hu, -⟩
  · obtain ⟨hbegins, hends⟩ : Term.begins t.group = true ∧ Term.ends t.group = true := by
      rw [ht]
      exact (by decide : ∀ g ∈ [Token.Group.staff, .key, .clef, .octaveShift],
        Term.begins g = true ∧ Term.ends g = true) _ hgroup
    exact isBlock_singleton hbegins hends
  · refine isBlock_append_cons (l := [b]) (m := []) (fun x hx => ?_) nofun (fun x hx => ?_) fun x hx => ?_
    · rw [List.mem_singleton.1 hx, hb]
      rfl
    · obtain rfl : b = x := by simpa using hx
      rw [hb]
      rfl
    · obtain rfl : u = x := by simpa using hx
      rw [hu]
      rfl

variable {t u : Term}

theorem Term.Canonical.isBlock_tokens (h : t.Canonical) : Term.IsBlock t.tokens := by
  cases t with
  | event e => exact Event.Canonical.isBlock_tokens h
  | context c => exact (Context.Canonical.spells h).isBlock

/-- A voice break is in no term. -/
theorem Term.Canonical.vb_not_mem (h : t.Canonical) : .vb ∉ t.tokens := by
  intro hvb
  cases t with
  | event e =>
    rw [Term.tokens, Event.Canonical.tokens_eq h] at hvb
    obtain ⟨p, -, hvb⟩ := List.mem_flatMap.1 hvb
    cases Event.Canonical.part_of_mem h p _ hvb
  | context c => exact absurd ((Context.Canonical.spells h).group_of_mem hvb) (by decide)

/-- An event is not written as a change of context is. -/
theorem Event.Canonical.not_spells (h : e.Canonical) {c : Context} : ¬ c.Spells e.tokens := by
  intro hspells
  obtain ⟨p, ps, hchord⟩ := List.exists_cons_of_ne_nil h.chord_ne_nil
  have hp : p ∈ e.chord := by
    rw [hchord]
    exact List.mem_cons_self
  have hletter : p.letter ∈ e.tokens := by
    rw [h.tokens_eq]
    refine List.mem_flatMap.2 ⟨.chord, by decide, List.mem_flatMap.2 ⟨p, hp, ?_⟩⟩
    exact List.mem_append_left _ List.mem_cons_self
  have hgroup := hspells.group_of_mem hletter
  rw [h.group_letter p hp] at hgroup
  exact absurd hgroup (by decide)

/-- A term is known from its tokens, up to the fields that are never written. -/
theorem Term.written_eq (ht : t.Canonical) (hu : u.Canonical) (h : t.tokens = u.tokens) : t.written = u.written := by
  cases t with
  | event e =>
    cases u with
    | event f => exact congrArg Term.event (Event.written_eq ht hu h)
    | context d =>
      have hd : d.context.Spells (Term.context d).tokens := Context.Canonical.spells hu
      rw [← h] at hd
      exact absurd hd (Event.Canonical.not_spells ht)
  | context c =>
    have hc : c.context.Spells (Term.context c).tokens := Context.Canonical.spells ht
    cases u with
    | event f =>
      rw [h] at hc
      exact absurd hc (Event.Canonical.not_spells hu)
    | context d =>
      have hd : d.context.Spells (Term.context d).tokens := Context.Canonical.spells hu
      rw [Term.written, Term.written, hc.unique (h ▸ hd)]

/-! ## Measures -/

theorem Event.tokens_written (e : Event) : e.written.tokens = e.tokens := by
  have hchord : (e.chord.map Pitch.written).flatMap Pitch.tokens = e.chord.flatMap Pitch.tokens := List.flatMap_map ..
  have hduration : (e.duration.map Duration.written).map Duration.tokens = e.duration.map Duration.tokens :=
    Option.map_map ..
  show e.onset ++ (e.stem.map Stem.token).toList ++ (e.chord.map Pitch.written).flatMap Pitch.tokens
    ++ ((e.duration.map Duration.written).map Duration.tokens).getD [] ++ e.silence ++ (e.beam.map Beam.token).toList
    ++ e.marks.map Mark.token = e.tokens
  rw [hchord, hduration]
  rfl

theorem Term.tokens_written (t : Term) : t.written.tokens = t.tokens := by
  cases t with
  | event e => exact e.tokens_written
  | context c => rfl

/-- The voices of a measure are written without the fields that are never written. -/
theorem tokens_written (m : Measure) : m.voices.map Voice.tokens = m.written.map (·.flatMap Term.tokens) := by
  rw [written, List.map_map]
  refine List.map_congr_left fun v _ => ?_
  show v.terms.flatMap Term.tokens = (v.terms.map Term.written).flatMap Term.tokens
  rw [List.flatMap_map]
  simp only [Term.tokens_written]

/-- Voices are known from their tokens. -/
theorem terms_eq {ts us : List Term} (hts : ∀ t ∈ ts, t.Canonical) (hus : ∀ u ∈ us, u.Canonical)
    (h : ts.flatMap Term.tokens = us.flatMap Term.tokens) : ts.map Term.written = us.map Term.written :=
  map_eq_of_flatMap_eq (fun t ht => (hts t ht).isBlock_tokens) (fun u hu => (hus u hu).isBlock_tokens) h
    fun t ht u hu => Term.written_eq (hts t ht) (hus u hu)

variable {m n : Measure}

/-- The voices of a measure are what stands between its voice breaks. -/
theorem Canonical.splitOn_eq (h : m.Canonical) :
    ([Token.vb].intercalate (m.voices.map Voice.tokens)).splitOn .vb = m.voices.map Voice.tokens := by
  refine List.splitOn_intercalate _ ?_ (by simpa using h.voices_ne_nil)
  intro l hl hvb
  obtain ⟨v, hv, rfl⟩ := List.mem_map.1 hl
  obtain ⟨t, ht, hvb⟩ := List.mem_flatMap.1 hvb
  exact (h.terms v hv t ht).vb_not_mem hvb

/-- **A measure is known from its tokens.** Measures that have a token for everything are written alike exactly if
they have the same voices with the same terms, up to the fields that are never written. -/
theorem tokens_eq_iff_written (hm : m.Canonical) (hn : n.Canonical) : m.tokens = n.tokens ↔ m.written = n.written := by
  constructor
  · intro h
    have hvoices : m.voices.map Voice.tokens = n.voices.map Voice.tokens := by
      rw [← hm.splitOn_eq, ← hn.splitOn_eq]
      rw [List.append_cancel_right (List.cons.inj h).2]
    exact map_eq_of_map_eq hvoices fun v hv w hw => terms_eq (hm.terms v hv) (hn.terms w hw)
  · intro h
    rw [tokens, tokens, tokens_written, tokens_written, h]

/-- A triplet after a grace note on the second staff, and a voice without terms. -/
def gracedTriplet (note : Int32) (tick : Int64) : Measure where
  voices := [{ terms := [
    .context { context := .staff 2, tick },
    .event {
      chord := [{ letter := .pitchC, accidental := some .sharp, octaves := 1, note }]
      duration := some { division := 4 }
      grace := true
      stem := some .up },
    .event {
      chord := [{ letter := .pitchE }, { letter := .pitchG, note }]
      duration := some { division := 3, dots := 1, warpTag := some .warp3 }
      beam := some .opening
      tick
      marks := [.accent, .tie] }] }, {}]

theorem canonical_gracedTriplet (note : Int32) (tick : Int64) : (gracedTriplet note tick).Canonical where
  voices_ne_nil := List.cons_ne_nil _ _
  terms v hv t ht := by
    rcases List.mem_pair.1 hv with rfl | rfl
    · simp only [List.mem_cons, List.not_mem_nil, or_false] at ht
      rcases ht with rfl | rfl | rfl
      · exact ⟨by decide, by decide⟩
      · exact Event.canonical_of_plain (List.cons_ne_nil _ _) (List.forall_mem_singleton.2 rfl)
          ⟨_, rfl, by decide, nofun⟩ rfl rfl rfl
      · exact Event.canonical_of_plain (List.cons_ne_nil _ _)
          (List.forall_mem_cons.2 ⟨rfl, List.forall_mem_singleton.2 rfl⟩)
          ⟨_, rfl, by decide, fun t ht => .inl (Option.some.inj ht ▸ rfl)⟩ rfl rfl rfl
    · cases ht

/-- Two measures that differ in what is never written. -/
theorem tokens_eq_iff_written_gracedTriplet :
    (gracedTriplet 61 0).Canonical ∧ (gracedTriplet 64 240).Canonical ∧ gracedTriplet 61 0 ≠ gracedTriplet 64 240 ∧
      (gracedTriplet 61 0).tokens = [.bom, .s2, .grace, .stemUp, .pitchC, .sharp, .octaveUp, .d16,
        .pitchE, .pitchG, .warp3, .d8, .dot, .beamOpen, .accent, .tie, .vb, .eom] ∧
      (gracedTriplet 61 0).tokens = (gracedTriplet 64 240).tokens ∧
      (gracedTriplet 61 0).written = (gracedTriplet 64 240).written := by
  have htokens : (gracedTriplet 61 0).tokens = (gracedTriplet 64 240).tokens := by decide +kernel
  refine ⟨canonical_gracedTriplet 61 0, canonical_gracedTriplet 64 240, by decide +kernel, by decide +kernel, htokens,
    ?_⟩
  exact (tokens_eq_iff_written (canonical_gracedTriplet 61 0) (canonical_gracedTriplet 64 240)).1 htokens

end Measure

end ScoreDecoding
