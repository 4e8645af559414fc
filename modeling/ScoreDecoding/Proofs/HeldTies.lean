import ScoreDecoding.Measure.Ties
import Mathlib.Data.List.Forall2
import Mathlib.Data.List.Nodup

/-!
# What putting ties right does to a measure

A pass looks at the neighbouring events of each voice from left to right. An event that stands between two others is
looked at twice, first as the second one of a pair and then as the first one of the next; but what the second look
changes, ties and openings of slurs, the first pair does not depend on any more.

- `Adjusts` are the three things that may become of a pair (`adjusts_normalizePair`). In each of them the pair is left
  `Settled`, and a settled pair is left as it is;
- `settled_normalizeTies`: after a pass all pairs are settled, a second pass changes nothing, and the pass itself has
  touched nothing but ties and slurs (`Retied`);
- `marks_normalizeTies`: each change takes one mark away and keeps the slurs of its voice in balance.
-/

namespace ScoreDecoding.Measure

variable {e e' next next' : Event} {ts : List Term}

/-! ## One pair -/

/-- Neighbouring events whose ties hold: a tie on the first one leads to a chord that sustains it, and no slur stands
where a tie could. -/
structure Event.Settled (e next : Event) : Prop where
  held : .tie ∈ e.marks → holds e.chord next.chord = true
  tied : holds e.chord next.chord = true → .tie ∉ e.marks → ¬ (.slurOpen ∈ e.marks ∧ .slurClose ∈ next.marks)

/-- What becomes of a pair: nothing, if it is settled; or a tie that does not hold is taken away, or a slur becomes a
tie. -/
inductive Adjusts (e next : Event) : Event × Event × Bool → Prop
  | kept : e.Settled next → Adjusts e next (e, next, false)
  | untied : .tie ∈ e.marks → holds e.chord next.chord = false →
      Adjusts e next ({ e with marks := e.marks.filter (· != .tie) }, next, true)
  | tied : holds e.chord next.chord = true → .tie ∉ e.marks → .slurOpen ∈ e.marks → .slurClose ∈ next.marks →
      Adjusts e next ({ e with marks := e.marks.filter (· != .slurOpen) ++ [.tie] },
        { next with marks := next.marks.filter (· != .slurClose) }, true)

theorem adjusts_normalizePair (e next : Event) : Adjusts e next (normalizePair e next) := by
  unfold normalizePair
  split
  · rename_i htie
    have htie : .tie ∈ e.marks := List.contains_iff_mem.1 htie
    split
    · rename_i hholds
      exact .kept ⟨fun _ => hholds, fun _ hno => absurd htie hno⟩
    · rename_i hholds
      exact .untied htie (by simpa using hholds)
  · rename_i htie
    have htie : .tie ∉ e.marks := fun h => htie (List.contains_iff_mem.2 h)
    split
    · rename_i hslur
      simp only [Bool.and_eq_true, List.contains_iff_mem] at hslur
      exact .tied hslur.1.1 htie hslur.1.2 hslur.2
    · rename_i hslur
      simp only [Bool.and_eq_true, List.contains_iff_mem, not_and] at hslur
      exact .kept ⟨fun h => absurd h htie, fun hholds _ h => hslur ⟨hholds, h.1⟩ h.2⟩

/-- A settled pair is left as it is. -/
theorem normalizePair_of_settled (h : e.Settled next) : normalizePair e next = (e, next, false) := by
  have hadjusts := adjusts_normalizePair e next
  generalize normalizePair e next = result at hadjusts
  cases hadjusts with
  | kept => rfl
  | untied htie hno => exact absurd (h.held htie) (by simp [hno])
  | tied hholds htie hopen hclose => exact absurd ⟨hopen, hclose⟩ (h.tied hholds htie)

/-- Any pair is settled afterwards. -/
theorem Adjusts.settled {changed : Bool} (h : Adjusts e next (e', next', changed)) : e'.Settled next' := by
  cases h with
  | kept hs => exact hs
  | untied htie hno =>
    refine ⟨fun h => ?_, fun hholds => ?_⟩
    · simp at h
    · simp [hno] at hholds
  | tied hholds => exact ⟨fun _ => hholds, fun _ hno => absurd (by simp) hno⟩

/-! ## What a pass leaves alone -/

/-- Whether a mark joins an event to a neighbour: a tie, or a side of a slur. -/
def Mark.joins : Mark → Bool
  | .tie | .slurOpen | .slurClose => true
  | _ => false

/-- Some ties and slurs are taken off an event. -/
structure Event.Trims (e e' : Event) : Prop where
  fields : e' = { e with marks := e'.marks }
  sublist : e'.marks.Sublist e.marks
  others : e'.marks.filter (!·.joins) = e.marks.filter (!·.joins)

/-- Some ties and slurs are taken off an event, and a tie may be put on it. -/
def Event.Retied (e e' : Event) : Prop :=
  ∃ k, e.Trims k ∧ (e' = k ∨ e' = { k with marks := k.marks ++ [.tie] })

/-- A context stays, and an event only changes its ties and slurs. -/
inductive Term.Retied : Term → Term → Prop
  | context (c : ContextChange) : Retied (.context c) (.context c)
  | event {e e' : Event} : e.Retied e' → Retied (.event e) (.event e')

/-- Only the events of a voice change. -/
structure Voice.Retied (v v' : Voice) : Prop where
  fields : v' = { v with terms := v'.terms }
  terms : List.Forall₂ Term.Retied v.terms v'.terms

/-- Only the events of a measure change. -/
structure Retied (m m' : Measure) : Prop where
  fields : m' = { m with voices := m'.voices }
  voices : List.Forall₂ Voice.Retied m.voices m'.voices

theorem Event.Trims.refl (e : Event) : e.Trims e := ⟨rfl, .refl _, rfl⟩

theorem Event.Trims.filter {p : Mark → Bool} (h : ∀ x, x.joins = false → p x = true) :
    e.Trims { e with marks := e.marks.filter p } := by
  refine ⟨rfl, List.filter_sublist, ?_⟩
  rw [List.filter_filter]
  refine List.filter_congr fun x _ => ?_
  cases hx : x.joins with
  | true => rfl
  | false => simp [h x hx]

theorem Event.Trims.trans {k : Event} (h : e.Trims k) (h' : k.Trims e') : e.Trims e' := by
  refine ⟨?_, h'.sublist.trans h.sublist, h'.others.trans h.others⟩
  rw [h'.fields, h.fields]

theorem Event.Trims.retied (h : e.Trims e') : e.Retied e' := ⟨e', h, .inl rfl⟩

theorem Event.Retied.of_trims {k : Event} (h : e.Trims k) (hk : k.Retied e') : e.Retied e' := by
  obtain ⟨l, hl, he⟩ := hk
  exact ⟨l, h.trans hl, he⟩

/-- The chord of an event stays, and no slur is closed at it that was not. -/
theorem Event.Retied.keeps (h : e.Retied e') :
    e'.chord = e.chord ∧ (.slurClose ∈ e'.marks → .slurClose ∈ e.marks) := by
  obtain ⟨k, hk, rfl | rfl⟩ := h
  · exact ⟨by rw [hk.fields], fun h => hk.sublist.subset h⟩
  · refine ⟨by rw [hk.fields], fun h => ?_⟩
    rcases List.mem_append.1 h with h | h
    · exact hk.sublist.subset h
    · simp at h

/-- The pair after the next look at its second event: it stays settled. -/
theorem Event.Settled.of_retied (h : e.Settled next) (hn : next.Retied next') : e.Settled next' := by
  obtain ⟨hchord, hclose⟩ := hn.keeps
  refine ⟨fun htie => ?_, fun hholds htie hslur => ?_⟩
  · rw [hchord]
    exact h.held htie
  · rw [hchord] at hholds
    exact h.tied hholds htie ⟨hslur.1, hclose hslur.2⟩

theorem Adjusts.retied {changed : Bool} (h : Adjusts e next (e', next', changed)) :
    e.Retied e' ∧ next.Trims next' := by
  have hjoins : ∀ y : Mark, y.joins = true → ∀ x : Mark, x.joins = false → (x != y) = true := by
    rintro y hy x hx
    simp only [bne_iff_ne, ne_eq]
    rintro rfl
    simp [hy] at hx
  cases h with
  | kept => exact ⟨(Event.Trims.refl e).retied, .refl next⟩
  | untied => exact ⟨(Event.Trims.filter (hjoins .tie rfl)).retied, .refl next⟩
  | tied => exact ⟨⟨_, .filter (hjoins .slurOpen rfl), .inr rfl⟩, .filter (hjoins .slurClose rfl)⟩

theorem retied_normalizeAfter (e : Event) (ts : List Term) :
    e.Retied (normalizeAfter e ts).1 ∧ List.Forall₂ Term.Retied ts (normalizeAfter e ts).2.1 := by
  fun_induction normalizeAfter e ts with
  | case1 e => exact ⟨(Event.Trims.refl e).retied, .nil⟩
  | case2 e c ts e' rest n hrest ih =>
    rw [hrest] at ih
    exact ⟨ih.1, .cons (.context c) ih.2⟩
  | case3 e next ts e' next' changed hpair next'' rest n hrest ih =>
    rw [hrest] at ih
    have hadjusts := adjusts_normalizePair e next
    rw [hpair] at hadjusts
    obtain ⟨hfirst, hsecond⟩ := hadjusts.retied
    exact ⟨hfirst, .cons (.event (.of_trims hsecond ih.1)) ih.2⟩

/-! ## A second pass -/

/-- All pairs of neighbouring events are settled. -/
def SettledTerms (ts : List Term) : Prop := (ts.filterMap Term.event?).IsChain Event.Settled

theorem settled_normalizeAfter (e : Event) (ts : List Term) :
    SettledTerms (.event (normalizeAfter e ts).1 :: (normalizeAfter e ts).2.1) := by
  unfold SettledTerms
  fun_induction normalizeAfter e ts with
  | case1 e => exact .singleton e
  | case2 e c ts e' rest n hrest ih =>
    rw [hrest] at ih
    exact ih
  | case3 e next ts e' next' changed hpair next'' rest n hrest ih =>
    have hretied := (retied_normalizeAfter next' ts).1
    rw [hrest] at ih hretied
    have hadjusts := adjusts_normalizePair e next
    rw [hpair] at hadjusts
    exact .cons_cons (hadjusts.settled.of_retied hretied) ih

theorem normalizeAfter_of_settled (h : SettledTerms (.event e :: ts)) : normalizeAfter e ts = (e, ts, 0) := by
  induction ts generalizing e with
  | nil => rfl
  | cons t ts ih =>
    cases t with
    | context c =>
      have htail : SettledTerms (.event e :: ts) := h
      rw [normalizeAfter, ih htail]
    | event next =>
      obtain ⟨hpair, htail⟩ : e.Settled next ∧ SettledTerms (.event next :: ts) := List.isChain_cons_cons.1 h
      rw [normalizeAfter, normalizePair_of_settled hpair]
      simp only [ih htail, Bool.false_eq_true, if_false]

/-! ## Voices -/

/-- The three parts of the statement, for the terms of a voice. -/
theorem settled_normalizeTerms (ts : List Term) :
    SettledTerms (normalizeTerms ts).1 ∧ List.Forall₂ Term.Retied ts (normalizeTerms ts).1 := by
  induction ts with
  | nil => exact ⟨.nil, .nil⟩
  | cons t ts ih =>
    cases t with
    | context c => exact ⟨ih.1, .cons (.context c) ih.2⟩
    | event e =>
      obtain ⟨hfirst, hrest⟩ := retied_normalizeAfter e ts
      exact ⟨settled_normalizeAfter e ts, .cons (.event hfirst) hrest⟩

theorem normalizeTerms_of_settled (h : SettledTerms ts) : normalizeTerms ts = (ts, 0) := by
  induction ts with
  | nil => rfl
  | cons t ts ih =>
    cases t with
    | context c =>
      have htail : SettledTerms ts := h
      rw [normalizeTerms, ih htail]
    | event e => rw [normalizeTerms, normalizeAfter_of_settled h]

theorem settled_normalizeVoices (vs : List Voice) :
    (∀ v ∈ (normalizeVoices vs).1, SettledTerms v.terms) ∧ List.Forall₂ Voice.Retied vs (normalizeVoices vs).1 := by
  induction vs with
  | nil => exact ⟨List.forall_mem_nil _, .nil⟩
  | cons v vs ih =>
    obtain ⟨hsettled, hretied⟩ := settled_normalizeTerms v.terms
    have hcons : (normalizeVoices (v :: vs)).1 = v.normalizeTies.1 :: (normalizeVoices vs).1 := rfl
    rw [hcons]
    exact ⟨List.forall_mem_cons.2 ⟨hsettled, ih.1⟩, .cons ⟨rfl, hretied⟩ ih.2⟩

theorem normalizeVoices_of_settled {vs : List Voice} (h : ∀ v ∈ vs, SettledTerms v.terms) :
    normalizeVoices vs = (vs, 0) := by
  induction vs with
  | nil => rfl
  | cons v vs ih =>
    obtain ⟨hv, hvs⟩ := List.forall_mem_cons.1 h
    rw [normalizeVoices, ih hvs, Voice.normalizeTies, normalizeTerms_of_settled hv]

/-- **A second pass changes nothing**, since the first one leaves all neighbouring events settled; and the first one has
touched nothing but ties and slurs, and moved no mark. -/
theorem settled_normalizeTies (m : Measure) :
    normalizeTies (normalizeTies m).1 = ((normalizeTies m).1, 0) ∧
      (∀ v ∈ (normalizeTies m).1.voices, v.events.IsChain Event.Settled) ∧ Retied m (normalizeTies m).1 := by
  obtain ⟨hsettled, hretied⟩ := settled_normalizeVoices m.voices
  have hagain : normalizeVoices (normalizeTies m).1.voices = ((normalizeTies m).1.voices, 0) :=
    normalizeVoices_of_settled hsettled
  refine ⟨?_, hsettled, rfl, hretied⟩
  rw [normalizeTies, hagain]

/-! ## Marks -/

/-- The marks of the events of a voice, in order. -/
def Voice.marks (v : Voice) : List Mark := v.events.flatMap (·.marks)

/-- The marks of all voices. -/
def marks (m : Measure) : List Mark := m.voices.flatMap Voice.marks

/-- How many slurs are opened in a voice beyond those that are closed. -/
def Voice.slurBalance (v : Voice) : Int := v.marks.count .slurOpen - v.marks.count .slurClose

/-- Marks before and after so many changes: each takes one mark away, and openings of slurs go together with
closings. -/
structure Pays (before after : List Mark) (n : Nat) : Prop where
  length : before.length = after.length + n
  slurs : before.count .slurOpen + after.count .slurClose = after.count .slurOpen + before.count .slurClose

theorem Pays.refl (ms : List Mark) : Pays ms ms 0 := ⟨rfl, rfl⟩

theorem Pays.trans {a b c : List Mark} {n k : Nat} (h : Pays a b n) (h' : Pays b c k) : Pays a c (n + k) := by
  have hlength := h.length
  have hlength' := h'.length
  have hslurs := h.slurs
  have hslurs' := h'.slurs
  exact ⟨by omega, by omega⟩

theorem Pays.append {a b c d : List Mark} {n k : Nat} (h : Pays a b n) (h' : Pays c d k) :
    Pays (a ++ c) (b ++ d) (n + k) := by
  have hlength := h.length
  have hlength' := h'.length
  have hslurs := h.slurs
  have hslurs' := h'.slurs
  constructor
  · simp only [List.length_append]
    omega
  · simp only [List.count_append]
    omega

/-- No mark is taken off an event more than once if none stands there twice. -/
theorem length_filter_ne {ms : List Mark} {x : Mark} (hn : ms.Nodup) (hx : x ∈ ms) :
    ms.length = (ms.filter (· != x)).length + 1 := by
  have hpos : 0 < ms.length := List.length_pos_of_mem hx
  rw [← hn.erase_eq_filter, List.length_erase_of_mem hx]
  omega

theorem count_filter_ne_self (ms : List Mark) (x : Mark) : (ms.filter (· != x)).count x = 0 :=
  List.count_eq_zero.2 (by simp)

theorem count_filter_ne {ms : List Mark} {x y : Mark} (h : x ≠ y) : (ms.filter (· != x)).count y = ms.count y :=
  List.count_filter (by simpa using h.symm)

/-- What a pair pays, and that no mark stands twice afterwards. -/
theorem Adjusts.pays {changed : Bool} (h : Adjusts e next (e', next', changed)) (he : e.marks.Nodup)
    (hnext : next.marks.Nodup) :
    Pays (e.marks ++ next.marks) (e'.marks ++ next'.marks) (if changed then 1 else 0) ∧
      e'.marks.Nodup ∧ next'.marks.Nodup := by
  cases h with
  | kept => exact ⟨.refl _, he, hnext⟩
  | untied htie =>
    have hlength := length_filter_ne he htie
    refine ⟨⟨?_, ?_⟩, he.filter _, hnext⟩
    · simp only [List.length_append, if_true]
      omega
    · simp only [List.count_append, count_filter_ne (show Mark.tie ≠ .slurOpen by decide),
        count_filter_ne (show Mark.tie ≠ .slurClose by decide)]
  | tied _ htie hopen hclose =>
    have hlength := length_filter_ne he hopen
    have hlength' := length_filter_ne hnext hclose
    have hcount := List.count_eq_one_of_mem he hopen
    have hcount' := List.count_eq_one_of_mem hnext hclose
    refine ⟨⟨?_, ?_⟩, ?_, hnext.filter _⟩
    · simp only [List.length_append, List.length_singleton, if_true]
      omega
    · simp only [List.count_append, List.count_singleton, count_filter_ne_self,
        count_filter_ne (show Mark.slurOpen ≠ .slurClose by decide),
        count_filter_ne (show Mark.slurClose ≠ .slurOpen by decide), hcount, hcount']
      simp
      omega
    · refine List.Nodup.append (he.filter _) (List.nodup_singleton _) ?_
      rw [List.disjoint_singleton]
      exact fun h => htie (List.mem_filter.1 h).1

/-- The marks of an event and the terms after it. -/
theorem pays_normalizeAfter (e : Event) (ts : List Term) (he : e.marks.Nodup)
    (hts : ∀ d ∈ ts.filterMap Term.event?, d.marks.Nodup) :
    Pays (e.marks ++ (ts.filterMap Term.event?).flatMap (·.marks))
        ((normalizeAfter e ts).1.marks ++ ((normalizeAfter e ts).2.1.filterMap Term.event?).flatMap (·.marks))
        (normalizeAfter e ts).2.2 ∧
      (normalizeAfter e ts).1.marks.Nodup ∧
      ∀ d ∈ (normalizeAfter e ts).2.1.filterMap Term.event?, d.marks.Nodup := by
  fun_induction normalizeAfter e ts with
  | case1 e => exact ⟨.refl _, he, hts⟩
  | case2 e c ts e' rest n hrest ih =>
    have htail : ∀ d ∈ ts.filterMap Term.event?, d.marks.Nodup := hts
    have hafter := ih he htail
    rw [hrest] at hafter
    exact hafter
  | case3 e next ts e' next' changed hpair next'' rest n hrest ih =>
    obtain ⟨hnext, htail⟩ : next.marks.Nodup ∧ ∀ d ∈ ts.filterMap Term.event?, d.marks.Nodup :=
      List.forall_mem_cons.1 hts
    have hadjusts := adjusts_normalizePair e next
    rw [hpair] at hadjusts
    obtain ⟨hpays, he', hnext'⟩ := hadjusts.pays he hnext
    obtain ⟨hrestPays, hnext'', hrest'⟩ := ih hnext' htail
    rw [hrest] at hrestPays hnext'' hrest'
    refine ⟨?_, he', List.forall_mem_cons.2 ⟨hnext'', hrest'⟩⟩
    -- the second event of the pair is paid for twice, here and by what comes after
    have hfirst := hpays.append (.refl ((ts.filterMap Term.event?).flatMap (·.marks)))
    have hsecond := (Pays.refl e'.marks).append hrestPays
    simp only [List.append_assoc, Nat.add_zero, Nat.zero_add] at hfirst hsecond
    exact hfirst.trans hsecond

theorem pays_normalizeTerms (ts : List Term) (hts : ∀ d ∈ ts.filterMap Term.event?, d.marks.Nodup) :
    Pays ((ts.filterMap Term.event?).flatMap (·.marks))
        (((normalizeTerms ts).1.filterMap Term.event?).flatMap (·.marks)) (normalizeTerms ts).2 ∧
      ∀ d ∈ (normalizeTerms ts).1.filterMap Term.event?, d.marks.Nodup := by
  induction ts with
  | nil => exact ⟨.refl _, hts⟩
  | cons t ts ih =>
    cases t with
    | context c => exact ih hts
    | event e =>
      obtain ⟨he, htail⟩ := List.forall_mem_cons.1 hts
      obtain ⟨hpays, he', htail'⟩ := pays_normalizeAfter e ts he htail
      exact ⟨hpays, List.forall_mem_cons.2 ⟨he', htail'⟩⟩

/-- No event of a voice carries a mark twice. -/
def Voice.Distinct (v : Voice) : Prop := ∀ e ∈ v.events, e.marks.Nodup

theorem pays_normalizeVoices {vs : List Voice} (h : ∀ v ∈ vs, v.Distinct) :
    Pays (vs.flatMap Voice.marks) ((normalizeVoices vs).1.flatMap Voice.marks) (normalizeVoices vs).2 ∧
      (∀ v ∈ (normalizeVoices vs).1, v.Distinct) ∧
      List.Forall₂ (fun v v' => v'.slurBalance = v.slurBalance) vs (normalizeVoices vs).1 := by
  induction vs with
  | nil => exact ⟨.refl _, List.forall_mem_nil _, .nil⟩
  | cons v vs ih =>
    obtain ⟨hv, hvs⟩ := List.forall_mem_cons.1 h
    obtain ⟨hpays, hdistinct⟩ : Pays v.marks v.normalizeTies.1.marks v.normalizeTies.2 ∧ v.normalizeTies.1.Distinct :=
      pays_normalizeTerms v.terms hv
    obtain ⟨hrest, hdistinct', hbalance⟩ := ih hvs
    have hslurs := hpays.slurs
    have hv' : v.normalizeTies.1.slurBalance = v.slurBalance := by
      unfold Voice.slurBalance
      omega
    have hcons : normalizeVoices (v :: vs) =
        (v.normalizeTies.1 :: (normalizeVoices vs).1, v.normalizeTies.2 + (normalizeVoices vs).2) := rfl
    rw [hcons]
    exact ⟨hpays.append hrest, List.forall_mem_cons.2 ⟨hdistinct, hdistinct'⟩, .cons hv' hbalance⟩

/-- **Each change takes one mark away**, if no event carries a mark twice; then none does so afterwards, and the slurs of
each voice are as balanced as they were. -/
theorem marks_normalizeTies {m : Measure} (h : ∀ v ∈ m.voices, ∀ e ∈ v.events, e.marks.Nodup) :
    (∀ v ∈ (normalizeTies m).1.voices, ∀ e ∈ v.events, e.marks.Nodup) ∧
      List.Forall₂ (fun v v' => v'.slurBalance = v.slurBalance) m.voices (normalizeTies m).1.voices ∧
      (normalizeTies m).1.marks.length + (normalizeTies m).2 = m.marks.length := by
  obtain ⟨hpays, hdistinct, hbalance⟩ := pays_normalizeVoices h
  exact ⟨hdistinct, hbalance, hpays.length.symm⟩

/-- A chord of one pitch with marks. -/
def markedNote (letter : Token) (marks : List Mark) : Term := .event { chord := [{ letter }], marks }

/-- Three equal notes under two slurs, with a change of clef between them, and a tie to another note. -/
def slurredNotes : Measure where
  voices := [{ terms := [
    markedNote .pitchC [.slurOpen, .accent], .context { context := .clef .clefF },
    markedNote .pitchC [.slurClose, .slurOpen], markedNote .pitchC [.slurClose, .tie],
    markedNote .pitchD [.staccato]] }]

/-- Both slurs become ties, and the tie is taken away. -/
theorem marks_normalizeTies_slurredNotes :
    (∀ v ∈ slurredNotes.voices, ∀ e ∈ v.events, e.marks.Nodup) ∧ slurredNotes.marks.length = 7 ∧
      (normalizeTies slurredNotes).1.marks = [.accent, .tie, .tie, .staccato] ∧ (normalizeTies slurredNotes).2 = 3 ∧
      (normalizeTies slurredNotes).1.marks.length + 3 = slurredNotes.marks.length := by
  have hdistinct : ∀ v ∈ slurredNotes.voices, ∀ e ∈ v.events, e.marks.Nodup := by decide
  exact ⟨hdistinct, by decide, by decide, by decide, (marks_normalizeTies hdistinct).2.2⟩

end ScoreDecoding.Measure
