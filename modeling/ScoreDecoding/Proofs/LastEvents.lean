import ScoreDecoding.Proofs.Parts
import ScoreDecoding.Proofs.Repair

/-!
# Where the last event of a sequence starts

Going back to the last event reads the sequence from its end: over all tokens down to a pitch letter, and on over the
tokens that may stand before a length. An event is written as notes with what leads to them, all of which such tokens,
and a length with what follows it, none of which is one (`Event.tokens_eq_head_append_tail`). No context is written
with such tokens either. So going back stops where the event begins.

- `tokensBeforeLastEvent_tokens`: within a voice;
- `lastEventStart_append_tokens`: after what precedes the voice, and before what ends it;
- `lastEventStart_append_iff`: when the last event is found. It is not when a voice without tokens follows a voice
  break: the break then ends the voice before.
-/

namespace ScoreDecoding

open Repair

namespace Measure

/-! ## Terms with a notation -/

/-- An event with notes and a length. -/
structure Event.Notated (e : Event) : Prop where
  chord_ne_nil : e.chord ≠ []
  group_letter : ∀ p ∈ e.chord, p.letter.group = .letter
  duration : ∃ d, e.duration = some d ∧ d.Canonical

/-- A context that holds a token of its group, if it holds one. -/
def Context.Notated : Context → Prop
  | .clef t => t.group = .clef
  | .octaveShift t => t.group = .octaveShift
  | _ => True

/-- Events have notes and a length, contexts a token of their group. -/
def Term.Notated : Term → Prop
  | .event e => e.Notated
  | .context c => c.context.Notated

/-- The terms of a voice before its last event; none of them if it has no event. -/
def Voice.beforeLastEvent (v : Voice) : List Term := (v.terms.rdropWhile fun t => t.event?.isNone).dropLast

/-! ## The two halves of an event -/

/-- What is written of an event up to its last note. -/
def Event.head (e : Event) : List Token :=
  e.onset ++ (e.stem.map Stem.token).toList ++ e.chord.flatMap Pitch.tokens

/-- What is written of an event from its length on. -/
def Event.tail (e : Event) : List Token :=
  (e.duration.map Duration.tokens).getD [] ++ e.silence ++ (e.beam.map Beam.token).toList ++ e.marks.map Mark.token

theorem Event.tokens_eq_head_append_tail (e : Event) : e.tokens = e.head ++ e.tail := by
  simp only [Event.tokens, Event.head, Event.tail, List.append_assoc]

/-- Whether a token may stand in a voice, but not before the length of an event. -/
def isSettled (t : Token) : Bool := !isEventHead t && t.group != .structural

theorem isEventHead_of_isSettled {t : Token} (h : isSettled t = true) : isEventHead t = false := by
  simp only [isSettled, Bool.and_eq_true, Bool.not_eq_true'] at h
  exact h.1

/-- The pitch letters may stand before a length. -/
theorem group_ne_letter_of_isSettled {t : Token} (h : isSettled t = true) : t.group ≠ .letter := by
  intro hgroup
  have hhead := isEventHead_of_isSettled h
  rw [isEventHead, hgroup] at hhead
  cases hhead

theorem group_ne_structural_of_isSettled {t : Token} (h : isSettled t = true) : t.group ≠ .structural := by
  simp only [isSettled, Bool.and_eq_true, bne_iff_ne] at h
  exact h.2

variable {e : Event}

theorem Event.isEventHead_of_mem_onset {t : Token} (ht : t ∈ e.onset) : isEventHead t = true := by
  unfold Event.onset at ht
  split at ht
  · rw [List.mem_singleton.1 ht]
    rfl
  · split at ht
    · rw [isEventHead, ValueTable.group_of_token? (g := .tremolo) rfl (Option.mem_toList.1 ht)]
    · split at ht
      · rw [isEventHead, ValueTable.group_of_token? (g := .tremoloCast) rfl (Option.mem_toList.1 ht)]
      · cases ht

theorem Pitch.isEventHead_of_mem {p : Pitch} (hp : p.letter.group = .letter) {t : Token} (ht : t ∈ p.tokens) :
    isEventHead t = true := by
  rw [p.tokens_eq] at ht
  obtain ⟨g, hg, ht⟩ := List.mem_flatMap.1 ht
  rw [isEventHead, Pitch.group_of_mem hp g ht]
  clear ht
  revert g
  decide

/-- All that stands before the length of an event may stand there. -/
theorem Event.Notated.isEventHead_of_mem_head (h : e.Notated) {t : Token} (ht : t ∈ e.head) :
    isEventHead t = true := by
  rcases List.mem_append.1 ht with ht | ht
  · rcases List.mem_append.1 ht with ht | ht
    · exact isEventHead_of_mem_onset ht
    · obtain ⟨s, -, rfl⟩ := Option.map_eq_some_iff.1 (Option.mem_toList.1 ht)
      rw [isEventHead, s.group_token]
  · obtain ⟨p, hp, ht⟩ := List.mem_flatMap.1 ht
    exact Pitch.isEventHead_of_mem (h.group_letter p hp) ht

/-- The notes of an event have a letter. -/
theorem Event.Notated.exists_letter (h : e.Notated) : ∃ t ∈ e.head, t.group = .letter := by
  obtain ⟨p, hp⟩ := List.exists_mem_of_ne_nil _ h.chord_ne_nil
  have hletter : p.letter ∈ e.chord.flatMap Pitch.tokens := List.mem_flatMap_of_mem hp List.mem_cons_self
  exact ⟨p.letter, List.mem_append_right _ hletter, h.group_letter p hp⟩

theorem Duration.Canonical.isSettled_of_mem {d : Duration} (h : d.Canonical) {t : Token} (ht : t ∈ d.tokens) :
    isSettled t = true := by
  rcases List.mem_append.1 ht with ht | ht
  · rcases List.mem_append.1 ht with ht | ht
    · rcases h.group_warpTag t (Option.mem_toList.1 ht) with hgroup | hgroup <;>
        simp only [isSettled, isEventHead, hgroup] <;> rfl
    · simp only [isSettled, isEventHead, ValueTable.group_of_token? (g := .division) rfl (Option.mem_toList.1 ht)]
      rfl
  · rw [List.eq_of_mem_replicate ht]
    rfl

/-- Nothing of the rest of an event may stand before a length. -/
theorem Event.Notated.isSettled_of_mem_tail (h : e.Notated) {t : Token} (ht : t ∈ e.tail) : isSettled t = true := by
  obtain ⟨d, hd, hcanonical⟩ := h.duration
  simp only [Event.tail, hd, Option.map_some, Option.getD_some, List.mem_append, or_assoc] at ht
  rcases ht with ht | ht | ht | ht
  · exact hcanonical.isSettled_of_mem ht
  · unfold Event.silence at ht
    split at ht
    · rw [List.mem_singleton.1 ht]
      rfl
    · split at ht
      · rw [List.mem_singleton.1 ht]
        rfl
      · cases ht
  · obtain ⟨b, -, rfl⟩ := Option.map_eq_some_iff.1 (Option.mem_toList.1 ht)
    simp only [isSettled, isEventHead, b.group_token]
    rfl
  · obtain ⟨m, -, rfl⟩ := List.mem_map.1 ht
    simp only [isSettled, isEventHead, m.group_token]
    rfl

/-- An event with a length goes on after its notes. -/
theorem Event.Notated.tail_ne_nil (h : e.Notated) : e.tail ≠ [] := by
  obtain ⟨d, hd, hcanonical⟩ := h.duration
  obtain ⟨t, ht⟩ := ValueTable.exists_token? hcanonical.mem_division
  simp [Event.tail, hd, Duration.tokens, ht]

/-! ## Terms -/

theorem Context.Notated.isSettled_of_mem {c : Context} (h : c.Notated) {t : Token} (ht : t ∈ c.tokens) :
    isSettled t = true := by
  -- the groups that contexts are written with
  have hgroup : t.group ∈ [Token.Group.staff, .key, .clef, .octaveShift, .beats, .unit] := by
    cases c with
    | staff n =>
      rw [ValueTable.group_of_token? (g := .staff) rfl (Option.mem_toList.1 ht)]
      decide
    | key k =>
      rw [ValueTable.group_of_token? (g := .key) rfl (Option.mem_toList.1 ht)]
      decide
    | timeSignature r =>
      simp only [Context.tokens] at ht
      split at ht
      · rcases List.mem_append.1 ht with ht | ht
        · rw [ValueTable.group_of_token? (g := .beats) rfl (Option.mem_toList.1 ht)]
          decide
        · rw [ValueTable.group_of_token? (g := .unit) rfl (Option.mem_toList.1 ht)]
          decide
      · cases ht
    | clef u =>
      obtain rfl := List.mem_singleton.1 ht
      rw [show t.group = .clef from h]
      decide
    | octaveShift u =>
      obtain rfl := List.mem_singleton.1 ht
      rw [show t.group = .octaveShift from h]
      decide
  simp only [isSettled, isEventHead]
  revert hgroup
  generalize t.group = g
  revert g
  decide

/-- A term has no token that begins or ends a voice. -/
theorem Term.Notated.group_ne_structural {t : Term} (h : t.Notated) {x : Token} (hx : x ∈ t.tokens) :
    x.group ≠ .structural := by
  cases t with
  | event e =>
    rw [Term.tokens, e.tokens_eq_head_append_tail] at hx
    rcases List.mem_append.1 hx with hx | hx
    · have hhead := Event.Notated.isEventHead_of_mem_head h hx
      intro hgroup
      rw [isEventHead, hgroup] at hhead
      cases hhead
    · exact group_ne_structural_of_isSettled (Event.Notated.isSettled_of_mem_tail h hx)
  | context c => exact group_ne_structural_of_isSettled (Context.Notated.isSettled_of_mem h hx)

/-- A term does not break off before a length. -/
theorem Term.Notated.isEventHead_of_getLast? {t : Term} (h : t.Notated) {x : Token}
    (hx : t.tokens.getLast? = some x) : isEventHead x = false := by
  refine isEventHead_of_isSettled ?_
  cases t with
  | event e =>
    rw [Term.tokens, e.tokens_eq_head_append_tail, List.getLast?_append_of_ne_nil _ (Event.Notated.tail_ne_nil h)] at hx
    exact Event.Notated.isSettled_of_mem_tail h (List.mem_of_getLast? hx)
  | context c => exact Context.Notated.isSettled_of_mem h (List.mem_of_getLast? hx)

/-- Nor do terms one after the other. -/
theorem isEventHead_of_getLast?_flatMap {ts : List Term} (h : ∀ t ∈ ts, t.Notated) {x : Token}
    (hx : (ts.flatMap Term.tokens).getLast? = some x) : isEventHead x = false := by
  induction ts using List.reverseRecOn with
  | nil => cases hx
  | append_singleton ts t ih =>
    rw [List.flatMap_append, List.flatMap_singleton, List.getLast?_append, Option.or_eq_some_iff] at hx
    rcases hx with hx | ⟨-, hx⟩
    · exact (h t (by simp)).isEventHead_of_getLast? hx
    · exact ih (fun u hu => h u (List.mem_append_left [t] hu)) hx

/-- A term without an event has no pitch letter. -/
theorem Term.Notated.group_ne_letter {t : Term} (h : t.Notated) (hnone : t.event? = none) {x : Token}
    (hx : x ∈ t.tokens) : x.group ≠ .letter := by
  cases t with
  | event e => cases hnone
  | context c => exact group_ne_letter_of_isSettled (Context.Notated.isSettled_of_mem h hx)

end Measure

/-! ## Going back in a voice -/

namespace Repair

theorem tokensBeforeLastEvent_of_no_letter {ts : List Token} (h : ∀ t ∈ ts, t.group ≠ .letter) :
    tokensBeforeLastEvent ts = 0 := by
  have hdrop : ts.reverse.dropWhile (·.group != .letter) = [] :=
    List.dropWhile_eq_nil_iff.2 fun t ht => bne_iff_ne.2 (h t (List.mem_reverse.1 ht))
  rw [tokensBeforeLastEvent, hdrop]

/-- Going back stops before a block of tokens that may lead to a length, if one of them is a letter and none of those
after it is. -/
theorem tokensBeforeLastEvent_append {before head rest : List Token}
    (hbefore : ∀ t, before.getLast? = some t → isEventHead t = false)
    (hhead : ∀ t ∈ head, isEventHead t = true) (hletter : ∃ t ∈ head, t.group = .letter)
    (hrest : ∀ t ∈ rest, t.group ≠ .letter) :
    tokensBeforeLastEvent (before ++ head ++ rest) = before.length := by
  -- the letter that going back finds
  obtain ⟨l, hs, hfound⟩ : ∃ l hs, head.reverse.dropWhile (·.group != .letter) = l :: hs := by
    refine List.exists_cons_of_ne_nil fun hnil => ?_
    obtain ⟨t, ht, hgroup⟩ := hletter
    have hno := List.dropWhile_eq_nil_iff.1 hnil t (List.mem_reverse.2 ht)
    rw [hgroup] at hno
    cases hno
  have hscan : (before ++ head ++ rest).reverse.dropWhile (·.group != .letter) = l :: (hs ++ before.reverse) := by
    rw [List.reverse_append, List.reverse_append,
      List.dropWhile_append_of_pos fun t ht => bne_iff_ne.2 (hrest t (List.mem_reverse.1 ht)),
      List.dropWhile_append, hfound]
    rfl
  -- the rest of the block is crossed, and nothing else
  have hcross : ∀ t ∈ hs, isEventHead t = true := by
    intro t ht
    have hsub := (List.dropWhile_sublist (·.group != .letter) (l := head.reverse)).subset
    rw [hfound] at hsub
    exact hhead t (List.mem_reverse.1 (hsub (List.mem_cons_of_mem l ht)))
  have hstop : before.rdropWhile isEventHead = before :=
    List.rdropWhile_eq_self_iff.2 fun hne => by
      rw [hbefore _ (List.getLast?_eq_some_getLast hne)]
      exact Bool.false_ne_true
  have hlength : (before.reverse.dropWhile isEventHead).length = before.length := by
    rw [← List.length_reverse, ← List.rdropWhile, hstop]
  simp only [tokensBeforeLastEvent, hscan]
  rw [List.dropWhile_append_of_pos hcross, hlength]

/-! ## Going back in a sequence -/

/-- What a voice may come after: the begin of the measure, or a voice break. -/
def StartsVoice (p : List Token) : Prop := p = [.bom] ∨ p.getLast? = some .vb

variable {p ts : List Token}

/-- A voice starts after what it may come after. -/
theorem voiceStart_append (hp : StartsVoice p) (hts : Token.vb ∉ ts) : voiceStart (p ++ ts) = p.length := by
  have hskip : (p ++ ts).reverse.dropWhile (· != .vb) = p.reverse.dropWhile (· != .vb) := by
    rw [List.reverse_append]
    refine List.dropWhile_append_of_pos fun t ht => bne_iff_ne.2 ?_
    rintro rfl
    exact hts (List.mem_reverse.1 ht)
  rcases hp with rfl | hlast
  · simp only [voiceStart, hskip]
    rfl
  · obtain ⟨q, rfl⟩ := List.getLast?_eq_some_iff.1 hlast
    have hbreak : (q ++ [Token.vb]).reverse.dropWhile (· != .vb) = Token.vb :: q.reverse := by
      rw [List.reverse_append]
      rfl
    simp only [voiceStart, hskip, hbreak, List.length_cons, List.length_reverse, List.length_append, List.length_nil]

/-- What does not end a voice is part of it. -/
theorem openBody_of_getLast? (hvb : ts.getLast? ≠ some .vb) (heom : ts.getLast? ≠ some .eom) : openBody ts = ts := by
  unfold openBody
  split
  · rename_i h
    exact absurd h hvb
  · rename_i h
    exact absurd h heom
  · rfl

end Repair

namespace Measure

variable {v : Voice} {p e : List Token}

/-- The terms of a voice, taken apart at its last event. -/
theorem Voice.beforeLastEvent_cases (v : Voice) :
    (v.beforeLastEvent = [] ∧ ∀ t ∈ v.terms, t.event? = none) ∨
      ∃ e after, v.terms = v.beforeLastEvent ++ .event e :: after ∧ ∀ t ∈ after, t.event? = none := by
  unfold beforeLastEvent
  generalize v.terms = ts
  induction ts using List.reverseRecOn with
  | nil => exact .inl ⟨rfl, fun t ht => by cases ht⟩
  | append_singleton ts t ih =>
    cases t with
    | event e =>
      refine .inr ⟨e, [], ?_, fun t ht => by cases ht⟩
      rw [List.rdropWhile_concat_neg _ _ _ Bool.false_ne_true, List.dropLast_concat]
    | context c =>
      rw [List.rdropWhile_concat_pos _ _ _ rfl]
      have hlast {after : List Term} (h : ∀ t ∈ after, t.event? = none) :
          ∀ t ∈ after ++ [.context c], t.event? = none := by
        intro t ht
        rcases List.mem_append.1 ht with ht | ht
        · exact h t ht
        · rw [List.mem_singleton.1 ht]
          rfl
      rcases ih with ⟨hnil, hnone⟩ | ⟨e, after, hterms, hnone⟩
      · exact .inl ⟨hnil, hlast hnone⟩
      · refine .inr ⟨e, after ++ [.context c], ?_, hlast hnone⟩
        conv_lhs => rw [hterms]
        rw [List.append_assoc, List.cons_append]

/-- **Within a voice, going back finds the start of its last event.** -/
theorem tokensBeforeLastEvent_tokens (hv : ∀ t ∈ v.terms, t.Notated) :
    tokensBeforeLastEvent v.tokens = (v.beforeLastEvent.flatMap Term.tokens).length := by
  rcases v.beforeLastEvent_cases with ⟨hnil, hnone⟩ | ⟨e, after, hterms, hnone⟩
  · rw [hnil]
    refine tokensBeforeLastEvent_of_no_letter fun x hx => ?_
    obtain ⟨t, ht, hx⟩ := List.mem_flatMap.1 hx
    exact (hv t ht).group_ne_letter (hnone t ht) hx
  · rw [hterms] at hv
    have he : e.Notated := hv (.event e) (by simp)
    have htokens : v.tokens =
        v.beforeLastEvent.flatMap Term.tokens ++ e.head ++ (e.tail ++ after.flatMap Term.tokens) := by
      conv_lhs => rw [Voice.tokens, hterms]
      simp [Term.tokens, e.tokens_eq_head_append_tail]
    rw [htokens]
    refine tokensBeforeLastEvent_append (fun x hx => ?_) (fun x => he.isEventHead_of_mem_head) he.exists_letter ?_
    · exact isEventHead_of_getLast?_flatMap (fun t ht => hv t (List.mem_append_left _ ht)) hx
    · intro x hx
      rcases List.mem_append.1 hx with hx | hx
      · exact group_ne_letter_of_isSettled (he.isSettled_of_mem_tail hx)
      · obtain ⟨t, ht, hx⟩ := List.mem_flatMap.1 hx
        exact (hv t (by simp [ht])).group_ne_letter (hnone t ht) hx

theorem Voice.group_ne_structural (hv : ∀ t ∈ v.terms, t.Notated) {x : Token} (hx : x ∈ v.tokens) :
    x.group ≠ .structural := by
  obtain ⟨t, ht, hx⟩ := List.mem_flatMap.1 hx
  exact (hv t ht).group_ne_structural hx

/-- **Behind what a voice may come after, going back finds the start of its last event**, unless a voice without tokens
is all that comes after a voice break. -/
theorem lastEventStart_append_tokens (hp : StartsVoice p) (hv : ∀ t ∈ v.terms, t.Notated)
    (he : e ∈ [[], [.vb], [.eom]]) (hend : ¬ (e = [] ∧ v.tokens = [] ∧ p.getLast? = some .vb)) :
    lastEventStart (p ++ v.tokens ++ e) = p.length + (v.beforeLastEvent.flatMap Term.tokens).length := by
  have hno (t : Token) (ht : t.group = .structural) : t ∉ v.tokens := fun h => Voice.group_ne_structural hv h ht
  have hbody : openBody (p ++ v.tokens ++ e) = p ++ v.tokens := by
    simp only [List.mem_cons, List.not_mem_nil, or_false] at he
    rcases he with rfl | rfl | rfl
    · -- what the last token is, with nothing after the voice
      rw [List.append_nil]
      have hlast : (p ++ v.tokens).getLast? ≠ some .vb ∧ (p ++ v.tokens).getLast? ≠ some .eom := by
        cases htokens : v.tokens.getLast? with
        | some x =>
          have hx := List.mem_of_getLast? htokens
          rw [List.getLast?_append, htokens, Option.some_or]
          constructor
          · rintro ⟨⟩
            exact hno .vb rfl hx
          · rintro ⟨⟩
            exact hno .eom rfl hx
        | none =>
          have hnil := List.getLast?_eq_none_iff.1 htokens
          rw [hnil, List.append_nil]
          rcases hp with rfl | hvb
          · exact ⟨by decide, by decide⟩
          · exact absurd ⟨rfl, hnil, hvb⟩ hend
      exact openBody_of_getLast? hlast.1 hlast.2
    · exact openBody_concat (.inl rfl) _
    · exact openBody_concat (.inr rfl) _
  have hstart := voiceStart_append hp (hno .vb rfl)
  rw [lastEventStart, hbody, hstart, List.drop_left, tokensBeforeLastEvent_tokens hv]

end Measure

namespace Repair

/-- Going back to the last event makes a sequence shorter that ends with its voice. -/
theorem lastEventStart_lt {ts : List Token} (h : ts.getLast? = some .vb ∨ ts.getLast? = some .eom) :
    lastEventStart ts < ts.length := by
  obtain ⟨t, ht, us, rfl⟩ : ∃ t, (t = .vb ∨ t = .eom) ∧ ∃ us, ts = us ++ [t] := by
    rcases h with h | h
    · exact ⟨.vb, .inl rfl, List.getLast?_eq_some_iff.1 h⟩
    · exact ⟨.eom, .inr rfl, List.getLast?_eq_some_iff.1 h⟩
  rw [List.length_append, List.length_singleton]
  exact Nat.lt_succ_of_le (lastEventStart_concat_le ht us)

end Repair

namespace Measure

/-- **When going back finds the last event of a voice**, and that it makes a sequence shorter that ends with its
voice. The last event is missed only behind a voice break that nothing of the voice follows: such a sequence ends with
the voice before. -/
theorem lastEventStart_append_iff :
    (∀ (p : List Token) (v : Voice) (e : List Token),
      StartsVoice p → (∀ t ∈ v.terms, t.Notated) → e ∈ [[], [.vb], [.eom]] →
        (lastEventStart (p ++ v.tokens ++ e) = p.length + (v.beforeLastEvent.flatMap Term.tokens).length ↔
          ¬ (e = [] ∧ v.tokens = [] ∧ p.getLast? = some .vb))) ∧
      ∀ ts : List Token, ts.getLast? = some .vb ∨ ts.getLast? = some .eom → lastEventStart ts < ts.length := by
  refine ⟨fun p v e hp hv he => ⟨?_, lastEventStart_append_tokens hp hv he⟩, fun ts => lastEventStart_lt⟩
  rintro h ⟨rfl, hnil, hvb⟩
  -- nothing stands after the break, so going back goes into the voice before
  rw [List.append_nil, hnil, List.append_nil] at h
  have hlt := lastEventStart_lt (.inl hvb)
  omega

/-- Behind a voice break, a clef, a grace note and a note: the last note is found. -/
theorem lastEventStart_append_iff_graceNote :
    lastEventStart [.bom, .pitchC, .d4, .vb, .clefF, .grace, .pitchE, .d16, .pitchD, .sharp, .d8, .eom] = 8 := by
  let ornament : Event := { grace := true, chord := [{ letter := .pitchE }], duration := some { division := 4 } }
  let note : Event :=
    { chord := [{ letter := .pitchD, accidental := some .sharp }], duration := some { division := 3 } }
  let v : Voice := { terms := [.context { context := .clef .clefF }, .event ornament, .event note] }
  have hv : ∀ t ∈ v.terms, t.Notated := by
    have hlength (n : UInt8) (hn : n ≤ 8) : Duration.Canonical { division := n } := ⟨hn, fun t ht => by cases ht⟩
    intro t ht
    simp only [v, List.mem_cons, List.not_mem_nil, or_false] at ht
    rcases ht with rfl | rfl | rfl
    · rfl
    · exact ⟨by decide, by decide, _, rfl, hlength 4 (by decide)⟩
    · exact ⟨by decide, by decide, _, rfl, hlength 3 (by decide)⟩
  have h := (lastEventStart_append_iff.1 [.bom, .pitchC, .d4, .vb] v [.eom] (.inr rfl) hv (by decide)).2 (by decide)
  have hwritten : v.tokens = [.clefF, .grace, .pitchE, .d16, .pitchD, .sharp, .d8] := by decide
  have hbefore : v.beforeLastEvent.flatMap Term.tokens = [.clefF, .grace, .pitchE, .d16] := by decide
  rw [hwritten, hbefore] at h
  exact h

/-- Behind a voice break and nothing else, the last event of the voice before is found. -/
theorem not_forall_lastEventStart_append :
    ¬ ∀ (p : List Token) (v : Voice) (e : List Token),
      StartsVoice p → (∀ t ∈ v.terms, t.Notated) → e ∈ [[], [.vb], [.eom]] →
        lastEventStart (p ++ v.tokens ++ e) = p.length + (v.beforeLastEvent.flatMap Term.tokens).length := by
  intro h
  have hnil := h [.bom, .pitchC, .d4, .vb] {} [] (.inr rfl) (fun t ht => by cases ht) (by decide)
  have hone : lastEventStart [.bom, .pitchC, .d4, .vb] = 1 := by decide
  exact absurd (hone.symm.trans hnil) (by decide)

end Measure

end ScoreDecoding
