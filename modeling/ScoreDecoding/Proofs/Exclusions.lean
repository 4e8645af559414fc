import ScoreDecoding.Proofs.VoiceStart

/-!
# What a voice has excluded

A token that makes a voice too long is taken back and excluded until the guides are set anew. Only the closing of a beam
is ever admitted again in between, where the validator reports an open one. So a token that was taken back is not
sampled again in the voice.

Nor is it taken back again. Once a token was sampled after the guides were set, the validator has been asked about every
place of the sequence from there on where the measure may end, and what it answers to a text it answers again. Hence
what is taken back then has just been sampled.

- `Acts` are the three kinds of iterations that go on, and `Logs` is a run with what it did (`exists_logs`);
- `excludes_of_logs`: what is taken back stays excluded;
- `standing_of_logs`: what the validator has been asked about;
- `excluded_of_logs`: nothing that was taken back is sampled, and nothing that was sampled is taken back twice.
-/

namespace ScoreDecoding

/-- The validator reads no text in two ways. -/
def Collaborators.ReadsOneWay (K : Collaborators) : Prop :=
  ∀ text m n, K (.parse text) (.ok m) → K (.parse text) (.ok n) → m = n

namespace Sampler

/-! ## What a run does -/

/-- What an iteration that goes on does. -/
inductive Action
  /-- A token is sampled and appended. -/
  | sampled (x : Token)
  /-- The last token made the voice too long and is taken back. -/
  | takenBack (x : Token)
  /-- The guides are set anew. -/
  | restarted
  deriving DecidableEq

variable (c : Setting) (K : Collaborators)

/-- An iteration samples a token, whatever becomes of it. -/
def Tries (s : State) (x : Token) : Prop :=
  ∃ predictor last u v, s.tokens.getLast? = some last ∧ Consults c K s last (c.grammar.row last) (.ok u) ∧
    Draws c K u predictor (c.grammar.row last) x v

/-- What an iteration does, and the state that it leads to. -/
inductive Acts (s : State) : Action → State → Prop
  | sampled {predictor : Nat} {last x : Token} {u v : State} : s.tokens.getLast? = some last →
      Consults c K s last (c.grammar.row last) (.ok u) → Draws c K u predictor (c.grammar.row last) x v →
      x ≠ .vb → x ≠ .eom → Acts s (.sampled x) (push c v x)
  | takenBack {last : Token} {m : Measure} : s.tokens.getLast? = some last → .eom ∈ c.grammar.row last →
      K (.parse (Token.code s.tokens (some .eom))) (.ok m) → m.tail.isOverflowing = true →
      Acts s (.takenBack last) (takeBack s last m.tail)
  | restarted {t : State} : Restarts c K s t → Acts s .restarted t

/-- Iterations that go on, with what they do in order. -/
inductive Logs (s : State) : List Action → State → Prop
  | start : Logs s [] s
  | next {log : List Action} {a : Action} {t u : State} : Logs s log t → Acts c K t a u → Logs s (log ++ [a]) u

variable {c K} {s t u v : State} {log before stretch : List Action} {a : Action} {x last : Token} {row : TokenSet}
  {n : Nat}

/-- **An iteration that goes on does one of the three.** -/
theorem exists_acts (h : Iterates c K s (.next t)) : ∃ a, Acts c K s a t := by
  cases h with
  | consulted hl hc =>
    cases hc with
    | takenBack _ hrow hm ho => exact ⟨_, .takenBack hl hrow hm ho⟩
  | extended _ hl hc he =>
    cases he with
    | pushed hd _ hvb heom => exact ⟨_, .sampled hl hc hd hvb heom⟩
    | backtracked hd hx hi => exact ⟨_, .restarted (.backtracked hl hc hd hx hi)⟩
    | voiceEnded hd hi => exact ⟨_, .restarted (.voiceEnded hl hc hd hi)⟩

theorem exists_logs (h : Passes c K s t) : ∃ log, Logs c K s log t := by
  induction h with
  | refl => exact ⟨[], .start⟩
  | tail _ h ih =>
    obtain ⟨log, hlog⟩ := ih
    obtain ⟨a, ha⟩ := exists_acts (step_returns h)
    exact ⟨log ++ [a], hlog.next ha⟩

/-- A log may be taken apart anywhere. -/
theorem Logs.split (h : Logs c K s (before ++ stretch) t) : ∃ u, Logs c K s before u ∧ Logs c K u stretch t := by
  induction stretch using List.reverseRecOn generalizing t with
  | nil => exact ⟨t, by rwa [List.append_nil] at h, .start⟩
  | append_singleton stretch a ih =>
    rw [← List.append_assoc] at h
    generalize hlog : before ++ stretch ++ [a] = log at h
    cases h with
    | start => simp at hlog
    | next h ha =>
      obtain ⟨rfl, he⟩ := List.append_inj' hlog rfl
      cases he
      obtain ⟨u, hu, h⟩ := ih h
      exact ⟨u, hu, h.next ha⟩

/-- What holds at the start of a stretch without a restart, and is kept by what else is done, holds at its end. -/
theorem stretch_induction {I : List Action → State → Prop} (hs : I [] s)
    (next : ∀ log t a u, Logs c K s log t → .restarted ∉ log → I log t → Acts c K t a u → a ≠ .restarted →
      I (log ++ [a]) u)
    (h : Logs c K s log t) (hno : .restarted ∉ log) : I log t := by
  induction h with
  | start => exact hs
  | next h ha ih =>
    rw [List.mem_append, not_or, List.mem_singleton] at hno
    exact next _ _ _ _ h hno.1 (ih hno.1) ha (Ne.symm hno.2)

/-! ## What is excluded -/

/-- The validator lets a voice have nothing again but the closing of a beam. -/
theorem mem_voiceGuide_of_consults (h : Consults c K s last row (.ok u)) (hx : x ≠ .beamClose)
    (hu : x ∈ u.voiceGuide) : x ∈ s.voiceGuide := by
  cases h with
  | unguided => exact hu
  | followed =>
    unfold follow at hu
    dsimp only at hu
    split at hu
    · exact (TokenSet.mem_insert.1 hu).resolve_right hx
    · exact hu
  | deepened =>
    obtain ⟨guide, hguide⟩ := guardDivisions_eq (deepen s) row
    rw [hguide] at hu
    exact hu

/-- What is sampled is not excluded. -/
theorem Tries.mem_voiceGuide (h : Tries c K s x) (hx : x ≠ .beamClose) : x ∈ s.voiceGuide := by
  obtain ⟨predictor, last, u, v, -, hc, hd⟩ := h
  exact mem_voiceGuide_of_consults hc hx (mem_admissible.1 hd.mem).2.2.1

/-- What was taken back is excluded, unless it closes a beam. -/
def Excludes (log : List Action) (t : State) : Prop := ∀ x, x ≠ .beamClose → .takenBack x ∈ log → x ∉ t.voiceGuide

/-- What is excluded is not sampled. -/
theorem Excludes.not_tries (h : Excludes log t) (hx : x ≠ .beamClose) (ht : Tries c K t x) : .takenBack x ∉ log :=
  fun hmem => h x hx hmem (ht.mem_voiceGuide hx)

/-- What is excluded stays so, and what is taken back is excluded. -/
theorem Excludes.next (hs : Excludes log s) (h : Acts c K s a t) (ha : a ≠ .restarted) : Excludes (log ++ [a]) t := by
  intro x hx hmem
  cases h with
  | sampled _ hc hd =>
    obtain ⟨random, rfl⟩ := hd.eq
    have hback : .takenBack x ∈ log := by simpa using hmem
    exact fun hu => hs x hx hback (mem_voiceGuide_of_consults hc hx hu)
  | takenBack =>
    intro ht
    obtain ⟨hvoice, hne⟩ := TokenSet.mem_erase.1 ht
    have hback : .takenBack x ∈ log := by simpa [hne] using hmem
    exact hs x hx hback hvoice
  | restarted => exact absurd rfl ha

/-- **What a stretch of a run has taken back is excluded.** -/
theorem excludes_of_logs (h : Logs c K s log t) (hno : .restarted ∉ log) : Excludes log t :=
  stretch_induction (fun _ _ hx => absurd hx List.not_mem_nil) (fun _ _ _ _ _ _ ih => ih.next) h hno

/-! ## What the validator was asked about -/

variable (c K)

/-- No start of the sequence from a length on after which the measure may end is too long. -/
def HeardFrom (n : Nat) (ts : List Token) : Prop :=
  n ≤ ts.length ∧ ∀ us, us <+: ts → n ≤ us.length → c.grammar.MayEnd us →
    ∀ m, K (.parse (Token.code us (some .eom))) (.ok m) → m.tail.isOverflowing = false

/-- What is known of the sequence after some actions. -/
inductive Standing (log : List Action) (t : State) : Prop
  /-- Nothing was sampled yet. -/
  | unsampled : (∀ x, .sampled x ∉ log) → Standing log t
  /-- The last token has just been sampled, and was not taken back before. -/
  | sampled {x : Token} {n : Nat} : t.tokens.getLast? = some x → (x ≠ .beamClose → .takenBack x ∉ log) →
      HeardFrom c K n t.tokens.dropLast → Standing log t
  /-- Tokens were sampled and taken back. -/
  | heard {n : Nat} : HeardFrom c K n t.tokens → Standing log t

variable {c K}

section Answers

variable (hguide : c.options.parserGuide = true) (hK : K.ReadsOneWay)

include hguide hK

/-- Where a token is chosen, the sequence is not too long. -/
theorem isOverflowing_of_consults (hl : s.tokens.getLast? = some last)
    (h : Consults c K s last (c.grammar.row last) (.ok u)) (hend : c.grammar.MayEnd s.tokens) {m : Measure}
    (hm : K (.parse (Token.code s.tokens (some .eom))) (.ok m)) : m.tail.isOverflowing = false := by
  obtain ⟨last', hl', hrow⟩ := hend
  cases hl.symm.trans hl'
  obtain ⟨m', hm', ho, -⟩ := followed_of_consults hguide hrow h
  rwa [hK _ _ _ hm hm']

/-- What is known once a token is chosen. -/
theorem Standing.heardFrom (hs : Standing c K log s) (hl : s.tokens.getLast? = some last)
    (h : Consults c K s last (c.grammar.row last) (.ok u)) : ∃ n, HeardFrom c K n s.tokens := by
  have hall : ∀ us, us = s.tokens → c.grammar.MayEnd us → ∀ m, K (.parse (Token.code us (some .eom))) (.ok m) →
      m.tail.isOverflowing = false := by
    rintro us rfl hend m hm
    exact isOverflowing_of_consults hguide hK hl h hend hm
  cases hs with
  | unsampled =>
    exact ⟨s.tokens.length, le_rfl, fun us hus hlong => hall us (hus.eq_of_length_le hlong)⟩
  | sampled _ _ hheard =>
    refine ⟨_, hheard.1.trans (List.dropLast_sublist s.tokens).length_le, fun us hus hlong => ?_⟩
    rw [← List.dropLast_append_getLast? last hl, List.prefix_concat_iff] at hus
    rcases hus with hus | hus
    · exact hall us (hus.trans (List.dropLast_append_getLast? last hl))
    · exact hheard.2 us hus hlong
  | heard hheard => exact ⟨_, hheard⟩

/-- What is sampled, and what is taken back, leaves the sequence known. -/
theorem Standing.next (hs : Standing c K log s) (hlog : Excludes log s) (h : Acts c K s a t) (ha : a ≠ .restarted) :
    Standing c K (log ++ [a]) t := by
  cases h with
  | @sampled predictor last x u v hl hc hd =>
    obtain ⟨n, hheard⟩ := hs.heardFrom hguide hK hl hc
    have htokens : (push c v x).tokens = s.tokens ++ [x] := by rw [hd.tokens_push, tokens_of_consults hc]
    refine .sampled (x := x) (n := n) (by rw [htokens, List.getLast?_concat]) (fun hx hmem => ?_) ?_
    · have hback : .takenBack x ∈ log := by simpa using hmem
      exact hlog.not_tries hx ⟨predictor, last, u, v, hl, hc, hd⟩ hback
    · rwa [htokens, List.dropLast_concat]
  | takenBack hl hrow hm ho =>
    cases hs with
    | unsampled hno => exact .unsampled fun x => by simp [hno x]
    | sampled _ _ hheard => exact .heard hheard
    | heard hheard =>
      rw [hheard.2 s.tokens (List.prefix_refl _) hheard.1 ⟨_, hl, hrow⟩ _ hm] at ho
      cases ho
  | restarted => exact absurd rfl ha

/-- **What a stretch of a run has heard of its sequence.** -/
theorem standing_of_logs (h : Logs c K s log t) (hno : .restarted ∉ log) : Standing c K log t :=
  stretch_induction (.unsampled fun _ => List.not_mem_nil)
    (fun _ _ _ _ hlogs hno ih => ih.next hguide hK (excludes_of_logs hlogs hno)) h hno

/-- What was sampled in a stretch of a run was taken back once at most. -/
theorem count_le_one_of_logs (h : Logs c K s log t) (hno : .restarted ∉ log) (hx : x ≠ .beamClose) :
    .sampled x ∈ log → log.count (.takenBack x) ≤ 1 := by
  refine stretch_induction (I := fun log _ => .sampled x ∈ log → log.count (.takenBack x) ≤ 1)
    (fun hmem => absurd hmem List.not_mem_nil) (fun log t a u hlogs hno ih ha hrestart hmem => ?_) h hno
  rw [List.count_append]
  cases ha with
  | @sampled predictor last y u v hl hc hd =>
    rw [List.count_singleton, if_neg (by simp), Nat.add_zero]
    rcases List.mem_append.1 hmem with hmem | hmem
    · exact ih hmem
    · obtain rfl : x = y := by simpa using hmem
      have hback := (excludes_of_logs hlogs hno).not_tries hx ⟨predictor, last, u, v, hl, hc, hd⟩
      exact (List.count_eq_zero.2 hback).trans_le (Nat.zero_le 1)
  | @takenBack y m hl hrow hm ho =>
    have hmem : .sampled x ∈ log := by simpa using hmem
    rcases eq_or_ne y x with rfl | hne
    · -- it is the token that has just been sampled, for the first time since the restart
      have hback : .takenBack y ∉ log := by
        cases standing_of_logs hguide hK hlogs hno with
        | unsampled hnone => exact absurd hmem (hnone y)
        | sampled hl' hback =>
          cases hl'.symm.trans hl
          exact hback hx
        | heard hheard =>
          rw [hheard.2 t.tokens (List.prefix_refl _) hheard.1 ⟨_, hl, hrow⟩ _ hm] at ho
          cases ho
      rw [List.count_eq_zero.2 hback, List.count_singleton_self]
    · rw [List.count_singleton, if_neg (by simpa using hne), Nat.add_zero]
      exact ih hmem
  | restarted => exact absurd rfl hrestart

end Answers

/-- **A token that makes a voice too long is not tried again** until the guides are set anew. Every run has a log. After
a stretch of it without a restart, no token that was taken back in it is sampled, and none that was sampled has been
taken back twice, given a validator that reads no text in two ways; the closing of a beam apart. -/
theorem excluded_of_logs (hguide : c.options.parserGuide = true) :
    (∀ t, Passes c K s t → ∃ log, Logs c K s log t) ∧
      ∀ t before stretch, Logs c K s (before ++ stretch) t → .restarted ∉ stretch → ∀ x, x ≠ .beamClose →
        (.takenBack x ∈ stretch → ¬ Tries c K t x) ∧
          (K.ReadsOneWay → .sampled x ∈ stretch ∨ Tries c K t x → stretch.count (.takenBack x) ≤ 1) := by
  refine ⟨fun t => exists_logs, fun t before stretch h hno x hx => ?_⟩
  obtain ⟨u, -, h⟩ := h.split
  have hback (ht : Tries c K t x) : .takenBack x ∉ stretch := (excludes_of_logs h hno).not_tries hx ht
  refine ⟨fun hmem ht => hback ht hmem, fun hK => ?_⟩
  rintro (hmem | ht)
  · exact count_le_one_of_logs hguide hK h hno hx hmem
  · exact (List.count_eq_zero.2 (hback ht)).trans_le (Nat.zero_le 1)

/-- One note, of two lengths. -/
def twoLengths : Setting where
  grammar := .ofSentences [[.bom, .pitchC, .d4, .eom], [.bom, .pitchC, .d8, .eom]]
  options := { temperature := 0 }

/-- A validator for which the longer note is too long, and a predictor that likes it best. -/
def longNoteAnswer : (q : Query) → q.Answer
  | .predict .. => .ok (Token.all.map fun t => if t = .d4 then 9 else if t = .d8 then 5 else 0).toArray
  | .parse text => .ok { tail := { filling := some (if text == "BOM c D4 EOM" then 1 else 0) } }

/-- The state before the length of the note. -/
def openNote : State where
  tokens := [.bom, .pitchC]
  cursor := .start [64] 2
  guide := twoLengths.initialGuide
  masker := none
  random := .ofSeed 1

/-- The state in which that length is chosen. -/
def lengthGuarded (s : State) : State := guardDivisions (deepen s) (twoLengths.grammar.row .pitchC)

/-- The state after the longer length was taken back. -/
def longNoteTakenBack : State :=
  takeBack (push twoLengths (countStep (lengthGuarded openNote)) .d4) .d4 { filling := some 1 }

/-- A length is sampled and taken back. The next iteration samples the other one. -/
theorem excluded_of_logs_longNote :
    Logs twoLengths (.exactly longNoteAnswer) openNote [.sampled .d4, .takenBack .d4] longNoteTakenBack ∧
      Tries twoLengths (.exactly longNoteAnswer) longNoteTakenBack .d8 ∧
      ¬ Tries twoLengths (.exactly longNoteAnswer) longNoteTakenBack .d4 ∧
      [Action.sampled .d4, .takenBack .d4].count (.takenBack .d4) ≤ 1 := by
  have hK : (Collaborators.exactly longNoteAnswer).ReadsOneWay := by
    intro text m n hm hn
    exact Except.ok.inj (hm.trans hn.symm)
  have hrow : .eom ∉ twoLengths.grammar.row .pitchC := by decide +kernel
  have hlong : Draws twoLengths (.exactly longNoteAnswer) (lengthGuarded openNote) 0 (twoLengths.grammar.row .pitchC)
      .d4 _ := draws_of_argmax (by decide) rfl (by decide) (by decide +kernel)
  have hshort : Draws twoLengths (.exactly longNoteAnswer) (lengthGuarded longNoteTakenBack) 0
      (twoLengths.grammar.row .pitchC) .d8 _ := draws_of_argmax (by decide) rfl (by decide) (by decide +kernel)
  have hsampled : Acts twoLengths (.exactly longNoteAnswer) openNote (.sampled .d4) _ :=
    .sampled rfl (.deepened rfl hrow (by decide)) hlong (by decide) (by decide)
  have hback : Acts twoLengths (.exactly longNoteAnswer) _ (.takenBack .d4) longNoteTakenBack :=
    .takenBack (m := { tail := { filling := some 1 } }) rfl (by decide +kernel) rfl (by decide)
  have hlogs : Logs twoLengths (.exactly longNoteAnswer) openNote ([] ++ [.sampled .d4, .takenBack .d4])
      longNoteTakenBack := (Logs.start.next hsampled).next hback
  have h := (excluded_of_logs rfl).2 longNoteTakenBack [] _ hlogs (by decide) .d4 (by decide)
  exact ⟨hlogs, ⟨_, _, _, _, rfl, .deepened rfl hrow (by decide), hshort⟩, h.1 (by decide), h.2 hK (.inl (by decide))⟩

end Sampler

end ScoreDecoding
