import ScoreDecoding.Proofs.ForcedClose
import ScoreDecoding.Proofs.VoiceBreaks

/-!
# Notes in full voices

Where the measure may end and the voice is full, the guide admits no notes, and it is kept up to the next such place or
the next voice. There is one way around it: a voice break that is written in between sets the guide of a new voice, and
if it makes the measure too long it is taken back, but the guide is not.

- `FullStretch` is a full voice with what was written after it while the measure may not end;
- `BreakTakenBack` is a voice break that was written after a sequence and taken back, and `Reopened` says that this has
  happened within a stretch;
- `moves_of_iterates` is what an iteration does to the sequence and to the guide;
- `mem_guide_iff_reopened`: exactly when the guide admits a note within a stretch;
- `not_addsNote_of_full`: none is written there if the measure may not end directly after voice breaks;
- `reopened_of_note`: every note of a result that stands there comes from such a voice break, and both of the above.
-/

namespace ScoreDecoding

/-- The validator reads the sequence and finds its last voice full, with no unfinished timewarp. -/
def Validation.IsFull (validator : String → Except String Measure) (ts : List Token) : Prop :=
  ∃ m, validator (Token.code ts none) = .ok m ∧ m.tail.isFull = true ∧ m.tail.incompleteTimeWarping = false

/-- Pitch letters, stems, dots, grace notes and tremolos on two notes. -/
def AddsNote (t : Token) : Prop := t.group ∈ [.letter, .stem, .tremoloCast] ∨ t ∈ [Token.dot, .grace]

instance : DecidablePred AddsNote := fun _ => inferInstanceAs (Decidable (_ ∨ _))

variable {t u : Token}

theorem AddsNote.lengthens (h : AddsNote t) : Guide.Lengthens t := by
  unfold AddsNote at h
  unfold Guide.Lengthens
  simp only [List.mem_cons, List.not_mem_nil, or_false] at h ⊢
  tauto

theorem AddsNote.ne (h : AddsNote t) (hu : ¬ AddsNote u) : t ≠ u := fun he => hu (he ▸ h)

theorem AddsNote.group_ne (h : AddsNote t) : t.group ≠ .division ∧ t.group ≠ .staff := by
  unfold AddsNote at h
  simp only [List.mem_cons, List.not_mem_nil, or_false] at h
  rcases h with (h | h | h) | rfl | rfl
  · simp [h]
  · simp [h]
  · simp [h]
  · decide
  · decide

/-- A new voice takes notes. -/
theorem AddsNote.mem_initial {limit : Option UInt8} (h : AddsNote t) : t ∈ Guide.initial limit :=
  Guide.mem_initial.2 ⟨h.ne (by decide), h.ne (by decide), fun _ _ => Guide.not_mem_stavesAbove h.group_ne.2⟩

namespace Sampler

open Validation (IsFull Overflows)

variable {c : Setting} {validator : String → Except String Measure} {s t u start : State} {ts p w w₁ : List Token}
  {x last : Token} {capacities : List Nat} {masker : Option Masker} {random : Random}

/-! ## Stretches -/

/-- A full voice after which the measure may end, and what was written since while it may not. -/
structure FullStretch (g : Grammar) (validator : String → Except String Measure) (p w : List Token) : Prop where
  mayEnd : g.MayEnd p
  full : IsFull validator (p ++ [.eom])
  waits : ∀ y ∈ w, y ≠ .vb ∧ g.allows y .eom = false

variable {g : Grammar}

theorem FullStretch.of_prefix {w' : List Token} (h : FullStretch g validator p w) (hw : w' <+: w) :
    FullStretch g validator p w' :=
  ⟨h.mayEnd, h.full, fun y hy => h.waits y (hw.subset hy)⟩

/-- Within a stretch the measure may not end. -/
theorem FullStretch.not_mayEnd (h : FullStretch g validator p w) (hw : w ≠ []) : ¬ g.MayEnd (p ++ w) := by
  rintro ⟨y, hy, hend⟩
  rw [List.getLast?_append_of_ne_nil _ hw] at hy
  rw [(h.waits y (List.mem_of_getLast? hy)).2] at hend
  cases hend

/-- A stretch that ends with a token goes on from the stretch before it. -/
theorem FullStretch.of_concat (h : FullStretch g validator p w) (hw : w ≠ []) (he : ts ++ [x] = p ++ w) :
    x ≠ .vb ∧ ∃ w', w = w' ++ [x] ∧ ts = p ++ w' ∧ FullStretch g validator p w' := by
  obtain ⟨w', y, rfl⟩ := (List.eq_nil_or_concat w).resolve_left hw
  rw [List.concat_eq_append] at h he ⊢
  rw [← List.append_assoc] at he
  obtain ⟨rfl, hxy⟩ := List.append_inj' he rfl
  cases hxy
  exact ⟨(h.waits x (List.mem_append_right _ List.mem_cons_self)).1, w', rfl, rfl,
    h.of_prefix (List.prefix_append w' [x])⟩

/-! ## One iteration -/

/-- A guide under which a token is chosen. In a full voice it admits no notes, and where the measure may not end it
admits the same notes as the guide before. -/
structure Carries (c : Setting) (validator : String → Except String Measure) (s : State) (guide : TokenSet) : Prop where
  full : c.grammar.MayEnd s.tokens → IsFull validator (s.tokens ++ [.eom]) → ∀ y, AddsNote y → y ∉ guide
  same : ¬ c.grammar.MayEnd s.tokens → ∀ y, AddsNote y → (y ∈ guide ↔ y ∈ s.guide)

/-- What an iteration that goes on does to the sequence and to the guide. -/
inductive Moves (c : Setting) (validator : String → Except String Measure) (s t : State) : Prop
  | takenBack {last : Token} : s.tokens = t.tokens ++ [last] → c.grammar.MayEnd s.tokens →
      Overflows validator (s.tokens ++ [.eom]) → t.guide = s.guide → Moves c validator s t
  | pushed {x : Token} : t.tokens = s.tokens ++ [x] → x ≠ .vb → x ∈ t.guide → Carries c validator s t.guide →
      Moves c validator s t
  | voiceEnded : t.tokens = s.tokens ++ [.vb] → t.guide = c.initialGuide → Moves c validator s t

/-- What is left when a token is taken back is not taken back in turn. -/
theorem Heeded.not_overflows (h : Heeded validator g s) (hs : s.tokens = ts ++ [x]) (hmay : g.MayEnd ts) :
    ¬ Overflows validator (ts ++ [.eom]) := by
  have hfits := h.fits
  rw [hs, List.dropLast_concat] at hfits
  exact hfits ts (List.prefix_refl ts) hmay

theorem carries_of_consults (hguide : c.options.parserGuide = true) (hl : s.tokens.getLast? = some last)
    (h : Consults c (.validating validator) s last (c.grammar.row last) (.ok u)) : Carries c validator s u.guide := by
  by_cases hrow : .eom ∈ c.grammar.row last
  · obtain ⟨m, hm, -, rfl⟩ := followed_of_consults hguide hrow h
    refine ⟨?_, fun hno => absurd ⟨last, hl, hrow⟩ hno⟩
    rintro - ⟨n, hn, hfull, hcomplete⟩ y hy hmem
    rw [Validation.validating_parse_iff.1 hm] at hn
    cases hn
    have hallowed := (Guide.mem_ofStatus.1 (mem_follow.1 hmem).1).2.2 hfull
    rw [hcomplete, if_neg Bool.false_ne_true] at hallowed
    exact hallowed hy.lengthens
  · have hno : ¬ c.grammar.MayEnd s.tokens := by
      rintro ⟨last', hl', hend⟩
      obtain rfl := Option.some.inj (hl.symm.trans hl')
      exact hrow hend
    refine ⟨fun hmay => absurd hmay hno, fun _ y hy => ?_⟩
    cases h with
    | unguided => rfl
    | followed _ hrow' => exact absurd hrow' hrow
    | deepened => exact mem_guardDivisions hy.group_ne.1

/-! ## Voice breaks that are taken back -/

/-- Iterations that keep a start of the sequence. -/
abbrev Keeps (c : Setting) (K : Collaborators) (ts : List Token) : State → State → Prop :=
  Relation.ReflTransGen fun s t => (step c s).ReturnsWith K (.next t) ∧ ts <+: t.tokens

/-- After a sequence a voice break was written. It made the measure too long and was taken back, and the sequence has
stood there ever since. -/
inductive BreakTakenBack (c : Setting) (validator : String → Except String Measure) (start t : State)
    (ts : List Token) : Prop
  | mk {u v : State} : Passes c (.validating validator) start u → u.tokens = ts ++ [.vb] → c.grammar.MayEnd u.tokens →
      Overflows validator (u.tokens ++ [.eom]) → (step c u).ReturnsWith (.validating validator) (.next v) →
      v.tokens = ts → Keeps c (.validating validator) ts v t → BreakTakenBack c validator start t ts

/-- This has happened within a stretch. -/
def Reopened (c : Setting) (validator : String → Except String Measure) (start t : State) (p w : List Token) : Prop :=
  ∃ w₁ w₂, w = w₁ ++ w₂ ∧ w₁ ≠ [] ∧ BreakTakenBack c validator start t (p ++ w₁)

/-- It is known for as long as the stretch stays. -/
theorem Reopened.step (h : Reopened c validator start s p w)
    (hs : (step c s).ReturnsWith (.validating validator) (.next t)) (hp : p ++ w <+: t.tokens) :
    Reopened c validator start t p w := by
  obtain ⟨w₁, w₂, rfl, hw, ⟨hu, htokens, hmay, hlong, hv, hts, hkeeps⟩⟩ := h
  have hleft : p ++ w₁ <+: t.tokens := by
    rw [← List.append_assoc] at hp
    exact (List.prefix_append _ w₂).trans hp
  exact ⟨w₁, w₂, rfl, hw, .mk hu htokens hmay hlong hv hts (hkeeps.tail ⟨hs, hleft⟩)⟩

theorem Reopened.append (h : Reopened c validator start s p w) (w' : List Token) :
    Reopened c validator start s p (w ++ w') := by
  obtain ⟨w₁, w₂, rfl, hw, hback⟩ := h
  exact ⟨w₁, w₂ ++ w', List.append_assoc w₁ w₂ w', hw, hback⟩

/-- If a guide admits a note within a stretch, a voice break was taken back there. -/
def Tracks (c : Setting) (validator : String → Except String Measure) (start s : State) (ts : List Token) : Prop :=
  ∀ p w, ts = p ++ w → FullStretch c.grammar validator p w → w ≠ [] → ∀ x, AddsNote x → x ∈ s.guide →
    Reopened c validator start s p w

/-- A token that is chosen is admitted by the guide that was there before, unless the voice is full just now. -/
theorem reopened_of_carries {guide : TokenSet} (htracks : Tracks c validator start s s.tokens)
    (hcarries : Carries c validator s guide) (hts : s.tokens = p ++ w) (h : FullStretch c.grammar validator p w)
    (hx : AddsNote x) (hmem : x ∈ guide) : Reopened c validator start s p w := by
  by_cases hw : w = []
  · rw [hw, List.append_nil] at hts
    exact absurd hmem (hcarries.full (hts ▸ h.mayEnd) (hts ▸ h.full) x hx)
  · have hno : ¬ c.grammar.MayEnd s.tokens := hts ▸ h.not_mayEnd hw
    exact htracks p w hts h hw x hx ((hcarries.same hno x hx).1 hmem)

/-- What is known of the states of a run. A token that makes the measure too long is about to be taken back, and then
the sequence before it comes under the guide. -/
structure Guarded (c : Setting) (validator : String → Except String Measure) (start s : State) : Prop where
  passes : Passes c (.validating validator) start s
  heeded : Heeded validator c.grammar s
  tracks : Tracks c validator start s s.tokens
  behind : s.tokens.getLast? ≠ some .vb → c.grammar.MayEnd s.tokens → Overflows validator (s.tokens ++ [.eom]) →
    Tracks c validator start s s.tokens.dropLast

/-- Within a stretch that goes on from `p ++ w₁`, a guide admits all notes. -/
def AdmitsFrom (c : Setting) (validator : String → Except String Measure) (p w₁ : List Token) (guide : TokenSet)
    (ts : List Token) : Prop :=
  ∀ w, w₁ <+: w → ts = p ++ w → FullStretch c.grammar validator p w → ∀ x, AddsNote x → x ∈ guide

/-- This holds of the sequence, and of what is left of one that is about to be taken back. -/
structure Admits (c : Setting) (validator : String → Except String Measure) (p w₁ : List Token) (s : State) : Prop where
  here : AdmitsFrom c validator p w₁ s.guide s.tokens
  behind : c.grammar.MayEnd s.tokens → Overflows validator (s.tokens ++ [.eom]) →
    AdmitsFrom c validator p w₁ s.guide s.tokens.dropLast

theorem guarded_initialState (hstart : c.options.start = [.bom]) :
    Guarded c validator (initialState c capacities masker random) (initialState c capacities masker random) := by
  have htokens : (initialState c capacities masker random).tokens = [.bom] := hstart
  -- there is no room for anything after a full voice
  have hshort : ∀ {s : State} {ts : List Token}, ts.length ≤ 1 → Tracks c validator s s ts := by
    rintro s _ hlen p w rfl ⟨⟨last, hl, -⟩, -, -⟩ hw
    have hp := List.length_pos_of_mem (List.mem_of_getLast? hl)
    have hw := List.length_pos_iff.2 hw
    rw [List.length_append] at hlen
    omega
  refine ⟨.refl, ⟨rfl, ?_⟩, hshort ?_, fun _ _ _ => hshort ?_⟩
  · rw [htokens]
    exact fits_nil
  · rw [htokens]
    exact Nat.le_refl 1
  · rw [htokens]
    exact Nat.zero_le 1

/-! ## What an iteration keeps -/

section Steps

variable (hguide : c.options.parserGuide = true)
  (hbeam : ∀ text m, validator text = .ok m → m.tail.beamOpen = false)
  (hwarp : ∀ text m, validator text = .ok m → m.tail.invalidTimewarp = false)

include hguide hbeam hwarp

/-- Where the validator finds all timewarps sound, an iteration that goes on takes back a token that made the measure
too long, or writes one. -/
theorem moves_of_iterates (hs : Closed s) (h : Iterates c (.validating validator) s (.next t)) :
    Moves c validator s t := by
  have hK := noBeams_validating hbeam
  cases h with
  | consulted hl hc =>
    cases hc with
    | takenBack _ hrow hm hlong =>
      exact .takenBack (List.dropLast_append_getLast? _ hl).symm ⟨_, hl, hrow⟩
        ((Validation.overflows_iff_of_parse hm).2 hlong) rfl
  | extended _ hl hc he =>
    have hcarries := carries_of_consults hguide hl hc
    have hclosed := closed_of_consults hK hs hc
    cases he with
    | pushed hd _ hvb =>
      refine .pushed (tokens_of_consults hc ▸ hd.tokens_push) hvb ?_ ?_
      · obtain ⟨random, rfl⟩ := hd.eq
        exact hd.admits.2
      · obtain ⟨random, rfl⟩ := hd.eq
        exact hcarries
    | backtracked _ _ hi =>
      obtain ⟨m, hm, hbroken⟩ := Validation.isTimewarpInvalid_returns_ok.1 hi
      rw [hwarp _ _ hm.symm] at hbroken
      cases hbroken
    | voiceEnded hd => exact .voiceEnded (tokens_of_consults hc ▸ tokens_tidy_of_closed hd hclosed) rfl

/-- **What is known of a state is known of the next one.** -/
theorem guarded_of_step (hs : Guarded c validator start s)
    (h : (step c s).ReturnsWith (.validating validator) (.next t)) : Guarded c validator start t := by
  obtain ⟨hpasses, hheeded, htracks, hbehind⟩ := hs
  have hnext := heeded_of_iterates hguide hbeam hheeded (step_returns h)
  cases moves_of_iterates hguide hbeam hwarp hheeded.closed (step_returns h) with
  | @takenBack last htokens hmay hlong hg =>
    refine ⟨hpasses.tail h, hnext, ?_, fun _ hmay hlong => absurd hlong (hheeded.not_overflows htokens hmay)⟩
    rintro p w hpw hfull hw x hx hmem
    by_cases hlast : last = .vb
    · subst hlast
      exact ⟨w, [], (List.append_nil w).symm, hw, .mk hpasses (hpw ▸ htokens) hmay hlong h hpw .refl⟩
    · have hne : s.tokens.getLast? ≠ some .vb := by
        rw [htokens, List.getLast?_concat]
        exact fun he => hlast (Option.some.inj he)
      have hinit : s.tokens.dropLast = p ++ w := by rw [htokens, List.dropLast_concat, hpw]
      exact (hbehind hne hmay hlong p w hinit hfull hw x hx (hg ▸ hmem)).step h (hpw ▸ List.prefix_refl _)
  | @pushed y htokens hvb _ hcarries =>
    -- the token that was written is held against the same guide as the one that comes next
    have hkept : ∀ p w, s.tokens = p ++ w → FullStretch c.grammar validator p w → ∀ x, AddsNote x → x ∈ t.guide →
        Reopened c validator start t p w := by
      intro p w hpw hfull x hx hmem
      have hleft : p ++ w <+: t.tokens := hpw ▸ ⟨[y], htokens.symm⟩
      exact (reopened_of_carries htracks hcarries hpw hfull hx hmem).step h hleft
    refine ⟨hpasses.tail h, hnext, ?_, fun _ _ _ => ?_⟩
    · rintro p w hpw hfull hw x hx hmem
      obtain ⟨-, w', rfl, hpw, hfull⟩ := hfull.of_concat hw (htokens ▸ hpw)
      exact (hkept p w' hpw hfull x hx hmem).append [y]
    · rw [htokens, List.dropLast_concat]
      exact fun p w hpw hfull _ => hkept p w hpw hfull
  | voiceEnded htokens hg =>
    refine ⟨hpasses.tail h, hnext, ?_, fun hvb => ?_⟩
    · rintro p w hpw hfull hw
      exact absurd rfl (hfull.of_concat hw (htokens ▸ hpw)).1
    · rw [htokens, List.getLast?_concat] at hvb
      exact absurd rfl hvb

/-- A guide that admits all notes within a stretch does so for as long as the stretch goes on. -/
theorem admits_of_step (hs : Guarded c validator start s) (hne : w₁ ≠ []) (hleft : p ++ w₁ <+: s.tokens)
    (ha : Admits c validator p w₁ s) (h : (step c s).ReturnsWith (.validating validator) (.next t)) :
    Admits c validator p w₁ t := by
  cases moves_of_iterates hguide hbeam hwarp hs.heeded.closed (step_returns h) with
  | takenBack htokens hmay hlong hg =>
    constructor
    · rw [hg]
      have hbehind := ha.behind hmay hlong
      rwa [htokens, List.dropLast_concat] at hbehind
    · intro hmay hlong
      exact absurd hlong (hs.heeded.not_overflows htokens hmay)
  | pushed htokens hvb hmem hcarries =>
    have hkept : ∀ w, s.tokens = p ++ w → FullStretch c.grammar validator p w → ∀ x, AddsNote x → x ∈ t.guide := by
      intro w hpw hfull x hx
      have hw : w₁ <+: w := (List.prefix_append_right_inj p).1 (hpw ▸ hleft)
      have hw' : w ≠ [] := hw.ne_nil hne
      have hno : ¬ c.grammar.MayEnd s.tokens := hpw ▸ hfull.not_mayEnd hw'
      exact (hcarries.same hno x hx).2 (ha.here w hw hpw hfull x hx)
    constructor
    · intro w hw hpw hfull
      have hw' : w ≠ [] := hw.ne_nil hne
      obtain ⟨-, w', -, hpw, hfull⟩ := hfull.of_concat hw' (htokens ▸ hpw)
      exact hkept w' hpw hfull
    · intro _ _ w _ hpw hfull
      rw [htokens, List.dropLast_concat] at hpw
      exact hkept w hpw hfull
  | voiceEnded _ hg =>
    have hall : ∀ x, AddsNote x → x ∈ t.guide := fun x hx => hg ▸ hx.mem_initial
    exact ⟨fun _ _ _ _ => hall, fun _ _ _ _ _ _ => hall⟩

end Steps

/-! ## Notes of a sequence -/

/-- Every note of a sequence that stands in a full voice, before the measure may end again, comes from a voice break
that was taken back. -/
def NotesReopened (c : Setting) (validator : String → Except String Measure) (start s : State) (ts : List Token) :
    Prop :=
  ∀ p w x rest, ts = p ++ w ++ x :: rest → FullStretch c.grammar validator p w → AddsNote x →
    Reopened c validator start s p w

theorem NotesReopened.of_prefix {us : List Token} (h : NotesReopened c validator start s ts) (hus : us <+: ts) :
    NotesReopened c validator start s us := by
  rintro p w x rest rfl
  obtain ⟨more, rfl⟩ := hus
  exact h p w x (rest ++ more) (by simp)

theorem notesReopened_concat :
    NotesReopened c validator start s (ts ++ [x]) ↔
      NotesReopened c validator start s ts ∧ ∀ p w, ts = p ++ w → FullStretch c.grammar validator p w → AddsNote x →
        Reopened c validator start s p w := by
  constructor
  · intro h
    exact ⟨h.of_prefix (List.prefix_append ts [x]), fun p w hts => h p w x [] (by rw [hts])⟩
  · rintro ⟨hts, hx⟩ p w y rest he
    rcases concat_eq_append_cons_iff.1 he with ⟨-, hpw, rfl⟩ | ⟨rest, -, hpw⟩
    · exact hx p w hpw
    · exact hts p w y rest hpw

theorem NotesReopened.step (h : NotesReopened c validator start s ts)
    (hs : (step c s).ReturnsWith (.validating validator) (.next t)) (hts : ts <+: t.tokens) :
    NotesReopened c validator start t ts := by
  rintro p w x rest rfl hfull hx
  exact (h p w x rest rfl hfull hx).step hs ((List.prefix_append _ _).trans hts)

/-! ## Runs -/

section Runs

variable (hguide : c.options.parserGuide = true) (hstart : c.options.start = [.bom])
  (hbeam : ∀ text m, validator text = .ok m → m.tail.beamOpen = false)
  (hwarp : ∀ text m, validator text = .ok m → m.tail.invalidTimewarp = false)

include hguide hstart hbeam hwarp

theorem guarded_of_passes (h : Passes c (.validating validator) (initialState c capacities masker random) s) :
    Guarded c validator (initialState c capacities masker random) s := by
  induction h with
  | refl => exact guarded_initialState hstart
  | tail _ h ih => exact guarded_of_step hguide hbeam hwarp ih h

/-- A voice break that is about to be taken back has just been written. -/
theorem guide_of_overflowing_break (h : Passes c (.validating validator) (initialState c capacities masker random) u)
    (hl : u.tokens = ts ++ [.vb]) (hmay : c.grammar.MayEnd u.tokens)
    (hlong : Overflows validator (u.tokens ++ [.eom])) : u.guide = c.initialGuide := by
  rcases Relation.ReflTransGen.cases_tail h with rfl | ⟨s, hs, h⟩
  · rfl
  · have hheeded := (guarded_of_passes hguide hstart hbeam hwarp hs).heeded
    cases moves_of_iterates hguide hbeam hwarp hheeded.closed (step_returns h) with
    | takenBack htokens => exact absurd hlong (hheeded.not_overflows htokens hmay)
    | pushed htokens hvb =>
      rw [hl] at htokens
      exact absurd (List.append_inj' htokens rfl).2 (by simpa using hvb.symm)
    | voiceEnded _ hg => exact hg

/-- When it is taken back its guide stays, for as long as the sequence before it stands and the measure may not end. -/
theorem admits_of_breakTakenBack (hw₁ : w₁ ≠ []) (hfull : FullStretch c.grammar validator p w₁)
    (h : BreakTakenBack c validator (initialState c capacities masker random) s (p ++ w₁)) :
    Admits c validator p w₁ s := by
  obtain @⟨u, v, hu, htokens, hmay, hlong, hv, hleft, hkeeps⟩ := h
  have hguard := guarded_of_passes hguide hstart hbeam hwarp hu
  have hg : v.guide = c.initialGuide := by
    rw [← guide_of_overflowing_break hguide hstart hbeam hwarp hu htokens hmay hlong]
    cases moves_of_iterates hguide hbeam hwarp hguard.heeded.closed (step_returns hv) with
    | takenBack _ _ _ hg => exact hg
    | pushed hlonger => simp [hleft, htokens] at hlonger
    | voiceEnded hlonger => simp [hleft, htokens] at hlonger
  have hno : ¬ c.grammar.MayEnd v.tokens := hleft ▸ hfull.not_mayEnd hw₁
  have hfirst : Admits c validator p w₁ v :=
    ⟨fun _ _ _ _ x hx => hg ▸ hx.mem_initial, fun hmay => absurd hmay hno⟩
  suffices hall : Passes c (.validating validator) (initialState c capacities masker random) s ∧
      p ++ w₁ <+: s.tokens ∧ Admits c validator p w₁ s from hall.2.2
  induction hkeeps with
  | refl => exact ⟨hu.tail hv, hleft ▸ List.prefix_refl _, hfirst⟩
  | tail _ hs ih =>
    obtain ⟨hpasses, hprefix, hadmits⟩ := ih
    have hguarded := guarded_of_passes hguide hstart hbeam hwarp hpasses
    exact ⟨hpasses.tail hs.1, hs.2, admits_of_step hguide hbeam hwarp hguarded hw₁ hprefix hadmits hs.1⟩

/-- **Exactly when a guide admits a note within a stretch**: a voice break was written and taken back there. -/
theorem mem_guide_iff_reopened (h : Passes c (.validating validator) (initialState c capacities masker random) s)
    (hts : s.tokens = p ++ w) (hfull : FullStretch c.grammar validator p w) (hw : w ≠ []) (hx : AddsNote x) :
    x ∈ s.guide ↔ Reopened c validator (initialState c capacities masker random) s p w := by
  constructor
  · exact (guarded_of_passes hguide hstart hbeam hwarp h).tracks p w hts hfull hw x hx
  · rintro ⟨w₁, w₂, rfl, hw₁, hback⟩
    have hprefix := List.prefix_append w₁ w₂
    have hadmits := admits_of_breakTakenBack hguide hstart hbeam hwarp hw₁ (hfull.of_prefix hprefix) hback
    exact hadmits.here (w₁ ++ w₂) hprefix hts hfull x hx

/-! ## Results -/

theorem notesReopened_of_passes (h : Passes c (.validating validator) (initialState c capacities masker random) s) :
    NotesReopened c validator (initialState c capacities masker random) s s.tokens := by
  induction h with
  | refl =>
    rintro p w x rest he ⟨⟨last, hl, -⟩, -, -⟩
    have hlen := congrArg List.length (he.symm.trans hstart)
    have hp := List.length_pos_of_mem (List.mem_of_getLast? hl)
    simp only [List.length_append, List.length_cons, List.length_nil] at hlen
    omega
  | @tail s t hs h ih =>
    have hguarded := guarded_of_passes hguide hstart hbeam hwarp hs
    cases moves_of_iterates hguide hbeam hwarp hguarded.heeded.closed (step_returns h) with
    | takenBack htokens => exact (ih.of_prefix ⟨_, htokens.symm⟩).step h (List.prefix_refl _)
    | @pushed y htokens _ hmem hcarries =>
      have hleft : s.tokens <+: t.tokens := ⟨[y], htokens.symm⟩
      rw [htokens]
      refine notesReopened_concat.2 ⟨ih.step h hleft, fun p w hpw hfull hy => ?_⟩
      exact (reopened_of_carries hguarded.tracks hcarries hpw hfull hy hmem).step h (hpw ▸ hleft)
    | voiceEnded htokens =>
      have hleft : s.tokens <+: t.tokens := ⟨[.vb], htokens.symm⟩
      rw [htokens]
      exact notesReopened_concat.2 ⟨ih.step h hleft, fun _ _ _ _ hvb => absurd hvb (by decide)⟩

variable {r : Run}

/-- The last iteration writes nothing but the end of the measure. -/
theorem notesReopened_of_ends (h : Ends c (.validating validator) capacities masker random u r)
    (hok : r.result = .ok ts) : NotesReopened c validator (initialState c capacities masker random) u ts := by
  obtain ⟨hno, rfl⟩ := result_eq_ok_iff.1 hok
  have hclosed := (guarded_of_passes hguide hstart hbeam hwarp h.passes).heeded.closed
  have hall := notesReopened_of_passes hguide hstart hbeam hwarp h.passes
  obtain ⟨t, ho, ht⟩ := h.iterates
  obtain ⟨us, hus, hend⟩ := prefix_of_stop (noBeams_validating hbeam) hclosed ho hno
  have hleft := hall.of_prefix hus
  rw [ht]
  rcases hend with he | he
  · rw [he]
    exact hleft
  · rw [he]
    exact notesReopened_concat.2 ⟨hleft, fun _ _ _ _ heom => absurd heom (by decide)⟩

/-- Where the measure may not end directly after a voice break, a full voice takes no more notes. -/
theorem not_addsNote_of_full (hvb : c.grammar.allows .vb .eom = false)
    (h : (sample c capacities masker random).ReturnsWith (.validating validator) r) (hok : r.result = .ok ts)
    {rest : List Token} (hts : ts = p ++ w ++ x :: rest) (hfull : FullStretch c.grammar validator p w) :
    ¬ AddsNote x := by
  intro hx
  obtain ⟨u, hu⟩ := (sample_returns_iff_ends (result_eq_ok_iff.1 hok).1).1 h
  obtain ⟨w₁, w₂, -, -, ⟨-, htokens, ⟨last, hl, hend⟩, -⟩⟩ :=
    notesReopened_of_ends hguide hstart hbeam hwarp hu hok p w x rest hts hfull hx
  rw [htokens, List.getLast?_concat] at hl
  obtain rfl := Option.some.inj hl
  rw [hvb] at hend
  cases hend

/-- **A full voice takes no more notes**, with one exception. A note that stands in a result after a full voice, where
the measure might have ended, and before the next such place and the next voice, was written after a voice break in
between had been written and taken back, and no token before that break was touched since. In all states of a run this
is exactly when the guide admits notes there. It does not happen if the measure may not end directly after voice
breaks. -/
theorem reopened_of_note (h : (sample c capacities masker random).ReturnsWith (.validating validator) r)
    (hok : r.result = .ok ts) :
    (∃ u, Ends c (.validating validator) capacities masker random u r) ∧
      (∀ u, Ends c (.validating validator) capacities masker random u r →
        ∀ p w x rest, ts = p ++ w ++ x :: rest → FullStretch c.grammar validator p w → AddsNote x →
          ∃ w₁ w₂, w = w₁ ++ w₂ ∧ w₁ ≠ [] ∧
            BreakTakenBack c validator (initialState c capacities masker random) u (p ++ w₁)) ∧
      (∀ s p w x, Passes c (.validating validator) (initialState c capacities masker random) s → s.tokens = p ++ w →
        FullStretch c.grammar validator p w → w ≠ [] → AddsNote x →
          (x ∈ s.guide ↔ Reopened c validator (initialState c capacities masker random) s p w)) ∧
      (c.grammar.allows .vb .eom = false → ∀ p w x rest, ts = p ++ w ++ x :: rest →
        FullStretch c.grammar validator p w → ¬ AddsNote x) := by
  refine ⟨(sample_returns_iff_ends (result_eq_ok_iff.1 hok).1).1 h, fun u hu => ?_,
    fun s p w x hs hts hfull hw hx => ?_, fun hvb p w x rest hts hfull => ?_⟩
  · exact notesReopened_of_ends hguide hstart hbeam hwarp hu hok
  · exact mem_guide_iff_reopened hguide hstart hbeam hwarp hs hts hfull hw hx
  · exact not_addsNote_of_full hguide hstart hbeam hwarp hvb h hok hts hfull

end Runs

/-- A measure of one voice, with a second staff in it or without. The measure may end after a voice break. -/
def secondStaff : Setting where
  grammar := .ofSentences [[.bom, .pitchC, .d4, .eom], [.bom, .pitchC, .d4, .s1, .vb, .eom],
    [.bom, .pitchC, .d4, .s1, .pitchC, .d4, .eom]]
  options := { temperature := 0 }

/-- A validator for which one note fills the measure, and a voice break after a staff is too much. -/
def hearsFullVoice (text : String) : Except String Measure :=
  .ok { tail := { filling :=
    if text == "BOM c D4 EOM" then some 0 else if text == "BOM c D4 S1 VB EOM" then some 1 else none } }

/-- A predictor that likes to write a staff after the first note, and to end voices. -/
def secondStaffAnswer : (q : Query) → q.Answer
  | .predict _ _ ts => .ok (Token.all.map fun t =>
      if t = .s1 && ts.length < 4 then 5 else if t = .vb then 5 else 0).toArray
  | .parse text => hearsFullVoice text

/-- A run that writes a second note in a full voice: the voice break after the staff is taken back, and then the guide
admits the note. -/
theorem reopened_of_note_secondStaff :
    ∃ u r, Ends secondStaff (.validating hearsFullVoice) [64] none (.ofSeed 1) u r ∧
      r.result = .ok ([.bom, .pitchC, .d4] ++ [.s1] ++ .pitchC :: [.d4, .eom]) ∧
      FullStretch secondStaff.grammar hearsFullVoice [.bom, .pitchC, .d4] [.s1] ∧ AddsNote .pitchC ∧
      BreakTakenBack secondStaff hearsFullVoice (initialState secondStaff [64] none (.ofSeed 1)) u
        [.bom, .pitchC, .d4, .s1] ∧
      ∃ v, Passes secondStaff (.validating hearsFullVoice) (initialState secondStaff [64] none (.ofSeed 1)) v ∧
        v.tokens = [.bom, .pitchC, .d4, .s1] ∧ .pitchC ∈ v.guide := by
  have hrun : (runWithin secondStaff secondStaffAnswer 9 (initialState secondStaff [64] none (.ofSeed 1))).map
      (fun r => (r.1.tokens, r.2)) =
      some ([.bom, .pitchC, .d4, .s1, .pitchC, .d4, .eom], .sampled) := by decide +kernel
  obtain ⟨⟨t, ending⟩, hr, he⟩ := Option.map_eq_some_iff.1 hrun
  obtain ⟨ht, rfl⟩ := Prod.mk.inj he
  have hsample := sample_of_runWithin (Collaborators.validating_of_parse fun _ => rfl) (by decide +kernel) hr
  have hok : (finish t .sampled).result =
      .ok (([.bom, .pitchC, .d4] : List Token) ++ [Token.s1] ++ Token.pitchC :: [.d4, .eom]) :=
    congrArg Except.ok ht
  have hbeam : ∀ text m, hearsFullVoice text = .ok m → m.tail.beamOpen = false := by
    intro text m hm
    obtain rfl : _ = m := Except.ok.inj hm
    rfl
  have hwarp : ∀ text m, hearsFullVoice text = .ok m → m.tail.invalidTimewarp = false := by
    intro text m hm
    obtain rfl : _ = m := Except.ok.inj hm
    rfl
  have hfull : FullStretch secondStaff.grammar hearsFullVoice [.bom, .pitchC, .d4] [.s1] :=
    ⟨⟨.d4, rfl, by decide +kernel⟩, ⟨_, rfl, by decide +kernel, rfl⟩, by decide +kernel⟩
  obtain ⟨⟨u, hu⟩, hall, hguides, -⟩ := reopened_of_note rfl rfl hbeam hwarp hsample hok
  obtain ⟨w₁, w₂, hw, hne, hback⟩ := hall u hu _ _ _ _ rfl hfull (by decide)
  have hw₁ : w₁ = [.s1] := by
    rcases List.singleton_eq_append_iff.1 hw with ⟨h, -⟩ | ⟨h, -⟩
    · exact absurd h hne
    · exact h
  subst hw₁
  refine ⟨u, _, hu, hok, hfull, by decide, hback, ?_⟩
  obtain @⟨_, v, hbefore, htokens, hmay, hlong, hv, hleft, -⟩ := hback
  have hpasses := hbefore.tail hv
  exact ⟨v, hpasses, hleft, (hguides v _ _ .pitchC hpasses hleft hfull (List.cons_ne_nil _ _) (by decide)).2
    ⟨[.s1], [], rfl, List.cons_ne_nil _ _, .mk hbefore htokens hmay hlong hv hleft .refl⟩⟩

end Sampler

end ScoreDecoding
