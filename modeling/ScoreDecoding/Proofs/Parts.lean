import ScoreDecoding.Measure.Tokens
import ScoreDecoding.Proofs.Blocks

/-!
# Notes, contexts and events from their tokens

Most parts of an event may be missing, and nothing stands between them. But the groups of their tokens are different,
and so are those of a note. What has a token for everything is therefore known from its tokens, up to the fields that
are never written.

- `Measure.Canonical` measures have a token for everything, and `Measure.written` is what is written of a measure;
- `Pitch.written_eq`, `Context.Spells.unique` and `Event.written_eq`: notes, contexts and events are known from their
  tokens. `Event.part` are the parts of an event (`Event.Canonical.tokens_eq`).
-/

namespace ScoreDecoding

namespace Measure

/-! ## What is written of a measure -/

/-- A notehead without its absolute height. -/
def Pitch.written (p : Pitch) : Pitch := { p with note := 0 }

/-- A length without the ratio of its timewarp. -/
def Duration.written (d : Duration) : Duration := { d with timeWarp := none }

/-- An event without the fields that are never written. -/
def Event.written (e : Event) : Event :=
  { e with
    chord := e.chord.map Pitch.written
    duration := e.duration.map Duration.written
    illBeam := false
    timeWarp := none
    timeWarpEnd := false
    tremoloPitcher := none
    staff := 0
    tick := 0
    stemDirection := none }

/-- A term without the fields that are never written: of a change of context, its place. -/
def Term.written : Term → Term
  | .event e => .event e.written
  | .context c => .context { context := c.context }

/-- The terms of the voices, without the fields that are never written. -/
def written (m : Measure) : List (List Term) := m.voices.map fun v => v.terms.map Term.written

/-! ## Measures that have a token for everything -/

/-- A length that can be written. -/
structure Duration.Canonical (d : Duration) : Prop where
  division_le : d.division ≤ 8
  group_warpTag : ∀ t, d.warpTag = some t → t.group = .timewarp ∨ t.group = .timewarpControl

/-- An event with notes and a length, and without values that exclude each other or have no token. -/
structure Event.Canonical (e : Event) : Prop where
  chord_ne_nil : e.chord ≠ []
  group_letter : ∀ p ∈ e.chord, p.letter.group = .letter
  duration : ∃ d, e.duration = some d ∧ d.Canonical
  grace_alone : e.grace = true → e.tremolo = none ∧ e.tremoloCatcher = none
  tremolo_alone : e.tremolo = none ∨ e.tremoloCatcher = none
  strokes : ∀ n, e.tremolo = some n ∨ e.tremoloCatcher = some n → 3 ≤ n ∧ n ≤ 8
  rest_or_space : ¬ (e.rest = true ∧ e.space = true)

/-- A context with a value of its table. -/
def Context.Canonical : Context → Prop
  | .staff n => 1 ≤ n ∧ n ≤ 3
  | .key k => -6 ≤ k ∧ k ≤ 6
  | .timeSignature r => (1 ≤ r.numerator ∧ r.numerator ≤ 12) ∧ r.denominator ∈ [2, 4, 8, 16]
  | .clef t => t.group = .clef
  | .octaveShift t => t.group = .octaveShift

/-- A term that can be written. -/
def Term.Canonical : Term → Prop
  | .event e => e.Canonical
  | .context c => c.context.Canonical

/-- A measure with voices, all of whose terms can be written. -/
structure Canonical (m : Measure) : Prop where
  voices_ne_nil : m.voices ≠ []
  terms : ∀ v ∈ m.voices, ∀ t ∈ v.terms, t.Canonical

/-- Notes with a length and without a tremolo. -/
theorem Event.canonical_of_plain {e : Event} (hchord : e.chord ≠ [])
    (hletters : ∀ p ∈ e.chord, p.letter.group = .letter)
    (hduration : ∃ d, e.duration = some d ∧ d.Canonical) (htremolo : e.tremolo = none)
    (hcatcher : e.tremoloCatcher = none) (hrest : e.rest = false) : e.Canonical where
  chord_ne_nil := hchord
  group_letter := hletters
  duration := hduration
  grace_alone _ := ⟨htremolo, hcatcher⟩
  tremolo_alone := .inl htremolo
  strokes n hn := by simp [htremolo, hcatcher] at hn
  rest_or_space := by simp [hrest]

/-! ## Signs -/

theorem Accidental.token_injective : Function.Injective Accidental.token := by
  intro a b h
  cases a <;> cases b <;> first | rfl | cases h

theorem Beam.token_injective : Function.Injective Beam.token := by
  intro a b h
  cases a <;> cases b <;> first | rfl | cases h

theorem Stem.token_injective : Function.Injective Stem.token := by
  intro a b h
  cases a <;> cases b <;> first | rfl | cases h

theorem Mark.token_injective : Function.Injective Mark.token := by
  intro a b h
  cases a <;> cases b <;> first | rfl | cases h

theorem Accidental.group_token (a : Accidental) : a.token.group = .accidental := by cases a <;> rfl

theorem Beam.group_token (b : Beam) : b.token.group = .beam := by cases b <;> rfl

theorem Stem.group_token (s : Stem) : s.token.group = .stem := by cases s <;> rfl

theorem Mark.group_token (m : Mark) : m.token.group = .mark := by cases m <;> rfl

/-! ## Notes -/

/-- Octave marks tell how many octaves they stand for, and in which direction. -/
theorem eq_of_octaveMarks {a b : Int32}
    (h : List.replicate a.toInt.natAbs (if 0 < a then Token.octaveUp else .octaveDown) =
      List.replicate b.toInt.natAbs (if 0 < b then Token.octaveUp else .octaveDown)) : a = b := by
  obtain ⟨hcount, hmark⟩ := List.replicate_inj.1 h
  have hsign : a.toInt.natAbs = 0 ∨ (0 < a ↔ 0 < b) := by
    refine hmark.imp_right fun hmark => ⟨fun ha => ?_, fun hb => ?_⟩
    · by_contra hb
      rw [if_pos ha, if_neg hb] at hmark
      cases hmark
    · by_contra ha
      rw [if_neg ha, if_pos hb] at hmark
      cases hmark
  rw [Int32.lt_iff_toInt_lt, Int32.lt_iff_toInt_lt, Int32.toInt_zero] at hsign
  exact Int32.toInt_inj.1 (by omega)

/-- The parts of a note, by the groups of their tokens. -/
def Pitch.part (p : Pitch) : Token.Group → List Token
  | .letter => [p.letter]
  | .accidental => (p.accidental.map Accidental.token).toList
  | .octaveMark => List.replicate p.octaves.toInt.natAbs (if 0 < p.octaves then .octaveUp else .octaveDown)
  | _ => []

/-- A note is its parts. -/
theorem Pitch.tokens_eq (p : Pitch) :
    p.tokens = [Token.Group.letter, .accidental, .octaveMark].flatMap p.part := by
  simp [Pitch.tokens, Pitch.part]

theorem Pitch.group_of_mem {p : Pitch} (hp : p.letter.group = .letter) (g : Token.Group) {t : Token}
    (ht : t ∈ p.part g) : t.group = g := by
  cases g <;> simp only [Pitch.part, List.not_mem_nil, List.mem_singleton] at ht
  case letter => rw [ht, hp]
  case accidental =>
    obtain ⟨a, -, rfl⟩ := Option.map_eq_some_iff.1 (Option.mem_toList.1 ht)
    exact a.group_token
  case octaveMark =>
    rw [List.eq_of_mem_replicate ht]
    split <;> rfl

/-- A note is a block that begins with its letter. -/
theorem Pitch.isBlock_tokens {p : Pitch} (hp : p.letter.group = .letter) :
    IsBlock (fun t => t.group == .letter) (fun _ => true) p.tokens := by
  rw [p.tokens_eq]
  refine isBlock_append_cons (l := []) nofun (fun t ht => ?_) (fun x hx => ?_) fun _ _ => rfl
  · obtain ⟨g, hg, ht⟩ := List.mem_flatMap.1 (show t ∈ [Token.Group.accidental, .octaveMark].flatMap p.part from ht)
    rw [group_of_mem hp g ht]
    clear ht
    revert g
    decide
  · obtain rfl : p.letter = x := by simpa using hx
    simpa using hp

/-- A note is known from its tokens. -/
theorem Pitch.written_eq {p q : Pitch} (hp : p.letter.group = .letter) (hq : q.letter.group = .letter)
    (h : p.tokens = q.tokens) : p.written = q.written := by
  rw [p.tokens_eq, q.tokens_eq] at h
  have hpart := eq_of_flatMap_eq (fun g t ht => congrArg some (group_of_mem hp g ht))
    (fun g t ht => congrArg some (group_of_mem hq g ht)) (by decide) h
  have hletter : p.letter = q.letter := List.head_eq_of_cons_eq (hpart .letter (by decide))
  have haccidental : p.accidental = q.accidental :=
    Option.map_injective Accidental.token_injective (eq_of_toList (hpart .accidental (by decide)))
  have hoctaves : p.octaves = q.octaves := eq_of_octaveMarks (hpart .octaveMark (by decide))
  simp only [Pitch.written, hletter, haccidental, hoctaves]

/-- A chord is known from its tokens. -/
theorem chord_eq {ps qs : List Pitch} (hps : ∀ p ∈ ps, p.letter.group = .letter)
    (hqs : ∀ q ∈ qs, q.letter.group = .letter) (h : ps.flatMap Pitch.tokens = qs.flatMap Pitch.tokens) :
    ps.map Pitch.written = qs.map Pitch.written :=
  map_eq_of_flatMap_eq (fun p hp => Pitch.isBlock_tokens (hps p hp)) (fun q hq => Pitch.isBlock_tokens (hqs q hq)) h
    fun p hp q hq => Pitch.written_eq (hps p hp) (hqs q hq)

/-! ## Changes of context -/

/-- How a context is written: as a token of its own group, or as the beats and the unit of a time signature. -/
inductive Context.Spells : Context → List Token → Prop
  | staff {n : UInt8} {t : Token} : ValueTable.staff.token? n.toNat = some t → Spells (.staff n) [t]
  | key {k : Int32} {t : Token} : ValueTable.key.token? k.toInt = some t → Spells (.key k) [t]
  | timeSignature {r : Ratio} {b u : Token} : ValueTable.beats.token? r.numerator.toInt = some b →
      ValueTable.unit.token? r.denominator.toInt = some u → Spells (.timeSignature r) [b, u]
  | clef {t : Token} : t.group = .clef → Spells (.clef t) [t]
  | octaveShift {t : Token} : t.group = .octaveShift → Spells (.octaveShift t) [t]

theorem Context.Canonical.spells {c : Context} (h : c.Canonical) : c.Spells c.tokens := by
  cases c with
  | staff n =>
    have hlow : 1 ≤ n.toNat := UInt8.le_iff_toNat_le.1 h.1
    have hhigh : n.toNat ≤ 3 := UInt8.le_iff_toNat_le.1 h.2
    obtain ⟨t, ht⟩ : ∃ t, ValueTable.staff.token? n.toNat = some t :=
      ValueTable.exists_token? (ValueTable.mem_of_bounds 1 3 (by decide) (by omega) (by omega))
    rw [Context.tokens, ht]
    exact .staff ht
  | key k =>
    have hlow : -6 ≤ k.toInt := Int32.le_iff_toInt_le.1 h.1
    have hhigh : k.toInt ≤ 6 := Int32.le_iff_toInt_le.1 h.2
    obtain ⟨t, ht⟩ : ∃ t, ValueTable.key.token? k.toInt = some t :=
      ValueTable.exists_token? (ValueTable.mem_of_bounds (-6) 13 (by decide) (by omega) (by omega))
    rw [Context.tokens, ht]
    exact .key ht
  | timeSignature r =>
    have hlow : 1 ≤ r.numerator.toInt := Int64.le_iff_toInt_le.1 h.1.1
    have hhigh : r.numerator.toInt ≤ 12 := Int64.le_iff_toInt_le.1 h.1.2
    have hunit : r.denominator.toInt ∈ ValueTable.unit.map (·.1) := List.mem_map_of_mem (f := Int64.toInt) h.2
    obtain ⟨b, hb⟩ : ∃ t, ValueTable.beats.token? r.numerator.toInt = some t :=
      ValueTable.exists_token? (ValueTable.mem_of_bounds 1 12 (by decide) (by omega) (by omega))
    obtain ⟨u, hu⟩ := ValueTable.exists_token? hunit
    -- such numbers have 32 bits
    have hsmall : 2 ≤ r.denominator.toInt ∧ r.denominator.toInt ≤ 16 :=
      (by decide : ∀ v ∈ ValueTable.unit.map (·.1), 2 ≤ v ∧ v ≤ 16) _ hunit
    have hmin : Int32.minValue.toInt = -2147483648 := rfl
    have hmax : Int32.maxValue.toInt = 2147483647 := rfl
    have hfits : Context.tokens (.timeSignature r) = [b, u] := by
      simp only [Context.tokens, hb, hu, hmin, hmax]
      rw [if_pos]
      · rfl
      · simp only [Bool.and_eq_true, decide_eq_true_eq]
        omega
    rw [hfits]
    exact .timeSignature hb hu
  | clef t => exact .clef h
  | octaveShift t => exact .octaveShift h

/-- The group of the token that a context begins with. -/
def Context.group : Context → Token.Group
  | .staff _ => .staff
  | .key _ => .key
  | .timeSignature _ => .beats
  | .clef _ => .clef
  | .octaveShift _ => .octaveShift

/-- A context is written as one token of its group, or as beats with a unit. -/
theorem Context.Spells.shape {c : Context} {ts : List Token} (h : c.Spells ts) :
    (∃ t, ts = [t] ∧ t.group = c.group ∧ c.group ∈ [Token.Group.staff, .key, .clef, .octaveShift]) ∨
      ∃ b u, ts = [b, u] ∧ b.group = .beats ∧ u.group = .unit ∧ c.group = .beats := by
  cases h with
  | staff ht => exact .inl ⟨_, rfl, ValueTable.group_of_token? (g := .staff) rfl ht, by simp [Context.group]⟩
  | key ht => exact .inl ⟨_, rfl, ValueTable.group_of_token? (g := .key) rfl ht, by simp [Context.group]⟩
  | timeSignature hb hu =>
    exact .inr ⟨_, _, rfl, ValueTable.group_of_token? (g := .beats) rfl hb,
      ValueTable.group_of_token? (g := .unit) rfl hu, rfl⟩
  | clef ht => exact .inl ⟨_, rfl, ht, by simp [Context.group]⟩
  | octaveShift ht => exact .inl ⟨_, rfl, ht, by simp [Context.group]⟩

theorem Context.Spells.exists_cons {c : Context} {ts : List Token} (h : c.Spells ts) :
    ∃ t rest, ts = t :: rest ∧ t.group = c.group := by
  rcases h.shape with ⟨t, rfl, hgroup, -⟩ | ⟨b, u, rfl, hb, -, hgroup⟩
  · exact ⟨t, [], rfl, hgroup⟩
  · exact ⟨b, [u], rfl, hb.trans hgroup.symm⟩

theorem Context.Spells.group_of_mem {c : Context} {ts : List Token} (h : c.Spells ts) {t : Token} (ht : t ∈ ts) :
    t.group ∈ [Token.Group.staff, .key, .clef, .octaveShift, .beats, .unit] := by
  rcases h.shape with ⟨x, rfl, hx, hgroup⟩ | ⟨b, u, rfl, hb, hu, -⟩
  · rw [List.mem_singleton.1 ht, hx]
    exact List.mem_append_left [.beats, .unit] hgroup
  · rcases List.mem_pair.1 ht with rfl | rfl
    · rw [hb]
      decide
    · rw [hu]
      decide

/-- A context is known from its tokens. -/
theorem Context.Spells.unique {c d : Context} {ts : List Token} (hc : c.Spells ts) (hd : d.Spells ts) : c = d := by
  have hgroup : c.group = d.group := by
    obtain ⟨t, rest, rfl, ht⟩ := hc.exists_cons
    obtain ⟨u, rest', he, hu⟩ := hd.exists_cons
    obtain ⟨rfl, -⟩ := List.cons.inj he
    exact ht.symm.trans hu
  cases hc <;> cases hd <;> simp only [Context.group, reduceCtorEq] at hgroup
  case staff.staff n t hn n' hn' =>
    have hn := ValueTable.eq_of_token? (g := .staff) rfl hn hn'
    rw [UInt8.toNat_inj.1 (Int.ofNat_inj.1 hn)]
  case key.key k t hk k' hk' =>
    rw [Int32.toInt_inj.1 (ValueTable.eq_of_token? (g := .key) rfl hk hk')]
  case timeSignature.timeSignature r _ _ hb hu r' hb' hu' =>
    have hnumerator := Int64.toInt_inj.1 (ValueTable.eq_of_token? (g := .beats) rfl hb hb')
    have hdenominator := Int64.toInt_inj.1 (ValueTable.eq_of_token? (g := .unit) rfl hu hu')
    cases r
    cases r'
    cases hnumerator
    cases hdenominator
    rfl
  case clef.clef => rfl
  case octaveShift.octaveShift => rfl

/-! ## Events -/

/-- The parts of an event. -/
inductive Part
  | grace | tremolo | tremoloCast | stem | chord | warp | division | dots | silence | beam | marks
  deriving DecidableEq

/-- The parts that stand before the division. -/
def Part.early : List Part := [.grace, .tremolo, .tremoloCast, .stem, .chord, .warp]

/-- The parts that stand after the division. -/
def Part.late : List Part := [.dots, .silence, .beam, .marks]

/-- The part of an event that a token of a group belongs to. -/
def Part.ofGroup? : Token.Group → Option Part
  | .grace => some .grace
  | .tremolo => some .tremolo
  | .tremoloCast => some .tremoloCast
  | .stem => some .stem
  | .letter | .accidental | .octaveMark => some .chord
  | .timewarp | .timewarpControl => some .warp
  | .division => some .division
  | .dot => some .dots
  | .rest => some .silence
  | .beam => some .beam
  | .mark => some .marks
  | .structural | .staff | .clef | .key | .beats | .unit | .octaveShift => none

/-- How a part of an event is written. -/
def Event.part (e : Event) : Part → List Token
  | .grace => if e.grace then [.grace] else []
  | .tremolo => (e.tremolo.bind fun n => ValueTable.tremolo.token? n.toInt).toList
  | .tremoloCast => (e.tremoloCatcher.bind fun n => ValueTable.tremoloCast.token? n.toInt).toList
  | .stem => (e.stem.map Stem.token).toList
  | .chord => e.chord.flatMap Pitch.tokens
  | .warp => (e.duration.bind (·.warpTag)).toList
  | .division => (e.duration.bind fun d => ValueTable.division.token? d.division.toNat).toList
  | .dots => List.replicate (e.duration.elim 0 (·.dots.toNat)) .dot
  | .silence => e.silence
  | .beam => (e.beam.map Beam.token).toList
  | .marks => e.marks.map Mark.token

variable {e f : Event}

/-- Where at most one of grace, tremolo and tremolo cast is given, each of them is written. -/
theorem Event.Canonical.onset_eq (h : e.Canonical) :
    e.onset = e.part .grace ++ e.part .tremolo ++ e.part .tremoloCast := by
  unfold Event.onset Event.part
  cases hg : e.grace with
  | true =>
    obtain ⟨ht, hc⟩ := h.grace_alone hg
    rw [ht, hc]
    rfl
  | false =>
    rcases h.tremolo_alone with ht | hc
    · rw [ht]
      cases e.tremoloCatcher <;> rfl
    · rw [hc]
      cases e.tremolo <;> simp

/-- An event is its parts. -/
theorem Event.Canonical.tokens_eq (h : e.Canonical) :
    e.tokens = (Part.early ++ Part.division :: Part.late).flatMap e.part := by
  obtain ⟨d, hd, -⟩ := h.duration
  simp [Event.tokens, h.onset_eq, Duration.tokens, Part.early, Part.late, Event.part, hd]

/-- Each part has tokens of its own groups. -/
theorem Event.Canonical.part_of_mem (h : e.Canonical) (p : Part) :
    ∀ t ∈ e.part p, Part.ofGroup? t.group = some p := by
  intro t ht
  cases p with
  | grace =>
    simp only [Event.part] at ht
    split at ht
    · rw [List.mem_singleton.1 ht]
      rfl
    · cases ht
  | tremolo =>
    obtain ⟨n, -, ht⟩ := Option.bind_eq_some_iff.1 (Option.mem_toList.1 ht)
    rw [ValueTable.group_of_token? (g := .tremolo) rfl ht]
    rfl
  | tremoloCast =>
    obtain ⟨n, -, ht⟩ := Option.bind_eq_some_iff.1 (Option.mem_toList.1 ht)
    rw [ValueTable.group_of_token? (g := .tremoloCast) rfl ht]
    rfl
  | stem =>
    obtain ⟨s, -, rfl⟩ := Option.map_eq_some_iff.1 (Option.mem_toList.1 ht)
    rw [s.group_token]
    rfl
  | chord =>
    obtain ⟨p, hp, ht⟩ := List.mem_flatMap.1 ht
    rw [p.tokens_eq] at ht
    obtain ⟨g, hg, ht⟩ := List.mem_flatMap.1 ht
    rw [Pitch.group_of_mem (h.group_letter p hp) g ht]
    clear ht
    revert g
    decide
  | warp =>
    obtain ⟨d, hd, hwarp⟩ := Option.bind_eq_some_iff.1 (Option.mem_toList.1 ht)
    obtain ⟨d', hd', hcanonical⟩ := h.duration
    obtain rfl := Option.some.inj (hd.symm.trans hd')
    rcases hcanonical.group_warpTag t hwarp with hgroup | hgroup <;> rw [hgroup] <;> rfl
  | division =>
    obtain ⟨d, -, ht⟩ := Option.bind_eq_some_iff.1 (Option.mem_toList.1 ht)
    rw [ValueTable.group_of_token? (g := .division) rfl ht]
    rfl
  | dots =>
    rw [List.eq_of_mem_replicate ht]
    rfl
  | silence =>
    simp only [Event.part, Event.silence] at ht
    split at ht
    · rw [List.mem_singleton.1 ht]
      rfl
    · split at ht
      · rw [List.mem_singleton.1 ht]
        rfl
      · cases ht
  | beam =>
    obtain ⟨b, -, rfl⟩ := Option.map_eq_some_iff.1 (Option.mem_toList.1 ht)
    rw [b.group_token]
    rfl
  | marks =>
    obtain ⟨m, -, rfl⟩ := List.mem_map.1 ht
    rw [m.group_token]
    rfl

/-! ### The values of an event -/

/-- Values that a table holds are known from their tokens. -/
theorem eq_of_bind_token? {α : Type} {number : α → Int} (hnumber : Function.Injective number) {g : Token.Group}
    {table : ValueTable} (htable : g.table? = some table) {m n : Option α}
    (hm : ∀ x, m = some x → number x ∈ table.map (·.1)) (hn : ∀ x, n = some x → number x ∈ table.map (·.1))
    (h : m.bind (fun x => table.token? (number x)) = n.bind fun x => table.token? (number x)) : m = n := by
  cases m with
  | none =>
    cases n with
    | none => rfl
    | some y =>
      obtain ⟨t, ht⟩ := ValueTable.exists_token? (hn y rfl)
      rw [Option.bind_some, ht] at h
      cases h
  | some x =>
    obtain ⟨t, ht⟩ := ValueTable.exists_token? (hm x rfl)
    rw [Option.bind_some, ht] at h
    cases n with
    | none => cases h
    | some y => rw [hnumber (ValueTable.eq_of_token? htable ht h.symm)]

theorem Duration.Canonical.mem_division {d : Duration} (h : d.Canonical) :
    (d.division.toNat : Int) ∈ ValueTable.division.map (·.1) := by
  have hhigh : d.division.toNat ≤ 8 := UInt8.le_iff_toNat_le.1 h.division_le
  exact ValueTable.mem_of_bounds 0 9 (by decide) (by omega) (by omega)

theorem Event.Canonical.mem_strokes (h : e.Canonical) {n : Int32}
    (hn : e.tremolo = some n ∨ e.tremoloCatcher = some n) : n.toInt ∈ ValueTable.tremolo.map (·.1) := by
  obtain ⟨hlow, hhigh⟩ := h.strokes n hn
  have hlow : 3 ≤ n.toInt := Int32.le_iff_toInt_le.1 hlow
  have hhigh : n.toInt ≤ 8 := Int32.le_iff_toInt_le.1 hhigh
  exact ValueTable.mem_of_bounds 3 6 (by decide) (by omega) (by omega)

theorem Event.grace_eq (h : e.part .grace = f.part .grace) : e.grace = f.grace := by
  simp only [Event.part] at h
  cases he : e.grace <;> cases hf : f.grace <;> simp [he, hf] at h ⊢

/-- A rest is visible or not. -/
theorem Event.silence_eq (he : e.Canonical) (hf : f.Canonical) (h : e.silence = f.silence) :
    e.rest = f.rest ∧ e.space = f.space := by
  have he := he.rest_or_space
  have hf := hf.rest_or_space
  unfold Event.silence at h
  cases her : e.rest <;> cases hes : e.space <;> cases hfr : f.rest <;> cases hfs : f.space <;> simp_all

/-- A length is known from its timewarp, its division and its dots. -/
theorem Event.duration_eq (he : e.Canonical) (hf : f.Canonical)
    (hwarp : e.part .warp = f.part .warp) (hdivision : e.part .division = f.part .division)
    (hdots : e.part .dots = f.part .dots) : e.duration.map Duration.written = f.duration.map Duration.written := by
  obtain ⟨d, hd, hcanonical⟩ := he.duration
  obtain ⟨d', hd', hcanonical'⟩ := hf.duration
  simp only [Event.part, hd, hd'] at hwarp hdivision hdots
  have hwarpTag : d.warpTag = d'.warpTag := eq_of_toList hwarp
  have hdivision : some d.division = some d'.division :=
    eq_of_bind_token? (fun _ _ h => UInt8.toNat_inj.1 (Int.ofNat_inj.1 h)) (g := .division) rfl
      (fun _ hx => Option.some.inj hx ▸ hcanonical.mem_division)
      (fun _ hx => Option.some.inj hx ▸ hcanonical'.mem_division) (eq_of_toList hdivision)
  have hcount : d.dots = d'.dots := UInt8.toNat_inj.1 (List.replicate_inj.1 hdots).1
  simp only [hd, hd', Option.map_some, Duration.written, hwarpTag, Option.some.inj hdivision, hcount]

/-- An event is known from its tokens, up to the fields that are never written. -/
theorem Event.written_eq (he : e.Canonical) (hf : f.Canonical) (h : e.tokens = f.tokens) : e.written = f.written := by
  rw [he.tokens_eq, hf.tokens_eq] at h
  have hpart : ∀ p, e.part p = f.part p := by
    intro p
    refine eq_of_flatMap_eq he.part_of_mem hf.part_of_mem (by decide) h p ?_
    cases p <;> decide
  have htremolo : e.tremolo = f.tremolo :=
    eq_of_bind_token? (fun _ _ => Int32.toInt_inj.1) (g := .tremolo) rfl (fun _ hn => he.mem_strokes (.inl hn))
      (fun _ hn => hf.mem_strokes (.inl hn)) (eq_of_toList (hpart .tremolo))
  have hcatcher : e.tremoloCatcher = f.tremoloCatcher :=
    eq_of_bind_token? (fun _ _ => Int32.toInt_inj.1) (g := .tremoloCast) rfl (fun _ hn => he.mem_strokes (.inr hn))
      (fun _ hn => hf.mem_strokes (.inr hn)) (eq_of_toList (hpart .tremoloCast))
  have hstem : e.stem = f.stem := Option.map_injective Stem.token_injective (eq_of_toList (hpart .stem))
  have hchord : e.chord.map Pitch.written = f.chord.map Pitch.written :=
    chord_eq he.group_letter hf.group_letter (hpart .chord)
  have hduration := Event.duration_eq he hf (hpart .warp) (hpart .division) (hpart .dots)
  obtain ⟨hrest, hspace⟩ := Event.silence_eq he hf (hpart .silence)
  have hbeam : e.beam = f.beam := Option.map_injective Beam.token_injective (eq_of_toList (hpart .beam))
  have hmarks : e.marks = f.marks := List.map_injective_iff.2 Mark.token_injective (hpart .marks)
  simp only [Event.written, Event.grace_eq (hpart .grace), htremolo, hcatcher, hstem, hchord, hduration, hrest, hspace,
    hbeam, hmarks]

end Measure

end ScoreDecoding
