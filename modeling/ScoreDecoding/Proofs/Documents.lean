import ScoreDecoding.Measure.Json
import ScoreDecoding.Proofs.JsonFields

/-!
# Measures are read back

What a validator answers is a measure as a text, and reading it gives the measure. A term is written without a sign of
its kind: an event has no field `context`, so it is not read as a change of context, and a context has one field, which
no other kind of context has.

- `Context.ofJson?_toJson`, `Term.ofJson?_toJson`, ...: each part of a measure is read back, a term with its kind;
- `read?_text`: the text of a measure is read as that measure.
-/

namespace ScoreDecoding

open Json

variable {room : Nat}

/-! ## Ratios, tokens and signs -/

@[simp]
theorem Ratio.plain (r : Ratio) : Plain (room + 1) r.toJson := .object (by simp)

@[simp]
theorem Ratio.ofJson?_toJson (r : Ratio) : Ratio.ofJson? r.toJson = some r := by
  rw [Ratio.ofJson?, Ratio.toJson, record?_object_of_map_eq (by rfl) (by decide)]
  exact bind_eq_of_eq rfl <| bind_eq_of_eq (int64?_int r.numerator) <| bind_eq_of_eq (int64?_int r.denominator) rfl

@[simp]
theorem Token.plain (t : Token) : Plain room t.toJson := .text _

@[simp]
theorem Token.ofJson?_toJson (t : Token) : Token.ofJson? t.toJson = some t := Token.ofName?_name t

namespace Measure

theorem Accidental.ofLabel?_label (a : Accidental) : Accidental.ofLabel? a.label = some a := by cases a <;> rfl

theorem Beam.ofLabel?_label (b : Beam) : Beam.ofLabel? b.label = some b := by cases b <;> rfl

theorem Stem.ofLabel?_label (s : Stem) : Stem.ofLabel? s.label = some s := by cases s <;> rfl

theorem StemDirection.ofLabel?_label (d : StemDirection) : StemDirection.ofLabel? d.label = some d := by
  cases d <;> rfl

theorem Mark.ofLabel?_label (m : Mark) : Mark.ofLabel? m.label = some m := by cases m <;> rfl

/-! ## Events -/

@[simp]
theorem Pitch.plain (p : Pitch) : Plain (room + 1) p.toJson := .object (by simp [Plain.ofOption])

theorem Pitch.ofJson?_toJson (p : Pitch) : Pitch.ofJson? p.toJson = some p := by
  rw [Pitch.ofJson?, Pitch.toJson, record?_object_of_map_eq (by rfl) (by decide)]
  exact bind_eq_of_eq rfl <|
    bind_eq_of_eq (Token.ofJson?_toJson p.letter) <|
    bind_eq_of_eq (nullable?_ofOption Accidental.ofLabel?_label rfl p.accidental) <|
    bind_eq_of_eq (int32?_int p.octaves) <|
    bind_eq_of_eq (int32?_int p.note) rfl

@[simp]
theorem Duration.plain (d : Duration) : Plain (room + 2) d.toJson := .object (by simp [Plain.ofOption])

theorem Duration.ofJson?_toJson (d : Duration) : Duration.ofJson? d.toJson = some d := by
  rw [Duration.ofJson?, Duration.toJson, record?_object_of_map_eq (by rfl) (by decide)]
  exact bind_eq_of_eq rfl <|
    bind_eq_of_eq (uint8?_nat d.division) <|
    bind_eq_of_eq (uint8?_nat d.dots) <|
    bind_eq_of_eq (nullable?_ofOption Ratio.ofJson?_toJson rfl d.timeWarp) <|
    bind_eq_of_eq (nullable?_ofOption Token.ofJson?_toJson rfl d.warpTag) rfl

theorem Event.plain (e : Event) : Plain (room + 3) e.toJson := by
  have hchord : Plain (room + 2) (.arr (e.chord.map Pitch.toJson)) := .arr (by simp)
  have hmarks : Plain (room + 2) (.arr (e.marks.map (.text ·.label))) := .arr (by simp)
  exact .object (by simp [Plain.ofOption, hchord, hmarks])

theorem Event.ofJson?_toJson (e : Event) : Event.ofJson? e.toJson = some e := by
  have htremolo := nullable?_ofOption int32?_int rfl
  -- the fields in their order; that each is found under its name is computed
  rw [Event.ofJson?, Event.toJson, record?_object_of_map_eq (by rfl) (by decide)]
  exact bind_eq_of_eq rfl <|
    bind_eq_of_eq (list?_map e.chord fun p _ => p.ofJson?_toJson) <|
    bind_eq_of_eq (nullable?_ofOption Duration.ofJson?_toJson rfl e.duration) <|
    bind_eq_of_eq (bool?_bool e.rest) <|
    bind_eq_of_eq (bool?_bool e.space) <|
    bind_eq_of_eq (nullable?_ofOption Beam.ofLabel?_label rfl e.beam) <|
    bind_eq_of_eq (bool?_bool e.illBeam) <|
    bind_eq_of_eq (nullable?_ofOption Stem.ofLabel?_label rfl e.stem) <|
    bind_eq_of_eq (nullable?_ofOption Ratio.ofJson?_toJson rfl e.timeWarp) <|
    bind_eq_of_eq (bool?_bool e.timeWarpEnd) <|
    bind_eq_of_eq (bool?_bool e.grace) <|
    bind_eq_of_eq (htremolo e.tremolo) <|
    bind_eq_of_eq (htremolo e.tremoloPitcher) <|
    bind_eq_of_eq (htremolo e.tremoloCatcher) <|
    bind_eq_of_eq (uint8?_nat e.staff) <|
    bind_eq_of_eq (int64?_int e.tick) <|
    bind_eq_of_eq (nullable?_ofOption StemDirection.ofLabel?_label rfl e.stemDirection) <|
    bind_eq_of_eq (list?_map e.marks fun m _ => m.ofLabel?_label) rfl

/-! ## Terms -/

section

variable {α : Type} {read : Json → Option α}

theorem onlyMember?_object (name : String) (j : Json) : onlyMember? name read (.object [(name, j)]) = read j := by
  show (record? [name] (object [(name, j)])).bind _ = _
  rw [record?_object_of_map_eq (by rfl) (List.nodup_singleton name), Option.bind_some, Record.required,
    List.lookup_cons_self, Option.bind_some]

theorem onlyMember?_object_of_ne {name other : String} (h : name ≠ other) (j : Json) :
    onlyMember? name read (.object [(other, j)]) = none := by
  show (record? [name] (object [(other, j)])).bind _ = _
  cases hr : record? [name] (object [(other, j)]) with
  | none => rfl
  | some r => exact required_eq_none hr (by simp [h])

end

theorem Context.plain (c : Context) : Plain (room + 2) c.toJson := by
  cases c <;> exact .object (by simp)

/-- A context is read back, because no two kinds of contexts have the same field. -/
theorem Context.ofJson?_toJson (c : Context) : Context.ofJson? c.toJson = some c := by
  cases c <;> simp [Context.ofJson?, Context.toJson, onlyMember?_object, onlyMember?_object_of_ne]

theorem ContextChange.plain (c : ContextChange) : Plain (room + 3) c.toJson :=
  .object (by simp [Context.plain])

theorem ContextChange.ofJson?_toJson (c : ContextChange) : ContextChange.ofJson? (room + 3) c.toJson = some c := by
  have hcontext : (if c.context.toJson.isSound (room + 2) then Context.ofJson? c.context.toJson else none) =
      some c.context := by
    rw [if_pos c.context.plain.isSound, Context.ofJson?_toJson]
  rw [ContextChange.ofJson?, ContextChange.toJson, record?_object_of_map_eq (by rfl) (by decide)]
  exact bind_eq_of_eq rfl <|
    bind_eq_of_eq hcontext <|
    bind_eq_of_eq (uint8?_nat c.staff) <|
    bind_eq_of_eq (int64?_int c.tick) rfl

/-- An event is not read as a change of context, because it has no context. -/
theorem ContextChange.ofJson?_event (e : Event) : ContextChange.ofJson? room e.toJson = none := by
  have hfields : "context" ∉ Event.fields := by decide
  unfold ContextChange.ofJson?
  cases hr : record? ["context", "staff", "tick"] e.toJson with
  | none => rfl
  | some r =>
    show (r.required "context" _ >>= _) = none
    rw [required_eq_none hr hfields]
    rfl

theorem Term.plain (t : Term) : Plain (room + 3) t.toJson := by
  cases t with
  | context c => exact c.plain
  | event e => exact e.plain

/-- A term is read back as a term of its kind. -/
theorem Term.ofJson?_toJson (t : Term) : Term.ofJson? (room + 3) t.toJson = some t := by
  rw [Term.ofJson?, if_pos t.plain.isSound]
  cases t with
  | context c => rw [Term.toJson, ContextChange.ofJson?_toJson]; rfl
  | event e => rw [Term.toJson, ContextChange.ofJson?_event, Event.ofJson?_toJson]; rfl

/-! ## Voices, states and measures -/

@[simp]
theorem Voice.plain (v : Voice) : Plain (room + 5) v.toJson := by
  have hterms : Plain (room + 4) (.arr (v.terms.map Term.toJson)) := .arr (by simp [Term.plain])
  exact .object (by simp [Plain.ofOption, hterms])

theorem Voice.ofJson?_toJson (v : Voice) : Voice.ofJson? (room + 5) v.toJson = some v := by
  have htoken := nullable?_ofOption Token.ofJson?_toJson rfl
  rw [Voice.ofJson?, Voice.toJson, record?_object_of_map_eq (by rfl) (by decide)]
  exact bind_eq_of_eq rfl <|
    bind_eq_of_eq (uint8?_nat v.staff) <|
    bind_eq_of_eq (htoken v.octaveShiftIn) <|
    bind_eq_of_eq (htoken v.octaveShiftOut) <|
    bind_eq_of_eq (htoken v.headClef) <|
    bind_eq_of_eq (list?_map v.terms fun t _ => t.ofJson?_toJson) <|
    bind_eq_of_eq (Ratio.ofJson?_toJson v.eventsTime) <|
    bind_eq_of_eq (nullable?_ofOption Ratio.ofJson?_toJson rfl v.compensatedGraceTime) <|
    bind_eq_of_eq (bool?_bool v.isPartial) rfl

end Measure

@[simp]
theorem TailStatus.plain (s : TailStatus) : Plain (room + 3) s.toJson := by
  have hchord : ∀ chord : List Measure.Pitch, Plain (room + 2) (.arr (chord.map Measure.Pitch.toJson)) :=
    fun _ => .arr (by simp)
  exact .object (by simp [Plain.ofOption, hchord])

theorem TailStatus.ofJson?_toJson (s : TailStatus) : TailStatus.ofJson? s.toJson = some s := by
  have hchord := nullable?_ofOption (fun chord => list?_map chord fun p _ => p.ofJson?_toJson) rfl s.chord
  rw [TailStatus.ofJson?, TailStatus.toJson, record?_object_of_map_eq (by rfl) (by decide)]
  exact bind_eq_of_eq rfl <|
    bind_eq_of_eq (bool?_bool s.timeWarping) <|
    bind_eq_of_eq (bool?_bool s.invalidTimewarp) <|
    bind_eq_of_eq (bool?_bool s.incompleteTimeWarping) <|
    bind_eq_of_eq (bool?_bool s.beamOpen) <|
    bind_eq_of_eq (nullable?_ofOption int8?_int rfl s.filling) <|
    bind_eq_of_eq (bool?_bool s.emptyStaff) <|
    bind_eq_of_eq hchord rfl

namespace Measure

theorem plain (m : Measure) : Plain (room + 7) m.toJson := by
  have hvoices : Plain (room + 6) (.arr (m.voices.map Voice.toJson)) := .arr (by simp)
  have hdescriptors : Plain (room + 6) (.arr (m.descriptors.map Json.text)) := .arr (by simp)
  exact .object (by simp [hvoices, hdescriptors])

theorem ofJson?_toJson (m : Measure) : ofJson? (room + 7) m.toJson = some m := by
  rw [ofJson?, toJson, record?_object_of_map_eq (by rfl) (by decide)]
  exact bind_eq_of_eq rfl <|
    bind_eq_of_eq (int32?_int m.key) <|
    bind_eq_of_eq (Ratio.ofJson?_toJson m.timeSignature) <|
    bind_eq_of_eq (bool?_bool m.isPartial) <|
    bind_eq_of_eq (Ratio.ofJson?_toJson m.defaultCompensatedGraceTime) <|
    bind_eq_of_eq (uint8?_nat m.staffCount) <|
    bind_eq_of_eq (list?_map m.voices fun v _ => v.ofJson?_toJson) <|
    bind_eq_of_eq (bool?_bool m.ill) <|
    bind_eq_of_eq (TailStatus.ofJson?_toJson m.tail) <|
    bind_eq_of_eq (list?_map m.descriptors fun s _ => text?_text s) rfl

/-- **The text of a measure is read as that measure.** -/
theorem read?_text (m : Measure) : read? m.text = some m := by
  rw [read?, text, parse?_compact (@plain 0 m).wellFormed]
  exact m.ofJson?_toJson

end Measure

end ScoreDecoding
