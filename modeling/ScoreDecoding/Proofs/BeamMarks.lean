import ScoreDecoding.Proofs.Repair
import ScoreDecoding.Token.Group

/-!
# Beam marks

A voice is balanced if its beam marks come in turn, from an opening to a closing, and a sequence if all its voices are.
Read from left to right, a sequence either has a mark out of turn, or a beam is open at its end, or none is.

- `Balanced` and `endsOpen` are said of a whole sequence, `state?` reads it token by token (`state?_concat`);
- `endsOpen_of_state?` and `balanced_of_state?` tie the two together;
- `state?_take` and `state?_tidyBeams`: cutting leaves no mark out of turn, and tidying closes the sequence.
-/

namespace ScoreDecoding.BeamMarks

/-- Whether a token opens or closes a beam. -/
def isMark (t : Token) : Bool := t.group == .beam

/-- Openings and closings in turn, from an opening to a closing. -/
def inTurn : List Token → Bool
  | [] => true
  | .beamOpen :: .beamClose :: ts => inTurn ts
  | _ => false

/-- In every voice the beam marks come in turn, from an opening to a closing. -/
def Balanced (ts : List Token) : Prop := ∀ voice ∈ ts.splitOn .vb, inTurn (voice.filter isMark) = true

/-- Whether the last beam mark of the last voice is an opening. -/
def endsOpen (ts : List Token) : Bool := ((ts.rtakeWhile (· != .vb)).filter isMark).getLast? == some .beamOpen

/-- What a token makes of a beam that is open or not. There is nothing if the token is out of turn there; a voice
must not end while a beam is open. -/
def next? (isOpen : Bool) : Token → Option Bool
  | .beamOpen => if isOpen then none else some true
  | .beamClose => if isOpen then some false else none
  | .vb => if isOpen then none else some false
  | _ => some isOpen

/-- Whether a beam is open at the end of a sequence in which no mark is out of turn. -/
def state? (ts : List Token) : Option Bool := ts.foldlM next? false

variable {ts : List Token} {t : Token} {isOpen : Bool}

/-! ## Reading token by token -/

theorem mark_cases : ∀ t : Token, t = .beamOpen ∨ t = .beamClose ∨ t = .vb ∨ isMark t = false ∧ t ≠ .vb := by
  decide +kernel

theorem next?_of_not_mark (hm : isMark t = false) (hv : t ≠ .vb) : next? isOpen t = some isOpen := by
  unfold next?
  split
  · cases hm
  · cases hm
  · exact absurd rfl hv
  · rfl

@[simp] theorem state?_concat (ts : List Token) (t : Token) :
    state? (ts ++ [t]) = (state? ts).bind fun isOpen => next? isOpen t := by
  simp [state?, List.foldlM_append]

theorem state?_take (h : (state? ts).isSome = true) (n : Nat) : (state? (ts.take n)).isSome = true := by
  rw [← List.take_append_drop n ts, state?, List.foldlM_append] at h
  cases hn : state? (ts.take n) with
  | some isOpen => rfl
  | none =>
    rw [show (ts.take n).foldlM next? false = none from hn] at h
    cases h

/-- No beam is open where a voice has ended. -/
theorem state?_of_getLast?_vb (h : (state? ts).isSome = true) (hl : ts.getLast? = some .vb) : state? ts = some false := by
  obtain ⟨us, rfl⟩ := List.getLast?_eq_some_iff.1 hl
  obtain ⟨after, ha⟩ := Option.isSome_iff_exists.1 h
  rw [ha]
  rw [state?_concat] at ha
  obtain ⟨before, -, hn⟩ := Option.bind_eq_some_iff.1 ha
  cases before <;> cases hn
  rfl

theorem endsOpen_concat_of_mark (hm : isMark t = true) : endsOpen (ts ++ [t]) = (t == .beamOpen) := by
  have hv : (t != .vb) = true := bne_iff_ne.2 fun h => by rw [h] at hm; cases hm
  rw [endsOpen, List.rtakeWhile_concat, if_pos hv, List.filter_append, List.filter_singleton, hm, cond_true,
    List.getLast?_concat, Option.some_beq_some]

theorem endsOpen_concat_vb : endsOpen (ts ++ [.vb]) = false := by
  rw [endsOpen, List.rtakeWhile_concat, if_neg (by decide)]
  rfl

theorem endsOpen_concat_of_not_mark (hm : isMark t = false) (hv : t ≠ .vb) :
    endsOpen (ts ++ [t]) = endsOpen ts := by
  rw [endsOpen, List.rtakeWhile_concat, if_pos (bne_iff_ne.2 hv), List.filter_append, List.filter_singleton, hm,
    cond_false, List.append_nil, endsOpen]

theorem endsOpen_of_state? (h : state? ts = some isOpen) : endsOpen ts = isOpen := by
  induction ts using List.reverseRecOn generalizing isOpen with
  | nil =>
    cases h
    rfl
  | append_singleton ts t ih =>
    rw [state?_concat] at h
    obtain ⟨before, hb, hn⟩ := Option.bind_eq_some_iff.1 h
    rcases mark_cases t with rfl | rfl | rfl | ⟨hm, hv⟩
    · cases before <;> cases hn
      exact endsOpen_concat_of_mark rfl
    · cases before <;> cases hn
      exact endsOpen_concat_of_mark rfl
    · cases before <;> cases hn
      exact endsOpen_concat_vb
    · rw [next?_of_not_mark hm hv] at hn
      cases hn
      rw [endsOpen_concat_of_not_mark hm hv]
      exact ih hb

/-- A voice that goes on with a beam open or not, and the voices after it. -/
theorem inTurn_of_foldlM (h : ts.foldlM next? isOpen = some false) :
    ∃ voice voices, ts.splitOn .vb = voice :: voices ∧
      inTurn ((if isOpen then [.beamOpen] else []) ++ voice.filter isMark) = true ∧
      ∀ v ∈ voices, inTurn (v.filter isMark) = true := by
  induction ts generalizing isOpen with
  | nil =>
    cases h
    exact ⟨[], [], rfl, rfl, by simp⟩
  | cons t ts ih =>
    rw [List.foldlM_cons] at h
    obtain ⟨after, hn, h⟩ := Option.bind_eq_some_iff.1 h
    obtain ⟨voice, voices, hsplit, hvoice, hvoices⟩ := ih h
    have hcons : (t :: ts).splitOn .vb = if t = .vb then [] :: voice :: voices else (t :: voice) :: voices := by
      rw [List.splitOn] at hsplit ⊢
      simp [List.splitOnP_cons_eq_if_modifyHead, hsplit]
    rcases mark_cases t with rfl | rfl | rfl | ⟨hm, hv⟩
    · cases isOpen <;> cases hn
      exact ⟨.beamOpen :: voice, voices, hcons, hvoice, hvoices⟩
    · cases isOpen <;> cases hn
      exact ⟨.beamClose :: voice, voices, hcons, hvoice, hvoices⟩
    · cases isOpen <;> cases hn
      exact ⟨[], voice :: voices, hcons, rfl, by simpa using ⟨hvoice, hvoices⟩⟩
    · rw [next?_of_not_mark hm hv] at hn
      cases hn
      exact ⟨t :: voice, voices, by rw [hcons, if_neg hv], by simpa [hm] using hvoice, hvoices⟩

/-- A sequence at whose end no beam is open, and in which no mark is out of turn, is balanced. -/
theorem balanced_of_state? (h : state? ts = some false) : Balanced ts := by
  obtain ⟨voice, voices, hsplit, hvoice, hvoices⟩ := inTurn_of_foldlM h
  intro v hv
  rw [hsplit] at hv
  rcases List.mem_cons.1 hv with rfl | hv
  · exact hvoice
  · exact hvoices v hv

/-! ## Tidying -/

theorem state?_reverse_dropOpenings {ts : List Token} (h : state? ts.reverse = some isOpen) :
    state? (Repair.dropOpenings ts).reverse = some false := by
  induction ts generalizing isOpen with
  | nil => rfl
  | cons t ts ih =>
    rw [List.reverse_cons, state?_concat] at h
    obtain ⟨before, hb, hn⟩ := Option.bind_eq_some_iff.1 h
    rcases mark_cases t with rfl | rfl | rfl | ⟨hm, hv⟩
    · exact ih hb
    · cases before <;> cases hn
      rw [Repair.dropOpenings, List.reverse_cons, state?_concat, hb]
      rfl
    · rw [Repair.dropOpenings_cons (by decide) (by decide), List.reverse_cons, state?_concat, ih hb]
      rfl
    · have ho : t ≠ .beamOpen := by rintro rfl; cases hm
      have hc : t ≠ .beamClose := by rintro rfl; cases hm
      rw [Repair.dropOpenings_cons ho hc, List.reverse_cons, state?_concat, ih hb]
      exact next?_of_not_mark hm hv

/-- Tidying closes a sequence if the status knows whether a beam is open at its end. -/
theorem state?_tidyBeams {s : TailStatus} (h : state? ts = some s.beamOpen) :
    state? (Repair.tidyBeams (some s) ts) = some false := by
  cases hs : s.beamOpen with
  | false =>
    rw [hs] at h
    simpa [Repair.tidyBeams, hs] using h
  | true =>
    rw [← List.reverse_reverse ts] at h
    simpa [Repair.tidyBeams, hs] using state?_reverse_dropOpenings h

end ScoreDecoding.BeamMarks
