import ScoreDecoding.Guide.Mask

/-!
# What guides admit

A decoder uses a guide through the tokens that it admits. Where the end of a measure, a voice break or a beam is
admitted, the validator has said something of the sequence.

- `mem_initial` and `mem_ofStatus` say which tokens are admitted;
- `beamOpen_of_mem_ofStatus`, `not_beamOpen_of_mem_ofStatus` and `not_incomplete_of_mem_ofStatus` read the status off a
  token that is.
-/

namespace ScoreDecoding.Guide

variable {s : TailStatus} {limit : Option UInt8} {t : Token}

theorem group_of_mem_stavesAbove {n : UInt8} (h : t ∈ stavesAbove n) : t.group = .staff := by
  have hstaff : ∀ entry ∈ ValueTable.staff, entry.2.group = .staff := by decide
  obtain ⟨entry, he, rfl⟩ := List.mem_map.1 h
  exact hstaff entry (List.mem_filter.1 he).1

theorem not_mem_stavesAbove {n : UInt8} (h : t.group ≠ .staff) : t ∉ stavesAbove n :=
  fun ht => h (group_of_mem_stavesAbove ht)

/-- At the start of a voice no timewarp goes on, no beam is closed, and no staff lies above the limit. -/
theorem mem_initial :
    t ∈ initial limit ↔ t ≠ .warpOn ∧ t ≠ .beamClose ∧ ∀ n, limit = some n → t ∉ stavesAbove n := by
  cases limit <;> simp [initial, and_assoc]

/-- What makes a voice longer are notes, dots and grace notes, and what announces a note. -/
def Lengthens (t : Token) : Prop :=
  t.group ∈ [.letter, .division, .stem, .tremoloCast] ∨ t ∈ [Token.dot, .grace]

theorem mem_eraseNotes {g : TokenSet} : t ∈ eraseNotes g ↔ t ∈ g ∧ ¬ Lengthens t := by
  simp [eraseNotes, Lengthens, and_assoc]

/-- A status leaves out one of the beam marks, the sign that a timewarp goes on if none is open, and in a full voice
either its end or what makes it longer. -/
theorem mem_ofStatus :
    t ∈ ofStatus s ↔ t ≠ (if s.beamOpen then .beamOpen else .beamClose) ∧ (s.timeWarping = false → t ≠ .warpOn) ∧
      (s.isFull = true → if s.incompleteTimeWarping then t ≠ .vb ∧ t ≠ .eom else ¬ Lengthens t) := by
  unfold ofStatus
  cases s.timeWarping <;> cases s.isFull <;> cases s.incompleteTimeWarping <;> simp [mem_eraseNotes, and_assoc]

theorem beamOpen_of_mem_ofStatus (h : .beamClose ∈ ofStatus s) : s.beamOpen = true := by
  have hne := (mem_ofStatus.1 h).1
  cases hs : s.beamOpen with
  | true => rfl
  | false => simp [hs] at hne

theorem not_beamOpen_of_mem_ofStatus (h : .beamOpen ∈ ofStatus s) : s.beamOpen = false := by
  have hne := (mem_ofStatus.1 h).1
  cases hs : s.beamOpen with
  | true => simp [hs] at hne
  | false => rfl

/-- A full voice with an unfinished timewarp must not end. -/
theorem not_incomplete_of_mem_ofStatus (h : .eom ∈ ofStatus s) (hf : s.filling = some 0) :
    s.incompleteTimeWarping = false := by
  have hfull : s.isFull = true := by simp [TailStatus.isFull, hf]
  have hend := (mem_ofStatus.1 h).2.2 hfull
  cases hi : s.incompleteTimeWarping with
  | false => rfl
  | true => simp [hi] at hend

end ScoreDecoding.Guide
