import ScoreDecoding.TokenSet

/-!
# Required tokens

A caller may name tokens that have to occur. As long as one of them is missing, it blocks the other tokens of its
class, which its leading capitals name: while a sixteenth is missing, "D4", "D8" and "Dot" are blocked. Once all have
occurred, everything is admitted. A repair may take tokens out of the sequence again; the masker is then set back to
what the sequence still holds.

- `Masker.maskOf` is the set of tokens that missing tokens admit, and `WellFormed` says that a masker keeps it;
- `Masker.next` records a token, and `Masker.rewind` goes back to a sequence; `mem_pending_next` and
  `mem_pending_rewind` say what is missing then.
-/

namespace ScoreDecoding

/-- The tokens that have to occur, those of them that are missing, and what is admitted meanwhile. -/
structure Masker where
  required : TokenSet
  pending : TokenSet
  mask : TokenSet
  deriving DecidableEq

namespace Masker

/-- Whether a token is of a class: its name begins with the letters, of which there is one at least. -/
def inClass (header : List Char) (t : Token) : Bool := !header.isEmpty && header.isPrefixOf t.name.toList

/-- The tokens that are missing themselves or belong to the class of none that is missing. -/
def maskOf (pending : TokenSet) : TokenSet :=
  let headers := pending.toList.map Token.header
  .ofPredicate fun t => pending.contains t || !headers.any (inClass · t)

/-- The masker in which all required tokens are missing. -/
def ofList (required : List Token) : Masker where
  required := .ofList required
  pending := .ofList required
  mask := maskOf (.ofList required)

/-- The masker with other tokens missing. -/
def setPending (m : Masker) (pending : TokenSet) : Masker := { m with pending, mask := maskOf pending }

/-- The masker after a token has occurred. -/
def next (m : Masker) (t : Token) : Masker :=
  if m.pending.contains t then m.setPending (m.pending.erase t) else m

/-- The masker after the sequence has become `ts`: what is required and does not occur is missing. -/
def rewind (m : Masker) (ts : List Token) : Masker :=
  let pending := m.required.diff (.ofList ts)
  if pending = m.pending then m else m.setPending pending

/-- Whether nothing is missing. -/
def isDisposed (m : Masker) : Bool := m.pending.isEmpty

/-! ## What a masker keeps -/

/-- The mask is the one that the missing tokens determine. -/
def WellFormed (m : Masker) : Prop := m.mask = maskOf m.pending

theorem wellFormed_ofList (required : List Token) : (ofList required).WellFormed := rfl

theorem WellFormed.next {m : Masker} (h : m.WellFormed) (t : Token) : (m.next t).WellFormed := by
  unfold Masker.next; split
  · rfl
  · exact h

theorem WellFormed.rewind {m : Masker} (h : m.WellFormed) (ts : List Token) : (m.rewind ts).WellFormed := by
  unfold Masker.rewind; dsimp only; split
  · exact h
  · rfl

theorem pending_rewind (m : Masker) (ts : List Token) : (m.rewind ts).pending = m.required.diff (.ofList ts) := by
  unfold rewind; dsimp only; split
  · rename_i h; exact h.symm
  · rfl

theorem required_next (m : Masker) (t : Token) : (m.next t).required = m.required := by
  unfold Masker.next; split <;> rfl

theorem required_rewind (m : Masker) (ts : List Token) : (m.rewind ts).required = m.required := by
  unfold rewind; dsimp only; split <;> rfl

theorem mem_pending_next {m : Masker} {t u : Token} : u ∈ (m.next t).pending ↔ u ∈ m.pending ∧ u ≠ t := by
  unfold Masker.next; split
  · exact TokenSet.mem_erase
  · rename_i h
    refine ⟨fun hu => ⟨hu, ?_⟩, And.left⟩
    rintro rfl
    exact h hu

theorem mem_pending_rewind {m : Masker} {ts : List Token} {u : Token} :
    u ∈ (m.rewind ts).pending ↔ u ∈ m.required ∧ u ∉ ts := by
  rw [pending_rewind, TokenSet.mem_diff, TokenSet.mem_ofList]

theorem isDisposed_iff {m : Masker} : m.isDisposed = true ↔ ∀ t, t ∉ m.pending := TokenSet.isEmpty_iff

theorem inClass_iff {header : List Char} {t : Token} :
    inClass header t = true ↔ header ≠ [] ∧ header <+: t.name.toList := by
  simp [inClass]

theorem mem_maskOf {pending : TokenSet} {t : Token} :
    t ∈ maskOf pending ↔ t ∈ pending ∨ ∀ u ∈ pending, inClass u.header t = false := by
  rw [maskOf, TokenSet.mem_ofPredicate]
  simp [← TokenSet.mem_iff]

/-- A token is admitted if it is missing or its name begins with the class of none that is missing. -/
theorem WellFormed.mem_mask {m : Masker} (h : m.WellFormed) {x : Token} :
    x ∈ m.mask ↔ x ∈ m.pending ∨ ∀ y ∈ m.pending, y.header ≠ [] → ¬ y.header <+: x.name.toList := by
  rw [h, mem_maskOf]
  simp only [← Bool.not_eq_true, inClass_iff, not_and]

/-- Well-formed maskers for the same tokens differ only in what is missing. -/
theorem WellFormed.eq_iff {m n : Masker} (hm : m.WellFormed) (hn : n.WellFormed) (hrequired : n.required = m.required) :
    n = m ↔ ∀ x, x ∈ n.pending ↔ x ∈ m.pending := by
  constructor
  · rintro rfl x
    rfl
  · intro h
    have hpending : n.pending = m.pending := TokenSet.ext h
    have hmask : n.mask = m.mask := by rw [hn, hm, hpending]
    cases m
    cases n
    cases hrequired
    cases hpending
    cases hmask
    rfl

end Masker

end ScoreDecoding
