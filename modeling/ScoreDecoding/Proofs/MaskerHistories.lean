import ScoreDecoding.Masker

/-!
# Histories of a masker

Whatever a masker has been told, it is as a new one that was told only what counts: the sequence that it was last set
back to, and the tokens since then. What it was told in another order or more than once makes no difference.

- `next_comm` and `next_next_self`: the order of tokens and their repetition do not matter;
- `rewind_eq`: a masker that is set back to a sequence is a new one that has heard of it;
- `run_eq` and `collapsed_of_run`: what has become of a masker after any history.
-/

namespace ScoreDecoding.Masker

variable {m : Masker} {required ts : List Token} {t u : Token}

/-! ## Single steps -/

/-- The order in which two tokens occur does not matter. -/
theorem WellFormed.next_comm (h : m.WellFormed) (t u : Token) : (m.next t).next u = (m.next u).next t := by
  rw [((h.next u).next t).eq_iff ((h.next t).next u) (by simp only [required_next])]
  intro x
  rw [mem_pending_next, mem_pending_next, mem_pending_next, mem_pending_next, and_right_comm]

/-- A token that occurs again does not matter. -/
theorem next_next_self (m : Masker) (t : Token) : (m.next t).next t = m.next t := by
  have hnot : (m.next t).pending.contains t = false := by
    rw [Bool.eq_false_iff, ne_eq, ← TokenSet.mem_iff, mem_pending_next]
    exact fun h => h.2 rfl
  rw [next, hnot]
  rfl

/-! ## Sequences of tokens -/

theorem required_foldl_next (m : Masker) (ts : List Token) : (ts.foldl next m).required = m.required := by
  induction ts generalizing m with
  | nil => rfl
  | cons t ts ih => rw [List.foldl_cons, ih, required_next]

theorem WellFormed.foldl_next (h : m.WellFormed) (ts : List Token) : (ts.foldl Masker.next m).WellFormed := by
  induction ts generalizing m with
  | nil => exact h
  | cons t ts ih => exact ih (h.next t)

theorem mem_pending_foldl_next : u ∈ (ts.foldl next m).pending ↔ u ∈ m.pending ∧ u ∉ ts := by
  induction ts generalizing m with
  | nil => simp
  | cons t ts ih => rw [List.foldl_cons, ih, mem_pending_next, List.mem_cons, not_or, and_assoc]

/-- The masker of what is required, after a sequence of tokens. -/
def fed (required ts : List Token) : Masker := ts.foldl next (ofList required)

theorem required_fed (required ts : List Token) : (fed required ts).required = .ofList required :=
  required_foldl_next (ofList required) ts

theorem wellFormed_fed (required ts : List Token) : (fed required ts).WellFormed :=
  WellFormed.foldl_next (wellFormed_ofList required) ts

/-- What is missing are the required tokens that have not occurred. -/
theorem mem_pending_fed : u ∈ (fed required ts).pending ↔ u ∈ required ∧ u ∉ ts := by
  rw [fed, mem_pending_foldl_next, ofList, TokenSet.mem_ofList]

/-- A masker that is set back to a sequence is a new one that has heard of it. -/
theorem WellFormed.rewind_eq (h : m.WellFormed) (hrequired : m.required = .ofList required) (ts : List Token) :
    m.rewind ts = fed required ts := by
  rw [(wellFormed_fed required ts).eq_iff (h.rewind ts) (by rw [required_rewind, required_fed, hrequired])]
  intro x
  rw [mem_pending_rewind, mem_pending_fed, hrequired, TokenSet.mem_ofList]

/-! ## Histories -/

/-- What a masker is told: that a token has occurred, or what the sequence is after a repair. -/
inductive News
  | next (t : Token)
  | rewind (ts : List Token)

/-- The masker that has been told something. -/
def tell (m : Masker) : News → Masker
  | .next t => m.next t
  | .rewind ts => m.rewind ts

/-- The masker of what is required after a history. -/
def run (required : List Token) (history : List News) : Masker := history.foldl tell (ofList required)

/-- The tokens that count once more is told. -/
def News.extend (ts : List Token) : News → List Token
  | .next t => ts ++ [t]
  | .rewind us => us

/-- The tokens that count after a history: the sequence of the last repair, and what has occurred since then. -/
def occurred (history : List News) : List Token := history.foldl News.extend []

/-- What is told next leaves a masker that has heard of the tokens that count then. -/
theorem tell_fed (required ts : List Token) (news : News) :
    (fed required ts).tell news = fed required (news.extend ts) := by
  cases news with
  | next t =>
    rw [News.extend, fed, fed, List.foldl_append]
    rfl
  | rewind us => exact (wellFormed_fed required ts).rewind_eq (required_fed required ts) us

/-- **A history is no more than the tokens that count after it.** -/
theorem run_eq (required : List Token) (history : List News) :
    run required history = fed required (occurred history) := by
  have hrun : ∀ ts, history.foldl tell (fed required ts) = fed required (history.foldl News.extend ts) := by
    induction history with
    | nil => exact fun ts => rfl
    | cons news history ih =>
      intro ts
      rw [List.foldl_cons, List.foldl_cons, tell_fed, ih]
  exact hrun []

/-- A masker for some tokens is determined by what is missing, and what is missing by the sequence. The class of a token
is that of the names that begin with its leading capitals. -/
structure Collapsed (required : List Token) (m : Masker) : Prop where
  required_eq : m.required = .ofList required
  pending_le : ∀ x ∈ m.pending, x ∈ m.required
  mem_mask : ∀ x, x ∈ m.mask ↔ x ∈ m.pending ∨ ∀ y ∈ m.pending, y.header ≠ [] → ¬ y.header <+: x.name.toList
  admitted_of_pending : ∀ x ∈ m.pending, x ∈ m.mask
  full_of_disposed : m.isDisposed = true → m.mask = .full
  next_comm : ∀ t u, (m.next t).next u = (m.next u).next t
  next_next_self : ∀ t, (m.next t).next t = m.next t
  rewind_eq : ∀ ts, m.rewind ts = ts.foldl next (ofList required)

/-- **What has become of a masker after any history**: what it misses is required and determines what it admits, tokens
may be told in any order and again, and going back to a sequence gives a new masker that has heard of it. All in all it
is a new masker that has heard of the tokens that count. -/
theorem collapsed_of_run (required : List Token) (history : List News) :
    Collapsed required (run required history) ∧
      run required history = (occurred history).foldl next (ofList required) := by
  have hwell := wellFormed_fed required (occurred history)
  have hrequired := required_fed required (occurred history)
  rw [run_eq]
  refine ⟨⟨hrequired, fun x hx => ?_, fun x => hwell.mem_mask, fun x hx => hwell.mem_mask.2 (.inl hx), fun h => ?_,
    hwell.next_comm, next_next_self _, hwell.rewind_eq hrequired⟩, rfl⟩
  · rw [hrequired, TokenSet.mem_ofList]
    exact (mem_pending_fed.1 hx).1
  · refine TokenSet.ext fun x => iff_of_true (hwell.mem_mask.2 (.inr fun y hy => ?_)) (TokenSet.mem_full x)
    exact absurd hy (isDisposed_iff.1 h y)

end ScoreDecoding.Masker
