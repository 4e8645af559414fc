import Mathlib
import ScoreDecoding.Spaces

/-!
# Onsets

The time of a token is what the divisions before it last with their dots. Spaces may be exchanged for others that last
as long: everything else then stays where it is, in the same order and at the same time.

- `duration` is the time of a sequence, and `outside` are the tokens that belong to no space, each with the time before
  it; a space is what `block?` finds (`block?_eq_some_iff`);
- `outsideFrom_append`: no space reaches over a letter, so a sequence may be cut there;
- `Exchanged.outside_eq` and `Exchanged.voices_eq`: exchanging spaces at one place keeps `outside` and how long each
  voice lasts.
-/

namespace ScoreDecoding.Spaces

/-! ## Time -/

/-- How many dots a sequence begins with. -/
def leadingDots (ts : List Token) : Nat := (ts.takeWhile (· == .dot)).length

/-- How long a token lasts with its dots, in whole notes: each dot adds half of what the one before it added. -/
def lasting (t : Token) (dots : Nat) : ℚ :=
  match ValueTable.division.value? t with
  | some e => 2 ^ (-e) * (2 - 2 ^ (-(dots : ℤ)))
  | none => 0

/-- The time that the divisions of a sequence last, each with the dots that directly follow it. -/
def duration : List Token → ℚ
  | [] => 0
  | t :: ts => lasting t (leadingDots ts) + duration ts

theorem group_of_value? {d : Token} {v : ℤ} (h : ValueTable.division.value? d = some v) : d.group = .division :=
  (ValueTable.contains_iff (g := .division) rfl d).1 (by rw [ValueTable.contains, h]; rfl)

theorem lasting_of_group_ne {t : Token} (h : t.group ≠ .division) (dots : Nat) : lasting t dots = 0 := by
  cases hvalue : ValueTable.division.value? t with
  | none => rw [lasting, hvalue]
  | some e => exact absurd (group_of_value? hvalue) h

/-- Without dots a division lasts its part of a whole note. -/
theorem lasting_zero {d : Token} {e : ℤ} (h : ValueTable.division.value? d = some e) : lasting d 0 = 2 ^ (-e) := by
  rw [lasting, h]
  norm_num

theorem leadingDots_append {ts us : List Token} (h : us.head? ≠ some .dot) :
    leadingDots (ts ++ us) = leadingDots ts := by
  induction ts with
  | nil =>
    cases us with
    | nil => rfl
    | cons u us =>
      have hu : u ≠ .dot := fun hu => h (hu ▸ rfl)
      simp [leadingDots, hu]
  | cons t ts ih =>
    by_cases ht : t = .dot
    · simpa [leadingDots, ht] using ih
    · simp [leadingDots, ht]

/-- The time before a place and behind it add up, unless dots are cut off there. -/
theorem duration_append {ts us : List Token} (h : us.head? ≠ some .dot) :
    duration (ts ++ us) = duration ts + duration us := by
  induction ts with
  | nil => rw [List.nil_append, duration, zero_add]
  | cons t ts ih => rw [List.cons_append, duration, duration, ih, leadingDots_append h, add_assoc]

/-! ## Spaces -/

/-- A space with its dots. -/
structure Block where
  letter : Token
  division : Token
  dots : Nat
  group_letter : letter.group = .letter
  group_division : division.group = .division

namespace Block

/-- The tokens of a space. -/
def tokens (b : Block) : List Token := b.letter :: b.division :: (List.replicate b.dots .dot ++ [.space])

/-- How long a space lasts. -/
def time (b : Block) : ℚ := lasting b.division b.dots

theorem mem_tail {b : Block} {t : Token} (h : t ∈ b.tokens.tail) : t.group = .division ∨ t = .dot ∨ t = .space := by
  rcases List.mem_cons.1 h with rfl | h
  · exact .inl b.group_division
  · rcases List.mem_append.1 h with h | h
    · exact .inr (.inl (List.eq_of_mem_replicate h))
    · exact .inr (.inr (List.mem_singleton.1 h))

/-- After its letter a space has no other letter. -/
theorem group_ne_letter {b : Block} {t : Token} (h : t ∈ b.tokens.tail) : t.group ≠ .letter := by
  rcases mem_tail h with h | rfl | rfl
  · rw [h]
    decide
  · decide
  · decide

theorem vb_not_mem (b : Block) : Token.vb ∉ b.tokens := by
  intro h
  rcases List.mem_cons.1 h with h | h
  · have hletter := b.group_letter
    rw [← h] at hletter
    cases hletter
  · rcases mem_tail h with h | h | h
    · cases h
    · cases h
    · cases h

/-- What comes behind a space lasts by itself. -/
theorem duration_tokens_append (b : Block) (ts : List Token) : duration (b.tokens ++ ts) = b.time + duration ts := by
  have hdots : ∀ n, duration (List.replicate n .dot ++ .space :: ts) = duration ts := by
    intro n
    induction n with
    | zero => rw [List.replicate_zero, List.nil_append, duration, lasting_of_group_ne (by decide), zero_add]
    | succ n ih => rw [List.replicate_succ, List.cons_append, duration, lasting_of_group_ne (by decide), zero_add, ih]
  have hleading : leadingDots (List.replicate b.dots .dot ++ .space :: ts) = b.dots := by
    simp [leadingDots]
  have hletter : lasting b.letter (leadingDots (b.division :: (List.replicate b.dots .dot ++ .space :: ts))) = 0 :=
    lasting_of_group_ne (by rw [b.group_letter]; decide) _
  rw [tokens, List.cons_append, List.cons_append, List.append_assoc, List.singleton_append, duration, duration, hdots,
    hleading, hletter, zero_add, time]

end Block

/-- The tokens of some spaces. -/
def tokens (bs : List Block) : List Token := bs.flatMap Block.tokens

theorem duration_tokens_append (bs : List Block) (ts : List Token) :
    duration (tokens bs ++ ts) = (bs.map Block.time).sum + duration ts := by
  induction bs with
  | nil => simp [tokens]
  | cons b bs ih =>
    rw [tokens, List.flatMap_cons, List.append_assoc, b.duration_tokens_append, ← tokens, ih, List.map_cons,
      List.sum_cons, add_assoc]

theorem head?_tokens_append {bs : List Block} (h : bs ≠ []) (ts : List Token) :
    ∃ l rest, tokens bs ++ ts = l :: rest ∧ l.group = .letter := by
  obtain ⟨b, bs, rfl⟩ := List.exists_cons_of_ne_nil h
  exact ⟨b.letter, _, rfl, b.group_letter⟩

theorem head?_ne_dot {l : Token} (h : l.group = .letter) (ts : List Token) : (l :: ts).head? ≠ some .dot := by
  rintro hdot
  cases Option.some.inj hdot
  cases h

/-! ## What stands outside of spaces -/

/-- The space that a sequence begins with. -/
def block? : List Token → Option Block
  | l :: d :: ts =>
    if h : l.group = .letter ∧ d.group = .division ∧ (ts.dropWhile (· == .dot)).head? = some .space then
      some ⟨l, d, leadingDots ts, h.1, h.2.1⟩
    else none
  | _ => none

theorem block?_eq_some_iff {ts : List Token} {b : Block} : block? ts = some b ↔ ∃ after, ts = b.tokens ++ after := by
  constructor
  · intro h
    unfold block? at h
    split at h
    · rename_i l d ts
      split at h
      · rename_i hspace
        cases h
        obtain ⟨after, hafter⟩ := List.head?_eq_some_iff.1 hspace.2.2
        have hdots : ts.takeWhile (· == .dot) = List.replicate (leadingDots ts) .dot :=
          List.eq_replicate_iff.2 ⟨rfl, fun t ht => by simpa using List.mem_takeWhile_imp ht⟩
        refine ⟨after, ?_⟩
        have hcut := List.takeWhile_append_dropWhile (p := (· == Token.dot)) (l := ts)
        rw [hdots, hafter] at hcut
        simp [Block.tokens, hcut]
      · cases h
    · cases h
  · rintro ⟨after, rfl⟩
    have hspace : ((List.replicate b.dots Token.dot ++ .space :: after).dropWhile (· == .dot)) = .space :: after := by
      simp
    have hdots : leadingDots (List.replicate b.dots .dot ++ .space :: after) = b.dots := by simp [leadingDots]
    simp [block?, Block.tokens, b.group_letter, b.group_division, hspace, hdots]

/-- The tokens that belong to no space, each with the time before it, where `before` stands in front. -/
def outsideFrom (before : List Token) : List Token → List (Token × ℚ)
  | [] => []
  | t :: ts =>
    match block? (t :: ts) with
    | some b => outsideFrom (before ++ b.tokens) (ts.drop b.tokens.tail.length)
    | none => (t, duration before) :: outsideFrom (before ++ [t]) ts
termination_by ts => ts.length
decreasing_by
  · rw [List.length_drop, List.length_cons]
    omega
  · exact Nat.lt_succ_self _

/-- The tokens of a sequence that belong to no space, each with the time before it. -/
def outside (ts : List Token) : List (Token × ℚ) := outsideFrom [] ts

/-- A space is passed over. -/
theorem outsideFrom_block (before : List Token) (b : Block) (ts : List Token) :
    outsideFrom before (b.tokens ++ ts) = outsideFrom (before ++ b.tokens) ts := by
  have hblock : block? (b.letter :: (b.tokens.tail ++ ts)) = some b := block?_eq_some_iff.2 ⟨ts, rfl⟩
  show outsideFrom before (b.letter :: (b.tokens.tail ++ ts)) = _
  rw [outsideFrom, hblock]
  dsimp only
  rw [List.drop_left]

/-- A sequence that begins with a space is that space and what is left when it is dropped. -/
theorem eq_of_block? {t : Token} {ts : List Token} {b : Block} (h : block? (t :: ts) = some b) :
    t :: ts = b.tokens ++ ts.drop b.tokens.tail.length := by
  obtain ⟨after, hts⟩ := block?_eq_some_iff.1 h
  have htail : ts = b.tokens.tail ++ after := (List.cons.inj hts).2
  rw [hts, htail, List.drop_left]

theorem outsideFrom_cons {t : Token} {ts : List Token} (before : List Token) (h : block? (t :: ts) = none) :
    outsideFrom before (t :: ts) = (t, duration before) :: outsideFrom (before ++ [t]) ts := by
  rw [outsideFrom, h]

theorem outsideFrom_tokens (before : List Token) (bs : List Block) (ts : List Token) :
    outsideFrom before (tokens bs ++ ts) = outsideFrom (before ++ tokens bs) ts := by
  induction bs generalizing before with
  | nil => simp [tokens]
  | cons b bs ih =>
    rw [tokens, List.flatMap_cons, List.append_assoc, outsideFrom_block, ← tokens, ih, List.append_assoc]

/-- Only the time in front matters. -/
theorem outsideFrom_congr {before before' : List Token} (h : ∀ us, duration (before ++ us) = duration (before' ++ us))
    (ts : List Token) : outsideFrom before ts = outsideFrom before' ts := by
  fun_induction outsideFrom before ts generalizing before' with
  | case1 => rw [outsideFrom]
  | case2 before t ts b hb ih =>
    rw [eq_of_block? hb, outsideFrom_block]
    exact ih fun us => by rw [List.append_assoc, h, List.append_assoc]
  | case3 before t ts hb ih =>
    have htime := h []
    rw [List.append_nil, List.append_nil] at htime
    rw [outsideFrom_cons before' hb, htime]
    exact congrArg _ (ih fun us => by rw [List.append_assoc, h, List.append_assoc])

/-- No space reaches over a letter. -/
theorem outsideFrom_append (before ts : List Token) {l : Token} (hl : l.group = .letter) (us : List Token) :
    outsideFrom before (ts ++ l :: us) = outsideFrom before ts ++ outsideFrom (before ++ ts) (l :: us) := by
  fun_induction outsideFrom before ts with
  | case1 before => rw [List.nil_append, List.append_nil, List.nil_append]
  | case2 before t ts b hb ih =>
    rw [eq_of_block? hb, List.append_assoc, outsideFrom_block, ih, List.append_assoc]
  | case3 before t ts hb ih =>
    have hnone : block? (t :: (ts ++ l :: us)) = none := by
      by_contra hsome
      obtain ⟨b, hb'⟩ := Option.ne_none_iff_exists'.1 hsome
      obtain ⟨after, hts⟩ := block?_eq_some_iff.1 hb'
      rw [← List.cons_append] at hts
      -- the letter would have to belong to the space, or the space would end before it
      rcases List.append_eq_append_iff.1 hts with ⟨rest, htokens, hrest⟩ | ⟨rest, htokens, -⟩
      · cases rest with
        | nil =>
          rw [block?_eq_some_iff.2 ⟨[], by rw [htokens, List.append_nil, List.append_nil]⟩] at hb
          cases hb
        | cons r rest =>
          have hmem : l ∈ b.tokens.tail := by
            rw [htokens, (List.cons.inj hrest).1]
            exact List.mem_append_right ts List.mem_cons_self
          exact Block.group_ne_letter hmem hl
      · rw [block?_eq_some_iff.2 ⟨rest, htokens⟩] at hb
        cases hb
    rw [List.cons_append, outsideFrom_cons before hnone, ih, List.append_assoc]
    rfl

/-! ## Exchanging spaces -/

/-- At one place some spaces stand for some others that last as long. -/
def Exchanged (ts us : List Token) : Prop :=
  ∃ front bs cs back, bs ≠ [] ∧ cs ≠ [] ∧ (bs.map Block.time).sum = (cs.map Block.time).sum ∧
    ts = front ++ (tokens bs ++ back) ∧ us = front ++ (tokens cs ++ back)

variable {ts us : List Token}

theorem duration_front_tokens {bs : List Block} (h : bs ≠ []) (front back : List Token) :
    duration (front ++ (tokens bs ++ back)) = duration front + ((bs.map Block.time).sum + duration back) := by
  obtain ⟨l, rest, heq, hl⟩ := head?_tokens_append h back
  rw [heq, duration_append (head?_ne_dot hl rest), ← heq, duration_tokens_append]

/-- The same tokens stand outside of spaces, at the same times. -/
theorem Exchanged.outside_eq (h : Exchanged ts us) : outside us = outside ts := by
  obtain ⟨front, bs, cs, back, hbs, hcs, htime, rfl, rfl⟩ := h
  have hcut : ∀ {bs : List Block}, bs ≠ [] →
      outside (front ++ (tokens bs ++ back)) = outside front ++ outsideFrom (front ++ tokens bs) back := by
    intro bs hbs
    obtain ⟨l, rest, heq, hl⟩ := head?_tokens_append hbs back
    rw [outside, heq, outsideFrom_append [] front hl, ← heq, outsideFrom_tokens]
    rfl
  rw [hcut hbs, hcut hcs]
  refine congrArg _ (outsideFrom_congr (fun us => ?_) back)
  rw [List.append_assoc, List.append_assoc, duration_front_tokens hbs, duration_front_tokens hcs, htime]

/-- All of it lasts as long as before. -/
theorem Exchanged.duration_eq (h : Exchanged ts us) : duration us = duration ts := by
  obtain ⟨front, bs, cs, back, hbs, hcs, htime, rfl, rfl⟩ := h
  rw [duration_front_tokens hbs, duration_front_tokens hcs, htime]

/-! ## Voices -/

/-- Whatever stands in front, two sequences last as long. -/
def SameTime (ts us : List Token) : Prop := ∀ front, duration (front ++ ts) = duration (front ++ us)

theorem SameTime.cons {ts us : List Token} (h : SameTime ts us) (t : Token) : SameTime (t :: ts) (t :: us) := by
  intro front
  rw [← List.concat_append, ← List.concat_append]
  exact h _

theorem map_duration_eq {vs ws : List (List Token)} (h : List.Forall₂ SameTime vs ws) :
    vs.map duration = ws.map duration := by
  induction h with
  | nil => rfl
  | @cons v w vs ws h _ ih =>
    have hvw : duration v = duration w := h []
    rw [List.map_cons, List.map_cons, hvw, ih]

theorem splitOn_cons (t : Token) (ts : List Token) :
    (t :: ts).splitOn .vb = if t = .vb then [] :: ts.splitOn .vb else (ts.splitOn .vb).modifyHead (t :: ·) := by
  rw [List.splitOn, List.splitOnP_cons_eq_if_modifyHead]
  simp only [beq_iff_eq, List.splitOn]

theorem splitOn_ne_nil (ts : List Token) : ts.splitOn .vb ≠ [] := List.splitOnP_ne_nil _ _

theorem splitOn_append {ts : List Token} (h : Token.vb ∉ ts) (us : List Token) :
    (ts ++ us).splitOn .vb = (us.splitOn .vb).modifyHead (ts ++ ·) := by
  induction ts with
  | nil =>
    obtain ⟨v, vs, hvs⟩ := List.exists_cons_of_ne_nil (splitOn_ne_nil us)
    rw [List.nil_append, hvs]
    rfl
  | cons t ts ih =>
    have ht : t ≠ .vb := fun ht => h (ht ▸ List.mem_cons_self)
    rw [List.cons_append, splitOn_cons, if_neg ht, ih fun hmem => h (List.mem_cons_of_mem t hmem),
      List.modifyHead_modifyHead]
    rfl

/-- The voices of sequences that differ in one place of one voice. -/
theorem forall₂_splitOn {ts us : List Token} (hts : Token.vb ∉ ts) (hus : Token.vb ∉ us)
    (h : ∀ rest, SameTime (ts ++ rest) (us ++ rest)) (front back : List Token) :
    List.Forall₂ SameTime ((front ++ (ts ++ back)).splitOn .vb) ((front ++ (us ++ back)).splitOn .vb) := by
  induction front with
  | nil =>
    obtain ⟨v, vs, hvs⟩ := List.exists_cons_of_ne_nil (splitOn_ne_nil back)
    rw [List.nil_append, List.nil_append, splitOn_append hts, splitOn_append hus, hvs]
    exact .cons (h v) (List.forall₂_same.2 fun _ _ _ => rfl)
  | cons t front ih =>
    rw [List.cons_append, List.cons_append, splitOn_cons, splitOn_cons]
    by_cases ht : t = .vb
    · rw [if_pos ht, if_pos ht]
      exact .cons (fun _ => rfl) ih
    · rw [if_neg ht, if_neg ht]
      revert ih
      generalize (front ++ (ts ++ back)).splitOn .vb = vs
      generalize (front ++ (us ++ back)).splitOn .vb = ws
      rintro (_ | ⟨hv, hvs⟩)
      · exact .nil
      · exact .cons (hv.cons t) hvs

/-- The voices last as long as before. -/
theorem Exchanged.voices_eq (h : Exchanged ts us) :
    (us.splitOn .vb).map duration = (ts.splitOn .vb).map duration := by
  obtain ⟨front, bs, cs, back, hbs, hcs, htime, rfl, rfl⟩ := h
  have hvb : ∀ bs : List Block, Token.vb ∉ tokens bs := by
    intro bs hmem
    obtain ⟨b, -, hb⟩ := List.mem_flatMap.1 hmem
    exact b.vb_not_mem hb
  refine map_duration_eq (forall₂_splitOn (hvb cs) (hvb bs) (fun rest front => ?_) front back)
  rw [duration_front_tokens hbs, duration_front_tokens hcs, htime]

end ScoreDecoding.Spaces
