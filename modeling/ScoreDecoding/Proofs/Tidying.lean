import ScoreDecoding.Proofs.Closing

/-!
# Tidying, opening by opening

Tidying reads a sequence once, from its end. The openings can also be taken out one by one: look for the last opening
and the last closing, take the opening out if it stands behind the closing, and look again.

- `lastIndex?` is where a token stands last (`lastIndex?_eq_some_iff`, `lastIndex?_eq_none_iff`,
  `all_lastIndex?_append_iff`), and `closedLength` is how far a sequence reaches up to its last closing;
- `takeOut?` is one round; `takeOut?_eq_some_iff` and `takeOut?_eq_none` say what it does and when it does nothing;
- `Rounds` are the rounds until nothing is taken out: they come to an end (`rounds_append`), and to one only
  (`Rounds.unique`);
- `tidyBeams_eq_take_append_filter`: tidying leaves what the rounds leave, which is everything up to the last closing,
  and everything behind it but the openings.
-/

namespace ScoreDecoding.Repair

variable {status : Option TailStatus} {closed opened ts us vs : List Token} {t : Token} {m n i : Nat}

/-! ## Where a token stands last -/

/-- The index at which a token stands last in a sequence. -/
def lastIndex? (t : Token) (ts : List Token) : Option Nat :=
  (ts.reverse.idxOf? t).map fun i => ts.length - 1 - i

theorem lastIndex?_concat (t u : Token) (ts : List Token) :
    lastIndex? t (ts ++ [u]) = if u = t then some ts.length else lastIndex? t ts := by
  rw [lastIndex?, List.reverse_append, List.reverse_singleton, List.singleton_append, List.idxOf?_cons,
    List.length_append, List.length_singleton, Nat.add_sub_cancel]
  by_cases h : u = t
  · rw [if_pos h, if_pos (beq_iff_eq.2 h)]
    rfl
  · rw [if_neg h, if_neg (mt beq_iff_eq.1 h), Option.map_map, lastIndex?]
    congr 1
    funext i
    show ts.length - (i + 1) = ts.length - 1 - i
    omega

theorem lastIndex?_eq_none_iff : lastIndex? t ts = none ↔ t ∉ ts := by
  rw [lastIndex?, Option.map_eq_none_iff, List.idxOf?_eq_none_iff, List.mem_reverse]

theorem lastIndex?_eq_some_iff :
    lastIndex? t ts = some i ↔ ∃ before after, ts = before ++ t :: after ∧ before.length = i ∧ t ∉ after := by
  induction ts using List.reverseRecOn with
  | nil => simp [lastIndex?]
  | append_singleton ts u ih =>
    rw [lastIndex?_concat]
    simp only [concat_eq_append_cons_iff]
    by_cases h : u = t
    · rw [if_pos h, Option.some_inj]
      constructor
      · exact fun hi => ⟨ts, [], .inl ⟨rfl, rfl, h⟩, hi, List.not_mem_nil⟩
      · rintro ⟨before, after, ⟨rfl, rfl, -⟩ | ⟨rest, rfl, -⟩, hi, hafter⟩
        · exact hi
        · exact absurd (List.mem_append_right rest (List.mem_singleton.2 h.symm)) hafter
    · rw [if_neg h, ih]
      constructor
      · rintro ⟨before, after, hts, hi, hafter⟩
        refine ⟨before, after ++ [u], .inr ⟨after, rfl, hts⟩, hi, fun hmem => ?_⟩
        rcases List.mem_append.1 hmem with hmem | hmem
        · exact hafter hmem
        · exact h (List.mem_singleton.1 hmem).symm
      · rintro ⟨before, after, ⟨-, -, hu⟩ | ⟨rest, rfl, hts⟩, hi, hafter⟩
        · exact absurd hu h
        · exact ⟨before, rest, hts, hi, fun hmem => hafter (List.mem_append_left _ hmem)⟩

theorem lt_length_of_lastIndex? (h : lastIndex? t ts = some i) : i < ts.length := by
  obtain ⟨before, after, rfl, rfl, -⟩ := lastIndex?_eq_some_iff.1 h
  rw [List.length_append, List.length_cons]
  omega

/-- A token stands last before a place, or nowhere, if and only if it does not stand behind the place. -/
theorem all_lastIndex?_append_iff : (lastIndex? t (ts ++ us)).all (· < ts.length) = true ↔ t ∉ us := by
  induction us using List.reverseRecOn with
  | nil =>
    rw [List.append_nil]
    refine iff_of_true ?_ List.not_mem_nil
    cases hi : lastIndex? t ts with
    | none => rfl
    | some i => exact decide_eq_true (lt_length_of_lastIndex? hi)
  | append_singleton us u ih =>
    rw [← List.append_assoc, lastIndex?_concat]
    by_cases h : u = t
    · rw [if_pos h]
      exact iff_of_false (by simp) (by simp [h])
    · rw [if_neg h, ih, List.mem_append, List.mem_singleton, or_iff_left (Ne.symm h)]

/-- How many tokens a sequence has up to its last closing, and with it. -/
def closedLength (ts : List Token) : Nat := (lastIndex? .beamClose ts).elim 0 (· + 1)

theorem eq_beamClose_of_getLast?_take (ts : List Token) :
    ∀ t ∈ (ts.take (closedLength ts)).getLast?, t = .beamClose := by
  intro t ht
  rw [closedLength] at ht
  cases hi : lastIndex? .beamClose ts with
  | none =>
    rw [hi] at ht
    cases ht
  | some i =>
    obtain ⟨before, after, rfl, rfl, -⟩ := lastIndex?_eq_some_iff.1 hi
    rw [hi, Option.elim_some, ← List.singleton_append, ← List.append_assoc, List.take_left' (by simp),
      List.getLast?_concat] at ht
    exact (Option.some.inj ht).symm

theorem beamClose_not_mem_drop (ts : List Token) : .beamClose ∉ ts.drop (closedLength ts) := by
  rw [closedLength]
  cases hi : lastIndex? .beamClose ts with
  | none => exact lastIndex?_eq_none_iff.1 hi
  | some i =>
    obtain ⟨before, after, rfl, rfl, hafter⟩ := lastIndex?_eq_some_iff.1 hi
    rwa [Option.elim_some, ← List.singleton_append, ← List.append_assoc, List.drop_left' (by simp)]

/-! ## One round -/

/-- Takes the last opening out, if the last closing, if there is any, stands before it. -/
def takeOut? (ts : List Token) : Option (List Token) :=
  (lastIndex? .beamOpen ts).bind fun i =>
    if (lastIndex? .beamClose ts).all (· < i) then some (ts.eraseIdx i) else none

theorem eraseIdx_append_cons (before after : List Token) (t : Token) :
    (before ++ t :: after).eraseIdx before.length = before ++ after := by
  rw [List.eraseIdx_append_of_length_le (Nat.le_refl _), Nat.sub_self, List.eraseIdx_cons_zero]

/-- The last closing stands before an opening, or nowhere, if and only if no closing stands behind the opening. -/
theorem all_lastIndex?_beamClose_iff (before after : List Token) :
    (lastIndex? .beamClose (before ++ .beamOpen :: after)).all (· < before.length) = true ↔ .beamClose ∉ after := by
  rw [all_lastIndex?_append_iff, List.mem_cons, or_iff_right (by decide)]

/-- What a round takes out is an opening with no beam mark behind it. -/
theorem takeOut?_eq_some_iff :
    takeOut? ts = some us ↔ ∃ before after, ts = before ++ .beamOpen :: after ∧ us = before ++ after ∧
      .beamOpen ∉ after ∧ .beamClose ∉ after := by
  rw [takeOut?, Option.bind_eq_some_iff]
  constructor
  · rintro ⟨i, hi, h⟩
    obtain ⟨before, after, rfl, rfl, ho⟩ := lastIndex?_eq_some_iff.1 hi
    obtain ⟨hall, hus⟩ := Option.ite_none_right_eq_some.1 h
    rw [eraseIdx_append_cons] at hus
    exact ⟨before, after, rfl, (Option.some.inj hus).symm, ho, (all_lastIndex?_beamClose_iff before after).1 hall⟩
  · rintro ⟨before, after, rfl, rfl, ho, hc⟩
    refine ⟨before.length, lastIndex?_eq_some_iff.2 ⟨before, after, rfl, rfl, ho⟩, ?_⟩
    rw [if_pos ((all_lastIndex?_beamClose_iff before after).2 hc), eraseIdx_append_cons]

/-- Nothing is taken out where no opening stands behind the last closing. -/
theorem takeOut?_eq_none (hclosed : ∀ t ∈ closed.getLast?, t = .beamClose) (h : .beamOpen ∉ opened) :
    takeOut? (closed ++ opened) = none := by
  refine Option.eq_none_iff_forall_ne_some.2 fun us hus => ?_
  obtain ⟨before, after, heq, -, -, hc⟩ := takeOut?_eq_some_iff.1 hus
  rcases List.eq_nil_or_concat closed with rfl | ⟨front, t, rfl⟩
  · rw [List.nil_append] at heq
    exact h (heq ▸ List.mem_append_right before List.mem_cons_self)
  · -- the last closing stands before the opening that is taken out, or behind it
    rw [List.concat_eq_append] at heq hclosed
    obtain rfl := hclosed t List.getLast?_concat
    rw [List.append_assoc, List.singleton_append] at heq
    rcases List.append_eq_append_iff.1 heq with ⟨gap, -, hgap⟩ | ⟨gap, -, hgap⟩
    · rcases List.cons_eq_append_iff.1 hgap with ⟨-, hhead⟩ | ⟨gap, -, rfl⟩
      · cases hhead
      · exact h (List.mem_append_right gap List.mem_cons_self)
    · rcases List.cons_eq_append_iff.1 hgap with ⟨-, hhead⟩ | ⟨gap, -, rfl⟩
      · cases hhead
      · exact hc (List.mem_append_right gap List.mem_cons_self)

/-! ## All rounds -/

/-- So many rounds lead from a sequence to one from which nothing is taken out. -/
inductive Rounds : Nat → List Token → List Token → Prop
  | stop {ts : List Token} : takeOut? ts = none → Rounds 0 ts ts
  | next {n : Nat} {ts us vs : List Token} : takeOut? ts = some us → Rounds n us vs → Rounds (n + 1) ts vs

theorem Rounds.unique (h : Rounds m ts us) (h' : Rounds n ts vs) : m = n ∧ us = vs := by
  induction h generalizing n with
  | stop hstop =>
    cases h' with
    | stop => exact ⟨rfl, rfl⟩
    | next hnext => cases hstop.symm.trans hnext
  | next hnext _ ih =>
    cases h' with
    | stop hstop => cases hstop.symm.trans hnext
    | next hnext' h' =>
      cases hnext.symm.trans hnext'
      obtain ⟨rfl, rfl⟩ := ih h'
      exact ⟨rfl, rfl⟩

/-- Every opening behind the last closing takes one round. -/
theorem rounds_append (hclosed : ∀ t ∈ closed.getLast?, t = .beamClose) (h : .beamClose ∉ opened) :
    Rounds (opened.count .beamOpen) (closed ++ opened) (closed ++ opened.filter (· != .beamOpen)) := by
  generalize hn : opened.count .beamOpen = n
  induction n generalizing opened with
  | zero =>
    have ho : Token.beamOpen ∉ opened := List.count_eq_zero.1 hn
    have hfilter : opened.filter (· != .beamOpen) = opened :=
      List.filter_eq_self.2 fun t ht => bne_iff_ne.2 (ne_of_mem_of_not_mem ht ho)
    rw [hfilter]
    exact .stop (takeOut?_eq_none hclosed ho)
  | succ n ih =>
    have hmem : Token.beamOpen ∈ opened := List.count_pos_iff.1 (hn ▸ Nat.succ_pos n)
    obtain ⟨i, hi⟩ := Option.ne_none_iff_exists'.1 (mt lastIndex?_eq_none_iff.1 (not_not.2 hmem))
    obtain ⟨before, after, rfl, -, ho⟩ := lastIndex?_eq_some_iff.1 hi
    have hc : Token.beamClose ∉ before ++ after := fun hmem => h (by simpa using hmem)
    have hround : takeOut? (closed ++ (before ++ .beamOpen :: after)) = some (closed ++ (before ++ after)) :=
      takeOut?_eq_some_iff.2 ⟨closed ++ before, after, by simp, by simp, ho, fun hmem =>
        hc (List.mem_append_right before hmem)⟩
    have hfilter : (before ++ .beamOpen :: after).filter (· != .beamOpen) =
        (before ++ after).filter (· != .beamOpen) := by simp
    rw [hfilter]
    rw [List.count_append, List.count_cons_self, ← Nat.add_assoc, ← List.count_append] at hn
    exact .next hround (ih hc (Nat.succ.inj hn))

/-! ## The result -/

/-- **Tidying leaves everything up to the last closing, and everything behind it but the openings.** Taking the openings
out one by one comes to an end, after one round for each of them, and leaves the same. Tidying what is tidy changes
nothing, and without a status that says that a beam is open nothing is tidied. -/
theorem tidyBeams_eq_take_append_filter (status : Option TailStatus) (ts : List Token) :
    (status.any (·.beamOpen) = true →
        tidyBeams status ts =
            ts.take (closedLength ts) ++ (ts.drop (closedLength ts)).filter (· != .beamOpen) ∧
          ∀ n us, Rounds n ts us ↔
            n = (ts.drop (closedLength ts)).count .beamOpen ∧ us = tidyBeams status ts) ∧
      (status.any (·.beamOpen) = false → tidyBeams status ts = ts) ∧
      tidyBeams status (tidyBeams status ts) = tidyBeams status ts := by
  cases hstatus : status.any (·.beamOpen) with
  | false =>
    have hsame (ts : List Token) : tidyBeams status ts = ts := tidyBeams_of_closed hstatus
    exact ⟨fun h => (Bool.false_ne_true h).elim, fun _ => hsame ts, hsame _⟩
  | true =>
    have hts := List.take_append_drop (closedLength ts) ts
    have hclosed := eq_beamClose_of_getLast?_take ts
    have hopened := beamClose_not_mem_drop ts
    generalize ts.take (closedLength ts) = closed at hts hclosed ⊢
    generalize ts.drop (closedLength ts) = opened at hts hopened ⊢
    subst hts
    have hrounds := rounds_append hclosed hopened
    have hfiltered : .beamClose ∉ opened.filter (· != .beamOpen) := fun h => hopened (List.mem_of_mem_filter h)
    rw [tidyBeams_append_of_open hstatus hopened hclosed, tidyBeams_append_of_open hstatus hfiltered hclosed,
      List.filter_filter]
    refine ⟨fun _ => ⟨rfl, fun n us => ⟨fun h => h.unique hrounds, ?_⟩⟩, fun h => (Bool.false_ne_true h.symm).elim, ?_⟩
    · rintro ⟨rfl, rfl⟩
      exact hrounds
    · simp only [Bool.and_self]

/-- Two openings stand behind the last closing and go; the one before it stays. -/
theorem tidyBeams_eq_take_append_filter_twoOpenings :
    let status : Option TailStatus := some { beamOpen := true }
    let ts : List Token := [.bom, .pitchC, .d8, .beamOpen, .pitchC, .d8, .beamClose, .pitchC, .d8, .beamOpen, .pitchC,
      .d8, .beamOpen, .vb]
    let tidy : List Token := [.bom, .pitchC, .d8, .beamOpen, .pitchC, .d8, .beamClose, .pitchC, .d8, .pitchC, .d8, .vb]
    status.any (·.beamOpen) = true ∧ tidyBeams status ts = tidy ∧ Rounds 2 ts tidy ∧ tidyBeams status tidy = tidy := by
  intro status ts tidy
  obtain ⟨hopen, -, hagain⟩ := tidyBeams_eq_take_append_filter status ts
  obtain ⟨htidy, hrounds⟩ := hopen rfl
  have htidy : tidyBeams status ts = tidy := htidy.trans (by decide)
  rw [htidy] at hagain
  exact ⟨rfl, htidy, (hrounds 2 tidy).2 ⟨by decide, htidy.symm⟩, hagain⟩

end ScoreDecoding.Repair
