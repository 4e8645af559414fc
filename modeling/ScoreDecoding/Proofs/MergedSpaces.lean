import Mathlib
import ScoreDecoding.Proofs.Onsets

/-!
# Merging spaces keeps the time

A merge exchanges the spaces of a run for a longer one and for those that the longer one does not cover. Merging ends
when no run with a division shorter than a whole note is left.

- `Merge.covered_add_residue` and `lasting_merge`: what a merge takes out of a run it puts back as time;
- `exchanged_of_mergeOnce?`: one merge exchanges spaces for others that last as long;
- `hasRun_of_adjacent`: where two spaces with one division stand side by side, there is a run to be merged;
- `outside_combine`: what merging all runs keeps, and what it leaves.
-/

namespace ScoreDecoding.Spaces

/-! ## The arithmetic of a merge -/

/-- A longer rest covers `2 ^ (shift + 1) - 2 ^ (shift - dots)` spaces, and the others are left over. -/
theorem Merge.covered_add_residue (e : Nat) {n : Nat} (hn : 0 < n) :
    2 ^ ((of e n).shift + 1) + (of e n).residue = n + 2 ^ ((of e n).shift - (of e n).dots) := by
  simp only [Merge.of, Nat.one_shiftLeft]
  have hshift : 2 ^ min e n.log2 ≤ n := calc
    2 ^ min e n.log2 ≤ 2 ^ n.log2 := Nat.pow_le_pow_right (by omega) (Nat.min_le_right _ _)
    _ ≤ n := Nat.log2_self_le (by omega)
  have hlog3 : Nat.log2 3 = 1 := by decide
  have hlog7 : Nat.log2 7 = 2 := by decide
  generalize hs : min e n.log2 = s at hshift ⊢
  -- only runs of three and seven take dots, and no more than their shift
  by_cases h3 : n = 3
  · subst h3
    have hcases : s = 0 ∨ s = 1 := by omega
    rcases hcases with rfl | rfl <;> rfl
  · by_cases h7 : n = 7
    · subst h7
      have hcases : s = 0 ∨ s = 1 ∨ s = 2 := by omega
      rcases hcases with rfl | rfl | rfl <;> rfl
    · have hpos : 0 < 2 ^ s := Nat.two_pow_pos s
      have hdouble : 2 ^ (s + 1) = 2 ^ s + 2 ^ s := by rw [Nat.pow_succ, Nat.mul_two]
      simp only [if_neg h3, if_neg h7, Nat.zero_min, Nat.sub_zero]
      omega

theorem Merge.dots_le_shift (e n : Nat) : (of e n).dots ≤ (of e n).shift := Nat.min_le_right _ _

theorem Merge.shift_le (e n : Nat) : (of e n).shift ≤ e := Nat.min_le_left _ _

/-- A run lasts as long as the longer rest and the spaces left over. -/
theorem lasting_merge {e n : Nat} (hn : 0 < n) {d longer : Token} (hd : ValueTable.division.value? d = some (e : ℤ))
    (hlonger : ValueTable.division.value? longer = some ((e - (Merge.of e n).shift : Nat) : ℤ)) :
    lasting longer (Merge.of e n).dots + (Merge.of e n).residue * lasting d 0 = n * lasting d 0 := by
  have hcovered := Merge.covered_add_residue e hn
  have hdots := Merge.dots_le_shift e n
  have hshift := Merge.shift_le e n
  generalize Merge.of e n = m at *
  have htwo : (2 : ℚ) ≠ 0 := two_ne_zero
  have hd' := lasting_zero hd
  have hunit : (2 : ℚ) ^ (-((e - m.shift : Nat) : ℤ)) = 2 ^ m.shift * 2 ^ (-(e : ℤ)) := by
    rw [← zpow_natCast, ← zpow_add₀ htwo, Nat.cast_sub hshift]
    congr 1
    ring
  have hdotted : (2 : ℚ) ^ m.shift * (2 - 2 ^ (-(m.dots : ℤ))) = 2 ^ (m.shift + 1) - 2 ^ (m.shift - m.dots) := by
    have hhalves : (2 : ℚ) ^ m.shift * 2 ^ (-(m.dots : ℤ)) = 2 ^ (m.shift - m.dots) := by
      rw [← zpow_natCast, ← zpow_natCast, ← zpow_add₀ htwo, Nat.cast_sub hdots, sub_eq_add_neg]
    rw [mul_sub, hhalves, pow_succ]
  have hcount : (2 : ℚ) ^ (m.shift + 1) + m.residue = n + 2 ^ (m.shift - m.dots) := by exact_mod_cast hcovered
  calc lasting longer m.dots + m.residue * lasting d 0
      = 2 ^ m.shift * 2 ^ (-(e : ℤ)) * (2 - 2 ^ (-(m.dots : ℤ))) + m.residue * 2 ^ (-(e : ℤ)) := by
        rw [lasting, hlonger, hd', ← hunit]
    _ = (2 ^ m.shift * (2 - 2 ^ (-(m.dots : ℤ))) + m.residue) * 2 ^ (-(e : ℤ)) := by ring
    _ = (2 ^ (m.shift + 1) + m.residue - 2 ^ (m.shift - m.dots)) * 2 ^ (-(e : ℤ)) := by rw [hdotted, sub_add_eq_add_sub]
    _ = n * lasting d 0 := by rw [hcount, add_sub_cancel_right, hd']

/-! ## Runs -/

/-- The space without dots. -/
def plain (l d : Token) (hl : l.group = .letter) (hd : d.group = .division) : Block := ⟨l, d, 0, hl, hd⟩

theorem exponent?_eq_some {d : Token} {e : Nat} (h : exponent? d = some e) :
    ValueTable.division.value? d = some (e : ℤ) := by
  unfold exponent? at h
  split at h
  · rename_i v hv
    split at h
    · cases h
      rw [hv, Int.toNat_of_nonneg (by omega)]
    · cases h
  · cases h

/-- All spaces of a run begin with letters. -/
theorem group_of_mem_pieces {ts : List Token} {l : Token} {ls : List Token} {d : Token}
    (h : Piece.run l ls d ∈ pieces ts) : ∀ k ∈ l :: ls, k.group = .letter := by
  fun_induction pieces ts generalizing l ls d with
  | case1 => cases h
  | case2 t d' after ht ih =>
    unfold consSpace at h
    split at h
    · rename_i l' ls' d'' ps hps
      have hfirst := ih (hps ▸ List.mem_cons_self)
      have hrest := fun {p} (hp : p ∈ ps) => hps ▸ List.mem_cons_of_mem (Piece.run l' ls' d'') hp
      split at h
      · rcases List.mem_cons.1 h with h | h
        · cases h
          exact List.forall_mem_cons.2 ⟨ht, hfirst⟩
        · exact ih (hrest h)
      · rcases List.mem_cons.1 h with h | h
        · cases h
          exact List.forall_mem_singleton.2 ht
        · exact ih (hps ▸ h)
    · rcases List.mem_cons.1 h with h | h
      · cases h
        exact List.forall_mem_singleton.2 ht
      · exact ih h
  | case3 t d' after ht ih =>
    rcases List.mem_cons.1 h with h | h
    · cases h
    · exact ih h
  | case4 t rest hne ih =>
    rcases List.mem_cons.1 h with h | h
    · cases h
    · exact ih h

/-- Spaces with one division and given letters. -/
theorem exists_blocks {d : Token} (hd : d.group = .division) {ls : List Token} (hls : ∀ l ∈ ls, l.group = .letter) :
    ∃ bs : List Block, bs.length = ls.length ∧ ls.flatMap (space · d) = tokens bs ∧
      (bs.map Block.time).sum = ls.length * lasting d 0 := by
  induction ls with
  | nil => exact ⟨[], rfl, rfl, by simp⟩
  | cons l ls ih =>
    obtain ⟨hl, hls⟩ := List.forall_mem_cons.1 hls
    obtain ⟨bs, hlength, htokens, htime⟩ := ih hls
    refine ⟨plain l d hl hd :: bs, by rw [List.length_cons, hlength, List.length_cons], ?_, ?_⟩
    · rw [List.flatMap_cons, htokens]
      rfl
    · rw [List.map_cons, List.sum_cons, htime, List.length_cons, Nat.cast_succ, Block.time, plain]
      ring

/-- Merging a run exchanges its spaces. -/
theorem exists_blocks_of_exponent? {ts : List Token} {p : Piece} (hmem : p ∈ pieces ts) {e : Nat}
    (he : p.exponent? = some e) :
    ∃ bs cs : List Block, bs ≠ [] ∧ cs ≠ [] ∧ (bs.map Block.time).sum = (cs.map Block.time).sum ∧
      p.tokens = tokens bs ∧ p.merged e = tokens cs := by
  match p with
  | .run l (k :: ks) d =>
    have hvalue : ValueTable.division.value? d = some (e : ℤ) := exponent?_eq_some he
    have hd := group_of_value? hvalue
    have hls := group_of_mem_pieces hmem
    have hl := hls l List.mem_cons_self
    obtain ⟨bs, hlength, hbs, hbstime⟩ := exists_blocks hd hls
    set n := (k :: ks).length + 1 with hn
    obtain ⟨longer, hlonger⟩ := exists_division (k := e - (Merge.of e n).shift) (by have := exponent?_bounds he; omega)
    have hleft : ∀ l' ∈ List.replicate (Merge.of e n).residue l, l'.group = .letter :=
      fun l' hl' => List.eq_of_mem_replicate hl' ▸ hl
    obtain ⟨rs, -, hrs, hrstime⟩ := exists_blocks hd hleft
    refine ⟨bs, ⟨l, longer, (Merge.of e n).dots, hl, ValueTable.group_of_token? (g := .division) rfl hlonger⟩ :: rs,
      List.ne_nil_of_length_pos (by rw [hlength]; exact Nat.succ_pos _), List.cons_ne_nil _ _, ?_, hbs, ?_⟩
    · have hinjective := ValueTable.injective_of_table? (g := .division) rfl
      have hlongervalue := (ValueTable.token?_eq_some_iff hinjective).1 hlonger
      rw [hbstime, List.map_cons, List.sum_cons, hrstime, List.length_replicate, Block.time, List.length_cons, ← hn]
      exact (lasting_merge (Nat.succ_pos _) hvalue hlongervalue).symm
    · rw [tokens, List.flatMap_cons, ← tokens, ← hrs, List.flatMap_replicate]
      simp only [Piece.merged, ← hn, hlonger, Block.tokens, List.cons_append, List.append_assoc, List.nil_append]

/-- A merge is made at one place. -/
theorem mergeFirst_eq {e : Nat} {ps : List Piece} (h : ∃ p ∈ ps, p.exponent? = some e) :
    ∃ before p after, ps = before ++ p :: after ∧ p.exponent? = some e ∧
      mergeFirst e ps = before.flatMap Piece.tokens ++ (p.merged e ++ after.flatMap Piece.tokens) := by
  induction ps with
  | nil => simp at h
  | cons p ps ih =>
    by_cases hp : p.exponent? = some e
    · exact ⟨[], p, ps, rfl, hp, by rw [mergeFirst, if_pos hp]; rfl⟩
    · obtain ⟨before, q, after, rfl, hq, hmerge⟩ := ih (by simpa [hp] using h)
      refine ⟨p :: before, q, after, rfl, hq, ?_⟩
      rw [mergeFirst, if_neg hp, hmerge, List.flatMap_cons, List.append_assoc]

/-- One merge exchanges spaces for others that last as long. -/
theorem exchanged_of_mergeOnce? {ts us : List Token} (h : mergeOnce? ts = some us) : Exchanged ts us := by
  obtain ⟨e, he, rfl⟩ := Option.map_eq_some_iff.1 h
  have hrun : ∃ p ∈ pieces ts, p.exponent? = some e := by simpa using List.min?_mem he
  obtain ⟨before, p, after, hps, hp, hmerge⟩ := mergeFirst_eq hrun
  have hmem : p ∈ pieces ts := hps ▸ List.mem_append_right before List.mem_cons_self
  obtain ⟨bs, cs, hbs, hcs, htime, hold, hnew⟩ := exists_blocks_of_exponent? hmem hp
  refine ⟨before.flatMap Piece.tokens, bs, cs, after.flatMap Piece.tokens, hbs, hcs, htime, ?_, ?_⟩
  · have hts := tokens_pieces ts
    rw [hps, List.flatMap_append, List.flatMap_cons, hold] at hts
    exact hts.symm
  · rw [hmerge, hnew]

/-! ## What is left -/

/-- Some run of at least two spaces has a division. -/
def HasRun (d : Token) (ps : List Piece) : Prop := ∃ l k ks, Piece.run l (k :: ks) d ∈ ps

theorem HasRun.cons {d : Token} {ps : List Piece} (h : HasRun d ps) (p : Piece) : HasRun d (p :: ps) := by
  obtain ⟨l, k, ks, hmem⟩ := h
  exact ⟨l, k, ks, List.mem_cons_of_mem p hmem⟩

/-- A space in front makes a run longer or leaves it. -/
theorem HasRun.consSpace {d : Token} {ps : List Piece} (h : HasRun d ps) (l d' : Token) :
    HasRun d (consSpace l d' ps) := by
  obtain ⟨l', k, ks, hmem⟩ := h
  unfold Spaces.consSpace
  split
  · rename_i m ms d'' ps
    split
    · rcases List.mem_cons.1 hmem with hrun | hmem
      · cases hrun
        exact ⟨l, l', k :: ks, List.mem_cons_self⟩
      · exact ⟨l', k, ks, List.mem_cons_of_mem _ hmem⟩
    · exact ⟨l', k, ks, List.mem_cons_of_mem _ hmem⟩
  · exact ⟨l', k, ks, List.mem_cons_of_mem _ hmem⟩

/-- A run begins with every space. -/
theorem consSpace_eq (l d : Token) (ps : List Piece) : ∃ ls qs, consSpace l d ps = .run l ls d :: qs := by
  unfold consSpace
  split
  · split
    · rename_i hd
      subst hd
      exact ⟨_, _, rfl⟩
    · exact ⟨_, _, rfl⟩
  · exact ⟨_, _, rfl⟩

theorem pieces_space_append {l : Token} (hl : l.group = .letter) (d : Token) (ts : List Token) :
    pieces (space l d ++ ts) = consSpace l d (pieces ts) := by
  show pieces (l :: d :: .space :: ts) = _
  rw [pieces, if_pos hl]

/-- Two spaces with one division side by side belong to a run. -/
theorem hasRun_of_adjacent {l l' d : Token} (hl : l.group = .letter) (hl' : l'.group = .letter)
    (hd : d.group = .division) (front back : List Token) :
    HasRun d (pieces (front ++ (space l d ++ (space l' d ++ back)))) := by
  generalize hts : front ++ (space l d ++ (space l' d ++ back)) = ts
  fun_induction pieces ts generalizing front with
  | case1 => simp [space] at hts
  | case2 t d' after ht ih =>
    rcases front with _ | ⟨x, _ | ⟨y, _ | ⟨z, front⟩⟩⟩
    · obtain ⟨ls, qs, hrun⟩ := consSpace_eq l' d (pieces back)
      simp only [space, List.nil_append, List.cons_append, List.cons.injEq, true_and] at hts
      obtain ⟨rfl, rfl, rfl⟩ := hts
      have hpieces := pieces_space_append hl' d back
      simp only [space, List.cons_append, List.nil_append] at hpieces
      rw [hpieces, hrun]
      refine ⟨l, l', ls, ?_⟩
      rw [consSpace, if_pos rfl]
      exact List.mem_cons_self
    · -- the third token is the division, not the space sign
      simp only [space, List.cons_append, List.nil_append, List.cons.injEq] at hts
      cases hts.2.2.1 ▸ hd
    · simp only [space, List.cons_append, List.nil_append, List.cons.injEq] at hts
      cases hts.2.2.1 ▸ hl
    · simp only [List.cons_append, List.cons.injEq] at hts
      exact (ih front hts.2.2.2).consSpace t d'
  | case3 t d' after ht ih =>
    cases front with
    | nil => exact absurd ((List.cons.inj hts).1 ▸ hl) ht
    | cons x front => exact (ih front (List.cons.inj hts).2).cons _
  | case4 t rest hne ih =>
    cases front with
    | nil => exact absurd (List.cons.inj hts).2.symm (hne d _)
    | cons x front => exact (ih front (List.cons.inj hts).2).cons _

theorem eq_d1_of_exponent? : ∀ d : Token, d.group = .division → exponent? d = none → d = .d1 := by decide +kernel

/-- Where nothing is to be merged, spaces side by side that have one division last a whole note each. -/
theorem eq_d1_of_adjacent {ts : List Token} (h : mergeOnce? ts = none) {front back : List Token} {l l' d : Token}
    (hl : l.group = .letter) (hl' : l'.group = .letter) (hd : d.group = .division)
    (hts : ts = front ++ (space l d ++ (space l' d ++ back))) : d = .d1 := by
  have hnone : ∀ p ∈ pieces ts, p.exponent? = none := by
    simpa [mergeOnce?, longest?, List.filterMap_eq_nil_iff] using h
  obtain ⟨k, k', ks, hmem⟩ := hasRun_of_adjacent hl hl' hd front back
  exact eq_d1_of_exponent? d hd (hnone (.run k (k' :: ks) d) (hts ▸ hmem))

/-! ## Merging all runs -/

theorem mergeOnce?_combine (ts : List Token) : mergeOnce? (combine ts) = none := by
  fun_induction combine ts with
  | case1 ts h => exact h
  | case2 ts us h ih => exact ih

theorem reflTransGen_combine (ts : List Token) :
    Relation.ReflTransGen (fun us vs => mergeOnce? us = some vs) ts (combine ts) := by
  fun_induction combine ts with
  | case1 ts h => exact .refl
  | case2 ts us h ih => exact .head h ih

theorem combine_of_mergeOnce?_eq_none {ts : List Token} (h : mergeOnce? ts = none) : combine ts = ts := by
  unfold combine
  split
  · rfl
  · rename_i us hus
    cases h.symm.trans hus

/-- What each exchange of spaces keeps, merging all runs keeps. -/
theorem eq_combine {α : Type} {f : List Token → α} (hf : ∀ {us vs}, Exchanged us vs → f vs = f us) (ts : List Token) :
    f (combine ts) = f ts := by
  fun_induction combine ts with
  | case1 ts h => rfl
  | case2 ts us h ih => exact ih.trans (hf (exchanged_of_mergeOnce? h))

/-- Merging ends after some merges, with nothing to be merged. Then spaces side by side that have one division last a
whole note each. The tokens outside of spaces stay, in their order and at their times, each voice lasts as long as
before, and merging once more changes nothing. -/
theorem outside_combine (ts : List Token) :
    (Relation.ReflTransGen (fun us vs => mergeOnce? us = some vs) ts (combine ts) ∧ mergeOnce? (combine ts) = none) ∧
      (∀ front l l' d back, combine ts = front ++ (space l d ++ (space l' d ++ back)) →
        l.group = .letter → l'.group = .letter → d.group = .division → d = .d1) ∧
      outside (combine ts) = outside ts ∧
      ((combine ts).splitOn .vb).map duration = (ts.splitOn .vb).map duration ∧
      combine (combine ts) = combine ts := by
  have hend := mergeOnce?_combine ts
  refine ⟨⟨reflTransGen_combine ts, hend⟩, ?_, eq_combine Exchanged.outside_eq ts, eq_combine Exchanged.voices_eq ts,
    combine_of_mergeOnce?_eq_none hend⟩
  intro front l l' d back hts hl hl' hd
  exact eq_d1_of_adjacent hend hl hl' hd hts

example : combine [.pitchC, .d8, .space, .pitchE, .d8, .space, .pitchG, .d8, .space] =
    [.pitchC, .d4, .dot, .space] := by
  decide +kernel

end ScoreDecoding.Spaces
