import ScoreDecoding.Double.Dyadic
import ScoreDecoding.Measure.Padding
import ScoreDecoding.Proofs.MergedSpaces
import ScoreDecoding.Proofs.Ratios

/-!
# Padded voices end together

The voices of a measure are padded with invisible rests up to the longest of them. Where the times are counted in
divisions, from whole notes to 256th notes, they are compared and subtracted without rounding, and what is missing in a
voice is a number of rests of one division.

- `Ratio.OnGrid` are such times; `Ratio.OnGrid.value_lt_iff` compares and `Ratio.lowest_sub_of_onGrid` subtracts them;
- `longest_mem_and_le`: the longest time is found;
- `exists_rests`: the rests last as long as what is missing;
- `fills_padding`: with its rests, merged or not, each voice lasts as long as the longest one.
-/

namespace ScoreDecoding

/-! ## Times on the grid of divisions -/

namespace Ratio

open Double

variable {r s : Ratio}

/-- A time in divisions from a whole note to a 256th note, of which there are not too many to be counted by doubles. -/
structure OnGrid (r : Ratio) : Prop where
  denominator : ∃ k ≤ 8, r.denominator.toInt = 2 ^ k
  numerator : r.numerator.toInt.natAbs ≤ 2 ^ 40

instance (r : Ratio) : Decidable r.OnGrid :=
  decidable_of_iff (_ ∧ _)
    ⟨fun ⟨denominator, numerator⟩ => ⟨denominator, numerator⟩, fun h => ⟨h.denominator, h.numerator⟩⟩

theorem OnGrid.denominator_dvd (h : r.OnGrid) : r.denominator.toInt ∣ 2 ^ 8 := by
  obtain ⟨k, hk, hden⟩ := h.denominator
  exact hden ▸ pow_dvd_pow 2 hk

theorem OnGrid.denominator_ne (h : r.OnGrid) : r.denominator.toInt ≠ 0 := by
  obtain ⟨k, -, hden⟩ := h.denominator
  exact hden ▸ pow_ne_zero k two_ne_zero

/-- The quotient of the two parts is the number itself. -/
theorem OnGrid.hasValue_value (h : r.OnGrid) : HasValue r.value r.toRat := by
  obtain ⟨k, hk, hden⟩ := h.denominator
  have hle : 2 ^ k ≤ 2 ^ 53 := Nat.pow_le_pow_right Nat.two_pos (by omega)
  have hdenominator : IsInteger (ofInt64 r.denominator) (2 ^ k : Nat) := by
    rw [ofInt64, hden]
    exact_mod_cast isInteger_ofInt (k := (2 ^ k : Nat)) hle
  have hvalue := hasValue_div_two_pow (isInteger_ofInt (h.numerator.trans (by decide))) hdenominator
  rw [toRat, hden]
  exact_mod_cast hvalue

/-- Times are compared as the numbers are. -/
theorem OnGrid.value_lt_iff (hr : r.OnGrid) (hs : s.OnGrid) : r.value < s.value ↔ r.toRat < s.toRat :=
  hr.hasValue_value.lt_iff hs.hasValue_value

theorem OnGrid.neg (h : r.OnGrid) : (-r).OnGrid := by
  have hnum := h.numerator
  refine ⟨h.denominator, ?_⟩
  show (-r.numerator).toInt.natAbs ≤ 2 ^ 40
  rw [Int64.toInt_neg, Int.bmod_eq_of_le (by omega) (by omega), Int.natAbs_neg]
  exact hnum

/-- The integers on the way to a sum have 50 bits at most. -/
theorem OnGrid.sumInRange (hr : r.OnGrid) (hs : s.OnGrid) : r.SumInRange s := by
  have hdvd : Int.lcm r.denominator.toInt s.denominator.toInt ∣ 2 ^ 8 := by
    exact_mod_cast Int.lcm_dvd hr.denominator_dvd hs.denominator_dvd
  have hlcm : Int.lcm r.denominator.toInt s.denominator.toInt ≤ 2 ^ 8 := Nat.le_of_dvd (by decide) hdvd
  have hscaled {t : Ratio} (ht : t.OnGrid) :
      (t.numerator.toInt * Int.lcm r.denominator.toInt s.denominator.toInt).natAbs ≤ 2 ^ 40 * 2 ^ 8 := by
    rw [Int.natAbs_mul, Int.natAbs_natCast]
    exact Nat.mul_le_mul ht.numerator hlcm
  have hquotient (a b : Int) : (a / b).natAbs ≤ a.natAbs := Int.natAbs_ediv_le_natAbs a b
  have hden {t : Ratio} (ht : t.OnGrid) : t.denominator.toInt.natAbs ≤ 2 ^ 8 :=
    Nat.le_of_dvd (by decide) (Int.natAbs_dvd_natAbs.2 ht.denominator_dvd)
  refine ⟨?_, (hscaled hr).trans (by decide), (hscaled hs).trans (by decide), ?_⟩
  · rw [Int.natAbs_mul]
    exact (Nat.mul_le_mul (hden hr) (hden hs)).trans (by decide)
  · exact (Int.natAbs_add_le _ _).trans ((Nat.add_le_add ((hquotient _ _).trans (hscaled hr))
      ((hquotient _ _).trans (hscaled hs))).trans (by decide))

/-- A difference is exact. -/
theorem lowest_sub_of_onGrid (hr : r.OnGrid) (hs : s.OnGrid) :
    (r - s).Lowest ∧ (r - s).toRat = r.toRat - s.toRat := by
  obtain ⟨hlowest, hvalue⟩ := lowest_add hr.denominator_ne hs.neg.denominator_ne (hr.sumInRange hs.neg)
  rw [toRat_neg (hs.numerator.trans (by decide)), ← Rat.sub_eq_add_neg] at hvalue
  exact ⟨hlowest, hvalue⟩

/-- The denominator of a number in lowest terms divides every other one. -/
theorem Lowest.denominator_dvd (h : r.Lowest) {d i : Int} (hd : r.toRat * d = i) : r.denominator.toInt ∣ d := by
  have hne : (r.denominator.toInt : ℚ) ≠ 0 := by exact_mod_cast h.denominator_pos.ne'
  have hproduct : r.numerator.toInt * d = i * r.denominator.toInt := by
    rw [toRat, div_mul_eq_mul_div, div_eq_iff hne] at hd
    exact_mod_cast hd
  refine Int.dvd_of_dvd_mul_right_of_gcd_one ⟨i, ?_⟩ (Int.gcd_comm _ _ ▸ h.gcd_eq)
  rw [hproduct, mul_comm]

theorem OnGrid.exists_mul_eq (h : r.OnGrid) : ∃ i : Int, r.toRat * (2 ^ 8 : Int) = i := by
  obtain ⟨c, hc⟩ := h.denominator_dvd
  have hne : (r.denominator.toInt : ℚ) ≠ 0 := by exact_mod_cast h.denominator_ne
  refine ⟨r.numerator.toInt * c, ?_⟩
  rw [hc, toRat, Int.cast_mul, Int.cast_mul, ← mul_assoc, div_mul_cancel₀ _ hne]

/-- And it is counted in divisions as well. -/
theorem denominator_sub_of_onGrid (hr : r.OnGrid) (hs : s.OnGrid) : ∃ k ≤ 8, (r - s).denominator.toInt = 2 ^ k := by
  obtain ⟨hlowest, hvalue⟩ := lowest_sub_of_onGrid hr hs
  obtain ⟨i, hi⟩ := hr.exists_mul_eq
  obtain ⟨j, hj⟩ := hs.exists_mul_eq
  have hdvd : (r - s).denominator.toInt ∣ 2 ^ 8 :=
    hlowest.denominator_dvd (i := i - j) (by rw [hvalue, sub_mul, hi, hj, Int.cast_sub])
  obtain ⟨d, hd⟩ := Int.eq_ofNat_of_zero_le hlowest.denominator_pos.le
  rw [hd] at hdvd ⊢
  obtain ⟨k, hk, rfl⟩ := (Nat.dvd_prime_pow Nat.prime_two).1 (by exact_mod_cast hdvd)
  exact ⟨k, hk, by exact_mod_cast rfl⟩

end Ratio

namespace Measure

open Ratio Spaces

/-! ## The longest voice -/

theorem longest_cons (r s : Ratio) (rs : List Ratio) :
    longest r (s :: rs) = longest (if r.value < s.value then s else r) rs := rfl

/-- The longest of some times is one of them, and none is longer. -/
theorem longest_mem_and_le {r : Ratio} {rs : List Ratio} (h : ∀ s ∈ r :: rs, s.OnGrid) :
    longest r rs ∈ r :: rs ∧ ∀ s ∈ r :: rs, s.toRat ≤ (longest r rs).toRat := by
  induction rs generalizing r with
  | nil => exact ⟨List.mem_singleton_self r, fun s hs => List.mem_singleton.1 hs ▸ le_rfl⟩
  | cons s rs ih =>
    obtain ⟨hr, hs, hrs⟩ := (List.forall_mem_cons.1 h).imp_right List.forall_mem_cons.1
    have hlt := hr.value_lt_iff hs
    rw [longest_cons]
    split
    · rename_i hlonger
      obtain ⟨hmem, hle⟩ := ih (List.forall_mem_cons.2 ⟨hs, hrs⟩)
      have hrs' : r.toRat ≤ s.toRat := (hlt.1 hlonger).le
      exact ⟨List.mem_cons_of_mem r hmem, List.forall_mem_cons.2 ⟨hrs'.trans (hle s List.mem_cons_self), hle⟩⟩
    · rename_i hshorter
      obtain ⟨hmem, hle⟩ := ih (List.forall_mem_cons.2 ⟨hr, hrs⟩)
      have hsr : s.toRat ≤ r.toRat := not_lt.1 fun hlonger => hshorter (hlt.2 hlonger)
      obtain ⟨hr', hrs'⟩ := List.forall_mem_cons.1 hle
      refine ⟨?_, List.forall_mem_cons.2 ⟨hr', List.forall_mem_cons.2 ⟨hsr.trans hr', hrs'⟩⟩⟩
      rcases List.mem_cons.1 hmem with hmem | hmem
      · rw [hmem]
        exact List.mem_cons_self
      · exact List.mem_cons_of_mem r (List.mem_cons_of_mem s hmem)

/-! ## What is missing -/

/-- Each of the nine divisions is found. -/
theorem exists_divisionOf? {n : Int64} {k : Nat} (hk : k ≤ 8) (hn : n.toInt = 2 ^ k) :
    ∃ d, divisionOf? n = some d ∧ ValueTable.division.value? d = some (k : Int) := by
  have htable : ∀ k ≤ 8,
      (ValueTable.division.find? fun entry => ((1 <<< entry.1.toNat : Nat) : Int) == 2 ^ k).map (·.2) =
        ValueTable.division.token? (k : Nat) := by decide
  obtain ⟨d, hd⟩ := exists_division hk
  refine ⟨d, ?_, (ValueTable.token?_eq_some_iff (ValueTable.injective_of_table? (g := .division) rfl)).1 hd⟩
  rw [divisionOf?, hn, htable k hk, hd]

/-- A rest over and over lasts so many times as long. -/
theorem duration_replicate_space {l d : Token} (hl : l.group = .letter) (hd : d.group = .division) (n : Nat) :
    duration (List.replicate n (space l d)).flatten = n * lasting d 0 := by
  have hletters : ∀ k ∈ List.replicate n l, k.group = .letter := fun k hk => List.eq_of_mem_replicate hk ▸ hl
  obtain ⟨bs, -, htokens, htime⟩ := exists_blocks hd hletters
  rw [List.flatMap_replicate] at htokens
  rw [List.length_replicate] at htime
  rw [htokens, ← List.append_nil (Spaces.tokens bs), duration_tokens_append, htime, duration, add_zero]

/-- What is missing is filled by one rest over and over, which is not needed where nothing is missing. -/
theorem exists_rests {missing : Ratio} (hden : ∃ k ≤ 8, missing.denominator.toInt = 2 ^ k) (h : 0 ≤ missing.toRat) :
    (∃ n d, d.group = .division ∧ rests missing = (List.replicate n (space .pitchA d)).flatten) ∧
      duration (rests missing) = missing.toRat := by
  obtain ⟨k, hk, hden⟩ := hden
  have hpow : (0 : ℚ) < 2 ^ k := by positivity
  have hvalue : missing.toRat = missing.numerator.toInt / 2 ^ k := by
    rw [toRat, hden]
    push_cast
    rfl
  unfold rests
  split
  · rename_i hnone
    have hnumerator : (missing.numerator.toInt : ℚ) ≤ 0 := by exact_mod_cast Int64.le_iff_toInt_le.1 hnone
    refine ⟨⟨0, .d1, rfl, rfl⟩, ?_⟩
    rw [duration]
    exact le_antisymm h (hvalue ▸ div_nonpos_of_nonpos_of_nonneg hnumerator hpow.le)
  · rename_i hsome
    have hpos : 0 < missing.numerator.toInt := by
      rw [Int64.le_iff_toInt_le] at hsome
      exact not_le.1 hsome
    obtain ⟨d, hd, hexponent⟩ := exists_divisionOf? hk hden
    have hgroup := group_of_value? hexponent
    have hcount : ((missing.numerator.toInt.toNat : Nat) : ℚ) = missing.numerator.toInt := by
      exact_mod_cast Int.toNat_of_nonneg hpos.le
    rw [hd]
    refine ⟨⟨_, d, hgroup, rfl⟩, ?_⟩
    show duration (List.replicate missing.numerator.toInt.toNat (space .pitchA d)).flatten = _
    rw [duration_replicate_space rfl hgroup, lasting_zero hexponent, hcount, hvalue, zpow_neg, zpow_natCast,
      div_eq_mul_inv]

/-! ## Padding -/

/-- Some rests bring a voice up to a time. They are one rest over and over, and the voice lasts until then with them,
and also when they have been merged. -/
structure Fills (time : ℚ) (v : Voice) (rests : List Token) : Prop where
  repeated : ∃ n division, division.group = .division ∧ rests = (List.replicate n (space .pitchA division)).flatten
  eq_time : v.eventsTime.toRat + duration rests = time
  combined_eq_time : v.eventsTime.toRat + duration (combine rests) = time

/-- What is missing to a longer time fills a voice. -/
theorem fills_rests {r : Ratio} (hr : r.OnGrid) {v : Voice} (hv : v.eventsTime.OnGrid)
    (hle : v.eventsTime.toRat ≤ r.toRat) : Fills r.toRat v (rests (r - v.eventsTime)) := by
  have hvalue := (lowest_sub_of_onGrid hr hv).2
  obtain ⟨hrepeated, hduration⟩ := exists_rests (denominator_sub_of_onGrid hr hv) (hvalue ▸ sub_nonneg.2 hle)
  rw [hvalue] at hduration
  refine ⟨hrepeated, ?_, ?_⟩
  · rw [hduration, add_sub_cancel]
  · rw [eq_combine Exchanged.duration_eq, hduration, add_sub_cancel]

theorem padding_eq {m : Measure} {v w : Voice} {vs : List Voice} (h : m.voices = v :: w :: vs) :
    m.padding = m.voices.map fun u => rests (longest v.eventsTime ((w :: vs).map (·.eventsTime)) - u.eventsTime) := by
  rw [padding, h]
  simp

/-- **Padding makes all voices as long as the longest one.** Each voice is given one rest over and over, and the rests
may be merged. -/
theorem fills_padding {m : Measure} (hvoices : 2 ≤ m.voices.length) (hgrid : ∀ v ∈ m.voices, v.eventsTime.OnGrid) :
    ∃ time, IsGreatest {q | ∃ v ∈ m.voices, v.eventsTime.toRat = q} time ∧
      List.Forall₂ (Fills time) m.voices m.padding := by
  obtain ⟨v, ws, hm⟩ := List.exists_cons_of_length_pos (Nat.zero_lt_of_lt hvoices)
  obtain ⟨w, vs, rfl⟩ := List.exists_cons_of_length_pos (l := ws) (by
    rw [hm, List.length_cons] at hvoices
    omega)
  have htimes : v.eventsTime :: (w :: vs).map (·.eventsTime) = m.voices.map (·.eventsTime) := by rw [hm]; rfl
  obtain ⟨hmem, hle⟩ := longest_mem_and_le (htimes ▸ List.forall_mem_map.2 hgrid)
  rw [htimes] at hmem hle
  have hle := List.forall_mem_map.1 hle
  obtain ⟨u, hu, hlongest⟩ := List.mem_map.1 hmem
  rw [padding_eq hm, ← hlongest]
  rw [← hlongest] at hle
  refine ⟨u.eventsTime.toRat, ⟨⟨u, hu, rfl⟩, ?_⟩, ?_⟩
  · rintro q ⟨t, ht, rfl⟩
    exact hle t ht
  · rw [List.forall₂_map_right_iff]
    exact List.forall₂_same.2 fun t ht => fills_rests (hgrid u hu) (hgrid t ht) (hle t ht)

/-- Three voices; the longest time is not in lowest terms, and one time is below zero. -/
theorem fills_padding_threeVoices :
    let voices : List Voice := [{ eventsTime := ⟨1, 8⟩ }, { eventsTime := ⟨2, 4⟩ }, { eventsTime := ⟨-1, 4⟩ }]
    let m : Measure := { voices }
    (2 ≤ m.voices.length ∧ ∀ v ∈ m.voices, v.eventsTime.OnGrid) ∧
      m.padding = [(List.replicate 3 (space .pitchA .d8)).flatten, [], (List.replicate 3 (space .pitchA .d4)).flatten] ∧
      ∃ time, IsGreatest {q | ∃ v ∈ m.voices, v.eventsTime.toRat = q} time ∧
        List.Forall₂ (Fills time) m.voices m.padding := by
  intro voices m
  have hgrid : ∀ v ∈ m.voices, v.eventsTime.OnGrid := by decide
  exact ⟨⟨by decide, hgrid⟩, by decide +kernel, fills_padding (by decide) hgrid⟩

end Measure

end ScoreDecoding
