import ScoreDecoding.Token.Group

/-!
# The bits of a set of tokens

Two words of 64 bits have a place for each token, in id order: the first word for the first 64 tokens, the second one
for the others. The last place of the second word belongs to no token. Sets are combined word by word, and that place
with the others; it has to stay free, or sets with the same tokens would not be equal.

- `Bits.bit` is the bit at a place of both words, and each operation is described by the bits of its result
  (`bit_insert`, `bit_inter`, ...); words with the same bits are equal (`eq_of_bit`);
- `Bits.Free` says that no bit is set that belongs to no token. Each operation keeps it.
-/

namespace ScoreDecoding

/-- Two words with a place for each token. -/
structure Token.Bits where
  low : UInt64
  high : UInt64
  deriving DecidableEq

namespace Token.Bits

/-- The word in which only the bit of one token is set. -/
def bitOf (t : Token) : UInt64 := 1 <<< UInt64.ofNat (t.id % 64)

/-- The word that has the place of a token. -/
def wordOf (b : Bits) (t : Token) : UInt64 := if t.id < 64 then b.low else b.high

/-- The words with that of one token changed. -/
def modify (b : Bits) (t : Token) (f : UInt64 → UInt64) : Bits :=
  if t.id < 64 then { b with low := f b.low } else { b with high := f b.high }

/-- Whether the bit of a token is set. -/
def contains (b : Bits) (t : Token) : Bool := b.wordOf t &&& bitOf t != 0

/-- The words without a set bit. -/
def empty : Bits := ⟨0, 0⟩

/-- The words with the bit of a token set. -/
def insert (b : Bits) (t : Token) : Bits := b.modify t (· ||| bitOf t)

/-- The words with the bit of a token cleared. -/
def erase (b : Bits) (t : Token) : Bits := b.modify t (· &&& ~~~bitOf t)

/-- The bits that are set in both. -/
def inter (b c : Bits) : Bits := ⟨b.low &&& c.low, b.high &&& c.high⟩

/-- The bits of the first that are not set in the second. -/
def diff (b c : Bits) : Bits := ⟨b.low &&& ~~~c.low, b.high &&& ~~~c.high⟩

/-- The number of bits that are set. -/
def count (b : Bits) : Nat := b.low.toBitVec.cpop.toNat + b.high.toBitVec.cpop.toNat

/-- Whether no bit is set. -/
def isEmpty (b : Bits) : Bool := b.low == 0 && b.high == 0

/-- The bit at a place of both words. -/
def bit (b : Bits) (n : Nat) : Bool :=
  if n < 64 then b.low.toBitVec.getLsbD n else b.high.toBitVec.getLsbD (n - 64)

/-- No bit is set that belongs to no token. -/
def Free (b : Bits) : Prop := ∀ n, Token.count ≤ n → b.bit n = false

/-! ## Bits -/

variable {b c : Bits} {t : Token} {n : Nat}

/-- Words with the same bits are equal. -/
theorem eq_of_bit (h : ∀ n, b.bit n = c.bit n) : b = c := by
  obtain ⟨bl, bh⟩ := b
  obtain ⟨cl, ch⟩ := c
  congr 1
  · refine UInt64.toBitVec_inj.1 (BitVec.eq_of_getLsbD_eq fun i hi => ?_)
    simpa [bit, hi] using h i
  · refine UInt64.toBitVec_inj.1 (BitVec.eq_of_getLsbD_eq fun i _ => ?_)
    simpa [bit, Nat.not_lt.2 (Nat.le_add_left 64 i)] using h (i + 64)

theorem toBitVec_bitOf (t : Token) : (bitOf t).toBitVec = BitVec.twoPow 64 (t.id % 64) := by
  have hlt : t.id % 64 < 2 ^ 64 := Nat.lt_trans (Nat.mod_lt _ (by decide)) (by decide : 64 < 2 ^ 64)
  have hamount : ((UInt64.ofNat (t.id % 64)).toBitVec % 64).toNat = t.id % 64 := by
    rw [UInt64.toBitVec_ofNat', BitVec.toNat_umod, BitVec.toNat_ofNat, Nat.mod_eq_of_lt hlt]
    exact Nat.mod_mod t.id 64
  rw [bitOf, UInt64.toBitVec_shiftLeft, BitVec.shiftLeft_eq', hamount]
  rfl

/-- The bit of a token is the only one of its word. -/
theorem getLsbD_bitOf (t : Token) (i : Nat) : (bitOf t).toBitVec.getLsbD i = decide (i = t.id % 64) := by
  rw [toBitVec_bitOf, BitVec.getLsbD_twoPow]
  simp [Nat.mod_lt, eq_comm]

/-- The word of a token and its bit are not disjoint just if the bit is set. -/
theorem contains_eq_bit : b.contains t = b.bit t.id := by
  have hword : b.contains t = (b.wordOf t).toBitVec.getLsbD (t.id % 64) := by
    have hpow : BitVec.twoPow 64 (t.id % 64) ≠ 0#64 := fun h => by
      have hbit := congrArg (BitVec.getLsbD · (t.id % 64)) h
      simp [Nat.mod_lt] at hbit
    rw [contains, Bool.eq_iff_iff, bne_iff_ne, ne_eq, ← UInt64.toBitVec_inj, UInt64.toBitVec_and, toBitVec_bitOf,
      BitVec.and_twoPow]
    cases (b.wordOf t).toBitVec.getLsbD (t.id % 64) <;> simp [hpow]
  have hlt : t.id < 127 := t.id_lt
  rw [hword, wordOf, bit]
  split
  · rw [Nat.mod_eq_of_lt ‹_›]
  · congr 1
    omega

theorem getLsbD_and_not (x y : BitVec 64) (i : Nat) :
    (x &&& ~~~y).getLsbD i = (x.getLsbD i && !y.getLsbD i) := by
  rw [BitVec.getLsbD_and, BitVec.getLsbD_not]
  by_cases hi : i < 64
  · rw [decide_eq_true hi, Bool.true_and]
  · rw [BitVec.getLsbD_of_ge x i (Nat.le_of_not_lt hi), Bool.false_and, Bool.false_and]

/-- What is done to the bit of a token is done to its place alone, if the other bits are kept. -/
theorem bit_modify {f : UInt64 → UInt64} (op : Bool → Bool → Bool)
    (hf : ∀ w i, (f w).toBitVec.getLsbD i = op (w.toBitVec.getLsbD i) ((bitOf t).toBitVec.getLsbD i))
    (hop : ∀ x, op x false = x) : (b.modify t f).bit n = op (b.bit n) (decide (n = t.id)) := by
  have hlt : t.id < 127 := t.id_lt
  simp only [getLsbD_bitOf] at hf
  by_cases ht : t.id < 64
  · by_cases hn : n < 64
    · simp only [modify, bit, if_pos ht, if_pos hn, hf, Nat.mod_eq_of_lt ht]
    · have hne : n ≠ t.id := by omega
      simp only [modify, bit, if_pos ht, if_neg hn, hne, decide_false, hop]
  · by_cases hn : n < 64
    · have hne : n ≠ t.id := by omega
      simp only [modify, bit, if_neg ht, if_pos hn, hne, decide_false, hop]
    · have hplace : n - 64 = t.id % 64 ↔ n = t.id := by omega
      simp only [modify, bit, if_neg ht, if_neg hn, hf, hplace]

@[simp] theorem bit_empty (n : Nat) : empty.bit n = false := by
  unfold bit
  split <;> exact BitVec.getLsbD_zero

@[simp] theorem bit_insert : (b.insert t).bit n = (b.bit n || decide (n = t.id)) :=
  bit_modify or (fun w i => by rw [UInt64.toBitVec_or, BitVec.getLsbD_or]) Bool.or_false

@[simp] theorem bit_erase : (b.erase t).bit n = (b.bit n && !decide (n = t.id)) :=
  bit_modify (fun x y => x && !y) (fun w i => getLsbD_and_not w.toBitVec (bitOf t).toBitVec i) Bool.and_true

@[simp] theorem bit_inter : (b.inter c).bit n = (b.bit n && c.bit n) := by
  unfold bit inter
  split <;> simp

@[simp] theorem bit_diff : (b.diff c).bit n = (b.bit n && !c.bit n) := by
  unfold bit diff
  split <;> exact getLsbD_and_not ..

/-! ## The free place -/

theorem free_empty : empty.Free := fun n _ => bit_empty n

theorem Free.insert (h : b.Free) : (b.insert t).Free := by
  intro n hn
  have hne : n ≠ t.id := fun he => absurd t.id_lt (by omega)
  rw [bit_insert, h n hn, decide_eq_false hne]
  rfl

theorem Free.erase (h : b.Free) : (b.erase t).Free := by
  intro n hn
  rw [bit_erase, h n hn, Bool.false_and]

theorem Free.inter (h : b.Free) : (b.inter c).Free := by
  intro n hn
  rw [bit_inter, h n hn, Bool.false_and]

theorem Free.diff (h : b.Free) : (b.diff c).Free := by
  intro n hn
  rw [bit_diff, h n hn, Bool.false_and]

/-- Words in which no other bit is set are equal if the bits of all tokens are. -/
theorem Free.eq (hb : b.Free) (hc : c.Free) (h : ∀ t, b.contains t = c.contains t) : b = c := by
  refine eq_of_bit fun n => ?_
  rcases Nat.lt_or_ge n Token.count with hn | hn
  · obtain ⟨t, rfl⟩ := Token.exists_id_eq hn
    rw [← contains_eq_bit, ← contains_eq_bit, h t]
  · rw [hb n hn, hc n hn]

end Token.Bits

end ScoreDecoding
