import Mathlib.Data.Fintype.Basic
import Mathlib.Data.Finset.Lattice.Fold
import ScoreDecoding.Proofs.Documents

/-!
# Sets of tokens as finite sets

However a set of tokens has been put together, its words hold just the bits of the tokens that the same operations on
finite sets give. So what is read off the words as a whole, their number of bits, whether they are zero and whether they
are equal, says the same as what is read off them token by token.

- `size_eq_length`: the bits of the words are counted, and there are as many as tokens;
- `TokenSet.read?_text_eq`: a set is read back from its text;
- `Expression` are the operations on sets, nested in any way, with `Expression.eval` on words and `Expression.tokens` on
  finite sets, and `faithful` compares the two.
-/

namespace ScoreDecoding

instance : Fintype Token := ⟨Token.all.toFinset, fun t => List.mem_toFinset.2 t.mem_all⟩

/-! ## Bits that are counted -/

/-- The bits of a word that are set are counted one by one. -/
theorem toNat_cpop_eq {w : Nat} (x : BitVec w) : x.cpop.toNat = (List.range w).countP (x.getLsbD ·) := by
  have hrec : ∀ n acc, x.cpopNatRec n acc = acc + (List.range n).countP (x.getLsbD ·) := by
    intro n
    induction n with
    | zero => exact fun acc => rfl
    | succ n ih =>
      intro acc
      rw [BitVec.cpopNatRec_succ, ih, List.range_succ, List.countP_append, List.countP_singleton, Nat.add_assoc,
        Nat.add_comm (x.getLsbD n).toNat]
      cases x.getLsbD n <;> rfl
  rw [BitVec.toNat_cpop, hrec, Nat.zero_add]

namespace Token.Bits

theorem count_eq (b : Bits) : b.count = (List.range (64 + 64)).countP b.bit := by
  have hlow : (List.range 64).countP (b.low.toBitVec.getLsbD ·) = (List.range 64).countP b.bit :=
    List.countP_congr fun n hn => by rw [bit, if_pos (List.mem_range.1 hn)]
  have hhigh : (List.range 64).countP (b.high.toBitVec.getLsbD ·) = (List.range 64).countP (b.bit ∘ (64 + ·)) :=
    List.countP_congr fun n _ => by simp [bit]
  rw [count, toNat_cpop_eq, toNat_cpop_eq, List.range_add, List.countP_append, List.countP_map, hlow, hhigh]

/-- Of words in which no other bit is set, the bits of tokens are counted. -/
theorem Free.count_eq {b : Bits} (h : b.Free) : b.count = Token.all.countP b.contains := by
  have hrange : List.range (64 + 64) = Token.all.map Token.id ++ [Token.count] := by
    rw [Token.map_id_all]
    exact List.range_succ
  rw [Bits.count_eq, hrange, List.countP_append, List.countP_singleton, h Token.count le_rfl, List.countP_map]
  refine List.countP_congr fun t _ => ?_
  rw [Function.comp_apply, contains_eq_bit]

end Token.Bits

namespace TokenSet

variable {s : TokenSet} {t : Token}

/-- There are as many bits as tokens. -/
theorem size_eq_length (s : TokenSet) : s.size = s.toList.length := by
  rw [size, s.free.count_eq, toList, List.countP_eq_length_filter]
  rfl

/-- A bit of the words is set just if it is that of a token of the set. -/
theorem bit_iff {n : Nat} : s.bits.bit n = true ↔ ∃ t ∈ s, t.id = n := by
  constructor
  · intro h
    have hn : n < Token.count := Nat.lt_of_not_le fun hn => by simp [s.free n hn] at h
    obtain ⟨t, rfl⟩ := Token.exists_id_eq hn
    exact ⟨t, mem_iff_bit.2 h, rfl⟩
  · rintro ⟨t, ht, rfl⟩
    exact mem_iff_bit.1 ht

/-- Tokens are listed by id, each once. -/
theorem pairwise_id_toList (s : TokenSet) : (s.toList.map Token.id).Pairwise (· < ·) := by
  have hsub : (s.toList.map Token.id).Sublist (Token.all.map Token.id) := List.filter_sublist.map Token.id
  rw [Token.map_id_all] at hsub
  exact List.pairwise_lt_range.sublist hsub

/-! ## Texts -/

theorem plain (s : TokenSet) {room : Nat} : Json.Plain (room + 1) s.toJson := .arr (by simp)

/-- A set is read back from the list of its tokens. -/
theorem ofJson?_toJson (s : TokenSet) : ofJson? s.toJson = some s := by
  rw [ofJson?, Token.listOfJson?, toJson, Json.list?_map _ fun t _ => Token.ofJson?_toJson t, Option.map_some,
    ofList_toList]

/-- A set is read back from its text. -/
theorem read?_text_eq (s : TokenSet) : read? s.text = some s := by
  rw [read?, text, Json.parse?_compact (@plain s 0).wellFormed]
  exact s.ofJson?_toJson

/-- A text of a set is one of a list of tokens. -/
theorem read?_eq_map (text : String) : read? text = (Token.readList? text).map ofList := by
  rw [read?, Token.readList?, Option.map_bind]
  rfl

/-! ## Operations -/

/-- Operations on sets, nested in any way. -/
inductive Expression
  | empty
  | full
  | ofList (ts : List Token)
  /-- What is read from a text that can be read. -/
  | read (text : String) (h : (TokenSet.read? text).isSome = true)
  | insert (e : Expression) (t : Token)
  | erase (e : Expression) (t : Token)
  | set (e : Expression) (t : Token) (present : Bool)
  | eraseGroup (e : Expression) (g : Token.Group)
  | inter (e f : Expression)
  | interAll {n : Nat} (es : Fin n → Expression)
  | diff (e f : Expression)

namespace Expression

/-- The set that the operations give. -/
def eval : Expression → TokenSet
  | empty => .empty
  | full => .full
  | ofList ts => .ofList ts
  | read text h => (TokenSet.read? text).get h
  | insert e t => e.eval.insert t
  | erase e t => e.eval.erase t
  | set e t present => e.eval.set t present
  | eraseGroup e g => e.eval.eraseGroup g
  | inter e f => e.eval.inter f.eval
  | interAll es => .interAll (List.ofFn fun i => (es i).eval)
  | diff e f => e.eval.diff f.eval

/-- The finite set that the same operations give. -/
def tokens : Expression → Finset Token
  | empty => ∅
  | full => Finset.univ
  | ofList ts => ts.toFinset
  | read text _ => ((Token.readList? text).getD []).toFinset
  | insert e t => Insert.insert t e.tokens
  | erase e t => e.tokens.erase t
  | set e t present => if present then Insert.insert t e.tokens else e.tokens.erase t
  | eraseGroup e g => e.tokens.filter fun t => t.group ≠ g
  | inter e f => e.tokens ∩ f.tokens
  | interAll es => Finset.univ.inf fun i => (es i).tokens
  | diff e f => e.tokens \ f.tokens

/-- Operations on words and on finite sets give the same tokens. -/
theorem mem_eval {e : Expression} : t ∈ e.eval ↔ t ∈ e.tokens := by
  induction e with
  | empty => simp [eval, tokens]
  | full => simp [eval, tokens]
  | ofList ts => simp [eval, tokens]
  | read text h =>
    have hread := read?_eq_map text
    cases hts : Token.readList? text with
    | none => simp [hread, hts] at h
    | some ts =>
      have heval : (read text h).eval = .ofList ts := Option.get_of_eq_some h (by rw [hread, hts]; rfl)
      simp [heval, tokens, hts]
  | insert e u ih => simp [eval, tokens, ih, or_comm]
  | erase e u ih => simp [eval, tokens, ih, and_comm]
  | set e u present ih => cases present <;> simp [eval, tokens, TokenSet.set, ih, or_comm, and_comm]
  | eraseGroup e g ih => simp [eval, tokens, ih]
  | inter e f ihe ihf => simp [eval, tokens, ihe, ihf]
  | interAll es ih => simp [eval, tokens, ih, Finset.mem_inf]
  | diff e f ihe ihf => simp [eval, tokens, ihe, ihf]

/-- **Sets of tokens are finite sets.** After any operations the words contain the tokens that the same operations on
finite sets give, and their bits are those of these tokens and no others. So they have as many bits as tokens, no bit
just if they contain no token, and are the same words as others just if they contain the same tokens. The tokens are
listed by id, each once, and the set is read back from its text. -/
theorem faithful (e f : Expression) :
    (∀ t, e.eval.contains t = true ↔ t ∈ e.tokens) ∧
      e.eval.size = e.tokens.card ∧
      (e.eval.isEmpty = true ↔ ∀ t, e.eval.contains t = false) ∧
      (∀ t, t ∈ e.eval.toList ↔ t ∈ e.tokens) ∧ (e.eval.toList.map Token.id).Pairwise (· < ·) ∧
      (∀ n, e.eval.bits.bit n = true ↔ ∃ t ∈ e.tokens, t.id = n) ∧
      (e.eval.bits = f.eval.bits ↔ ∀ t, e.eval.contains t = f.eval.contains t) ∧
      TokenSet.read? e.eval.text = some e.eval := by
  have hlist : e.eval.toList.toFinset = e.tokens := by
    ext t
    rw [List.mem_toFinset, mem_toList, mem_eval]
  refine ⟨fun t => mem_eval, ?_, ?_, fun t => mem_toList.trans mem_eval, e.eval.pairwise_id_toList, fun n => ?_, ?_,
    e.eval.read?_text_eq⟩
  · rw [size_eq_length, ← List.toFinset_card_of_nodup e.eval.nodup_toList, hlist]
  · simp only [isEmpty_iff, mem_iff, Bool.not_eq_true]
  · simp only [bit_iff, mem_eval]
  · exact ⟨fun h t => congrArg (·.contains t) h, e.eval.free.eq f.eval.free⟩

end Expression

end TokenSet

end ScoreDecoding
