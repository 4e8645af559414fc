import ScoreDecoding.Token.Bits

/-!
# Sets of tokens

A set of tokens is two words with one bit for each token of the alphabet, so that sets are combined word by word. The
decoders keep several of them at once: what the grammar allows next, what a guide allows, what the caller forbids.

- each operation is described by the tokens of its result (`mem_insert`, `mem_inter`, ...);
- two sets with the same tokens are equal (`ext`), a set without tokens is the empty one (`isEmpty_iff`);
- `toList` lists the tokens in id order (`mem_toList`), and `ofList` reads a list back (`ofList_toList`).
-/

namespace ScoreDecoding

/-- A set of tokens: the bit of a token says whether it is in the set, and no other bit is set. -/
structure TokenSet where
  bits : Token.Bits
  free : bits.Free
  deriving DecidableEq

namespace TokenSet

/-- Whether a token is in the set. -/
def contains (s : TokenSet) (t : Token) : Bool := s.bits.contains t

instance : Membership Token TokenSet := ⟨fun s t => s.contains t = true⟩

instance (t : Token) (s : TokenSet) : Decidable (t ∈ s) := inferInstanceAs (Decidable (s.contains t = true))

/-- The set without tokens. -/
def empty : TokenSet := ⟨.empty, Token.Bits.free_empty⟩

/-- The set with a token added. -/
def insert (s : TokenSet) (t : Token) : TokenSet := ⟨s.bits.insert t, s.free.insert⟩

/-- The set with a token taken out. -/
def erase (s : TokenSet) (t : Token) : TokenSet := ⟨s.bits.erase t, s.free.erase⟩

/-- The set with a token added or taken out. -/
def set (s : TokenSet) (t : Token) (present : Bool) : TokenSet :=
  if present then s.insert t else s.erase t

/-- The set with some tokens taken out. -/
def eraseAll (s : TokenSet) (ts : List Token) : TokenSet := ts.foldl erase s

/-- The set with a whole group taken out. -/
def eraseGroup (s : TokenSet) (g : Token.Group) : TokenSet := s.eraseAll g.tokens

/-- The tokens that are in both sets. -/
def inter (s u : TokenSet) : TokenSet := ⟨s.bits.inter u.bits, s.free.inter⟩

/-- The tokens of the first set that are not in the second. -/
def diff (s u : TokenSet) : TokenSet := ⟨s.bits.diff u.bits, s.free.diff⟩

/-- The set of the tokens of a list. -/
def ofList (ts : List Token) : TokenSet := ts.foldl insert empty

/-- The set of all tokens. -/
def full : TokenSet := ofList Token.all

/-- The tokens that are in every set of a list. -/
def interAll (sets : List TokenSet) : TokenSet := sets.foldl inter full

/-- The tokens of the set, in id order. -/
def toList (s : TokenSet) : List Token := Token.all.filter s.contains

/-- The set of the tokens with a property. -/
def ofPredicate (p : Token → Bool) : TokenSet := ofList (Token.all.filter p)

/-- The number of tokens in the set. -/
def size (s : TokenSet) : Nat := s.bits.count

/-- Whether the set has no token. -/
def isEmpty (s : TokenSet) : Bool := s.bits.isEmpty

/-! ## Membership -/

theorem mem_iff {s : TokenSet} {t : Token} : t ∈ s ↔ s.contains t = true := Iff.rfl

theorem mem_iff_bit {s : TokenSet} {t : Token} : t ∈ s ↔ s.bits.bit t.id = true := by
  rw [mem_iff, contains, Token.Bits.contains_eq_bit]

@[simp] theorem not_mem_empty (t : Token) : t ∉ empty := by simp [mem_iff_bit, empty]

@[simp] theorem mem_insert {s : TokenSet} {t u : Token} : u ∈ s.insert t ↔ u ∈ s ∨ u = t := by
  simp [mem_iff_bit, insert, Token.id_inj]

@[simp] theorem mem_erase {s : TokenSet} {t u : Token} : u ∈ s.erase t ↔ u ∈ s ∧ u ≠ t := by
  simp [mem_iff_bit, erase, Token.id_inj]

@[simp] theorem mem_set {s : TokenSet} {t u : Token} {present : Bool} :
    u ∈ s.set t present ↔ if u = t then present = true else u ∈ s := by
  cases present <;> by_cases h : u = t <;> simp [set, h]

theorem mem_foldl_set {s : TokenSet} {ts : List Token} {present : Bool} {u : Token} :
    u ∈ ts.foldl (fun s t => s.set t present) s ↔ if u ∈ ts then present = true else u ∈ s := by
  induction ts generalizing s with
  | nil => simp
  | cons t ts ih =>
    rw [List.foldl_cons, ih, mem_set]
    by_cases hu : u ∈ ts <;> simp [hu]

@[simp] theorem mem_eraseAll {s : TokenSet} {ts : List Token} {u : Token} : u ∈ s.eraseAll ts ↔ u ∈ s ∧ u ∉ ts := by
  induction ts generalizing s with
  | nil => simp [eraseAll]
  | cons t ts ih =>
    have h : s.eraseAll (t :: ts) = (s.erase t).eraseAll ts := rfl
    rw [h, ih, mem_erase, List.mem_cons, not_or, and_assoc]

@[simp] theorem mem_eraseGroup {s : TokenSet} {g : Token.Group} {u : Token} :
    u ∈ s.eraseGroup g ↔ u ∈ s ∧ u.group ≠ g := by
  rw [eraseGroup, mem_eraseAll, Token.Group.mem_tokens]

@[simp] theorem mem_inter {s u : TokenSet} {t : Token} : t ∈ s.inter u ↔ t ∈ s ∧ t ∈ u := by
  simp [mem_iff_bit, inter]

@[simp] theorem mem_diff {s u : TokenSet} {t : Token} : t ∈ s.diff u ↔ t ∈ s ∧ t ∉ u := by
  simp [mem_iff_bit, diff]

theorem mem_foldl_insert {s : TokenSet} {ts : List Token} {u : Token} : u ∈ ts.foldl insert s ↔ u ∈ s ∨ u ∈ ts := by
  induction ts generalizing s with
  | nil => simp
  | cons t ts ih => rw [List.foldl_cons, ih, mem_insert, List.mem_cons, or_assoc]

@[simp] theorem mem_ofList {ts : List Token} {u : Token} : u ∈ ofList ts ↔ u ∈ ts := by
  simp [ofList, mem_foldl_insert]

@[simp] theorem mem_full (t : Token) : t ∈ full := mem_ofList.2 t.mem_all

theorem mem_foldl_inter {s : TokenSet} {sets : List TokenSet} {t : Token} :
    t ∈ sets.foldl inter s ↔ t ∈ s ∧ ∀ u ∈ sets, t ∈ u := by
  induction sets generalizing s with
  | nil => simp
  | cons u us ih => rw [List.foldl_cons, ih, mem_inter, List.forall_mem_cons, and_assoc]

@[simp] theorem mem_interAll {sets : List TokenSet} {t : Token} : t ∈ interAll sets ↔ ∀ u ∈ sets, t ∈ u := by
  simp [interAll, mem_foldl_inter]

@[simp] theorem mem_toList {s : TokenSet} {t : Token} : t ∈ s.toList ↔ t ∈ s := by
  simp [toList, Token.mem_all, mem_iff]

@[simp] theorem mem_ofPredicate {p : Token → Bool} {t : Token} : t ∈ ofPredicate p ↔ p t = true := by
  simp [ofPredicate, Token.mem_all]

/-! ## Equality -/

/-- Sets with the same tokens are equal. -/
@[ext] theorem ext {s u : TokenSet} (h : ∀ t : Token, t ∈ s ↔ t ∈ u) : s = u := by
  obtain ⟨b, hb⟩ := s
  obtain ⟨c, hc⟩ := u
  obtain rfl : b = c := hb.eq hc fun t => Bool.eq_iff_iff.2 (h t)
  rfl

theorem isEmpty_iff {s : TokenSet} : s.isEmpty = true ↔ ∀ t : Token, t ∉ s := by
  have h : s.isEmpty = true ↔ s = empty := by
    obtain ⟨⟨low, high⟩, hfree⟩ := s
    simp [isEmpty, empty, Token.Bits.isEmpty, Token.Bits.empty]
  rw [h]
  exact ⟨fun h t => h ▸ not_mem_empty t, fun h => ext fun t => iff_of_false (h t) (not_mem_empty t)⟩

theorem ofList_toList (s : TokenSet) : ofList s.toList = s := ext fun t => by simp

theorem nodup_toList (s : TokenSet) : s.toList.Nodup := Token.nodup_all.filter _

end TokenSet

end ScoreDecoding
