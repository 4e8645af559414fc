import ScoreDecoding.Double.Natural
import ScoreDecoding.Json.Decode
import ScoreDecoding.Proofs.JsonText

/-!
# Fields are read back

A record is written as an object with its fields in order. Each field is written as a word, a text, an integer, or a
list or record of such, and the reader of the field gives the same value back.

- `Plain` are the values that records are written as; they can be written as texts (`Plain.wellFormed`), and nothing in
  them is unreadable (`Plain.isSound`), since integers of 64 bits are also finite doubles (`isSome_toFloat?_ofInt`);
- `record?_object`: the fields of an object that are known are found, by name;
- `nullable?_ofOption` and `list?_map`: an optional field and a list are read back if what they hold is.
-/

namespace ScoreDecoding.Json

/-! ## Integers -/

namespace Numeral

/-- The digits of a number other than zero do not begin with zero. -/
theorem head?_toDigits {n : Nat} (hn : n ≠ 0) : (Nat.toDigits 10 n).head? ≠ some '0' := by
  induction n using Nat.strongRecOn with
  | ind n ih =>
    by_cases hsmall : n < 10
    · have hdigits : ∀ n < 10, n ≠ 0 → n.digitChar ≠ '0' := by decide
      rw [Nat.toDigits_of_lt_base hsmall]
      exact fun h => hdigits n hsmall hn (Option.some.inj h)
    · have hhead := ih (n / 10) (by omega) (by omega)
      rw [Nat.toDigits_of_base_le (by decide) (by omega), List.head?_append]
      rwa [List.head?_eq_some_head Nat.toDigits_ne_nil] at hhead ⊢

theorem wellFormed_ofInt (n : Int) : (ofInt n).WellFormed := by
  refine ⟨?_, (fun _ hd => nomatch hd), (fun _ hd => nomatch hd), fun _ => rfl⟩
  show Nat.toDigits 10 n.natAbs = ['0'] ∨ _
  by_cases hn : n.natAbs = 0
  · rw [hn]
    exact .inl (Nat.toDigits_zero 10)
  · obtain ⟨c, cs, hcs⟩ := List.exists_cons_of_ne_nil (@Nat.toDigits_ne_nil n.natAbs 10)
    have hhead := head?_toDigits hn
    rw [hcs] at hhead
    refine .inr ⟨c, cs, hcs, fun hc => hhead (congrArg some hc), fun d hd => ?_⟩
    exact Nat.isDigit_of_mem_toDigits (by decide) (by decide) (hcs ▸ hd)

theorem le_ofDigitChars (cs : List Char) (n : Nat) : n ≤ Nat.ofDigitChars 10 cs n := by
  rw [Nat.ofDigitChars_eq_ofDigitChars_zero]
  exact (Nat.le_mul_of_pos_left n (by positivity)).trans (Nat.le_add_right _ _)

/-- Digits that spell a number of 64 bits are all taken. -/
theorem takeDigits_eq {cs : List Char} {n : Nat} (h : Nat.ofDigitChars 10 cs n < UInt64.size) :
    takeDigits n cs = (Nat.ofDigitChars 10 cs n, []) := by
  induction cs generalizing n with
  | nil => rfl
  | cons c cs ih =>
    rw [Nat.ofDigitChars_cons] at h ⊢
    rw [takeDigits, if_pos ((le_ofDigitChars cs _).trans_lt h)]
    exact ih h

theorem scale?_zero (x : Float) : scale? x 0 = if x.isInf then none else some x := by
  have hone : powerOfTen 0 = 1 := rfl
  rw [scale?, if_pos (Int.le_refl 0), if_pos (by decide)]
  dsimp only
  rw [Int.toNat_zero, hone, Double.mul_one]

/-- Integers of 64 bits are read as doubles. -/
theorem isSome_toFloat?_ofInt {n : Int} (hn : n.natAbs < UInt64.size) : (ofInt n).toFloat?.isSome = true := by
  have hspelled : Nat.ofDigitChars 10 (Nat.toDigits 10 n.natAbs) 0 = n.natAbs := Nat.ofDigitChars_ten_toDigits
  have hwhole : takeDigits 0 (ofInt n).whole = (n.natAbs, []) := by
    refine (takeDigits_eq ?_).trans (congrArg (·, []) hspelled)
    exact hspelled.trans_lt hn
  rw [toFloat?, hwhole]
  show ((scale? (Float.ofNat n.natAbs) 0).map _).isSome = true
  rw [scale?_zero, Double.isInf_ofNat hn]
  rfl

end Numeral

/-! ## What records are written as -/

/-- Words, texts and integers of 64 bits, with at most `room` brackets open at once. -/
inductive Plain : Nat → Json → Prop
  | null {room : Nat} : Plain room .null
  | bool {room : Nat} (b : Bool) : Plain room (.bool b)
  | int {room : Nat} {n : Int} : n.natAbs < UInt64.size → Plain room (.int n)
  | text {room : Nat} (s : String) : Plain room (.text s)
  | arr {room : Nat} {items : List Json} : (∀ j ∈ items, Plain room j) → Plain (room + 1) (.arr items)
  | object {room : Nat} {fields : List (String × Json)} :
    (∀ f ∈ fields, Plain room f.2) → Plain (room + 1) (.object fields)

namespace Plain

variable {room : Nat}

theorem wellFormed {j : Json} (h : Plain room j) : j.WellFormed := by
  induction h with
  | null => exact .null
  | bool b => exact .bool b
  | int _ => exact .num (Numeral.wellFormed_ofInt _)
  | text s => exact .str _
  | arr _ ih => exact .arr ih
  | object _ ih => exact .obj (List.forall_mem_map.2 ih)

theorem areSound_iff {items : List Json} : areSound room items = true ↔ ∀ j ∈ items, j.isSound room = true := by
  induction items with
  | nil => simp [areSound]
  | cons j js ih => simp [areSound, ih]

theorem areSoundFields_iff {fields : List (Option String × Json)} :
    areSoundFields room fields = true ↔ ∀ f ∈ fields, f.1.isSome = true ∧ f.2.isSound room = true := by
  induction fields with
  | nil => simp [areSoundFields]
  | cons f fs ih => simp [areSoundFields, ih]

/-- Nothing is unreadable. -/
theorem isSound {j : Json} (h : Plain room j) : j.isSound room = true := by
  induction h with
  | null => rw [Json.isSound]
  | bool b => rw [Json.isSound]
  | int hn =>
    rw [Json.int, Json.isSound]
    exact Numeral.isSome_toFloat?_ofInt hn
  | text s => rw [Json.text, Json.isSound, Option.isSome_some]
  | arr _ ih =>
    rw [Json.isSound]
    exact areSound_iff.2 ih
  | object _ ih =>
    rw [Json.object, Json.isSound]
    exact areSoundFields_iff.2 (List.forall_mem_map.2 fun f hf => ⟨rfl, ih f hf⟩)

theorem ofOption {α : Type} {write : α → Json} (h : ∀ a, Plain room (write a)) (o : Option α) :
    Plain room (Json.ofOption write o) := by
  cases o with
  | none => exact .null
  | some a => exact h a

theorem uint8 (n : UInt8) : Plain room (.nat n.toNat) := .int (by have := n.toNat_lt; simp [UInt64.size]; omega)

theorem int8 (n : Int8) : Plain room (.int n.toInt) :=
  .int (by have := n.toInt_lt; have := n.le_toInt; simp [UInt64.size]; omega)

theorem int32 (n : Int32) : Plain room (.int n.toInt) :=
  .int (by have := n.toInt_lt; have := n.le_toInt; simp [UInt64.size]; omega)

theorem int64 (n : Int64) : Plain room (.int n.toInt) :=
  .int (by have := n.toInt_lt; have := n.le_toInt; simp [UInt64.size]; omega)

end Plain

attribute [simp] Plain.null Plain.bool Plain.text Plain.uint8 Plain.int8 Plain.int32 Plain.int64

/-! ## Words and integers -/

@[simp]
theorem bool?_bool (b : Bool) : bool? (.bool b) = some b := rfl

@[simp]
theorem text?_text (s : String) : text? (.text s) = some s := rfl

theorem int?_int (n : Int) : int? (.int n) = some n := Numeral.toInt?_ofInt n

@[simp]
theorem uint8?_nat (n : UInt8) : uint8? (.nat n.toNat) = some n := by
  have hn := n.toNat_lt
  simp [uint8?, natBelow?, nat, int?_int, UInt8.size, hn]

theorem intBetween?_int {low high n : Int} (hlow : low ≤ n) (hhigh : n ≤ high) :
    intBetween? low high (.int n) = some n := by
  simp [intBetween?, int?_int, hlow, hhigh]

@[simp]
theorem int8?_int (n : Int8) : int8? (.int n.toInt) = some n := by
  rw [int8?, intBetween?_int n.minValue_le_toInt n.toInt_le]
  exact congrArg some (Int8.ofInt_toInt n)

@[simp]
theorem int32?_int (n : Int32) : int32? (.int n.toInt) = some n := by
  rw [int32?, intBetween?_int n.minValue_le_toInt n.toInt_le]
  exact congrArg some (Int32.ofInt_toInt n)

@[simp]
theorem int64?_int (n : Int64) : int64? (.int n.toInt) = some n := by
  rw [int64?, intBetween?_int n.minValue_le_toInt n.toInt_le]
  exact congrArg some (Int64.ofInt_toInt n)

/-- One field is read, and then the others. -/
theorem bind_eq_of_eq {α β : Type} {field : Option α} {others : α → Option β} {a : α} {b : Option β}
    (hfield : field = some a) (hothers : others a = b) : (field >>= others) = b := by
  rw [hfield]
  exact hothers

/-! ## Options and lists -/

variable {α : Type} {read : Json → Option α} {write : α → Json}

/-- An optional field is read back if null is not read as what it holds. -/
theorem nullable?_ofOption (h : ∀ a, read (write a) = some a) (hnull : read .null = none) (o : Option α) :
    nullable? read (ofOption write o) = some o := by
  cases o with
  | none => rfl
  | some a =>
    have ha : nullable? read (write a) = (read (write a)).map some := by
      cases hwrite : write a with
      | null =>
        have hread := h a
        rw [hwrite, hnull] at hread
        cases hread
      | _ => rfl
    show nullable? read (write a) = _
    rw [ha, h]
    rfl

theorem list?_map (as : List α) (h : ∀ a ∈ as, read (write a) = some a) :
    list? read (.arr (as.map write)) = some as := by
  show readAll read (as.map write) = some as
  induction as with
  | nil => rfl
  | cons a as ih =>
    obtain ⟨ha, has⟩ := List.forall_mem_cons.1 h
    simp only [List.map_cons, readAll, ha, ih has, Option.bind_eq_bind, Option.bind_some, Option.pure_def]

/-! ## Records -/

theorem members?_object (fields : List (String × Json)) :
    members? (fields.map fun f => (some f.1, f.2)) = some fields := by
  induction fields with
  | nil => rfl
  | cons f fs ih =>
    show (members? (fs.map _)).map ((f.1, f.2) :: ·) = _
    rw [ih]
    rfl

/-- Of an object whose members have different names the known ones are found. -/
theorem record?_object {names : List String} {fields : List (String × Json)}
    (h : (fields.map (·.1)).Nodup) :
    record? names (object fields) = some (fields.filter fun f => names.contains f.1) := by
  have hknown : ((fields.filter fun f => names.contains f.1).map (·.1)).Nodup :=
    h.sublist (List.filter_sublist.map _)
  simp only [record?, object, members?_object, Option.bind_eq_bind, Option.bind_some, if_pos hknown]

/-- An object that has just the fields of a record. -/
theorem record?_object_of_map_eq {names : List String} {fields : List (String × Json)}
    (hnames : fields.map (·.1) = names) (h : names.Nodup) : record? names (object fields) = some fields := by
  have hall : fields.filter (fun f => names.contains f.1) = fields := by
    refine List.filter_eq_self.2 fun f hf => ?_
    simpa using hnames ▸ List.mem_map_of_mem hf
  rw [record?_object (hnames ▸ h), hall]

/-- A field that no member of an object has is not found. -/
theorem required_eq_none {names : List String} {fields : List (String × Json)} {r : Record}
    (hr : record? names (object fields) = some r) {name : String} (hname : name ∉ fields.map (·.1)) :
    r.required name read = none := by
  simp only [record?, object, members?_object, Option.bind_eq_bind, Option.bind_some] at hr
  split at hr
  · cases hr
    rw [Record.required, List.lookup_eq_none_iff.2]
    · rfl
    · intro f hf
      refine bne_iff_ne.2 fun heq => hname ?_
      exact heq ▸ List.mem_map_of_mem (List.mem_of_mem_filter hf)
  · cases hr

end ScoreDecoding.Json
