import ScoreDecoding.Json.Parser
import ScoreDecoding.Json.Printer

/-!
# Written values are read back

A value is written as a text, the text is cut into lexemes, and the lexemes are put together. The last two steps are
followed one after the other, each with anything else behind the value, because values stand in one another.

- `Json.WellFormed` are the values whose numerals are as the format asks for; any string may stand in them;
- `Lexeme.scan_chars`: the text of a value is cut into its `lexemes`;
- `Reader.reads_lexemes`: the lexemes of a value are put together to it, whatever brackets are open;
- `parse?_compact`: the text of a value is read as that value.
-/

namespace ScoreDecoding.Json

/-! ## What can be written -/

/-- The digits of a numeral are decimal, the whole part is not empty and begins with zero only if it is zero, and there
is no sign of an exponent that is not written. -/
structure Numeral.WellFormed (n : Numeral) : Prop where
  whole : n.whole = ['0'] ∨ ∃ c cs, n.whole = c :: cs ∧ c ≠ '0' ∧ ∀ d ∈ c :: cs, d.isDigit = true
  fraction : ∀ d ∈ n.fraction, d.isDigit = true
  exponent : ∀ d ∈ n.exponent, d.isDigit = true
  exponentNegative : n.exponent = [] → n.exponentNegative = false

/-- All numerals of a value are well-formed. -/
inductive WellFormed : Json → Prop
  | null : WellFormed .null
  | bool (b : Bool) : WellFormed (.bool b)
  | num {n : Numeral} : n.WellFormed → WellFormed (.num n)
  | str (s : Option String) : WellFormed (.str s)
  | arr {items : List Json} : (∀ j ∈ items, WellFormed j) → WellFormed (.arr items)
  | obj {fields : List (Option String × Json)} : (∀ f ∈ fields, WellFormed f.2) → WellFormed (.obj fields)

mutual

/-- The lexemes of a value. -/
def lexemes : Json → List Lexeme
  | .null => [.null]
  | .bool b => [.bool b]
  | .num n => [.num n]
  | .str s => [.str s]
  | .arr [] => [.arrayOpen, .arrayClose]
  | .arr (j :: js) => .arrayOpen :: lexemes j ++ itemLexemes js ++ [.arrayClose]
  | .obj [] => [.objectOpen, .objectClose]
  | .obj (f :: fs) =>
    .objectOpen :: .str f.1 :: .colon :: lexemes f.2 ++ fieldLexemes fs ++ [.objectClose]

/-- The further items of an array, each after a comma. -/
def itemLexemes : List Json → List Lexeme
  | [] => []
  | j :: js => .comma :: lexemes j ++ itemLexemes js

/-- The further members of an object, each after a comma. -/
def fieldLexemes : List (Option String × Json) → List Lexeme
  | [] => []
  | f :: fs => .comma :: .str f.1 :: .colon :: lexemes f.2 ++ fieldLexemes fs

end

/-! ## Scanning -/

/-- The lexemes of a text whose beginning has been scanned. -/
def scanFrom (s : Scanner) (cs : List Char) : Option (List Lexeme) := (s.run cs).bind Scanner.finish

theorem scanFrom_cons {s s' : Scanner} {c : Char} (h : s.step c = some s') (cs : List Char) :
    scanFrom s (c :: cs) = scanFrom s' cs := by
  rw [scanFrom, Scanner.run, h]
  rfl

/-- Characters are scanned as some lexemes if `rest` follows. -/
def Scans (cs : List Char) (ls : List Lexeme) (rest : List Char) : Prop :=
  ∀ seen, scanFrom ⟨seen, .nothing⟩ (cs ++ rest) = scanFrom ⟨ls.reverse ++ seen, .nothing⟩ rest

theorem Scans.nil (rest : List Char) : Scans [] [] rest := fun _ => rfl

theorem Scans.append {cs ds rest : List Char} {ls ms : List Lexeme} (h : Scans cs ls (ds ++ rest))
    (h' : Scans ds ms rest) : Scans (cs ++ ds) (ls ++ ms) rest := by
  intro seen
  rw [List.append_assoc, h, h', List.reverse_append, List.append_assoc]

/-- A character that is a lexeme. -/
theorem Scans.cons {c : Char} {l : Lexeme} {cs rest : List Char} {ls : List Lexeme}
    (hc : ∀ seen, Scanner.start ⟨seen, .nothing⟩ c = some ⟨l :: seen, .nothing⟩) (h : Scans cs ls rest) :
    Scans (c :: cs) (l :: ls) rest := by
  intro seen
  have hstep : Scanner.step ⟨seen, .nothing⟩ c = some ⟨l :: seen, .nothing⟩ := hc seen
  rw [List.cons_append, scanFrom_cons hstep, h, List.reverse_cons, List.append_assoc]
  rfl

/-! ### Strings -/

theorem hexValue?_hexDigit : ∀ n < 16, StringScan.hexValue? (hexDigit n) = some n := by decide

variable {seen : List Lexeme}

/-- A character in a string is written with a letter after a backslash, as a code unit, or as it is. -/
theorem escapeChar_spec (c : Char) :
    (∃ d, d ≠ 'u' ∧ StringScan.escape? d = some c ∧ escapeChar c = ['\\', d]) ∨
      (c.toNat < 0x20 ∧ escapeChar c = ['\\', 'u', '0', '0', hexDigit (c.toNat / 16), hexDigit (c.toNat % 16)]) ∨
      (c ≠ '"' ∧ c ≠ '\\' ∧ ¬ c.toNat < 0x20 ∧ escapeChar c = [c]) := by
  have hletters : ∀ c ∈ ['"', '\\', '\x08', '\x0c', '\n', '\r', '\t'],
      ∃ d, d ≠ 'u' ∧ StringScan.escape? d = some c ∧ escapeChar c = ['\\', d] := by
    simp only [List.forall_mem_cons, List.not_mem_nil, false_implies, implies_true, and_true]
    exact ⟨⟨'"', by decide, rfl, rfl⟩, ⟨'\\', by decide, rfl, rfl⟩, ⟨'b', by decide, rfl, rfl⟩,
      ⟨'f', by decide, rfl, rfl⟩, ⟨'n', by decide, rfl, rfl⟩, ⟨'r', by decide, rfl, rfl⟩, ⟨'t', by decide, rfl, rfl⟩⟩
  by_cases hmem : c ∈ ['"', '\\', '\x08', '\x0c', '\n', '\r', '\t']
  · exact .inl (hletters c hmem)
  · simp only [List.mem_cons, List.not_mem_nil, or_false, not_or] at hmem
    obtain ⟨hquote, hbackslash, hb, hf, hn, hr, ht⟩ := hmem
    simp only [escapeChar, if_neg hquote, if_neg hbackslash, if_neg hb, if_neg hf, if_neg hn, if_neg hr, if_neg ht]
    by_cases hcontrol : c.toNat < 0x20
    · exact .inr (.inl ⟨hcontrol, if_pos hcontrol⟩)
    · exact .inr (.inr ⟨hquote, hbackslash, hcontrol, if_neg hcontrol⟩)

/-- The code unit of a control character is that character. -/
theorem pushUnit_toNat {c : Char} (hc : c.toNat < 0x20) (r : StringScan) : r.pushUnit c.toNat = r.push c := by
  rw [StringScan.pushUnit, if_neg (by omega), if_neg (by omega), Char.ofNat_toNat]

/-- A written character is taken into the string. -/
theorem scanFrom_escapeChar (acc : List Char) (c : Char) (cs : List Char) :
    scanFrom ⟨seen, .str { chars := acc }⟩ (escapeChar c ++ cs) = scanFrom ⟨seen, .str { chars := c :: acc }⟩ cs := by
  rcases escapeChar_spec c with ⟨d, hd, hescape, heq⟩ | ⟨hcontrol, heq⟩ | ⟨hquote, hbackslash, hcontrol, heq⟩
  · have hbackslash : Scanner.step ⟨seen, .str { chars := acc }⟩ '\\' =
        some ⟨seen, .str { chars := acc, place := .escaped }⟩ := rfl
    have hletter : Scanner.step ⟨seen, .str { chars := acc, place := .escaped }⟩ d =
        some ⟨seen, .str { chars := c :: acc }⟩ := by
      simp only [Scanner.step, Scanner.stringStep, if_neg hd, hescape]
      rfl
    rw [heq, List.cons_append, List.singleton_append, scanFrom_cons hbackslash, scanFrom_cons hletter]
  · have hhigh := hexValue?_hexDigit (c.toNat / 16) (by omega)
    have hlow := hexValue?_hexDigit (c.toNat % 16) (by omega)
    have hzeros : ∀ ds, scanFrom ⟨seen, .str { chars := acc }⟩ ('\\' :: 'u' :: '0' :: '0' :: ds) =
        scanFrom ⟨seen, .str { chars := acc, place := .unit 2 0 }⟩ ds := fun _ => rfl
    have hfirst : Scanner.step ⟨seen, .str { chars := acc, place := .unit 2 0 }⟩ (hexDigit (c.toNat / 16)) =
        some ⟨seen, .str { chars := acc, place := .unit 1 (0 * 16 + c.toNat / 16) }⟩ := by
      simp only [Scanner.step, Scanner.stringStep, hhigh]
      rfl
    have hsecond : Scanner.step ⟨seen, .str { chars := acc, place := .unit 1 (0 * 16 + c.toNat / 16) }⟩
        (hexDigit (c.toNat % 16)) = some ⟨seen, .str { chars := c :: acc }⟩ := by
      have hvalue : (0 * 16 + c.toNat / 16) * 16 + c.toNat % 16 = c.toNat := by omega
      simp only [Scanner.step, Scanner.stringStep, hlow, Option.map_some, hvalue, pushUnit_toNat hcontrol]
      rfl
    simp only [heq, List.cons_append, List.nil_append, hzeros]
    rw [scanFrom_cons hfirst, scanFrom_cons hsecond]
  · refine (congrArg (scanFrom _ <| · ++ cs) heq).trans (scanFrom_cons ?_ cs)
    simp only [Scanner.step, Scanner.stringStep, if_neg hquote, if_neg hbackslash, if_neg hcontrol]
    rfl

theorem scanFrom_flatMap_escapeChar (acc ds cs : List Char) :
    scanFrom ⟨seen, .str { chars := acc }⟩ (ds.flatMap escapeChar ++ cs) =
      scanFrom ⟨seen, .str { chars := ds.reverse ++ acc }⟩ cs := by
  induction ds generalizing acc with
  | nil => rfl
  | cons d ds ih =>
    rw [List.flatMap_cons, List.append_assoc, scanFrom_escapeChar, ih, List.reverse_cons, List.append_assoc,
      List.singleton_append]

theorem scans_stringChars (s : Option String) (rest : List Char) : Scans (stringChars s) [.str s] rest := by
  intro seen
  match s with
  | none => rfl
  | some s =>
    have hopen : Scanner.step ⟨seen, .nothing⟩ '"' = some ⟨seen, .str {}⟩ := rfl
    have hclose : ∀ ds : List Char, Scanner.step ⟨seen, .str { chars := ds }⟩ '"' =
        some ⟨.str (some (String.ofList ds.reverse)) :: seen, .nothing⟩ := fun _ => rfl
    show scanFrom _ ('"' :: (s.toList.flatMap escapeChar ++ ['"'] ++ rest)) = _
    rw [List.append_assoc, scanFrom_cons hopen, scanFrom_flatMap_escapeChar, List.singleton_append,
      scanFrom_cons (hclose _), List.append_nil, List.reverse_reverse, String.ofList_toList]
    rfl

/-! ### Numerals -/

/-- What follows does not go on with a numeral. -/
def Delimited (rest : List Char) : Prop :=
  ∀ c ∈ rest.head?, c.isDigit = false ∧ c ≠ '.' ∧ c ≠ 'e' ∧ c ≠ 'E'

open Scanner (continueNumeral? mayEnd)

theorem continueNumeral?_of_delimited {rest : List Char} (h : Delimited rest) {c : Char} (hc : c ∈ rest.head?)
    {stage : Numeral.Stage} (hend : mayEnd stage = true) (n : Numeral) : continueNumeral? stage n c = none := by
  obtain ⟨hdigit, hpoint, hsmall, hlarge⟩ := h c hc
  cases stage with
  | sign | point | exponentMark | exponentSign => cases hend
  | zero | whole | fraction | exponent => simp [continueNumeral?, hdigit, hpoint, hsmall, hlarge]

/-- A numeral ends where it does not go on. -/
theorem scanFrom_num {rest : List Char} (h : Delimited rest) {stage : Numeral.Stage} (hend : mayEnd stage = true)
    (n : Numeral) : scanFrom ⟨seen, .num stage n⟩ rest = scanFrom ⟨.num n :: seen, .nothing⟩ rest := by
  match rest with
  | [] =>
    show Scanner.finish ⟨seen, .num stage n⟩ = Scanner.finish ⟨.num n :: seen, .nothing⟩
    simp only [Scanner.finish, if_pos hend]
  | c :: rest =>
    have hnone := continueNumeral?_of_delimited h (Option.mem_some_self c) hend n
    have hstep : Scanner.step ⟨seen, .num stage n⟩ c = Scanner.step ⟨.num n :: seen, .nothing⟩ c := by
      simp only [Scanner.step, hnone, if_pos hend]
      rfl
    rw [scanFrom, Scanner.run, hstep]
    rfl

/-- A character with which a numeral goes on. -/
theorem scanFrom_num_cons {stage stage' : Numeral.Stage} {n n' : Numeral} {c : Char}
    (h : continueNumeral? stage n c = some (stage', n')) (cs : List Char) :
    scanFrom ⟨seen, .num stage n⟩ (c :: cs) = scanFrom ⟨seen, .num stage' n'⟩ cs := by
  refine scanFrom_cons ?_ cs
  simp only [Scanner.step, h]

/-- Digits are taken into one part of a numeral. -/
theorem scanFrom_digits {stage : Numeral.Stage} {part : List Char → Numeral}
    (h : ∀ ds c, c.isDigit = true → continueNumeral? stage (part ds) c = some (stage, part (ds ++ [c])))
    {es : List Char} (hes : ∀ e ∈ es, e.isDigit = true) (ds cs : List Char) :
    scanFrom ⟨seen, .num stage (part ds)⟩ (es ++ cs) = scanFrom ⟨seen, .num stage (part (ds ++ es))⟩ cs := by
  induction es generalizing ds with
  | nil => rw [List.nil_append, List.append_nil]
  | cons e es ih =>
    obtain ⟨he, hes⟩ := List.forall_mem_cons.1 hes
    rw [List.cons_append, scanFrom_num_cons (h ds e he), ih hes, List.append_assoc, List.singleton_append]

theorem start_of_isDigit {c : Char} (hc : c.isDigit = true) (hzero : c ≠ '0') (s : Scanner) :
    s.start c = some { s with pending := .num .whole { whole := [c] } } := by
  unfold Scanner.start
  split
  case h_16 => exact absurd rfl hzero
  case h_17 => rw [if_pos hc]
  -- no other character that begins a lexeme is a digit
  all_goals exact absurd hc (by decide)

/-- The sign and the whole part of a numeral. -/
theorem scanFrom_whole {whole : List Char}
    (h : whole = ['0'] ∨ ∃ c cs, whole = c :: cs ∧ c ≠ '0' ∧ ∀ d ∈ c :: cs, d.isDigit = true) (negative : Bool)
    (cs : List Char) :
    ∃ stage, (stage = .zero ∨ stage = .whole) ∧
      scanFrom ⟨seen, .nothing⟩ ((if negative then ['-'] else []) ++ (whole ++ cs)) =
        scanFrom ⟨seen, .num stage { negative, whole }⟩ cs := by
  rcases h with rfl | ⟨c, ds, rfl, hc, hds⟩
  · exact ⟨.zero, .inl rfl, by cases negative <;> rfl⟩
  · obtain ⟨hdigit, hds⟩ := List.forall_mem_cons.1 hds
    refine ⟨.whole, .inr rfl, ?_⟩
    have hfirst : scanFrom ⟨seen, .nothing⟩ ((if negative then ['-'] else []) ++ (c :: (ds ++ cs))) =
        scanFrom ⟨seen, .num .whole { negative, whole := [c] }⟩ (ds ++ cs) := by
      cases negative with
      | false =>
        have hstep : Scanner.step ⟨seen, .nothing⟩ c = some ⟨seen, .num .whole { whole := [c] }⟩ :=
          start_of_isDigit hdigit hc _
        exact scanFrom_cons hstep _
      | true =>
        have hsign : Scanner.step ⟨seen, .nothing⟩ '-' = some ⟨seen, .num .sign { negative := true }⟩ := rfl
        refine (scanFrom_cons hsign _).trans (scanFrom_num_cons ?_ _)
        simp only [continueNumeral?, if_neg hc, if_pos hdigit]
    have hgrow : ∀ es d, d.isDigit = true → continueNumeral? .whole { negative, whole := es } d =
        some (.whole, { negative, whole := es ++ [d] }) := by
      intro es d hd
      simp only [continueNumeral?, if_pos hd]
    rw [List.cons_append, hfirst]
    exact scanFrom_digits hgrow hds [c] cs

/-- The fraction of a numeral. -/
theorem scanFrom_fraction {stage : Numeral.Stage} (hstage : stage = .zero ∨ stage = .whole) {fraction : List Char}
    (h : ∀ d ∈ fraction, d.isDigit = true) (negative : Bool) (whole cs : List Char) :
    ∃ stage', (stage' = .zero ∨ stage' = .whole ∨ stage' = .fraction) ∧
      scanFrom ⟨seen, .num stage { negative, whole }⟩ ((if fraction = [] then [] else '.' :: fraction) ++ cs) =
        scanFrom ⟨seen, .num stage' { negative, whole, fraction }⟩ cs := by
  match fraction with
  | [] => exact ⟨stage, by rcases hstage with rfl | rfl <;> simp, rfl⟩
  | c :: ds =>
    obtain ⟨hc, hds⟩ := List.forall_mem_cons.1 h
    refine ⟨.fraction, .inr (.inr rfl), ?_⟩
    have hpoint : continueNumeral? stage { negative, whole } '.' = some (.point, { negative, whole }) := by
      rcases hstage with rfl | rfl <;> rfl
    have hfirst : continueNumeral? .point { negative, whole } c =
        some (.fraction, { negative, whole, fraction := [c] }) := by
      simp only [continueNumeral?, if_pos hc]
    have hgrow : ∀ es d, d.isDigit = true → continueNumeral? .fraction { negative, whole, fraction := es } d =
        some (.fraction, { negative, whole, fraction := es ++ [d] }) := by
      intro es d hd
      simp only [continueNumeral?, if_pos hd]
    rw [if_neg (List.cons_ne_nil c ds), List.cons_append, List.cons_append, scanFrom_num_cons hpoint,
      scanFrom_num_cons hfirst]
    exact scanFrom_digits hgrow hds [c] cs

/-- The exponent of a numeral. -/
theorem scanFrom_exponent {stage : Numeral.Stage} (hstage : stage = .zero ∨ stage = .whole ∨ stage = .fraction)
    {n : Numeral} (hn : n.WellFormed) (cs : List Char) :
    ∃ stage', mayEnd stage' = true ∧
      scanFrom ⟨seen, .num stage { negative := n.negative, whole := n.whole, fraction := n.fraction }⟩
          ((if n.exponent = [] then [] else
            'e' :: (if n.exponentNegative then '-' :: n.exponent else n.exponent)) ++ cs) =
        scanFrom ⟨seen, .num stage' n⟩ cs := by
  obtain ⟨-, -, hexponent, hsign⟩ := hn
  obtain ⟨negative, whole, fraction, exponentNegative, exponent⟩ := n
  match exponent with
  | [] =>
    obtain rfl : exponentNegative = false := hsign rfl
    exact ⟨stage, by rcases hstage with rfl | rfl | rfl <;> rfl, rfl⟩
  | c :: ds =>
    obtain ⟨hc, hds⟩ := List.forall_mem_cons.1 hexponent
    refine ⟨.exponent, rfl, ?_⟩
    have hmark : continueNumeral? stage { negative, whole, fraction } 'e' =
        some (.exponentMark, { negative, whole, fraction }) := by
      rcases hstage with rfl | rfl | rfl <;> rfl
    have hfirst : ∀ es, scanFrom ⟨seen, .num .exponentMark { negative, whole, fraction }⟩
        (if exponentNegative then '-' :: c :: es else c :: es) =
          scanFrom ⟨seen, .num .exponent { negative, whole, fraction, exponentNegative, exponent := [c] }⟩ es := by
      intro es
      cases exponentNegative with
      | false => exact scanFrom_num_cons (by simp only [continueNumeral?, if_pos hc]) es
      | true =>
        have hsign : continueNumeral? .exponentMark { negative, whole, fraction } '-' =
            some (.exponentSign, { negative, whole, fraction, exponentNegative := true }) := rfl
        exact (scanFrom_num_cons hsign _).trans (scanFrom_num_cons (by simp only [continueNumeral?, if_pos hc]) es)
    have hgrow : ∀ es d, d.isDigit = true →
        continueNumeral? .exponent { negative, whole, fraction, exponentNegative, exponent := es } d =
          some (.exponent, { negative, whole, fraction, exponentNegative, exponent := es ++ [d] }) := by
      intro es d hd
      simp only [continueNumeral?, if_pos hd]
    have hchars : (if exponentNegative then '-' :: c :: ds else c :: ds) ++ cs =
        if exponentNegative then '-' :: c :: (ds ++ cs) else c :: (ds ++ cs) := by
      cases exponentNegative <;> rfl
    rw [if_neg (List.cons_ne_nil c ds), List.cons_append, scanFrom_num_cons hmark, hchars, hfirst]
    exact scanFrom_digits hgrow hds [c] cs

theorem scans_numeral {n : Numeral} (hn : n.WellFormed) {rest : List Char} (hrest : Delimited rest) :
    Scans n.chars [.num n] rest := by
  intro seen
  generalize htail : (if n.exponent = [] then [] else
    'e' :: (if n.exponentNegative then '-' :: n.exponent else n.exponent)) ++ rest = tail
  obtain ⟨stage, hstage, hwhole⟩ := @scanFrom_whole seen n.whole hn.whole n.negative
    ((if n.fraction = [] then [] else '.' :: n.fraction) ++ tail)
  obtain ⟨stage, hstage, hfraction⟩ :=
    @scanFrom_fraction seen stage hstage n.fraction hn.fraction n.negative n.whole tail
  obtain ⟨stage, hend, hexponent⟩ := @scanFrom_exponent seen stage hstage n hn rest
  rw [Numeral.chars, List.append_assoc, List.append_assoc, List.append_assoc, htail, hwhole, hfraction, ← htail,
    hexponent, scanFrom_num hrest hend]
  rfl

/-! ### Values -/

theorem delimited_cons {c : Char} (hc : c.isDigit = false ∧ c ≠ '.' ∧ c ≠ 'e' ∧ c ≠ 'E') (cs : List Char) :
    Delimited (c :: cs) := by
  intro d hd
  cases hd
  exact hc

theorem delimited_itemChars {rest : List Char} (h : Delimited rest) (js : List Json) :
    Delimited (itemChars js ++ rest) := by
  cases js with
  | nil => exact h
  | cons j js => exact delimited_cons (by decide) _

theorem delimited_fieldChars {rest : List Char} (h : Delimited rest) (fs : List (Option String × Json)) :
    Delimited (fieldChars fs ++ rest) := by
  cases fs with
  | nil => exact h
  | cons f fs => exact delimited_cons (by decide) _

theorem scans_itemChars {js : List Json}
    (h : ∀ j ∈ js, ∀ {rest}, Delimited rest → Scans (chars j) (lexemes j) rest) {rest : List Char}
    (hrest : Delimited rest) : Scans (itemChars js) (itemLexemes js) rest := by
  induction js with
  | nil => exact .nil rest
  | cons j js ih =>
    obtain ⟨hj, hjs⟩ := List.forall_mem_cons.1 h
    exact ((hj (delimited_itemChars hrest js)).cons fun _ => rfl).append (ih hjs)

/-- A member of an object after its bracket or comma. -/
theorem scans_field {f : Option String × Json} {rest : List Char} (h : Scans (chars f.2) (lexemes f.2) rest) :
    Scans (stringChars f.1 ++ ':' :: chars f.2) (.str f.1 :: .colon :: lexemes f.2) rest :=
  (scans_stringChars f.1 _).append (h.cons fun _ => rfl)

theorem scans_fieldChars {fs : List (Option String × Json)}
    (h : ∀ f ∈ fs, ∀ {rest}, Delimited rest → Scans (chars f.2) (lexemes f.2) rest) {rest : List Char}
    (hrest : Delimited rest) : Scans (fieldChars fs) (fieldLexemes fs) rest := by
  induction fs with
  | nil => exact .nil rest
  | cons f fs ih =>
    obtain ⟨hf, hfs⟩ := List.forall_mem_cons.1 h
    exact ((scans_field (hf (delimited_fieldChars hrest fs))).cons fun _ => rfl).append (ih hfs)

/-- The text of a value is scanned as its lexemes. -/
theorem scans_chars {j : Json} (h : j.WellFormed) {rest : List Char} (hrest : Delimited rest) :
    Scans (chars j) (lexemes j) rest := by
  induction h generalizing rest with
  | null => exact fun _ => rfl
  | bool b => cases b <;> exact fun _ => rfl
  | num hn => exact scans_numeral hn hrest
  | str s => exact scans_stringChars s rest
  | @arr items _ ih =>
    match items with
    | [] => exact .cons (fun _ => rfl) (.cons (fun _ => rfl) (.nil rest))
    | j :: js =>
      obtain ⟨hj, hjs⟩ := List.forall_mem_cons.1 ih
      have hclose : Delimited ([']'] ++ rest) := delimited_cons (by decide) rest
      exact (((hj (delimited_itemChars hclose js)).cons fun _ => rfl).append (scans_itemChars hjs hclose)).append
        (.cons (fun _ => rfl) (.nil rest))
  | @obj fields _ ih =>
    match fields with
    | [] => exact .cons (fun _ => rfl) (.cons (fun _ => rfl) (.nil rest))
    | f :: fs =>
      obtain ⟨hf, hfs⟩ := List.forall_mem_cons.1 ih
      have hclose : Delimited (['}'] ++ rest) := delimited_cons (by decide) rest
      exact (((scans_field (hf (delimited_fieldChars hclose fs))).cons fun _ => rfl).append
        (scans_fieldChars hfs hclose)).append (.cons (fun _ => rfl) (.nil rest))

theorem Lexeme.scan_chars {j : Json} (h : j.WellFormed) : Lexeme.scan (chars j) = some (lexemes j) := by
  have hscan := scans_chars h (fun c hc => nomatch hc : Delimited []) []
  rw [List.append_nil] at hscan
  show scanFrom ⟨[], .nothing⟩ (chars j) = _
  rw [hscan]
  show some ((lexemes j).reverse ++ []).reverse = _
  rw [List.append_nil, List.reverse_reverse]

/-! ## Reading -/

namespace Reader

theorem run_cons (r : Reader) (l : Lexeme) (ls : List Lexeme) : r.run (l :: ls) = (r.step l).bind (·.run ls) := by
  rw [run]
  cases r.step l <;> rfl

/-- Lexemes are read as a value where one must stand. -/
def Reads (ls : List Lexeme) (j : Json) : Prop :=
  ∀ fs rest, run ⟨.value, fs⟩ (ls ++ rest) = (place j fs).bind (·.run rest)

/-- A lexeme that is a value. -/
theorem reads_singleton {l : Lexeme} {j : Json} (h : ∀ fs, value fs l = place j fs) : Reads [l] j := by
  intro fs rest
  rw [List.singleton_append, run_cons]
  exact congrArg (Option.bind · _) (h fs)

/-- A value does not begin with the end of an array, so it may stand where that is looked for. -/
theorem run_itemOrEnd (j : Json) (fs : List Frame) (rest : List Lexeme) :
    run ⟨.itemOrEnd, fs⟩ (lexemes j ++ rest) = run ⟨.value, fs⟩ (lexemes j ++ rest) := by
  match j with
  | .null | .bool _ | .num _ | .str _ | .arr [] | .obj [] | .arr (_ :: _) | .obj (_ :: _) => rfl

/-- The further items of an array and its end. -/
theorem run_itemLexemes {js : List Json} (h : ∀ j ∈ js, Reads (lexemes j) j) (items : List Json) (fs : List Frame)
    (rest : List Lexeme) :
    run ⟨.separator, .array items :: fs⟩ (itemLexemes js ++ .arrayClose :: rest) =
      (place (.arr (items.reverse ++ js)) fs).bind (·.run rest) := by
  induction js generalizing items with
  | nil =>
    rw [List.append_nil]
    exact run_cons _ _ _
  | cons j js ih =>
    obtain ⟨hj, hjs⟩ := List.forall_mem_cons.1 h
    have hcomma : ∀ ls, run ⟨.separator, .array items :: fs⟩ (.comma :: ls) = run ⟨.value, .array items :: fs⟩ ls :=
      fun _ => rfl
    show run _ (.comma :: (lexemes j ++ itemLexemes js) ++ .arrayClose :: rest) = _
    rw [List.cons_append, List.append_assoc, hcomma, hj]
    show run ⟨.separator, .array (j :: items) :: fs⟩ _ = _
    rw [ih hjs, List.reverse_cons, List.append_assoc, List.singleton_append]

/-- A member of an object after its bracket or comma. -/
theorem run_field {f : Option String × Json} (h : Reads (lexemes f.2) f.2) {expecting : Expecting}
    (hkey : expecting = .key ∨ expecting = .keyOrEnd) (fields : List (Option String × Json)) (fs : List Frame)
    (rest : List Lexeme) :
    run ⟨expecting, .object fields :: fs⟩ (.str f.1 :: .colon :: lexemes f.2 ++ rest) =
      run ⟨.separator, .object (f :: fields) :: fs⟩ rest := by
  have hcolon : ∀ ls, run ⟨expecting, .object fields :: fs⟩ (.str f.1 :: .colon :: ls) =
      run ⟨.value, .member fields f.1 :: fs⟩ ls := by
    rcases hkey with rfl | rfl <;> exact fun _ => rfl
  rw [List.cons_append, List.cons_append, hcolon, h]
  rfl

/-- The further members of an object and its end. -/
theorem run_fieldLexemes {gs : List (Option String × Json)} (h : ∀ f ∈ gs, Reads (lexemes f.2) f.2)
    (fields : List (Option String × Json)) (fs : List Frame) (rest : List Lexeme) :
    run ⟨.separator, .object fields :: fs⟩ (fieldLexemes gs ++ .objectClose :: rest) =
      (place (.obj (fields.reverse ++ gs)) fs).bind (·.run rest) := by
  induction gs generalizing fields with
  | nil =>
    rw [List.append_nil]
    exact run_cons _ _ _
  | cons f gs ih =>
    obtain ⟨hf, hgs⟩ := List.forall_mem_cons.1 h
    have hcomma : ∀ ls, run ⟨.separator, .object fields :: fs⟩ (.comma :: ls) = run ⟨.key, .object fields :: fs⟩ ls :=
      fun _ => rfl
    show run _ (.comma :: (.str f.1 :: .colon :: lexemes f.2 ++ fieldLexemes gs) ++ .objectClose :: rest) = _
    rw [List.cons_append, List.append_assoc, hcomma, run_field hf (.inl rfl), ih hgs, List.reverse_cons,
      List.append_assoc, List.singleton_append]

/-- The lexemes of a value are read as that value. -/
theorem reads_lexemes {j : Json} (h : j.WellFormed) : Reads (lexemes j) j := by
  induction h with
  | null => exact reads_singleton fun _ => rfl
  | bool b => exact reads_singleton fun _ => rfl
  | num _ => exact reads_singleton fun _ => rfl
  | str s => exact reads_singleton fun _ => rfl
  | @arr items _ ih =>
    intro fs rest
    match items with
    | [] => exact run_cons ⟨.itemOrEnd, .array [] :: fs⟩ .arrayClose rest
    | j :: js =>
      obtain ⟨hj, hjs⟩ := List.forall_mem_cons.1 ih
      have hopen : ∀ ls, run ⟨.value, fs⟩ (.arrayOpen :: ls) = run ⟨.itemOrEnd, .array [] :: fs⟩ ls := fun _ => rfl
      show run _ (.arrayOpen :: (lexemes j ++ itemLexemes js ++ [.arrayClose]) ++ rest) = _
      rw [List.cons_append, List.append_assoc, List.append_assoc, hopen, run_itemOrEnd, hj]
      exact run_itemLexemes hjs [j] fs rest
  | @obj fields _ ih =>
    intro fs rest
    match fields with
    | [] => exact run_cons ⟨.keyOrEnd, .object [] :: fs⟩ .objectClose rest
    | f :: gs =>
      obtain ⟨hf, hgs⟩ := List.forall_mem_cons.1 ih
      have hopen : ∀ ls, run ⟨.value, fs⟩ (.objectOpen :: ls) = run ⟨.keyOrEnd, .object [] :: fs⟩ ls := fun _ => rfl
      show run _ (.objectOpen :: (.str f.1 :: .colon :: lexemes f.2 ++ fieldLexemes gs ++ [.objectClose]) ++ rest) = _
      rw [List.cons_append, List.append_assoc, List.append_assoc, hopen, run_field hf (.inr rfl)]
      exact run_fieldLexemes hgs [f] fs rest

end Reader

/-- **The text of a value is read as that value.** -/
theorem parse?_compact {j : Json} (h : j.WellFormed) : parse? j.compact = some j := by
  have hread := Reader.reads_lexemes h [] []
  rw [List.append_nil] at hread
  simp only [parse?, compact, String.toList_ofList, Lexeme.scan_chars h, Option.bind_eq_bind, Option.bind_some]
  rw [show Reader.run {} (lexemes j) = _ from hread]
  rfl

end ScoreDecoding.Json
