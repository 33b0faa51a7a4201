import Mathlib.Data.Nat.Digits.Lemmas
import Mathlib.Tactic.IntervalCases
import Wireframe.Proofs.Apart

/-!
# Pieces of quoted texts

A text between quotes is a row of pieces, and each piece denotes one character.  What a piece may be
is told here by its spelling alone: hexadecimal digits by their places in the row of all digits, and
a character by its code point, which is never half of a surrogate pair.  The reader of quoted texts
finds a text exactly if it is such a row before a closing quote.
-/

namespace Wireframe
namespace Quoted

/-- Whether a character is the hexadecimal digit of a value, in either case. -/
def IsDigitOf (value : Nat) (c : Char) : Prop :=
  "0123456789abcdef".toList[value]? = some c ∨ "0123456789ABCDEF".toList[value]? = some c

instance (value : Nat) (c : Char) : Decidable (IsDigitOf value c) :=
  inferInstanceAs (Decidable (_ ∨ _))

/-- Whether hexadecimal digits write a number. -/
def Writes (digits : List Char) (n : Nat) : Prop :=
  ∃ values, List.Forall₂ IsDigitOf values digits ∧ n = Nat.ofDigits 16 values.reverse

theorem hexValue?_eq_some_iff {c : Char} {value : Nat} :
    hexValue? c = some value ↔ IsDigitOf value c := by
  constructor
  · intro found
    have place : c = Char.ofNat c.toNat := (Char.ofNat_toNat c).symm
    simp only [hexValue?, Char.le_def, UInt32.le_iff_toNat_le, Char.toNat_val] at found
    generalize c.toNat = n at place found
    subst place
    repeat' split at found
    all_goals
      rename_i range
    · obtain ⟨low, high⟩ : 48 ≤ n ∧ n ≤ 57 := range
      obtain rfl := Option.some.inj found
      interval_cases n <;> decide
    · obtain ⟨low, high⟩ : 97 ≤ n ∧ n ≤ 102 := range
      obtain rfl := Option.some.inj found
      interval_cases n <;> decide
    · obtain ⟨low, high⟩ : 65 ≤ n ∧ n ≤ 70 := range
      obtain rfl := Option.some.inj found
      interval_cases n <;> decide
    · simp at found
  · rintro (lower | upper)
    · have bound : value < 16 := (List.getElem?_eq_some_iff.mp lower).1
      interval_cases value <;> (obtain rfl := Option.some.inj lower; decide)
    · have bound : value < 16 := (List.getElem?_eq_some_iff.mp upper).1
      interval_cases value <;> (obtain rfl := Option.some.inj upper; decide)

theorem IsDigitOf.lt {c : Char} {value : Nat} (digit : IsDigitOf value c) : value < 16 := by
  rcases digit with lower | upper
  · exact (List.getElem?_eq_some_iff.mp lower).1
  · exact (List.getElem?_eq_some_iff.mp upper).1

private theorem forall₂_isDigitOf_iff {values : List Nat} {digits : List Char} :
    List.Forall₂ IsDigitOf values digits ↔
      (∀ c ∈ digits, isHex c = true) ∧ values = digits.map fun c => (hexValue? c).getD 0 := by
  induction digits generalizing values with
  | nil => simp
  | cons c digits ih =>
      cases values with
      | nil => simp
      | cons value values =>
          rw [List.forall₂_cons, ih, List.forall_mem_cons, List.map_cons, List.cons.injEq,
            ← hexValue?_eq_some_iff, isHex]
          cases hexValue? c with
          | none => simp
          | some found =>
              simp only [Option.some.injEq, Option.isSome_some, Option.getD_some, true_and]
              constructor
              · rintro ⟨rfl, hex, same⟩
                exact ⟨hex, rfl, same⟩
              · rintro ⟨hex, rfl, same⟩
                exact ⟨rfl, hex, same⟩

private theorem hexNumber_eq_ofDigits (digits : List Char) :
    hexNumber digits =
      Nat.ofDigits 16 (digits.map fun c => (hexValue? c).getD 0).reverse := by
  rw [Nat.ofDigits_eq_foldr, List.foldr_reverse, List.foldl_map, hexNumber]
  congr 1
  funext value c
  exact Nat.add_comm _ _

/-- Digits write a number if the reader takes them for digits of that number. -/
theorem writes_iff {digits : List Char} {n : Nat} :
    Writes digits n ↔ (∀ c ∈ digits, isHex c = true) ∧ hexNumber digits = n := by
  constructor
  · rintro ⟨values, isDigits, rfl⟩
    obtain ⟨hex, rfl⟩ := forall₂_isDigitOf_iff.mp isDigits
    exact ⟨hex, hexNumber_eq_ofDigits digits⟩
  · rintro ⟨hex, rfl⟩
    exact ⟨_, forall₂_isDigitOf_iff.mpr ⟨hex, rfl⟩, hexNumber_eq_ofDigits digits⟩

theorem Writes.lt {digits : List Char} {n : Nat} (writes : Writes digits n) :
    n < 16 ^ digits.length := by
  obtain ⟨values, isDigits, rfl⟩ := writes
  have small : ∀ value ∈ values.reverse, value < 16 := by
    intro value member
    obtain ⟨i, bound, rfl⟩ := List.getElem_of_mem (List.mem_reverse.mp member)
    exact (isDigits.get bound (isDigits.length_eq ▸ bound)).lt
  rw [← isDigits.length_eq, ← List.length_reverse]
  exact Nat.ofDigits_lt_base_pow_length (by decide) small

/-- The reader finds a number of so many digits exactly where they stand at the head of a text. -/
theorem fixedHex_eq_ok_iff {count n : Nat} {cs : List Char} :
    fixedHex count cs = .ok n ↔
      ∃ digits behind, cs = digits ++ behind ∧ digits.length = count ∧ Writes digits n := by
  constructor
  · intro found
    have hex := isHex_of_fixedHex found
    have enough := le_length_of_fixedHex found
    refine ⟨cs.take count, cs.drop count, (List.take_append_drop count cs).symm,
      List.length_take_of_le enough, writes_iff.mpr ⟨hex, ?_⟩⟩
    have whole : (cs.take count).takeWhile isHex = cs.take count :=
      List.takeWhile_eq_self_iff.mpr hex
    rw [fixedHex, whole, if_pos (List.length_take_of_le enough)] at found
    exact Except.ok.inj found
  · rintro ⟨digits, behind, rfl, rfl, writes⟩
    obtain ⟨hex, rfl⟩ := writes_iff.mp writes
    have whole : digits.takeWhile isHex = digits := List.takeWhile_eq_self_iff.mpr hex
    rw [fixedHex, List.take_left, whole, if_pos rfl]

/-- A piece of a quoted text and the character that it denotes. -/
inductive Piece : List Char → Char → Prop where
  | plain {c : Char} (notQuote : c ≠ '"') (notBackslash : c ≠ '\\') : Piece [c] c
  | lineFeed : Piece ['\\', 'n'] '\n'
  | tab : Piece ['\\', 't'] '\t'
  | carriageReturn : Piece ['\\', 'r'] '\r'
  | quote : Piece ['\\', '"'] '"'
  | backslash : Piece ['\\', '\\'] '\\'
  /-- Two hexadecimal digits. -/
  | byte {digits : List Char} {d : Char} (two : digits.length = 2)
      (writes : Writes digits d.toNat) : Piece ('\\' :: 'x' :: digits) d
  /-- Four hexadecimal digits, which are not half of a surrogate pair as they write a character. -/
  | unit {digits : List Char} {d : Char} (four : digits.length = 4)
      (writes : Writes digits d.toNat) : Piece ('\\' :: 'u' :: digits) d
  /-- A surrogate pair, the high half first. -/
  | pair {digits digits' : List Char} {high low : Nat} {d : Char}
      (four : digits.length = 4) (four' : digits'.length = 4)
      (writes : Writes digits high) (writes' : Writes digits' low)
      (isHigh : 0xD800 ≤ high ∧ high ≤ 0xDBFF) (isLow : 0xDC00 ≤ low ∧ low ≤ 0xDFFF)
      (joined : d.toNat = 0x10000 + 0x400 * (high - 0xD800) + (low - 0xDC00)) :
      Piece ('\\' :: 'u' :: digits ++ '\\' :: 'u' :: digits') d
  /-- One to six hexadecimal digits in braces, which write a character. -/
  | braced {digits : List Char} {d : Char} (least : 1 ≤ digits.length) (most : digits.length ≤ 6)
      (writes : Writes digits d.toNat) : Piece ('\\' :: 'u' :: '{' :: digits ++ ['}']) d
  /-- Any other character behind a backslash. -/
  | other {c : Char} (ordinary : c ∉ ['n', 't', 'r', '"', '\\', 'x', 'u']) : Piece ['\\', c] c

/-- Whether a text between quotes is a row of pieces that denote the characters of a value. -/
def Spells (body value : List Char) : Prop :=
  ∃ pieces : List (List Char × Char), (∀ piece ∈ pieces, Piece piece.1 piece.2) ∧
    body = pieces.flatMap Prod.fst ∧ value = pieces.map Prod.snd

theorem isSurrogate_toNat (d : Char) : isSurrogate d.toNat = false := by
  have valid : d.toNat < 0xD800 ∨ 0xDFFF < d.toNat ∧ d.toNat < 0x110000 := d.valid
  simp only [isSurrogate, Bool.and_eq_false_iff, decide_eq_false_iff_not]
  omega

theorem toNat_le (d : Char) : d.toNat ≤ 0x10FFFF := by
  have valid : d.toNat < 0xD800 ∨ 0xDFFF < d.toNat ∧ d.toNat < 0x110000 := d.valid
  omega

theorem toNat_ofNat {n : Nat} (small : n ≤ 0x10FFFF) (single : isSurrogate n = false) :
    (Char.ofNat n).toNat = n := by
  simp only [isSurrogate, Bool.and_eq_false_iff, decide_eq_false_iff_not] at single
  have valid : n.isValidChar := by
    unfold Nat.isValidChar
    omega
  rw [Char.ofNat, dif_pos valid]
  rfl

private theorem braceless_of_writes {digits : List Char} {n : Nat} (writes : Writes digits n)
    (some : digits ≠ []) : ∃ c rest, digits = c :: rest ∧ c ≠ '{' := by
  cases digits with
  | nil => exact absurd rfl some
  | cons c rest =>
      refine ⟨c, rest, rfl, ?_⟩
      rintro rfl
      exact absurd ((writes_iff.mp writes).1 '{' List.mem_cons_self) (by decide)

private theorem codeUnit_of_unit {cs : List Char} {unit : Nat} (first : fixedHex 4 cs = .ok unit)
    (single : isSurrogate unit = false) : codeUnit cs = .ok (Char.ofNat unit, 5) := by
  simp [codeUnit, first, Except.mapError, bind, Except.bind, single, pure, Except.pure]

private theorem codeUnit_of_pair {cs : List Char} {high low : Nat}
    (first : fixedHex 4 cs = .ok high) (second : fixedHex 4 (cs.drop 6) = .ok low)
    (starts : startsUnit (cs.drop 4) = true) (half : isSurrogate high = true)
    (isHigh : isLowSurrogate high = false) (isLow : isLowSurrogate low = true) :
    codeUnit cs = .ok (Char.ofNat (joinSurrogates high low), 11) := by
  simp [codeUnit, first, second, Except.mapError, bind, Except.bind, half, isHigh, isLow, starts,
    pure, Except.pure]

private theorem codeUnit_append_pair {digits digits' : List Char} {high low : Nat} {d : Char}
    (four : digits.length = 4) (four' : digits'.length = 4) (writes : Writes digits high)
    (writes' : Writes digits' low) (isHigh : 0xD800 ≤ high ∧ high ≤ 0xDBFF)
    (isLow : 0xDC00 ≤ low ∧ low ≤ 0xDFFF)
    (joined : d.toNat = 0x10000 + 0x400 * (high - 0xD800) + (low - 0xDC00)) (behind : List Char) :
    codeUnit (digits ++ '\\' :: 'u' :: (digits' ++ behind)) = .ok (d, 11) := by
  have first : fixedHex 4 (digits ++ '\\' :: 'u' :: (digits' ++ behind)) = .ok high :=
    fixedHex_eq_ok_iff.mpr ⟨digits, _, rfl, four, writes⟩
  have second : fixedHex 4 ((digits ++ '\\' :: 'u' :: (digits' ++ behind)).drop 6) = .ok low := by
    refine fixedHex_eq_ok_iff.mpr ⟨digits', behind, ?_, four', writes'⟩
    simp [List.drop_append, four]
  have starts : startsUnit ((digits ++ '\\' :: 'u' :: (digits' ++ behind)).drop 4) = true := by
    obtain ⟨c, rest, rfl, notBrace⟩ := braceless_of_writes writes' (by rintro rfl; simp at four')
    simp [four, startsUnit, notBrace]
  have same : joinSurrogates high low = d.toNat := by
    rw [joined]
    unfold joinSurrogates
    omega
  rw [codeUnit_of_pair first second starts, same, Char.ofNat_toNat]
  · simp only [isSurrogate, Bool.and_eq_true, decide_eq_true_eq]
    omega
  · simp only [isLowSurrogate, Bool.and_eq_false_iff, decide_eq_false_iff_not]
    omega
  · simp only [isLowSurrogate, Bool.and_eq_true, decide_eq_true_eq]
    omega

private theorem braced_append {digits : List Char} {d : Char} (least : 1 ≤ digits.length)
    (most : digits.length ≤ 6) (writes : Writes digits d.toNat) (behind : List Char) :
    braced (digits ++ '}' :: behind) = .ok (d, digits.length + 3) := by
  obtain ⟨hex, number⟩ := writes_iff.mp writes
  have taken : (digits ++ '}' :: behind).takeWhile isHex = digits := by
    rw [List.takeWhile_append_of_pos hex]
    simp [show isHex '}' = false by decide]
  have narrow : ¬(digits.length < 1 ∨ 6 < digits.length) := by omega
  have inRange : ¬0x10FFFF < d.toNat := by
    have := toNat_le d
    omega
  simp only [braced, taken, List.drop_left, ne_eq, not_true_eq_false, if_false, if_neg narrow,
    number, if_neg inRange, isSurrogate_toNat, Bool.false_eq_true, Char.ofNat_toNat]

/-- An escape is read as what it denotes, whatever follows it. -/
theorem escaped_append {tail : List Char} {d : Char} (piece : Piece ('\\' :: tail) d)
    (behind : List Char) : escaped (tail ++ behind) = .ok (d, tail.length) := by
  cases piece with
  | plain notQuote notBackslash => exact absurd rfl notBackslash
  | lineFeed => rfl
  | tab => rfl
  | carriageReturn => rfl
  | quote => rfl
  | backslash => rfl
  | byte two writes =>
      rename_i digits
      have found : fixedHex 2 (digits ++ behind) = .ok d.toNat :=
        fixedHex_eq_ok_iff.mpr ⟨digits, behind, rfl, two, writes⟩
      simp [escaped, found, Except.mapError, Except.map, two, Char.ofNat_toNat]
  | unit four writes =>
      rename_i digits
      obtain ⟨c, rest, rfl, notBrace⟩ := braceless_of_writes writes (by rintro rfl; simp at four)
      have first : fixedHex 4 (c :: rest ++ behind) = .ok d.toNat :=
        fixedHex_eq_ok_iff.mpr ⟨c :: rest, behind, rfl, four, writes⟩
      have found := codeUnit_of_unit first (isSurrogate_toNat d)
      simpa [escaped, notBrace, four, Char.ofNat_toNat] using found
  | pair four four' writes writes' isHigh isLow joined =>
      rename_i digits digits' high low
      have found := codeUnit_append_pair four four' writes writes' isHigh isLow joined behind
      obtain ⟨c, rest, rfl, notBrace⟩ := braceless_of_writes writes (by rintro rfl; simp at four)
      have three : rest.length = 3 := Nat.succ.inj four
      simpa [escaped, notBrace, three, four'] using found
  | braced least most writes =>
      rename_i digits
      simpa [escaped] using braced_append least most writes behind
  | other ordinary =>
      simp only [List.mem_cons, List.not_mem_nil, or_false, not_or] at ordinary
      unfold escaped
      split <;> simp_all

private theorem piece_of_codeUnit {rest : List Char} {d : Char} {n : Nat}
    (found : codeUnit rest = .ok (d, n)) : Piece ('\\' :: ('u' :: rest).take n) d := by
  rcases codeUnit_cases found with ⟨unit, first, single, rfl, rfl⟩ |
    ⟨high, low, first, second, starts, half, isHigh, isLow, character, length⟩
  · obtain ⟨digits, behind, rfl, four, writes⟩ := fixedHex_eq_ok_iff.mp first
    have bound := writes.lt
    rw [four] at bound
    rw [List.take_succ_cons, ← four, List.take_left]
    refine .unit four ?_
    rw [toNat_ofNat (by omega) single]
    exact writes
  · obtain ⟨digits, behind, rfl, four, writes⟩ := fixedHex_eq_ok_iff.mp first
    rw [← four, List.drop_left] at starts
    obtain ⟨rest, rfl⟩ := eq_cons_of_startsUnit starts
    have later : (digits ++ '\\' :: 'u' :: rest).drop 6 = rest := by simp [List.drop_append, four]
    rw [later] at second
    obtain ⟨digits', behind, rfl, four', writes'⟩ := fixedHex_eq_ok_iff.mp second
    simp only [isSurrogate, isLowSurrogate, Bool.and_eq_true, Bool.and_eq_false_iff,
      decide_eq_true_eq, decide_eq_false_iff_not] at half isHigh isLow
    have whole : ('u' :: (digits ++ '\\' :: 'u' :: (digits' ++ behind))).take 11 =
        'u' :: digits ++ '\\' :: 'u' :: digits' := by
      simp [List.take_append, four, four']
    rw [length, whole]
    refine .pair four four' writes writes' (by omega) isLow ?_
    have value : joinSurrogates high low =
        0x10000 + 0x400 * (high - 0xD800) + (low - 0xDC00) := by
      unfold joinSurrogates
      omega
    rw [character, value]
    refine toNat_ofNat (by omega) ?_
    simp only [isSurrogate, Bool.and_eq_false_iff, decide_eq_false_iff_not]
    omega

private theorem piece_of_braced {rest : List Char} {d : Char} {n : Nat}
    (found : braced rest = .ok (d, n)) : Piece ('\\' :: ('u' :: '{' :: rest).take n) d := by
  simp only [braced] at found
  split at found
  · simp at found
  · rename_i c behind same
    repeat' split at found
    all_goals simp only [reduceCtorEq, Except.ok.injEq, Prod.mk.injEq] at found
    rename_i brace wide range single
    obtain ⟨rfl, rfl⟩ := found
    obtain rfl : c = '}' := of_not_not brace
    have digits : rest.take (rest.takeWhile isHex).length = rest.takeWhile isHex :=
      (List.prefix_iff_eq_take.mp (List.takeWhile_prefix isHex)).symm
    have whole : rest.take ((rest.takeWhile isHex).length + 1) = rest.takeWhile isHex ++ ['}'] := by
      rw [List.take_add, digits, same]
      rfl
    rw [List.take_succ_cons, List.take_succ_cons, whole]
    refine .braced (by omega) (by omega) (writes_iff.mpr ⟨?_, ?_⟩)
    · exact fun c member => List.all_eq_true.mp List.all_takeWhile c member
    · rw [toNat_ofNat (by omega) (by simpa using single)]

theorem piece_of_escaped {cs : List Char} {d : Char} {n : Nat} (found : escaped cs = .ok (d, n)) :
    Piece ('\\' :: cs.take n) d := by
  unfold escaped at found
  split at found
  case h_1 => simp at found
  case h_5 rest =>
    cases first : (fixedHex 2 rest).mapError (·.shift 2) with
    | error stuck => simp [first, Except.map] at found
    | ok code =>
        simp only [first, Except.map, Except.ok.injEq, Prod.mk.injEq] at found
        obtain ⟨rfl, rfl⟩ := found
        obtain ⟨digits, behind, rfl, two, writes⟩ :=
          fixedHex_eq_ok_iff.mp (eq_ok_of_mapError first)
        have bound := writes.lt
        rw [two] at bound
        rw [List.take_succ_cons, ← two, List.take_left]
        refine .byte two ?_
        rw [toNat_ofNat (by omega)]
        · exact writes
        · simp only [isSurrogate, Bool.and_eq_false_iff, decide_eq_false_iff_not]
          omega
  case h_6 rest => exact piece_of_braced found
  case h_7 rest => exact piece_of_codeUnit found
  case h_8 c behind notN notT notR notX notBrace notU =>
    simp only [Except.ok.injEq, Prod.mk.injEq] at found
    obtain ⟨rfl, rfl⟩ := found
    by_cases quote : c = '"'
    · exact quote ▸ .quote
    by_cases backslash : c = '\\'
    · exact backslash ▸ .backslash
    refine .other ?_
    simp only [List.mem_cons, List.not_mem_nil, or_false, not_or]
    exact ⟨notN, notT, notR, quote, backslash, notX, notU⟩
  all_goals
    simp only [Except.ok.injEq, Prod.mk.injEq] at found
    obtain ⟨rfl, rfl⟩ := found
  · exact .lineFeed
  · exact .tab
  · exact .carriageReturn

theorem spells_nil : Spells [] [] :=
  ⟨[], by simp, rfl, rfl⟩

theorem Spells.cons {c d : Char} {tail body value : List Char} (piece : Piece (c :: tail) d)
    (spells : Spells body value) : Spells (c :: tail ++ body) (d :: value) := by
  obtain ⟨pieces, isPiece, rfl, rfl⟩ := spells
  exact ⟨(c :: tail, d) :: pieces, List.forall_mem_cons.mpr ⟨piece, isPiece⟩, rfl, rfl⟩

theorem piece_append {c d : Char} {tail : List Char} (isPiece : Piece (c :: tail) d)
    (behind : List Char) : c ≠ '"' ∧ piece c (tail ++ behind) = .ok (d, tail.length) := by
  by_cases escape : c = '\\'
  · subst escape
    exact ⟨by decide, by rw [piece, if_pos rfl, escaped_append isPiece]⟩
  · cases isPiece with
    | plain notQuote notBackslash => exact ⟨notQuote, by rw [piece, if_neg escape]; rfl⟩
    | _ => exact absurd rfl escape

theorem piece_of_read {c d : Char} {rest : List Char} {n : Nat} (notQuote : c ≠ '"')
    (found : piece c rest = .ok (d, n)) : Piece (c :: rest.take n) d := by
  by_cases escape : c = '\\'
  · subst escape
    rw [piece, if_pos rfl] at found
    exact piece_of_escaped found
  · rw [piece, if_neg escape] at found
    simp only [Except.ok.injEq, Prod.mk.injEq] at found
    obtain ⟨rfl, rfl⟩ := found
    exact .plain notQuote escape

theorem le_length_of_piece {c d : Char} {rest : List Char} {n : Nat}
    (found : piece c rest = .ok (d, n)) : n ≤ rest.length := by
  unfold piece at found
  split at found
  · exact le_length_of_escaped found
  · simp only [Except.ok.injEq, Prod.mk.injEq] at found
    omega

/-- The reader goes over the pieces before a closing quote. -/
theorem body?_of_spells {body value : List Char} (spells : Spells body value)
    (behind : List Char) :
    body? (body ++ '"' :: behind) = .ok (some (value, body.length + 1)) := by
  obtain ⟨pieces, isPiece, rfl, rfl⟩ := spells
  induction pieces with
  | nil => simp [body?]
  | cons p pieces ih =>
      obtain ⟨spelling, d⟩ := p
      obtain ⟨first, later⟩ := List.forall_mem_cons.mp isPiece
      cases spelling with
      | nil => cases first
      | cons c tail =>
          obtain ⟨notQuote, read⟩ := piece_append first (pieces.flatMap Prod.fst ++ '"' :: behind)
          rw [List.flatMap_cons, List.append_assoc, List.cons_append, body?, if_neg notQuote, read]
          simp only [List.drop_left, ih later, List.map_cons, List.length_append, List.length_cons]
          rfl

/-- The reader finds nothing but pieces before a closing quote. -/
theorem exists_spells_of_body? {cs value : List Char} {n : Nat}
    (found : body? cs = .ok (some (value, n))) :
    ∃ body behind, cs = body ++ '"' :: behind ∧ n = body.length + 1 ∧ Spells body value := by
  fun_induction body? cs generalizing value n with
  | case1 => simp at found
  | case2 rest =>
      simp only [Except.ok.injEq, Option.some.injEq, Prod.mk.injEq] at found
      obtain ⟨rfl, rfl⟩ := found
      exact ⟨[], rest, rfl, rfl, spells_nil⟩
  | case3 => simp at found
  | case4 => simp at found
  | case5 => simp at found
  | case6 c rest notQuote d extra first ds length later ih =>
      simp only [Except.ok.injEq, Option.some.injEq, Prod.mk.injEq] at found
      obtain ⟨rfl, rfl⟩ := found
      obtain ⟨body, behind, same, rfl, spells⟩ := ih later
      refine ⟨c :: rest.take extra ++ body, behind, ?_, ?_,
        spells.cons (piece_of_read notQuote first)⟩
      · rw [List.append_assoc, ← same, List.cons_append, List.take_append_drop]
      · have fits := le_length_of_piece first
        simp only [List.length_append, List.length_cons, List.length_take_of_le fits]
        omega

end Quoted

namespace Token

/-- A text stops short of its end unless all of it is walked over. -/
private theorem length_le_of_afterAll_take {p : Position} {cs : List Char} {n : Nat}
    (same : p.afterAll (cs.take n) = p.afterAll cs) : cs.length ≤ n := by
  by_contra short
  cases left : cs.drop n with
  | nil => exact short (List.drop_eq_nil_iff.mp left)
  | cons c rest =>
      have before := (p.afterAll (cs.take n)).precedes_afterAll c rest
      rw [← left, ← Position.afterAll_append, List.take_append_drop, same] at before
      exact before.asymm before

theorem ofChars_quoted {rest value : List Char} {n : Nat} (p : Position)
    (found : Quoted.body? rest = .ok (some (value, n))) :
    ofChars ('"' :: rest) p =
      (ofChars (rest.drop n) (p.afterAll ('"' :: rest.take n))).map
        (⟨.string, String.ofList value, p, p.afterAll ('"' :: rest.take n)⟩ :: ·) := by
  have read : Lexeme.read '"' rest = .ok ⟨.string, value, n⟩ := by
    simp [Lexeme.read, Lexeme.quoted, found]
  rw [ofChars, if_neg (by decide), if_neg (by decide), read]
  rfl

private theorem exists_body?_of_ofChars {rest : List Char} {p : Position} {tokens : List Token}
    (found : ofChars ('"' :: rest) p = .ok tokens) :
    ∃ value n, Quoted.body? rest = .ok (some (value, n)) := by
  rw [ofChars, if_neg (by decide), if_neg (by decide)] at found
  have read : Lexeme.read '"' rest = Lexeme.quoted rest := by simp [Lexeme.read]
  rw [read, Lexeme.quoted] at found
  cases inner : Quoted.body? rest with
  | error stuck => simp [inner] at found
  | ok text =>
      cases text with
      | none => simp [inner] at found
      | some text => exact ⟨text.1, text.2, rfl⟩

/-- A text between two quotes is read as a single text that spans all of it, and has a value,
exactly if the characters between the quotes are pieces that denote the characters of the value. -/
theorem ofSource_quoted_iff (body value : String) :
    let source := "\"" ++ body ++ "\""
    let stop := Position.first.afterAll source.toList
    ofSource source = .ok [⟨.string, value, Position.first, stop⟩, eof stop] ↔
      Quoted.Spells body.toList value.toList := by
  intro source stop
  have chars : source.toList = '"' :: (body.toList ++ ['"']) := by simp [source]
  have ends : stop = Position.first.afterAll ('"' :: (body.toList ++ ['"'])) := by rw [← chars]
  rw [ofSource, chars]
  constructor
  · intro found
    obtain ⟨ds, n, inner⟩ := exists_body?_of_ofChars found
    rw [ofChars_quoted _ inner] at found
    obtain ⟨inside, behind, split, length, spells⟩ := Quoted.exists_spells_of_body? inner
    cases later : ofChars ((body.toList ++ ['"']).drop n)
        (Position.first.afterAll ('"' :: (body.toList ++ ['"']).take n)) with
    | error fault =>
        rw [later] at found
        exact absurd found (by simp [Except.map])
    | ok tokens =>
        rw [later] at found
        simp only [Except.map, Except.ok.injEq, List.cons.injEq, mk.injEq] at found
        obtain ⟨⟨-, rfl, -, same⟩, -⟩ := found
        -- Where the token stops tells how many characters it takes, so nothing is behind it.
        rw [ends] at same
        have all := length_le_of_afterAll_take same
        have bound := congrArg List.length split
        simp only [List.length_append, List.length_cons, List.length_nil] at all bound
        obtain rfl : behind = [] := List.eq_nil_of_length_eq_zero (by omega)
        have same := List.append_cancel_right split
        rwa [same, String.toList_ofList]
  · intro spells
    have read := Quoted.body?_of_spells spells []
    have whole : (body.toList ++ ['"']).take (body.toList.length + 1) = body.toList ++ ['"'] :=
      List.take_of_length_le (by simp)
    have none : (body.toList ++ ['"']).drop (body.toList.length + 1) = [] :=
      List.drop_of_length_le (by simp)
    rw [ofChars_quoted _ read, ends, whole, none, ofChars, String.ofList_toList]
    rfl

end Token
end Wireframe
