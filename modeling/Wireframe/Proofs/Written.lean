import Wireframe.Proofs.Shortest

/-!
# Numbers written as numerals

A number of a source is written as a numeral that denotes it again, unless it is closer to zero
than a ten thousandth and no zero: such a number is written with an exponent, which no numeral of a
source has.
-/

namespace Wireframe

open Word

namespace Text

theorem digitsValue_eq {cs : List Char} (digits : ∀ c ∈ cs, Lexeme.isDigit c = true) :
    digitsValue cs = Nat.ofDigitChars 10 cs 0 := by
  rw [digitsValue, Nat.ofDigitChars_eq_foldl]
  refine List.foldl_ext _ _ 0 fun value c member => ?_
  rw [Numeral.digitValue?_of_isDigit (digits c member)]
  rfl

end Text

theorem Word.isDigits_toDigits (n : Nat) : IsDigits (Nat.toDigits 10 n) := by
  refine ⟨Nat.toDigits_ne_nil, fun c member => ?_⟩
  have digit := Nat.isDigit_of_mem_toDigits (by decide) (by decide) member
  simpa [Char.isDigit, Lexeme.isDigit, Char.le_def] using digit

namespace Decimal

theorem value_mul_pow (n k : Nat) (e : Int) :
    (Decimal.mk (n * 10 ^ k) e).value = (Decimal.mk n (e + k)).value := by
  simp only [value]
  rw [zpow_add₀ (by norm_num), zpow_natCast]
  push_cast
  ring

theorem exists_zeros (d : Decimal) :
    ∃ k, Nat.toDigits 10 d.digits = d.significant.1 ++ List.replicate k '0' := by
  refine ⟨((Nat.toDigits 10 d.digits).reverse.takeWhile (· == '0')).length, ?_⟩
  have zeros : (Nat.toDigits 10 d.digits).reverse.takeWhile (· == '0') = List.replicate
      ((Nat.toDigits 10 d.digits).reverse.takeWhile (· == '0')).length '0' := by
    refine List.eq_replicate_iff.mpr ⟨rfl, fun c member => ?_⟩
    simpa using List.all_eq_true.mp List.all_takeWhile c member
  have split := congrArg List.reverse (List.takeWhile_append_dropWhile (p := (· == '0'))
    (l := (Nat.toDigits 10 d.digits).reverse))
  rw [List.reverse_append, List.reverse_reverse, zeros, List.reverse_replicate] at split
  exact split.symm

/-- The significant digits of a positive decimal and the place of the first tell its value. -/
theorem significant_spec {d : Decimal} (positive : 0 < d.digits) :
    IsDigits d.significant.1 ∧
      (Decimal.mk (Nat.ofDigitChars 10 d.significant.1 0)
        (d.significant.2 + 1 - d.significant.1.length)).value = d.value := by
  obtain ⟨k, split⟩ := d.exists_zeros
  have whole : Nat.ofDigitChars 10 d.significant.1 0 * 10 ^ k = d.digits := by
    have denotes := congrArg (Nat.ofDigitChars 10 · 0) split
    simp only [Nat.ofDigitChars_ten_toDigits, Nat.ofDigitChars_append,
      Nat.ofDigitChars_replicate_zero] at denotes
    rw [denotes, Nat.mul_comm]
  refine ⟨⟨fun none => ?_, fun c member => ?_⟩, ?_⟩
  · rw [none, Nat.ofDigitChars_nil, Nat.zero_mul] at whole
    omega
  · exact (isDigits_toDigits d.digits).2 c (split ▸ List.mem_append_left _ member)
  · have length : d.significant.2 + 1 - d.significant.1.length = d.exponent + k := by
      have digits := congrArg List.length split
      rw [List.length_append, List.length_replicate] at digits
      change d.exponent + (Nat.toDigits 10 d.digits).length - 1 + 1 - _ = _
      omega
    rw [length, ← value_mul_pow, whole]

end Decimal

namespace Double

private theorem isDigit_of_mem_zeros {n : Nat} {c : Char} (member : c ∈ List.replicate n '0') :
    Lexeme.isDigit c = true := by
  rw [List.eq_of_mem_replicate member]
  rfl

private theorem isDigits_zero : IsDigits ['0'] :=
  ⟨by simp, fun _ member => isDigit_of_mem_zeros (n := 1) member⟩

/-- Whether characters are digits with a point among them that stand for a decimal. -/
def Denotes (cs : List Char) (d : Decimal) : Prop :=
  ∃ whole decimals, cs = whole ++ '.' :: decimals ∧ IsDigits whole ∧ IsDigits decimals ∧
    (Decimal.mk (Nat.ofDigitChars 10 (whole ++ decimals) 0) (-decimals.length)).value = d.value

private theorem denotes_behind {digits : List Char} (isDigits : IsDigits digits) (zeros : Nat) :
    Denotes ('0' :: '.' :: List.replicate zeros '0' ++ digits)
      ⟨Nat.ofDigitChars 10 digits 0, -(zeros + digits.length : Nat)⟩ := by
  obtain ⟨some, inside⟩ := isDigits
  refine ⟨['0'], List.replicate zeros '0' ++ digits, rfl, isDigits_zero, ⟨by simp [some], ?_⟩, ?_⟩
  · exact fun c member => (List.mem_append.mp member).elim isDigit_of_mem_zeros (inside c)
  · simp [Nat.ofDigitChars_append, Nat.ofDigitChars_cons]

private theorem denotes_front {digits : List Char} (isDigits : IsDigits digits) (zeros : Nat) :
    Denotes (digits ++ List.replicate zeros '0' ++ ['.', '0'])
      ⟨Nat.ofDigitChars 10 digits 0, zeros⟩ := by
  obtain ⟨some, inside⟩ := isDigits
  refine ⟨digits ++ List.replicate zeros '0', ['0'], rfl, ⟨by simp [some], ?_⟩, isDigits_zero, ?_⟩
  · exact fun c member => (List.mem_append.mp member).elim (inside c) isDigit_of_mem_zeros
  · have shifted : Nat.ofDigitChars 10 (digits ++ List.replicate zeros '0' ++ ['0']) 0 =
        Nat.ofDigitChars 10 digits 0 * 10 ^ (zeros + 1) := by
      simp [Nat.ofDigitChars_append, Nat.ofDigitChars_cons]
      ring
    rw [shifted, Decimal.value_mul_pow]
    simp

private theorem denotes_between {digits : List Char} (isDigits : IsDigits digits) {n : Nat}
    (positive : 0 < n) (inner : n < digits.length) :
    Denotes (digits.take n ++ '.' :: digits.drop n)
      ⟨Nat.ofDigitChars 10 digits 0, n - digits.length⟩ := by
  obtain ⟨some, inside⟩ := isDigits
  refine ⟨digits.take n, digits.drop n, rfl, ⟨?_, fun c member => ?_⟩, ⟨?_, fun c member => ?_⟩, ?_⟩
  · simp [some, Nat.ne_of_gt positive]
  · exact inside c (List.mem_of_mem_take member)
  · simpa using inner
  · exact inside c (List.mem_of_mem_drop member)
  · rw [List.take_append_drop, List.length_drop, Nat.cast_sub inner.le, neg_sub]

/-- Digits in positional form are those of the decimal whose first digit counts a power of ten. -/
theorem denotes_positional {digits : List Char} (isDigits : IsDigits digits) (leading : Int) :
    Denotes (positional digits leading)
      ⟨Nat.ofDigitChars 10 digits 0, leading + 1 - digits.length⟩ := by
  unfold positional
  split
  · have places : leading + 1 - digits.length = -((-leading - 1).toNat + digits.length : Nat) := by
      omega
    rw [places]
    exact denotes_behind isDigits _
  · simp only
    generalize places : (leading + 1).toNat = n
    have ahead : leading + 1 = n := by omega
    rw [ahead]
    by_cases short : digits.length ≤ n
    · rw [List.take_of_length_le short, List.drop_of_length_le short, ← Nat.cast_sub short]
      exact denotes_front isDigits _
    · have none : n - digits.length = 0 := by omega
      have some : (digits.drop n).isEmpty = false := by simp [short]
      rw [none, some]
      simpa using denotes_between isDigits (by omega) (Nat.lt_of_not_le short)

/-- Digits with an exponent begin with a numeral, which ends before the mark of the exponent. -/
theorem exists_front_scientific {digits : List Char} (isDigits : IsDigits digits) (negative : Bool)
    (leading : Int) : ∃ front rest, IsNumeral front ∧
      Numeral.signChars negative ++ scientific digits leading = front ++ 'e' :: rest := by
  obtain ⟨some, inside⟩ := isDigits
  obtain ⟨first, decimals, rfl⟩ := List.exists_cons_of_ne_nil some
  have isFirst : IsDigits [first] :=
    ⟨by simp, fun c member => inside c (List.mem_singleton.mp member ▸ List.mem_cons_self)⟩
  have shape : Numeral.IsFraction (if decimals.isEmpty then [] else '.' :: decimals) decimals := by
    cases decimals with
    | nil => exact Or.inl ⟨rfl, rfl⟩
    | cons c rest =>
        exact Or.inr ⟨rfl, by simp, fun d member => inside d (List.mem_cons_of_mem first member)⟩
  refine ⟨_, (if leading < 0 then '-' else '+') :: twoDigits leading.natAbs,
    Numeral.isNumeral_iff.mpr ⟨negative, [first], _, decimals, rfl, isFirst, shape⟩, ?_⟩
  simp [scientific]

end Double

namespace Token

theorem ofSource_numeral {text : String} (numeral : IsNumeral text.toList) :
    ofSource text = .ok [⟨.number, text, Position.first, Position.first.afterAll text.toList⟩,
      eof (Position.first.afterAll text.toList)] := by
  have spelled : (Word.mk .number text).IsSpelled := numeral
  have chars : (Word.mk .number text).chars = text.toList := Word.chars_of_ne_string (by simp)
  have ends : (Word.mk .number text).EndsBefore [] := Or.inr (by simp [Breaks])
  have read := ofChars_chars Position.first spelled ends
  rw [chars, List.append_nil, ofChars] at read
  rw [ofSource, read]
  rfl

/-- A numeral with an exponent is not a single token: the exponent is a symbol. -/
theorem ofChars_exponent_ne {front : List Char} (numeral : IsNumeral front) (rest : List Char)
    (p : Position) (t : Token) (stop : Position) :
    ofChars (front ++ 'e' :: rest) p ≠ .ok [t, eof stop] := by
  intro found
  obtain ⟨c, tail, rfl⟩ := List.exists_cons_of_ne_nil numeral.ne_nil
  have ends : EndsDigits ('e' :: rest) := by
    intro d head
    obtain rfl : 'e' = d := by simpa using head
    decide
  have reads := readsAs_numeral (w := ⟨.number, String.ofList (c :: tail)⟩) rfl
    String.toList_ofList numeral ends
  have symbol : Lexeme.read 'e' rest = .ok ⟨.symbol, 'e' :: rest.takeWhile Lexeme.isSymbolChar,
      (rest.takeWhile Lexeme.isSymbolChar).length⟩ := by
    simp [Lexeme.read, Lexeme.startsNumber, Lexeme.isDigit, Lexeme.isSymbolStart]
  rw [ofChars_of_readsAs p reads, ofChars, if_neg (by decide), if_neg (by decide), symbol] at found
  simp only at found
  generalize ofChars (rest.drop _) _ = later at found
  cases later with
  | error fault => simp [Except.map] at found
  | ok behind => simp [Except.map, Lexeme.toToken, eof] at found

end Token

namespace Double

-- Both are powers of two that nothing may compute.
attribute [local irreducible] one limit

theorem toDouble_of_units {negative : Bool} {whole decimals : List Char} {d : Decimal}
    (isWhole : IsDigits whole) (isDecimals : IsDigits decimals)
    (same : (Decimal.mk (Nat.ofDigitChars 10 (whole ++ decimals) 0) (-decimals.length)).value =
      d.value) (small : d.units < limit) :
    Numeral.toDouble ⟨negative, whole, decimals, 0⟩ = finite negative d.units := by
  have digits : ∀ c ∈ whole ++ decimals, Lexeme.isDigit c = true := fun c member =>
    (List.mem_append.mp member).elim (isWhole.2 c) (isDecimals.2 c)
  have units : (Decimal.mk (Nat.ofDigitChars 10 (whole ++ decimals) 0) (-decimals.length)).units =
      d.units :=
    Nat.le_antisymm (Decimal.units_le_units same.le) (Decimal.units_le_units same.ge)
  rw [Numeral.toDouble, Text.digitsValue_eq digits, Int.zero_sub]
  exact (Decimal.ofDecimal_eq negative ⟨Nat.ofDigitChars 10 (whole ++ decimals) 0,
    -decimals.length⟩).trans (by rw [units, if_pos small])

theorem ofDecimal_natAbs (n : Int) : ofDecimal (n < 0) n.natAbs 0 = ofInt n := by
  have units : (Decimal.mk n.natAbs 0).units = roundUnits (n.natAbs * one) 1 := by
    simp [Decimal.units]
  rw [Decimal.ofDecimal_eq (n < 0) ⟨n.natAbs, 0⟩, units]
  rfl

theorem toInt?_sign {negative : Bool} {u : Nat} {n : Int}
    (whole : (finite negative u).toInt? = some n) : (finite (n < 0) u).toInt? = some n := by
  rw [toInt?] at whole ⊢
  split at whole
  · rename_i divides
    rw [if_pos divides]
    obtain rfl := Option.some.inj whole
    generalize u / one = q
    refine congrArg some ?_
    cases negative with
    | false => simp [(Int.natCast_nonneg q).not_gt]
    | true =>
        simp only [if_true, decide_eq_true_eq]
        split <;> omega
  · simp at whole

end Double

namespace Number

open Double Numeral

attribute [local irreducible] one limit

/-- Whether a number is neither infinite nor nan. -/
def isFinite : Number → Bool
  | integer _ => true
  | double d => d.isFinite

/-- Whether a number is closer to zero than a ten thousandth, and no zero. -/
def IsTiny : Number → Prop
  | double (.finite _ units) => 0 < units ∧ 10 ^ 4 * units < one
  | _ => False

/-- Whether a number is written as a number token that denotes it again. -/
def IsRestored (n : Number) : Prop :=
  ∃ t stop, Token.ofSource n.format = .ok [t, Token.eof stop] ∧ t.kind = .number ∧
    ofText t.value = .ok n

theorem isRestored_of_numeral {n : Number} (numeral : IsNumeral n.format.toList)
    (denotes : ofText n.format = .ok n) : n.IsRestored :=
  ⟨_, _, Token.ofSource_numeral numeral, rfl, denotes⟩

private theorem toList_format_integer (n : Int) :
    (integer n).format.toList = signChars (n < 0) ++ (Nat.toDigits 10 n.natAbs ++ []) := by
  rw [format, Int.toString_eq_repr, Int.repr_eq_if, List.append_nil]
  by_cases negative : n < 0
  · have digits : (-n).toNat = n.natAbs := by omega
    simp [negative, Int.not_le.mpr negative, signChars, digits]
  · have digits : n.toNat = n.natAbs := by omega
    simp [negative, Int.not_lt.mp negative, signChars, digits]

theorem isRestored_integer {negative : Bool} {u : Nat} {n : Int}
    (rounded : (finite negative u).IsRounded) (whole : (finite negative u).toInt? = some n) :
    (integer n).IsRestored := by
  have chars := toList_format_integer n
  have digits := isDigits_toDigits n.natAbs
  have none : IsFraction [] [] := Or.inl ⟨rfl, rfl⟩
  refine isRestored_of_numeral (isNumeral_iff.mpr ⟨_, _, _, _, chars, digits, none⟩) ?_
  have value : Text.digitsValue (Nat.toDigits 10 n.natAbs ++ []) = n.natAbs := by
    rw [List.append_nil, Text.digitsValue_eq digits.2, Nat.ofDigitChars_ten_toDigits]
  have read : Numeral.toDouble ⟨n < 0, Nat.toDigits 10 n.natAbs, [], 0⟩ = finite (n < 0) u := by
    rw [← ofInt_of_toInt? rounded whole, ← ofDecimal_natAbs, Numeral.toDouble, value]
    rfl
  rw [ofText, toDouble?_eq chars digits none, read]
  simp only [normalize, toInt?_sign whole]

theorem format_double {negative : Bool} {u : Nat} (fraction : (finite negative u).toInt? = none) :
    (double (finite negative u)).format.toList =
      let (digits, leading) := (Decimal.shortest u).significant
      signChars negative ++
        if isPositional leading then positional digits leading else scientific digits leading := by
  have nonzero : u ≠ 0 := by
    rintro rfl
    simp [toInt?] at fraction
  simp only [format, fraction, render, if_neg nonzero, String.toList_ofList]
  cases negative with
  | false => rfl
  | true => rfl

theorem isRestored_double {negative : Bool} {u : Nat}
    (rounded : (finite negative u).IsRounded) (fraction : (finite negative u).toInt? = none)
    (ordinary : one ≤ 10 ^ 4 * u) : (double (finite negative u)).IsRestored := by
  have apart : u % one ≠ 0 := by
    intro whole
    simp [toInt?, whole] at fraction
  have positive : 0 < u := by
    refine Nat.pos_of_ne_zero fun zero => apart ?_
    rw [zero, Nat.zero_mod]
  have same := Decimal.units_shortest rounded positive
  obtain ⟨isDigits, value⟩ := Decimal.significant_spec
    (Decimal.digits_pos_of_units_pos (d := Decimal.shortest u) (by omega))
  have low := (not_congr (Decimal.leading_lt_iff rounded positive)).mpr (Nat.not_lt.mpr ordinary)
  have high := Decimal.leading_le rounded apart
  have inRange : isPositional (Decimal.shortest u).significant.2 = true := by
    simp only [isPositional, Bool.and_eq_true, decide_eq_true_eq]
    omega
  obtain ⟨whole, decimals, point, isWhole, isDecimals, value'⟩ :=
    denotes_positional isDigits (Decimal.shortest u).significant.2
  have chars : (double (finite negative u)).format.toList =
      signChars negative ++ (whole ++ '.' :: decimals) := by
    rw [format_double fraction]
    simp only [inRange, if_true, point]
  have shape : IsFraction ('.' :: decimals) decimals := Or.inr ⟨rfl, isDecimals⟩
  refine isRestored_of_numeral (isNumeral_iff.mpr ⟨_, _, _, _, chars, isWhole, shape⟩) ?_
  rw [ofText, toDouble?_eq chars isWhole shape,
    toDouble_of_units isWhole isDecimals (value'.trans value) (same.symm ▸ rounded.2), same]
  simp only [normalize, fraction]

/-- A tiny number is written with an exponent, which is no part of a numeral. -/
theorem not_isRestored_double {negative : Bool} {u : Nat}
    (rounded : (finite negative u).IsRounded) (positive : 0 < u) (tiny : 10 ^ 4 * u < one) :
    ¬(double (finite negative u)).IsRestored := by
  rintro ⟨t, stop, found, -, -⟩
  have fraction : (finite negative u).toInt? = none := by
    have below : u % one = u := Nat.mod_eq_of_lt (by omega)
    rw [toInt?, below, if_neg (by omega)]
  have same := Decimal.units_shortest rounded positive
  obtain ⟨isDigits, -⟩ := Decimal.significant_spec
    (Decimal.digits_pos_of_units_pos (d := Decimal.shortest u) (by omega))
  have low := (Decimal.leading_lt_iff rounded positive).mpr tiny
  have outside : isPositional (Decimal.shortest u).significant.2 = false := by
    simp only [isPositional, Bool.and_eq_false_iff, decide_eq_false_iff_not]
    omega
  obtain ⟨front, rest, numeral, split⟩ :=
    exists_front_scientific isDigits negative (Decimal.shortest u).significant.2
  have chars : (double (finite negative u)).format.toList = front ++ 'e' :: rest := by
    rw [format_double fraction, ← split]
    simp only [outside, Bool.false_eq_true, if_false]
  refine Token.ofChars_exponent_ne numeral rest .first t stop ?_
  rw [← found, Token.ofSource, chars]

private theorem normalize_cases {d : Double} (finite : (double d).normalize.isFinite = true) :
    ∃ negative u, d = .finite negative u := by
  cases d with
  | nan => simp [normalize, toInt?, isFinite, Double.isFinite] at finite
  | infinite negative => simp [normalize, toInt?, isFinite, Double.isFinite] at finite
  | finite negative u => exact ⟨negative, u, rfl⟩

/-- The finite numbers that number tokens denote are written as number tokens that denote them
again, but for those that are closer to zero than a ten thousandth and no zero. -/
theorem isRestored_iff {source : String} {tokens : List Token} {t : Token} {n : Number}
    (found : Token.ofSource source = .ok tokens) (member : t ∈ tokens) (number : t.kind = .number)
    (denotes : ofText t.value = .ok n) (finite : n.isFinite = true) :
    n.IsRestored ↔ ¬n.IsTiny := by
  have spelled := Token.isSpelled_of_ofChars found member (by simp [number])
  have numeral : IsNumeral t.value.toList := by
    simpa [IsSpelled, number] using spelled
  obtain ⟨d, value, rounded⟩ := toDouble?_of_isNumeral numeral
  obtain rfl : (double d).normalize = n := by
    simpa [ofText, value] using denotes
  obtain ⟨negative, u, rfl⟩ := normalize_cases finite
  cases whole : (Double.finite negative u).toInt? with
  | some m =>
      have written : (double (.finite negative u)).normalize = integer m := by
        simp only [normalize, whole]
      rw [written]
      exact iff_of_true (isRestored_integer rounded whole) not_false
  | none =>
      have written : (double (.finite negative u)).normalize = double (.finite negative u) := by
        simp only [normalize, whole]
      rw [written]
      have nonzero : 0 < u := by
        refine Nat.pos_of_ne_zero ?_
        rintro rfl
        simp [toInt?] at whole
      constructor
      · rintro restored ⟨-, tiny⟩
        exact not_isRestored_double rounded nonzero tiny restored
      · intro ordinary
        exact isRestored_double rounded whole (Nat.not_lt.mp fun tiny => ordinary ⟨nonzero, tiny⟩)

theorem isRestored_iff_negative :
    (double (ofDecimal true 25 (-1))).format = "-2.5" ∧
      ((double (ofDecimal true 25 (-1))).IsRestored ↔ ¬(double (ofDecimal true 25 (-1))).IsTiny) :=
  ⟨by decide +kernel, isRestored_iff
    (show Token.ofSource "-2.50" = .ok [⟨.number, "-2.50", ⟨1, 1⟩, ⟨1, 6⟩⟩, Token.eof ⟨1, 6⟩] by
      decide +kernel)
    List.mem_cons_self rfl (by decide +kernel) (by decide +kernel)⟩

/-- A hundred thousandth is written as a number token and a symbol. -/
theorem not_isRestored_hundredThousandth :
    ∃ t stop n, Token.ofSource "0.00001" = .ok [t, Token.eof stop] ∧ t.kind = .number ∧
      ofText t.value = .ok n ∧ n.isFinite = true ∧ n.format = "1e-05" ∧ ¬n.IsRestored := by
  have written : (double (ofDecimal false 1 (-5))).format = "1e-05" := by decide +kernel
  refine ⟨⟨.number, "0.00001", .first, ⟨1, 8⟩⟩, ⟨1, 8⟩, double (ofDecimal false 1 (-5)),
    by decide +kernel, rfl, by decide +kernel, by decide +kernel, written, ?_⟩
  rintro ⟨t, stop, found, -⟩
  have read : Token.ofSource "1e-05" = .ok [⟨.number, "1", .first, ⟨1, 2⟩⟩,
      ⟨.symbol, "e-05", ⟨1, 2⟩, ⟨1, 6⟩⟩, Token.eof ⟨1, 6⟩] := by decide +kernel
  rw [written, read] at found
  simp at found

end Number
end Wireframe
