import Mathlib.Algebra.Group.Nat.Defs
import Wireframe.Proofs.Word
import Wireframe.Value.Literal

/-!
# Numerals of a source

Rounding to 53 significant bits is idempotent, so that a whole double is the double nearest to the
whole number that it is.  The numeral of a number token denotes a double, and if that double is
finite its whole part can be taken.
-/

namespace Wireframe
namespace Double

theorem roundQuotient_le (num den : Nat) : roundQuotient num den ≤ num / den + 1 := by
  unfold roundQuotient
  simp only
  split <;> omega

/-- All bits but 53 are lost. -/
theorem div_lt_two_pow (num den : Nat) : num / den < 2 ^ (53 + excess num den) := by
  by_cases zero : num / den = 0
  · rw [zero]
    exact Nat.two_pow_pos _
  · refine (Nat.log2_lt zero).mp ?_
    unfold excess
    omega

/-- Rounding keeps at most 53 bits. -/
theorem roundQuotient_excess_le (num den : Nat) :
    roundQuotient num (den * Nat.pow 2 (excess num den)) ≤ 2 ^ 53 := by
  have small : num / den / 2 ^ excess num den < 2 ^ 53 := by
    refine Nat.div_lt_of_lt_mul ?_
    rw [← Nat.pow_add, Nat.add_comm]
    exact div_lt_two_pow num den
  have near := roundQuotient_le num (den * Nat.pow 2 (excess num den))
  have split : num / (den * Nat.pow 2 (excess num den)) = num / den / 2 ^ excess num den :=
    (Nat.div_div_eq_div_mul num den _).symm
  omega

/-- Rounding does not change a number of at most 53 significant bits. -/
theorem roundUnits_mul_pow {m : Nat} (bits : m ≤ 2 ^ 53) (low : Nat) :
    roundUnits (m * 2 ^ low) 1 = m * 2 ^ low := by
  have lost : 2 ^ excess (m * 2 ^ low) 1 ∣ m * 2 ^ low := by
    by_cases zero : m = 0
    · rw [zero, Nat.zero_mul]
      exact Nat.dvd_zero _
    · have nonzero : m * 2 ^ low ≠ 0 := Nat.mul_ne_zero zero (Nat.ne_of_gt (Nat.two_pow_pos low))
      by_cases full : m = 2 ^ 53
      · rw [full, ← Nat.pow_add]
        refine Nat.pow_dvd_pow 2 ?_
        rw [excess, Nat.div_one, Nat.log2_two_pow]
        omega
      · refine Nat.dvd_trans (Nat.pow_dvd_pow 2 ?_) (Nat.dvd_mul_left (2 ^ low) m)
        have bound : m * 2 ^ low < 2 ^ (53 + low) := by
          rw [Nat.pow_add]
          exact Nat.mul_lt_mul_of_pos_right (by omega) (Nat.two_pow_pos low)
        have := (Nat.log2_lt nonzero).mpr bound
        rw [excess, Nat.div_one]
        omega
  rw [roundUnits]
  generalize excess (m * 2 ^ low) 1 = e at lost
  obtain ⟨n, same⟩ := lost
  rw [same, Nat.mul_comm (2 ^ e) n, Nat.one_mul]
  exact congrArg (· * 2 ^ e) (roundQuotient_mul n (2 ^ e) (Nat.two_pow_pos e))

theorem roundUnits_roundUnits (num den : Nat) :
    roundUnits (roundUnits num den) 1 = roundUnits num den :=
  roundUnits_mul_pow (roundQuotient_excess_le num den) (excess num den)

theorem one_limit_log2 : one = 2 ^ one.log2 ∧ limit = 2 ^ limit.log2 ∧ one.log2 < 1198 ∧
    limit.log2 ≤ one.log2 + 1200 := by
  decide +kernel

-- Nothing else may compute them.
attribute [local irreducible] one limit

theorem one_pos : 0 < one :=
  Nat.lt_of_lt_of_eq (Nat.two_pow_pos _) one_limit_log2.1.symm

theorem limit_pos : 0 < limit :=
  Nat.lt_of_lt_of_eq (Nat.two_pow_pos _) one_limit_log2.2.1.symm

/-- Whether a double is what a number is rounded to: it has no more bits than a double can hold. -/
def IsRounded : Double → Prop
  | finite _ units => roundUnits units 1 = units ∧ units < limit
  | infinite _ => True
  | nan => False

theorem isRounded_ofUnits (negative : Bool) (num den : Nat) :
    (ofUnits negative num den).IsRounded := by
  by_cases small : roundUnits num den < limit
  · rw [ofUnits, if_pos small]
    exact ⟨roundUnits_roundUnits num den, small⟩
  · rw [ofUnits, if_neg small]
    trivial

theorem isRounded_zero (negative : Bool) : (finite negative 0).IsRounded :=
  ⟨by simp [roundUnits, excess, roundQuotient], limit_pos⟩

theorem isRounded_ofDecimal (negative : Bool) (digits : Nat) (exponent : Int) :
    (ofDecimal negative digits exponent).IsRounded := by
  unfold ofDecimal
  split
  · exact isRounded_zero negative
  · split
    · trivial
    · split
      · exact isRounded_zero negative
      · exact isRounded_ofUnits _ _ _

theorem ofInt_of_toInt? {negative : Bool} {units : Nat} {n : Int}
    (rounded : (finite negative units).IsRounded)
    (whole : (finite negative units).toInt? = some n) :
    ofInt n = finite (n < 0) units := by
  obtain ⟨exact, small⟩ := rounded
  rw [toInt?] at whole
  split at whole
  · rename_i divides
    have value : n.natAbs = units / one := by
      obtain rfl := Option.some.inj whole
      split
      · rw [Int.natAbs_neg, Int.natAbs_natCast]
      · exact Int.natAbs_natCast _
    have back : n.natAbs * one = units := by
      rw [value]
      exact Nat.div_mul_cancel (Nat.dvd_of_mod_eq_zero divides)
    rw [ofInt, back, ofUnits, exact]
    exact if_pos small
  · exact absurd whole (by simp)

/-- Whether a double is whole does not depend on its sign. -/
theorem isInteger_finite (negative other : Bool) (units : Nat) :
    (finite negative units).isInteger = (finite other units).isInteger := by
  unfold isInteger toInt?
  by_cases divides : units % one = 0
  · simp [divides]
  · simp [divides]

end Double

namespace Number

open Double

/-- The whole part of a finite number of a source can be taken, and the number is whole exactly if
its double is. -/
theorem toInt_normalize {d : Double} (rounded : d.IsRounded) (finite : d.isFinite = true) :
    (∃ n, (Literal.number (Number.double d).normalize).toInt = .ok n) ∧
      (Number.double d).normalize.isInteger = .ok d.isInteger := by
  cases d with
  | nan => simp [isFinite] at finite
  | infinite negative => simp [isFinite] at finite
  | finite negative units =>
      cases whole : (Double.finite negative units).toInt? with
      | none =>
          rw [normalize, whole]
          exact ⟨⟨_, rfl⟩, rfl⟩
      | some n =>
          have near : toDouble (.integer n) = .ok (.finite (n < 0) units) := by
            rw [toDouble, toDouble?, ofInt_of_toInt? rounded whole]
            rfl
          rw [normalize, whole]
          refine ⟨⟨n, ?_⟩, ?_⟩
          · rw [Literal.toInt, Literal.toInt?, truncate, near]
            rfl
          · rw [Number.isInteger, near]
            exact congrArg Except.ok (isInteger_finite _ _ units)

end Number

namespace Numeral

open Word

theorem dropWhile_eq_self {p : Char → Bool} {cs : List Char}
    (outside : ∀ c ∈ cs, p c = false) : cs.dropWhile p = cs := by
  cases cs with
  | nil => rfl
  | cons c cs => simp [outside c List.mem_cons_self]

theorem trim_eq_self {p : Char → Bool} {cs : List Char}
    (outside : ∀ c ∈ cs, p c = false) : Text.trim p cs = cs := by
  rw [Text.trim, dropWhile_eq_self outside, Text.dropEndWhile,
    dropWhile_eq_self fun c member => outside c (List.mem_reverse.mp member), List.reverse_reverse]

theorem ungroup?_eq_some {cs : List Char} (plain : '_' ∉ cs) (afterDigit : Bool) :
    ungroup? afterDigit cs = some cs := by
  induction cs generalizing afterDigit with
  | nil => rfl
  | cons c cs ih =>
      have notLine : c ≠ '_' := fun same => plain (same ▸ List.mem_cons_self)
      have later := ih (fun member => plain (List.mem_cons_of_mem c member)) (Text.isDigit c)
      rw [ungroup?.eq_def]
      split
      · simp at *
      · rename_i same
        exact absurd (List.cons.inj same).1 notLine
      · rename_i same
        obtain ⟨rfl, rfl⟩ := List.cons.inj same
        rw [if_neg notLine, later]
        rfl

theorem digitValue?_of_isDigit {c : Char} (digit : Lexeme.isDigit c = true) :
    Text.digitValue? c = some (c.toNat - 0x30) := by
  simp only [Lexeme.isDigit, Bool.and_eq_true, decide_eq_true_eq, Char.le_def,
    UInt32.le_iff_toNat_le] at digit
  have low : 0x30 ≤ c.toNat := digit.1
  have high : c.toNat ≤ 0x39 := digit.2
  have found : (decide (0x30 ≤ c.toNat) && decide (c.toNat < 0x30 + 10)) = true := by
    simp only [Bool.and_eq_true, decide_eq_true_eq]
    omega
  simp [Text.digitValue?, Text.digitZeros, found]

private theorem isDigit_of_isDigit {c : Char} (digit : Lexeme.isDigit c = true) :
    Text.isDigit c = true := by
  rw [Text.isDigit, digitValue?_of_isDigit digit]
  rfl

theorem isDigit_of_isDigits {cs : List Char} (digits : IsDigits cs) :
    ∀ c ∈ cs, Text.isDigit c = true :=
  fun c member => isDigit_of_isDigit (digits.2 c member)

/-- The sign of a numeral. -/
def signChars (negative : Bool) : List Char :=
  if negative then ['-'] else []

private theorem readSign_eq (negative : Bool) {unsigned : List Char}
    (digit : ∃ c ∈ unsigned.head?, Lexeme.isDigit c = true) :
    readSign (signChars negative ++ unsigned) = (negative, unsigned) := by
  cases negative with
  | true => rfl
  | false =>
      obtain ⟨c, head, isDigit⟩ := digit
      cases unsigned with
      | nil => simp at head
      | cons d rest =>
          obtain rfl : d = c := by simpa using head
          rw [signChars, if_neg (by decide), List.nil_append, readSign.eq_def]
          split
          · exact absurd isDigit (by simp_all [Lexeme.isDigit])
          · exact absurd isDigit (by simp_all [Lexeme.isDigit])
          · rfl

/-- Whether characters are a point with decimals behind it, or nothing if there are no decimals. -/
def IsFraction (fraction decimals : List Char) : Prop :=
  fraction = [] ∧ decimals = [] ∨ fraction = '.' :: decimals ∧ IsDigits decimals

private theorem readDigits?_eq {digits fraction decimals : List Char} (isDigits : IsDigits digits)
    (shape : IsFraction fraction decimals) :
    readDigits? (digits ++ fraction) = some (digits, decimals, []) := by
  have inside := isDigit_of_isDigits isDigits
  have ended : ∀ c, ([] : List Char).head? = some c → Text.isDigit c = false := by simp
  rcases shape with ⟨rfl, rfl⟩ | ⟨rfl, isDecimals⟩
  · obtain ⟨taken, dropped⟩ := takeWhile_exact inside ended
    rw [readDigits?, taken, dropped]
    simp [isDigits.1]
  · have point : ∀ c, ('.' :: decimals).head? = some c → Text.isDigit c = false := by
      intro c head
      obtain rfl : '.' = c := by simpa using head
      decide
    obtain ⟨taken, dropped⟩ := takeWhile_exact inside point
    obtain ⟨takenToo, droppedToo⟩ := takeWhile_exact (isDigit_of_isDigits isDecimals) ended
    rw [List.append_nil] at takenToo droppedToo
    rw [readDigits?, taken, dropped]
    simp [takenToo, droppedToo, isDigits.1]

private theorem plain_of_isNumeral {cs : List Char} (numeral : IsNumeral cs) :
    ∀ c ∈ cs, Text.isPadding c = false ∧ c ≠ '_' := by
  have digit {c : Char} (isDigit : Lexeme.isDigit c = true) :
      Text.isPadding c = false ∧ c ≠ '_' := by
    simp only [Lexeme.isDigit, Bool.and_eq_true, decide_eq_true_eq, Char.le_def,
      UInt32.le_iff_toNat_le] at isDigit
    have low : 0x30 ≤ c.toNat := isDigit.1
    have high : c.toNat ≤ 0x39 := isDigit.2
    constructor
    · simp only [Text.isPadding, Bool.or_eq_false_iff, Bool.and_eq_false_iff, beq_eq_false_iff_ne,
        decide_eq_false_iff_not]
      omega
    · rintro rfl
      exact absurd high (by decide)
  obtain ⟨sign, digits, fraction, rfl, signShape, ⟨-, isDigit⟩, shape⟩ := numeral
  intro c member
  rcases List.mem_append.mp member with front | inFraction
  · rcases List.mem_append.mp front with inSign | inDigits
    · rcases signShape with rfl | rfl
      · simp at inSign
      · obtain rfl := List.mem_singleton.mp inSign
        decide
    · exact digit (isDigit c inDigits)
  · rcases shape with rfl | ⟨decimals, rfl, -, inside⟩
    · simp at inFraction
    · rcases List.mem_cons.mp inFraction with rfl | later
      · decide
      · exact digit (inside c later)

theorem isNumeral_iff {cs : List Char} : IsNumeral cs ↔ ∃ negative digits fraction decimals,
    cs = signChars negative ++ (digits ++ fraction) ∧ IsDigits digits ∧
      IsFraction fraction decimals := by
  constructor
  · rintro ⟨sign, digits, fraction, rfl, signShape, isDigits, shape⟩
    obtain ⟨negative, rfl⟩ : ∃ negative, sign = signChars negative := by
      rcases signShape with rfl | rfl
      · exact ⟨false, rfl⟩
      · exact ⟨true, rfl⟩
    rcases shape with rfl | ⟨decimals, rfl, isDecimals⟩
    · exact ⟨negative, digits, [], [], List.append_assoc .., isDigits, Or.inl ⟨rfl, rfl⟩⟩
    · exact ⟨negative, digits, _, decimals, List.append_assoc .., isDigits,
        Or.inr ⟨rfl, isDecimals⟩⟩
  · rintro ⟨negative, digits, fraction, decimals, rfl, isDigits, shape⟩
    refine ⟨signChars negative, digits, fraction, (List.append_assoc ..).symm, ?_, isDigits, ?_⟩
    · cases negative with
      | true => exact Or.inr rfl
      | false => exact Or.inl rfl
    · exact shape.imp And.left fun isFraction => ⟨decimals, isFraction⟩

theorem toDouble?_eq {text : String} {negative : Bool} {digits fraction decimals : List Char}
    (chars : text.toList = signChars negative ++ (digits ++ fraction)) (isDigits : IsDigits digits)
    (shape : IsFraction fraction decimals) :
    toDouble? text = some (toDouble ⟨negative, digits, decimals, 0⟩) := by
  have plain := plain_of_isNumeral
    (isNumeral_iff.mpr ⟨negative, digits, fraction, decimals, chars, isDigits, shape⟩)
  have whole : ungroup? false (Text.trim Text.isPadding text.toList) = some text.toList := by
    rw [trim_eq_self fun c member => (plain c member).1]
    exact ungroup?_eq_some (fun member => (plain '_' member).2 rfl) false
  have head : ∃ c ∈ (digits ++ fraction).head?, Lexeme.isDigit c = true := by
    cases digits with
    | nil => exact absurd rfl isDigits.1
    | cons c digits => exact ⟨c, rfl, isDigits.2 c List.mem_cons_self⟩
  have found : read? text.toList = some (⟨negative, digits, decimals, 0⟩, []) := by
    rw [chars, read?, readSign_eq negative head]
    simp [readDigits?_eq isDigits shape, readPower]
  rw [toDouble?, whole]
  simp [found]

theorem toDouble?_of_isNumeral {text : String} (numeral : IsNumeral text.toList) :
    ∃ d, toDouble? text = some d ∧ d.IsRounded := by
  obtain ⟨negative, digits, fraction, decimals, chars, isDigits, shape⟩ :=
    isNumeral_iff.mp numeral
  exact ⟨_, toDouble?_eq chars isDigits shape, Double.isRounded_ofDecimal _ _ _⟩

end Numeral
end Wireframe
