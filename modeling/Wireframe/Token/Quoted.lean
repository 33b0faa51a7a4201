/-!
# Quoted texts

The characters between two quotes are read in pieces.  A piece is a character as it stands or an
escape: a backslash and one of `n t r " \`, two hexadecimal digits after `x`, four after `u`, one to
six in braces after `u`, or any other character, which then stands for itself.  Two escapes of four
digits may join the halves of a surrogate pair; half a pair alone is refused, so that a text never
holds one.
-/

namespace Wireframe

/-- Why a text is not made of tokens. -/
inductive LexCause where
  | unterminatedString
  | unterminatedEscape
  | missingHexDigits (count : Nat)
  | badHexDigit (c : Char)
  | badUnicodeDigit (c : Char)
  | unterminatedUnicode
  | unicodeLength
  | unicodeRange (digits : List Char)
  | unpairedSurrogate
  | emptyParam
  | emptyHash
  | emptyKeyword
  | unexpected (c : Char)
  deriving DecidableEq, Repr

/-- The message for a text that is not made of tokens. -/
def LexCause.message : LexCause → String
  | unterminatedString => "Unterminated string"
  | unterminatedEscape => "Unterminated escape sequence"
  | missingHexDigits count => s!"Expected {count} hex digits in escape sequence"
  | badHexDigit c => s!"Invalid hex digit '{c}' in escape sequence"
  | badUnicodeDigit c => s!"Invalid hex digit '{c}' in unicode escape"
  | unterminatedUnicode => "Unterminated unicode escape sequence"
  | unicodeLength => "Unicode escape must have 1-6 hex digits"
  | unicodeRange digits => s!"Unicode code point {String.ofList digits} out of range"
  | unpairedSurrogate => "Unpaired surrogate in unicode escape"
  | emptyParam => "Expected parameter name after $"
  | emptyHash => "Expected identifier after #"
  | emptyKeyword => "Expected keyword after :"
  | unexpected c => s!"Unexpected character: {c}"

/-- A cause with the number of characters before the one at fault. -/
structure Stuck where
  /-- What is wrong. -/
  cause : LexCause
  /-- The characters before the one at fault. -/
  offset : Nat
  deriving DecidableEq, Repr

namespace Stuck

/-- The same cause, seen from some characters earlier. -/
def shift (s : Stuck) (n : Nat) : Stuck :=
  ⟨s.cause, s.offset + n⟩

end Stuck

namespace Quoted

/-- The value of a hexadecimal digit. -/
def hexValue? (c : Char) : Option Nat :=
  if '0' ≤ c ∧ c ≤ '9' then some (c.toNat - 48)
  else if 'a' ≤ c ∧ c ≤ 'f' then some (c.toNat - 87)
  else if 'A' ≤ c ∧ c ≤ 'F' then some (c.toNat - 55)
  else none

/-- Whether a character is a hexadecimal digit. -/
def isHex (c : Char) : Bool :=
  (hexValue? c).isSome

/-- The number that hexadecimal digits denote. -/
def hexNumber (digits : List Char) : Nat :=
  digits.foldl (fun value c => 16 * value + (hexValue? c).getD 0) 0

/-- Whether a code point is half of a surrogate pair. -/
def isSurrogate (n : Nat) : Bool :=
  0xD800 ≤ n && n ≤ 0xDFFF

/-- Whether a code point is the second half of a surrogate pair. -/
def isLowSurrogate (n : Nat) : Bool :=
  0xDC00 ≤ n && n ≤ 0xDFFF

/-- The code point that a surrogate pair stands for. -/
def joinSurrogates (high low : Nat) : Nat :=
  0x10000 + (high - 0xD800) * 1024 + (low - 0xDC00)

/-- Read exactly `count` hexadecimal digits at the head of a text. -/
def fixedHex (count : Nat) (cs : List Char) : Except Stuck Nat :=
  let digits := (cs.take count).takeWhile isHex
  if digits.length = count then .ok (hexNumber digits)
  else
    match cs.drop digits.length with
    | [] => .error ⟨.missingHexDigits count, 0⟩
    | c :: _ => .error ⟨.badHexDigit c, digits.length⟩

/-- Whether an escape of four digits follows. -/
def startsUnit : List Char → Bool
  | '\\' :: 'u' :: '{' :: _ => false
  | '\\' :: 'u' :: _ => true
  | _ => false

/-- Read the rest of an escape of four digits, the text after `\u`, with the second half of a
surrogate pair if the first half demands it. -/
def codeUnit (cs : List Char) : Except Stuck (Char × Nat) := do
  let unit ← (fixedHex 4 cs).mapError (·.shift 2)
  if !isSurrogate unit then return (Char.ofNat unit, 5)
  if isLowSurrogate unit || !startsUnit (cs.drop 4) then throw ⟨.unpairedSurrogate, 0⟩
  let low ← (fixedHex 4 (cs.drop 6)).mapError (·.shift 8)
  if isLowSurrogate low then return (Char.ofNat (joinSurrogates unit low), 11)
  throw ⟨.unpairedSurrogate, 0⟩

/-- Read the rest of an escape in braces, the text after `\u` and the opening brace. -/
def braced (cs : List Char) : Except Stuck (Char × Nat) :=
  let digits := cs.takeWhile isHex
  match cs.drop digits.length with
  | [] => .error ⟨.unterminatedUnicode, 2⟩
  | c :: _ =>
    if c ≠ '}' then .error ⟨.badUnicodeDigit c, digits.length + 3⟩
    else if digits.length < 1 ∨ 6 < digits.length then .error ⟨.unicodeLength, 2⟩
    else if 0x10FFFF < hexNumber digits then .error ⟨.unicodeRange digits, 2⟩
    else if isSurrogate (hexNumber digits) then .error ⟨.unpairedSurrogate, 2⟩
    else .ok (Char.ofNat (hexNumber digits), digits.length + 3)

/-- Read the rest of an escape, the text after its backslash: the character it stands for and the
number of characters that it takes. -/
def escaped : List Char → Except Stuck (Char × Nat)
  | [] => .error ⟨.unterminatedEscape, 1⟩
  | 'n' :: _ => .ok ('\n', 1)
  | 't' :: _ => .ok ('\t', 1)
  | 'r' :: _ => .ok ('\r', 1)
  | 'x' :: rest => (fixedHex 2 rest).mapError (·.shift 2) |>.map fun n => (Char.ofNat n, 3)
  | 'u' :: '{' :: rest => braced rest
  | 'u' :: rest => codeUnit rest
  | c :: _ => .ok (c, 1)

/-- Read one piece, given its first character: the character that it stands for and the number of
further characters that it takes. -/
def piece (c : Char) (rest : List Char) : Except Stuck (Char × Nat) :=
  if c = '\\' then escaped rest else .ok (c, 0)

/-- Read the pieces up to the closing quote: the text that they stand for and the number of
characters with the quote.  There is no answer if the quote is missing. -/
def body? : List Char → Except Stuck (Option (List Char × Nat))
  | [] => .ok none
  | c :: rest =>
    if c = '"' then .ok (some ([], 1))
    else
      match piece c rest with
      | .error stuck => .error stuck
      | .ok (d, extra) =>
        match body? (rest.drop extra) with
        | .error stuck => .error (stuck.shift (extra + 1))
        | .ok none => .ok none
        | .ok (some (ds, length)) => .ok (some (d :: ds, extra + 1 + length))
termination_by cs => cs.length
decreasing_by simp only [List.length_drop, List.length_cons]; omega

theorem isHex_of_hexValue? {c : Char} {n : Nat} (value : hexValue? c = some n) :
    isHex c = true := by
  simp [isHex, value]

theorem le_length_of_fixedHex {count n : Nat} {cs : List Char} (found : fixedHex count cs = .ok n) :
    count ≤ cs.length := by
  unfold fixedHex at found
  simp only at found
  split at found
  · rename_i full
    have := (List.takeWhile_sublist isHex (l := cs.take count)).length_le
    rw [full, List.length_take] at this
    omega
  · split at found <;> simp at found

theorem eq_ok_of_mapError {α : Type} {x : Except Stuck α} {shift : Stuck → Stuck} {a : α}
    (found : x.mapError shift = .ok a) : x = .ok a := by
  cases x with
  | error stuck => exact Except.noConfusion rfl rfl (heq_of_eq found)
  | ok b => exact found

theorem le_length_of_codeUnit {cs : List Char} {d : Char} {n : Nat}
    (found : codeUnit cs = .ok (d, n)) : n ≤ cs.length + 1 := by
  simp only [codeUnit, bind, Except.bind] at found
  cases first : (fixedHex 4 cs).mapError (·.shift 2) with
  | error stuck => simp [first] at found
  | ok unit =>
    have := le_length_of_fixedHex (eq_ok_of_mapError first)
    simp only [first] at found
    split at found
    · simp only [pure, Except.pure, Except.ok.injEq, Prod.mk.injEq] at found
      omega
    · split at found
      · simp [throw, throwThe, MonadExceptOf.throw] at found
      · cases second : (fixedHex 4 (cs.drop 6)).mapError (·.shift 8) with
        | error stuck => simp [second] at found
        | ok low =>
          have := le_length_of_fixedHex (eq_ok_of_mapError second)
          rw [List.length_drop] at this
          simp only [second] at found
          split at found
          · simp only [pure, Except.pure, Except.ok.injEq, Prod.mk.injEq] at found
            omega
          · simp [throw, throwThe, MonadExceptOf.throw] at found

theorem le_length_of_braced {cs : List Char} {d : Char} {n : Nat} (found : braced cs = .ok (d, n)) :
    n ≤ cs.length + 2 := by
  simp only [braced] at found
  split at found
  · simp at found
  · rename_i c rest behind
    have bound := congrArg List.length behind
    rw [List.length_drop, List.length_cons] at bound
    repeat' split at found
    all_goals simp only [reduceCtorEq, Except.ok.injEq, Prod.mk.injEq] at found
    omega

/-- An escape does not reach beyond the text. -/
theorem le_length_of_escaped {cs : List Char} {d : Char} {n : Nat}
    (found : escaped cs = .ok (d, n)) : n ≤ cs.length := by
  unfold escaped at found
  split at found
  case h_5 rest =>
    cases digits : (fixedHex 2 rest).mapError (·.shift 2) with
    | error stuck => simp [digits, Except.map] at found
    | ok code =>
      have := le_length_of_fixedHex (eq_ok_of_mapError digits)
      simp only [digits, Except.map, Except.ok.injEq, Prod.mk.injEq] at found
      simp only [List.length_cons]
      omega
  case h_6 rest =>
    have := le_length_of_braced found
    simp only [List.length_cons]
    omega
  case h_7 rest =>
    have := le_length_of_codeUnit found
    simp only [List.length_cons]
    omega
  all_goals
    simp only [reduceCtorEq, Except.ok.injEq, Prod.mk.injEq] at found
  all_goals
    simp only [List.length_cons]
    omega

/-- A text between quotes does not reach beyond its source. -/
theorem le_length_of_body? {cs value : List Char} {n : Nat}
    (found : body? cs = .ok (some (value, n))) : n ≤ cs.length := by
  fun_induction body? cs generalizing value n with
  | case1 => simp at found
  | case2 rest =>
    simp only [Except.ok.injEq, Option.some.injEq, Prod.mk.injEq] at found
    simp only [List.length_cons]
    omega
  | case3 => simp at found
  | case4 => simp at found
  | case5 => simp at found
  | case6 c rest plain d extra first ds length later ih =>
    have inner := ih later
    simp only [Except.ok.injEq, Option.some.injEq, Prod.mk.injEq] at found
    have outer : extra ≤ rest.length := by
      unfold piece at first
      split at first
      · exact le_length_of_escaped first
      · simp only [Except.ok.injEq, Prod.mk.injEq] at first
        omega
    rw [List.length_drop] at inner
    simp only [List.length_cons]
    omega

end Quoted
end Wireframe
