import Wireframe.Proofs.Remarks

/-!
# Passing over lexemes

The search for comments knows no lexemes, only quotes and the backslashes between them.  It passes
over every lexeme of a source nevertheless: an escape holds a quote only right behind its backslash,
and outside quotes no lexeme holds a quote or a semicolon.
-/

namespace Wireframe

namespace Quoted

theorem plain_of_isHex {c : Char} (hex : isHex c = true) : c ≠ '"' ∧ c ≠ '\\' := by
  constructor
  · rintro rfl
    exact absurd hex (by decide)
  · rintro rfl
    exact absurd hex (by decide)

theorem isHex_of_fixedHex {count n : Nat} {cs : List Char} (found : fixedHex count cs = .ok n) :
    ∀ c ∈ cs.take count, isHex c = true := by
  unfold fixedHex at found
  simp only at found
  split at found
  · rename_i full
    have whole : (cs.take count).takeWhile isHex = cs.take count := by
      refine (List.takeWhile_prefix isHex).eq_of_length_le ?_
      rw [full]
      exact List.length_take_le count cs
    intro c member
    rw [← whole] at member
    exact List.all_eq_true.mp List.all_takeWhile c member
  · split at found <;> simp at found

theorem eq_cons_of_startsUnit {cs : List Char} (starts : startsUnit cs = true) :
    ∃ rest, cs = '\\' :: 'u' :: rest := by
  unfold startsUnit at starts
  split at starts
  · simp at starts
  · exact ⟨_, rfl⟩
  · simp at starts

/-- A code unit is a character of its own, or the high half of a pair that is complete. -/
theorem codeUnit_cases {cs : List Char} {d : Char} {n : Nat}
    (found : codeUnit cs = .ok (d, n)) :
    (∃ unit, fixedHex 4 cs = .ok unit ∧ isSurrogate unit = false ∧ d = Char.ofNat unit ∧ n = 5) ∨
      ∃ high low, fixedHex 4 cs = .ok high ∧ fixedHex 4 (cs.drop 6) = .ok low ∧
        startsUnit (cs.drop 4) = true ∧ isSurrogate high = true ∧ isLowSurrogate high = false ∧
        isLowSurrogate low = true ∧ d = Char.ofNat (joinSurrogates high low) ∧ n = 11 := by
  simp only [codeUnit, bind, Except.bind] at found
  cases first : (fixedHex 4 cs).mapError (·.shift 2) with
  | error stuck => simp [first] at found
  | ok unit =>
      simp only [first] at found
      split at found
      · rename_i single
        simp only [pure, Except.pure, Except.ok.injEq, Prod.mk.injEq] at found
        exact Or.inl ⟨unit, eq_ok_of_mapError first, by simpa using single, found.1.symm,
          found.2.symm⟩
      · rename_i half
        split at found
        · simp [throw, throwThe, MonadExceptOf.throw] at found
        · rename_i joined
          simp only [Bool.or_eq_true, Bool.not_eq_true', not_or, Bool.not_eq_false] at joined
          cases second : (fixedHex 4 (cs.drop 6)).mapError (·.shift 8) with
          | error stuck => simp [second] at found
          | ok low =>
              simp only [second] at found
              split at found
              · rename_i isLow
                simp only [pure, Except.pure, Except.ok.injEq, Prod.mk.injEq] at found
                exact Or.inr ⟨unit, low, eq_ok_of_mapError first, eq_ok_of_mapError second,
                  joined.2, by simpa using half, by simpa using joined.1, isLow, found.1.symm,
                  found.2.symm⟩
              · simp [throw, throwThe, MonadExceptOf.throw] at found

end Quoted

namespace Comment

/-- Whether the search for comments passes over characters between quotes. -/
def Passes (cs : List Char) : Prop :=
  ∀ blank p rest, ∃ blank', ofChars ⟨true, false, blank, p⟩ (cs ++ rest) =
    ofChars ⟨true, false, blank', p.afterAll cs⟩ rest

theorem passes_nil : Passes [] :=
  fun blank _ _ => ⟨blank, rfl⟩

theorem Passes.append {cs ds : List Char} (front : Passes cs) (back : Passes ds) :
    Passes (cs ++ ds) := by
  intro blank p rest
  obtain ⟨blank', first⟩ := front blank p (ds ++ rest)
  obtain ⟨blank'', second⟩ := back blank' (p.afterAll cs) rest
  exact ⟨blank'', by rw [List.append_assoc, first, second, Position.afterAll_append]⟩

theorem passes_plain {c : Char} (notQuote : c ≠ '"') (notBackslash : c ≠ '\\') : Passes [c] := by
  intro blank p rest
  rw [List.singleton_append, ofChars_cons (by simp [Scan.startsComment])]
  by_cases newline : c = '\n'
  · exact ⟨true, by simp [Scan.step, newline]⟩
  · exact ⟨blank && Text.isBlank c, by simp [Scan.step, newline, notQuote, notBackslash]⟩

theorem passes_escape (c : Char) : Passes ['\\', c] := by
  intro blank p rest
  rw [List.cons_append, List.singleton_append, ofChars_cons (by simp [Scan.startsComment]),
    ofChars_cons (by simp [Scan.startsComment, Scan.step])]
  by_cases newline : c = '\n'
  · exact ⟨true, by simp [Scan.step, newline]⟩
  · exact ⟨_, by simp [Scan.step, newline]; rfl⟩

theorem passes_of_forall {cs : List Char} (plain : ∀ c ∈ cs, c ≠ '"' ∧ c ≠ '\\') : Passes cs := by
  induction cs with
  | nil => exact passes_nil
  | cons c cs ih =>
      obtain ⟨⟨notQuote, notBackslash⟩, later⟩ := List.forall_mem_cons.mp plain
      exact (passes_plain notQuote notBackslash).append (ih later)

theorem passes_hex {cs : List Char} (hex : ∀ c ∈ cs, Quoted.isHex c = true) : Passes cs :=
  passes_of_forall fun c member => Quoted.plain_of_isHex (hex c member)

/-- The search passes over four digits and, where they are the first half of a surrogate pair, over
the escape of the second half. -/
private theorem passes_codeUnit {rest : List Char} {d : Char} {n : Nat}
    (found : Quoted.codeUnit rest = .ok (d, n)) : Passes ('\\' :: ('u' :: rest).take n) := by
  have half {unit : Nat} (first : Quoted.fixedHex 4 rest = .ok unit) :
      Passes ('\\' :: 'u' :: rest.take 4) :=
    (passes_escape 'u').append (passes_hex (Quoted.isHex_of_fixedHex first))
  rcases Quoted.codeUnit_cases found with ⟨unit, first, -, -, rfl⟩ |
    ⟨high, low, first, second, starts, -, -, -, -, rfl⟩
  · exact half first
  · -- The second half stands behind four digits and its own backslash.
    obtain ⟨behind, same⟩ := Quoted.eq_cons_of_startsUnit starts
    have split : rest.take 10 = rest.take 4 ++ ('\\' :: 'u' :: (rest.drop 6).take 4) := by
      have behind' : rest.drop 6 = behind := by
        rw [← List.drop_drop (i := 2) (j := 4), same]
        rfl
      rw [List.take_add (i := 4) (j := 6), same, behind']
      rfl
    have whole := (half first).append
      ((passes_escape 'u').append (passes_hex (Quoted.isHex_of_fixedHex second)))
    rw [List.take_succ_cons, split]
    simpa using whole

private theorem passes_braced {rest : List Char} {d : Char} {n : Nat}
    (found : Quoted.braced rest = .ok (d, n)) : Passes ('\\' :: ('u' :: '{' :: rest).take n) := by
  simp only [Quoted.braced] at found
  split at found
  · simp at found
  · rename_i c behind same
    repeat' split at found
    all_goals simp only [reduceCtorEq, Except.ok.injEq, Prod.mk.injEq] at found
    rename_i brace _ _ _
    obtain ⟨-, rfl⟩ := found
    obtain rfl : c = '}' := of_not_not brace
    have digits : rest.take (rest.takeWhile Quoted.isHex).length = rest.takeWhile Quoted.isHex :=
      (List.prefix_iff_eq_take.mp (List.takeWhile_prefix Quoted.isHex)).symm
    have split : rest.take ((rest.takeWhile Quoted.isHex).length + 1) =
        rest.takeWhile Quoted.isHex ++ ['}'] := by
      rw [List.take_add, digits, same]
      rfl
    rw [List.take_succ_cons, List.take_succ_cons, split]
    have inside : Passes (rest.takeWhile Quoted.isHex) :=
      passes_hex fun c member => List.all_eq_true.mp List.all_takeWhile c member
    exact (passes_escape 'u').append ((passes_plain (by decide) (by decide)).append
      (inside.append (passes_plain (by decide) (by decide))))

theorem passes_escaped {rest : List Char} {d : Char} {n : Nat}
    (found : Quoted.escaped rest = .ok (d, n)) : Passes ('\\' :: rest.take n) := by
  unfold Quoted.escaped at found
  split at found
  case h_5 rest =>
    cases digits : (Quoted.fixedHex 2 rest).mapError (·.shift 2) with
    | error stuck => simp [digits, Except.map] at found
    | ok code =>
        simp only [digits, Except.map, Except.ok.injEq, Prod.mk.injEq] at found
        obtain ⟨-, rfl⟩ := found
        exact (passes_escape 'x').append
          (passes_hex (Quoted.isHex_of_fixedHex (Quoted.eq_ok_of_mapError digits)))
  case h_6 rest => exact passes_braced found
  case h_7 rest => exact passes_codeUnit found
  all_goals
    simp only [reduceCtorEq, Except.ok.injEq, Prod.mk.injEq] at found
  all_goals
    obtain ⟨-, rfl⟩ := found
    exact passes_escape _

/-- The search for comments passes over the characters up to the closing quote. -/
theorem passes_body? {cs text : List Char} {n : Nat}
    (found : Quoted.body? cs = .ok (some (text, n))) :
    ∃ inside, cs.take n = inside ++ ['"'] ∧ Passes inside := by
  fun_induction Quoted.body? cs generalizing text n with
  | case1 => simp at found
  | case2 rest =>
      simp only [Except.ok.injEq, Option.some.injEq, Prod.mk.injEq] at found
      obtain ⟨-, rfl⟩ := found
      exact ⟨[], rfl, passes_nil⟩
  | case3 => simp at found
  | case4 => simp at found
  | case5 => simp at found
  | case6 c rest plain d extra first ds length later ih =>
      obtain ⟨inside, taken, passes⟩ := ih later
      simp only [Except.ok.injEq, Option.some.injEq, Prod.mk.injEq] at found
      obtain ⟨-, rfl⟩ := found
      have split : (c :: rest).take (extra + 1 + length) =
          c :: rest.take extra ++ (inside ++ ['"']) := by
        rw [List.take_add, List.take_succ_cons, List.drop_succ_cons, taken]
      refine ⟨c :: rest.take extra ++ inside, by rw [split, List.append_assoc], ?_⟩
      refine Passes.append ?_ passes
      unfold Quoted.piece at first
      split at first
      · rename_i backslash
        rw [backslash]
        exact passes_escaped first
      · rename_i notBackslash
        simp only [Except.ok.injEq, Prod.mk.injEq] at first
        obtain ⟨-, rfl⟩ := first
        exact passes_plain plain notBackslash

end Comment

namespace Lexeme

private theorem decimals_isPrefix (cs : List Char) : decimals cs <+: cs := by
  unfold decimals
  split
  · simp only
    split
    · exact List.nil_prefix
    · exact (List.prefix_cons_inj '.').mpr (List.takeWhile_prefix isDigit)
  · exact List.nil_prefix

private theorem take_of_marked {kind : TokenKind} {missing : LexCause} {rest : List Char}
    {l : Lexeme} (found : marked kind missing rest = .ok l) :
    l.kind = kind ∧ rest.take l.extra = l.value := by
  simp only [marked] at found
  split at found
  · simp at found
  · obtain rfl := Except.ok.inj found
    exact ⟨rfl, (List.prefix_iff_eq_take.mp (List.takeWhile_prefix isSymbolChar)).symm⟩

theorem take_numeral (c : Char) (rest : List Char) :
    c :: rest.take (numeral c rest).extra = (numeral c rest).value := by
  have inside : rest.takeWhile isDigit ++ decimals (rest.dropWhile isDigit) <+: rest := by
    have whole := (List.prefix_append_right_inj (rest.takeWhile isDigit)).mpr
      (decimals_isPrefix (rest.dropWhile isDigit))
    rwa [List.takeWhile_append_dropWhile] at whole
  exact congrArg (c :: ·) (List.prefix_iff_eq_take.mp inside).symm

/-- A lexeme other than a text stands in its source as it is spelled. -/
theorem take_of_read {c : Char} {rest : List Char} {l : Lexeme} (found : read c rest = .ok l)
    (other : l.kind ≠ .string) :
    c :: rest.take l.extra = (Word.mk l.kind (String.ofList l.value)).chars := by
  rw [Word.chars_of_ne_string other, String.toList_ofList]
  change c :: rest.take l.extra = l.kind.mark.toList ++ l.value
  unfold read at found
  repeat' split at found
  · rename_i same
    obtain rfl := Except.ok.inj found
    rw [same]
    rfl
  · rename_i same
    obtain rfl := Except.ok.inj found
    rw [same]
    rfl
  · exact absurd (kind_quoted found) other
  · rename_i same
    obtain ⟨kind, taken⟩ := take_of_marked found
    rw [kind, taken, same]
    rfl
  · rename_i same
    obtain ⟨kind, taken⟩ := take_of_marked found
    rw [kind, taken, same]
    rfl
  · rename_i same
    obtain ⟨kind, taken⟩ := take_of_marked found
    rw [kind, taken, same]
    rfl
  · obtain rfl := Except.ok.inj found
    exact take_numeral c rest
  · obtain rfl := Except.ok.inj found
    exact congrArg (c :: ·) (List.prefix_iff_eq_take.mp (List.takeWhile_prefix isSymbolChar)).symm
  · simp at found

theorem isBlank_of_bounds {c : Char} (low : 0x21 ≤ c.toNat) (high : c.toNat ≤ 0x7E) :
    Text.isBlank c = false := by
  simp only [Text.isBlank, Text.isPadding, Text.isSeparator, Bool.or_eq_false_iff,
    Bool.and_eq_false_iff, decide_eq_false_iff_not, beq_eq_false_iff_ne]
  omega

theorem bounds_of_isDigit {c : Char} (digit : isDigit c = true) :
    0x21 ≤ c.toNat ∧ c.toNat ≤ 0x7E := by
  simp only [isDigit, Bool.and_eq_true, decide_eq_true_eq, Char.le_def, UInt32.le_iff_toNat_le]
    at digit
  change 48 ≤ c.toNat ∧ c.toNat ≤ 57 at digit
  omega

theorem bounds_of_isSymbolStart {c : Char} (starts : isSymbolStart c = true) :
    0x21 ≤ c.toNat ∧ c.toNat ≤ 0x7E := by
  simp only [isSymbolStart, Bool.or_eq_true, Bool.and_eq_true, decide_eq_true_eq, beq_iff_eq,
    Char.le_def, UInt32.le_iff_toNat_le] at starts
  rcases starts with (lower | upper) | rfl
  · change 97 ≤ c.toNat ∧ c.toNat ≤ 122 at lower
    omega
  · change 65 ≤ c.toNat ∧ c.toNat ≤ 90 at upper
    omega
  · decide

theorem body?_of_read {c : Char} {rest : List Char} {l : Lexeme}
    (found : read c rest = .ok l) (string : l.kind = .string) :
    c = '"' ∧ ∃ text, Quoted.body? rest = .ok (some (text, l.extra)) := by
  unfold read at found
  split at found
  · rw [← Except.ok.inj found] at string
    simp at string
  · repeat' split at found
    · rw [← Except.ok.inj found] at string
      simp at string
    · rename_i quote
      refine ⟨quote, ?_⟩
      unfold quoted at found
      split at found
      · simp at found
      · simp at found
      · rename_i text length body
        obtain rfl := Except.ok.inj found
        exact ⟨text, body⟩
    · simp [kind_marked found] at string
    · simp [kind_marked found] at string
    · simp [kind_marked found] at string
    · rw [← Except.ok.inj found] at string
      simp [numeral] at string
    · rw [← Except.ok.inj found] at string
      simp at string
    · simp at found

/-- A lexeme does not begin with a blank. -/
theorem isBlank_of_read {c : Char} {rest : List Char} {l : Lexeme} (found : read c rest = .ok l) :
    Text.isBlank c = false := by
  unfold read at found
  repeat' split at found
  any_goals
    rename_i same
    rw [same]
    decide
  · rename_i starts
    simp only [startsNumber, Bool.or_eq_true, Bool.and_eq_true, beq_iff_eq] at starts
    rcases starts with digit | ⟨rfl, -⟩
    · obtain ⟨low, high⟩ := bounds_of_isDigit digit
      exact isBlank_of_bounds low high
    · decide
  · rename_i starts
    obtain ⟨low, high⟩ := bounds_of_isSymbolStart starts
    exact isBlank_of_bounds low high
  · simp at found

end Lexeme

namespace Comment

private theorem foldl_blankAfter_false {cs : List Char} (inLine : '\n' ∉ cs) :
    cs.foldl blankAfter false = false := by
  induction cs with
  | nil => rfl
  | cons c cs ih =>
      obtain ⟨notNewline, later⟩ := List.ne_and_not_mem_of_not_mem_cons inLine
      have step : blankAfter false c = false := by simp [blankAfter, notNewline.symm]
      rw [List.foldl_cons, step]
      exact ih later

/-- The search for comments passes over a lexeme, behind which the line is not blank. -/
theorem ofChars_read {c : Char} {rest : List Char} {l : Lexeme} (found : Lexeme.read c rest = .ok l)
    (blank : Bool) (p : Position) :
    ofChars ⟨false, false, blank, p⟩ (c :: rest) =
      ofChars ⟨false, false, false, p.afterAll (c :: rest.take l.extra)⟩ (rest.drop l.extra) := by
  have begins := Lexeme.isBlank_of_read found
  conv => lhs; rw [← List.take_append_drop l.extra rest]
  by_cases string : l.kind = .string
  · obtain ⟨rfl, text, body⟩ := Lexeme.body?_of_read found string
    obtain ⟨inside, taken, passes⟩ := passes_body? body
    obtain ⟨blank', passed⟩ := passes (blank && Text.isBlank '"') (p.after '"')
      ('"' :: rest.drop l.extra)
    have opened : Scan.step ⟨false, false, blank, p⟩ '"' =
        ⟨true, false, blank && Text.isBlank '"', p.after '"'⟩ := by simp [Scan.step]
    have closed : Scan.step ⟨true, false, blank', (p.after '"').afterAll inside⟩ '"' =
        ⟨false, false, false, ((p.after '"').afterAll inside).after '"'⟩ := by
      simp [Scan.step, begins]
    rw [taken, List.append_assoc, List.singleton_append,
      ofChars_cons (by simp [Scan.startsComment]),
      opened, passed, ofChars_cons (by simp [Scan.startsComment]), closed, Position.afterAll_cons,
      Position.afterAll_append]
    rfl
  · have spelled := Word.isSpelled_of_read found
    have chars := Lexeme.take_of_read found string
    have plain : ∀ d ∈ c :: rest.take l.extra, d ≠ ';' ∧ d ≠ '"' ∧ d ≠ '\n' := by
      rw [chars]
      exact fun d member => Word.plain_chars spelled string member
    have notNewline := (plain c List.mem_cons_self).2.2
    have first : blankAfter blank c = false := by simp [blankAfter, begins, notNewline]
    have inLine : '\n' ∉ rest.take l.extra :=
      fun member => (plain '\n' (List.mem_cons_of_mem c member)).2.2 rfl
    rw [← List.cons_append,
      ofChars_plain fun d member => ⟨(plain d member).1, (plain d member).2.1⟩,
      List.foldl_cons, first, foldl_blankAfter_false inLine]

end Comment
end Wireframe
