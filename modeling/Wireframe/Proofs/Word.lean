import Wireframe.Token.Source

/-!
# Words

A word is a token without its place.  The lexical class of a word says how it may be spelled; every
token of a source is spelled so.  Reading undoes writing: the spelling of a word, with a text behind
it that does not go on with the word, is read as that word.
-/

namespace Wireframe

/-- A token without its place. -/
structure Word where
  /-- The kind of word. -/
  kind : TokenKind
  /-- The word without marks, quotes and escapes. -/
  value : String
  deriving DecidableEq, Repr

namespace Word

/-- Give a word its place. -/
def place (w : Word) (start stop : Position) : Token :=
  ⟨w.kind, w.value, start, stop⟩

/-- The spelling of a word. -/
def chars (w : Word) : List Char :=
  (w.place Position.first Position.first).render.toList

/-- A name: one or more symbol characters. -/
def IsName (cs : List Char) : Prop :=
  cs ≠ [] ∧ ∀ c ∈ cs, Lexeme.isSymbolChar c = true

/-- One or more digits. -/
def IsDigits (cs : List Char) : Prop :=
  cs ≠ [] ∧ ∀ c ∈ cs, Lexeme.isDigit c = true

/-- A numeral: perhaps a sign, then digits, then perhaps a point with digits. -/
def IsNumeral (cs : List Char) : Prop :=
  ∃ sign digits fraction, cs = sign ++ digits ++ fraction ∧ (sign = [] ∨ sign = ['-']) ∧
    IsDigits digits ∧ (fraction = [] ∨ ∃ decimals, fraction = '.' :: decimals ∧ IsDigits decimals)

/-- Whether the value of a word belongs to its lexical class. -/
def IsSpelled (w : Word) : Prop :=
  match w.kind with
  | .openParen => w.value.toList = ['(']
  | .closeParen => w.value.toList = [')']
  | .string => True
  | .number => IsNumeral w.value.toList
  | .symbol =>
    ∃ c tail, w.value.toList = c :: tail ∧ Lexeme.isSymbolStart c = true ∧
      ∀ d ∈ tail, Lexeme.isSymbolChar d = true
  | .keyword | .param | .hash => IsName w.value.toList
  | .eof => False

end Word

/-- The word that a token places. -/
def Token.word (t : Token) : Word :=
  ⟨t.kind, t.value⟩

@[simp]
theorem Token.word_place (w : Word) (start stop : Position) : (w.place start stop).word = w := rfl

@[simp]
theorem Token.word_kind (t : Token) : t.word.kind = t.kind := rfl

@[simp]
theorem Token.word_value (t : Token) : t.word.value = t.value := rfl

/-- The place of a token has no influence on its spelling. -/
theorem Token.toList_render (t : Token) : t.render.toList = t.word.chars := rfl

namespace Word

theorem chars_of_string {w : Word} (string : w.kind = .string) :
    w.chars = '"' :: (w.value.toList.flatMap Token.escapeChar ++ ['"']) := by
  simp [chars, place, Token.render, Token.escape, string]

theorem chars_of_ne_string {w : Word} (other : w.kind ≠ .string) :
    w.chars = w.kind.mark.toList ++ w.value.toList := by
  simp [chars, place, Token.render, Token.text, other]

theorem kind_ne_eof {w : Word} (spelled : w.IsSpelled) : w.kind ≠ .eof := by
  intro ends
  simp [IsSpelled, ends] at spelled

theorem IsSpelled.numeral {w : Word} (spelled : w.IsSpelled) (number : w.kind = .number) :
    IsNumeral w.value.toList := by
  rwa [IsSpelled, number] at spelled

theorem chars_of_openParen {w : Word} (spelled : w.IsSpelled) (opens : w.kind = .openParen) :
    w.chars = ['('] := by
  rw [IsSpelled, opens] at spelled
  rw [chars_of_ne_string (by simp [opens]), opens, spelled]
  rfl

theorem chars_of_closeParen {w : Word} (spelled : w.IsSpelled)
    (closes : w.kind = .closeParen) : w.chars = [')'] := by
  rw [IsSpelled, closes] at spelled
  rw [chars_of_ne_string (by simp [closes]), closes, spelled]
  rfl

private theorem mem_takeWhile_isDigit {cs : List Char} {c : Char}
    (member : c ∈ cs.takeWhile Lexeme.isDigit) : Lexeme.isDigit c = true :=
  List.all_eq_true.mp List.all_takeWhile c member

private theorem mem_takeWhile_isSymbolChar {cs : List Char} {c : Char}
    (member : c ∈ cs.takeWhile Lexeme.isSymbolChar) : Lexeme.isSymbolChar c = true :=
  List.all_eq_true.mp List.all_takeWhile c member

private theorem decimals_cases (cs : List Char) :
    Lexeme.decimals cs = [] ∨ ∃ ds, Lexeme.decimals cs = '.' :: ds ∧ IsDigits ds := by
  unfold Lexeme.decimals
  split
  · rename_i rest
    simp only
    split
    · exact Or.inl rfl
    · rename_i nonempty
      refine Or.inr ⟨_, rfl, by simpa using nonempty, fun c => mem_takeWhile_isDigit⟩
  · exact Or.inl rfl

theorem isNumeral_numeral {c : Char} {rest : List Char}
    (starts : Lexeme.startsNumber c rest = true) :
    IsNumeral (Lexeme.numeral c rest).value := by
  have fraction := decimals_cases (rest.dropWhile Lexeme.isDigit)
  simp only [Lexeme.startsNumber, Bool.or_eq_true, Bool.and_eq_true, beq_iff_eq] at starts
  rcases starts with digit | ⟨rfl, digit⟩
  · refine ⟨[], c :: rest.takeWhile Lexeme.isDigit, _, ?_, Or.inl rfl, ⟨by simp, ?_⟩, fraction⟩
    · simp [Lexeme.numeral]
    · intro d member
      rcases List.mem_cons.mp member with rfl | later
      · exact digit
      · exact mem_takeWhile_isDigit later
  · refine ⟨['-'], rest.takeWhile Lexeme.isDigit, _, ?_, Or.inr rfl,
      ⟨?_, fun d => mem_takeWhile_isDigit⟩, fraction⟩
    · simp [Lexeme.numeral]
    · cases rest with
      | nil => simp at digit
      | cons d rest =>
          have head : Lexeme.isDigit d = true := by simpa using digit
          simp [head]

private theorem isName_marked {kind : TokenKind} {missing : LexCause} {rest : List Char}
    {l : Lexeme} (found : Lexeme.marked kind missing rest = .ok l) : IsName l.value := by
  simp only [Lexeme.marked] at found
  split at found
  · simp at found
  · rename_i nonempty
    obtain rfl := Except.ok.inj found
    exact ⟨by simpa using nonempty, fun c => mem_takeWhile_isSymbolChar⟩

/-- A lexeme that was read belongs to its lexical class. -/
theorem isSpelled_of_read {c : Char} {rest : List Char} {l : Lexeme}
    (found : Lexeme.read c rest = .ok l) : IsSpelled ⟨l.kind, String.ofList l.value⟩ := by
  unfold Lexeme.read at found
  repeat' split at found
  · obtain rfl := Except.ok.inj found
    simp [IsSpelled]
  · obtain rfl := Except.ok.inj found
    simp [IsSpelled]
  · simp [IsSpelled, Lexeme.kind_quoted found]
  · simpa [IsSpelled, Lexeme.kind_marked found] using isName_marked found
  · simpa [IsSpelled, Lexeme.kind_marked found] using isName_marked found
  · simpa [IsSpelled, Lexeme.kind_marked found] using isName_marked found
  · rename_i starts
    obtain rfl := Except.ok.inj found
    simpa [IsSpelled, Lexeme.numeral] using isNumeral_numeral starts
  · rename_i starts
    obtain rfl := Except.ok.inj found
    exact ⟨c, _, String.toList_ofList, starts, fun d => mem_takeWhile_isSymbolChar⟩
  · simp at found

/-- Whether a text does not go on with the word before it. -/
def Breaks (rest : List Char) : Prop :=
  ∀ c, rest.head? = some c → Lexeme.isSymbolChar c = false ∧ c ≠ '.'

/-- Whether a text does not go on with the numeral before it. -/
def EndsDigits (rest : List Char) : Prop :=
  ∀ c, rest.head? = some c → Lexeme.isDigit c = false ∧ c ≠ '.'

/-- Whether a word ends where a text behind it begins. -/
def EndsBefore (w : Word) (rest : List Char) : Prop :=
  w.kind = .openParen ∨ Breaks rest

theorem not_of_head?_dropWhile {p : Char → Bool} {cs : List Char} :
    ∀ c, (cs.dropWhile p).head? = some c → p c = false := by
  intro c head
  have outside := List.head?_dropWhile_not p cs
  rw [head] at outside
  simpa using outside

theorem takeWhile_exact {p : Char → Bool} {body rest : List Char}
    (inside : ∀ c ∈ body, p c = true) (boundary : ∀ c, rest.head? = some c → p c = false) :
    (body ++ rest).takeWhile p = body ∧ (body ++ rest).dropWhile p = rest := by
  rw [List.takeWhile_append_of_pos inside, List.dropWhile_append_of_pos inside]
  cases rest with
  | nil => simp
  | cons c rest => simp [boundary c rfl]

private theorem isSymbolChar_of_isDigit {c : Char} (digit : Lexeme.isDigit c = true) :
    Lexeme.isSymbolChar c = true := by
  simp [Lexeme.isSymbolChar, digit]

private theorem Breaks.symbolChar {rest : List Char} (breaks : Breaks rest) (c : Char)
    (head : rest.head? = some c) : Lexeme.isSymbolChar c = false :=
  (breaks c head).1

private theorem Breaks.endsDigits {rest : List Char} (breaks : Breaks rest) : EndsDigits rest := by
  intro c head
  refine ⟨?_, (breaks c head).2⟩
  by_cases digit : Lexeme.isDigit c = true
  · exact absurd (isSymbolChar_of_isDigit digit) (by simp [(breaks c head).1])
  · simpa using digit

private theorem EndsDigits.digit {rest : List Char} (ends : EndsDigits rest) (c : Char)
    (head : rest.head? = some c) : Lexeme.isDigit c = false :=
  (ends c head).1

private theorem read_marked {kind : TokenKind} {missing : LexCause} {name rest : List Char}
    (isName : IsName name) (breaks : Breaks rest) :
    Lexeme.marked kind missing (name ++ rest) = .ok ⟨kind, name, name.length⟩ := by
  obtain ⟨taken, -⟩ := takeWhile_exact isName.2 breaks.symbolChar
  simp [Lexeme.marked, taken, isName.1]

private theorem decimals_fraction {fraction rest : List Char}
    (shape : fraction = [] ∨ ∃ ds, fraction = '.' :: ds ∧ IsDigits ds) (ends : EndsDigits rest) :
    Lexeme.decimals (fraction ++ rest) = fraction := by
  rcases shape with rfl | ⟨ds, rfl, nonempty, digits⟩
  · cases rest with
    | nil => rfl
    | cons c rest =>
        have notPoint := (ends c rfl).2
        simp [Lexeme.decimals, notPoint]
  · obtain ⟨taken, -⟩ := takeWhile_exact digits ends.digit
    simp [Lexeme.decimals, taken, nonempty]

private theorem head?_fraction_not_digit {fraction rest : List Char}
    (shape : fraction = [] ∨ ∃ ds, fraction = '.' :: ds ∧ IsDigits ds) (ends : EndsDigits rest)
    (c : Char) (head : (fraction ++ rest).head? = some c) : Lexeme.isDigit c = false := by
  rcases shape with rfl | ⟨ds, rfl, -⟩
  · exact ends.digit c head
  · obtain rfl : '.' = c := by simpa using head
    decide

theorem IsNumeral.ne_nil {cs : List Char} (numeral : IsNumeral cs) : cs ≠ [] := by
  obtain ⟨sign, digits, fraction, rfl, -, ⟨nonempty, -⟩, -⟩ := numeral
  simp [nonempty]

/-- A numeral is read to its end. -/
theorem numeral_of_isNumeral {c : Char} {tail rest : List Char} (numeral : IsNumeral (c :: tail))
    (ends : EndsDigits rest) :
    Lexeme.startsNumber c (tail ++ rest) = true ∧
      Lexeme.numeral c (tail ++ rest) = ⟨.number, c :: tail, tail.length⟩ := by
  obtain ⟨sign, digits, fraction, same, signShape, ⟨nonempty, isDigit⟩, shape⟩ := numeral
  have boundary := head?_fraction_not_digit shape ends
  rcases signShape with rfl | rfl
  · cases digits with
    | nil => exact absurd rfl nonempty
    | cons d digits =>
        obtain ⟨rfl, rfl⟩ : c = d ∧ tail = digits ++ fraction := by simpa using same
        obtain ⟨taken, dropped⟩ := takeWhile_exact
          (fun e later => isDigit e (List.mem_cons_of_mem c later)) boundary
        rw [List.append_assoc]
        simp [Lexeme.startsNumber, Lexeme.numeral, isDigit, taken, dropped,
          decimals_fraction shape ends]
  · obtain ⟨rfl, rfl⟩ : c = '-' ∧ tail = digits ++ fraction := by simpa using same
    obtain ⟨taken, dropped⟩ := takeWhile_exact isDigit boundary
    cases digits with
    | nil => exact absurd rfl nonempty
    | cons d digits =>
        rw [List.append_assoc]
        simp only [Lexeme.numeral, taken, dropped, decimals_fraction shape ends, and_true]
        simp [Lexeme.startsNumber, isDigit]

/-- A character is written as it stands, or as an escape that stands for it. -/
theorem escapeChar_cases (c : Char) :
    (Token.escapeChar c = [c] ∧ c ≠ '"' ∧ c ≠ '\\' ∧ c ≠ '\n') ∨
      ∃ e, Token.escapeChar c = ['\\', e] ∧ e ≠ '\n' ∧
        ∀ rest, Quoted.escaped (e :: rest) = .ok (c, 1) := by
  unfold Token.escapeChar
  split
  · exact Or.inr ⟨'\\', rfl, by decide, fun _ => rfl⟩
  · exact Or.inr ⟨'"', rfl, by decide, fun _ => rfl⟩
  · exact Or.inr ⟨'n', rfl, by decide, fun _ => rfl⟩
  · exact Or.inr ⟨'r', rfl, by decide, fun _ => rfl⟩
  · exact Or.inr ⟨'t', rfl, by decide, fun _ => rfl⟩
  · rename_i backslash quote newline _ _
    exact Or.inl ⟨rfl, quote, backslash, newline⟩

private theorem body?_cons_plain {c : Char} {rest text : List Char} {n : Nat} (notQuote : c ≠ '"')
    (notBackslash : c ≠ '\\') (later : Quoted.body? rest = .ok (some (text, n))) :
    Quoted.body? (c :: rest) = .ok (some (c :: text, n + 1)) := by
  rw [Quoted.body?, if_neg notQuote, Quoted.piece, if_neg notBackslash]
  simp [later, Nat.add_comm]

private theorem body?_cons_escape {c e : Char} {rest text : List Char} {n : Nat}
    (escape : Quoted.escaped (e :: rest) = .ok (c, 1))
    (later : Quoted.body? rest = .ok (some (text, n))) :
    Quoted.body? ('\\' :: e :: rest) = .ok (some (c :: text, n + 2)) := by
  rw [Quoted.body?, if_neg (by decide), Quoted.piece, if_pos rfl, escape]
  simp [later, Nat.add_comm]

/-- An escaped text between quotes is read as the text. -/
theorem body?_escape (text rest : List Char) :
    Quoted.body? (text.flatMap Token.escapeChar ++ '"' :: rest) =
      .ok (some (text, (text.flatMap Token.escapeChar).length + 1)) := by
  induction text with
  | nil => simp [Quoted.body?]
  | cons c text ih =>
      rw [List.flatMap_cons, List.append_assoc, List.length_append]
      rcases escapeChar_cases c with ⟨plain, notQuote, notBackslash, -⟩ | ⟨e, escape, -, stands⟩
      · rw [plain, List.singleton_append, body?_cons_plain notQuote notBackslash ih]
        simp [Nat.add_comm]
      · rw [escape, List.cons_append, List.singleton_append, body?_cons_escape (stands _) ih]
        simp [Nat.add_comm, Nat.add_left_comm]

private theorem ne_of_class {p : Char → Bool} {c d : Char} (inside : p c = true)
    (outside : p d = false) : c ≠ d := by
  rintro rfl
  simp [inside] at outside

private theorem isDigit_eq_false_of_isSymbolStart {c : Char}
    (starts : Lexeme.isSymbolStart c = true) : Lexeme.isDigit c = false := by
  simp only [Lexeme.isSymbolStart, Lexeme.isDigit, Bool.or_eq_true, Bool.and_eq_true,
    decide_eq_true_eq, beq_iff_eq, Char.le_def, UInt32.le_iff_toNat_le] at starts ⊢
  simp only [Bool.and_eq_false_iff, decide_eq_false_iff_not]
  rcases starts with (⟨low, -⟩ | ⟨low, -⟩) | rfl
  · right
    have : ('9' : Char).val.toNat < ('a' : Char).val.toNat := by decide
    omega
  · right
    have : ('9' : Char).val.toNat < ('A' : Char).val.toNat := by decide
    omega
  · decide

/-- Whether a text that begins with a character is read as a lexeme to which some characters
behind it belong. -/
structure ReadsAs (c : Char) (tail rest : List Char) (w : Word) : Prop where
  /-- No blank begins a lexeme. -/
  notSpace : Lexeme.isSpace c = false
  /-- A semicolon begins a comment. -/
  notComment : c ≠ ';'
  /-- The lexeme that is read. -/
  read : Lexeme.read c (tail ++ rest) = .ok ⟨w.kind, w.value.toList, tail.length⟩

private theorem readsAs_name {w : Word} {mark : Char} {rest : List Char}
    (name : IsName w.value.toList) (breaks : Breaks rest)
    (shape : w.kind = .param ∧ mark = '$' ∨ w.kind = .hash ∧ mark = '#' ∨
      w.kind = .keyword ∧ mark = ':') : ReadsAs mark w.value.toList rest w := by
  rcases shape with ⟨kind, rfl⟩ | ⟨kind, rfl⟩ | ⟨kind, rfl⟩
  · refine ⟨by decide, by decide, ?_⟩
    simp [Lexeme.read, read_marked name breaks, kind]
  · refine ⟨by decide, by decide, ?_⟩
    simp [Lexeme.read, read_marked name breaks, kind]
  · refine ⟨by decide, by decide, ?_⟩
    simp [Lexeme.read, read_marked name breaks, kind]

/-- A numeral is read even if a name follows it. -/
theorem readsAs_numeral {w : Word} {c : Char} {tail rest : List Char} (kind : w.kind = .number)
    (value : w.value.toList = c :: tail) (numeral : IsNumeral (c :: tail))
    (ends : EndsDigits rest) : ReadsAs c tail rest w := by
  obtain ⟨starts, read⟩ := numeral_of_isNumeral numeral ends
  have begins : (Lexeme.isDigit c || c == '-') = true := by
    simp only [Lexeme.startsNumber, Bool.or_eq_true, Bool.and_eq_true] at starts ⊢
    exact starts.imp id And.left
  have mark {d : Char} (outside : (Lexeme.isDigit d || d == '-') = false) : c ≠ d :=
    ne_of_class (p := fun c => Lexeme.isDigit c || c == '-') begins outside
  refine ⟨?_, mark rfl, ?_⟩
  · simp [Lexeme.isSpace, mark (d := ' ') rfl, mark (d := '\t') rfl, mark (d := '\r') rfl,
      mark (d := '\n') rfl]
  · simp [Lexeme.read, mark (d := '(') rfl, mark (d := ')') rfl, mark (d := '"') rfl,
      mark (d := '$') rfl, mark (d := '#') rfl, mark (d := ':') rfl, starts, read, kind, value]

private theorem readsAs_symbol {w : Word} {c : Char} {tail rest : List Char}
    (kind : w.kind = .symbol) (value : w.value.toList = c :: tail)
    (starts : Lexeme.isSymbolStart c = true) (inside : ∀ d ∈ tail, Lexeme.isSymbolChar d = true)
    (breaks : Breaks rest) : ReadsAs c tail rest w := by
  have mark {d : Char} (outside : Lexeme.isSymbolStart d = false) : c ≠ d :=
    ne_of_class starts outside
  obtain ⟨taken, -⟩ := takeWhile_exact inside breaks.symbolChar
  refine ⟨?_, mark rfl, ?_⟩
  · simp [Lexeme.isSpace, mark (d := ' ') rfl, mark (d := '\t') rfl, mark (d := '\r') rfl,
      mark (d := '\n') rfl]
  · have notNumber : Lexeme.startsNumber c (tail ++ rest) = false := by
      simp [Lexeme.startsNumber, isDigit_eq_false_of_isSymbolStart starts, mark (d := '-') rfl]
    simp [Lexeme.read, mark (d := '(') rfl, mark (d := ')') rfl, mark (d := '"') rfl,
      mark (d := '$') rfl, mark (d := '#') rfl, mark (d := ':') rfl, notNumber, starts, taken,
      kind, value]

/-- The spelling of a word is read as the word. -/
theorem readsAs_chars {w : Word} {rest : List Char} (spelled : w.IsSpelled)
    (ends : w.EndsBefore rest) : ∃ c tail, w.chars = c :: tail ∧ ReadsAs c tail rest w := by
  have breaks (other : w.kind ≠ .openParen) : Breaks rest := ends.resolve_left other
  cases kind : w.kind with
  | string =>
      refine ⟨'"', _, chars_of_string kind, by decide, by decide, ?_⟩
      rw [List.append_assoc]
      simp [Lexeme.read, Lexeme.quoted, body?_escape, kind]
  | eof => simp [IsSpelled, kind] at spelled
  | number =>
      rw [IsSpelled, kind] at spelled
      obtain ⟨c, tail, value⟩ := List.exists_cons_of_ne_nil spelled.ne_nil
      have ended := (breaks (by simp [kind])).endsDigits
      refine ⟨c, tail, ?_, readsAs_numeral kind value (value ▸ spelled) ended⟩
      rw [chars_of_ne_string (by simp [kind]), kind, value]
      rfl
  | symbol =>
      rw [IsSpelled, kind] at spelled
      obtain ⟨c, tail, value, starts, inside⟩ := spelled
      refine ⟨c, tail, ?_, readsAs_symbol kind value starts inside (breaks (by simp [kind]))⟩
      rw [chars_of_ne_string (by simp [kind]), kind, value]
      rfl
  | openParen =>
      rw [IsSpelled, kind] at spelled
      refine ⟨'(', [], ?_, by decide, by decide, ?_⟩
      · rw [chars_of_ne_string (by simp [kind]), kind, spelled]
        rfl
      · simp [Lexeme.read, kind, spelled]
  | closeParen =>
      rw [IsSpelled, kind] at spelled
      refine ⟨')', [], ?_, by decide, by decide, ?_⟩
      · rw [chars_of_ne_string (by simp [kind]), kind, spelled]
        rfl
      · simp [Lexeme.read, kind, spelled]
  | keyword =>
      rw [IsSpelled, kind] at spelled
      refine ⟨':', _, ?_, readsAs_name spelled (breaks (by simp [kind])) (by simp [kind])⟩
      rw [chars_of_ne_string (by simp [kind]), kind]
      rfl
  | param =>
      rw [IsSpelled, kind] at spelled
      refine ⟨'$', _, ?_, readsAs_name spelled (breaks (by simp [kind])) (by simp [kind])⟩
      rw [chars_of_ne_string (by simp [kind]), kind]
      rfl
  | hash =>
      rw [IsSpelled, kind] at spelled
      refine ⟨'#', _, ?_, readsAs_name spelled (breaks (by simp [kind])) (by simp [kind])⟩
      rw [chars_of_ne_string (by simp [kind]), kind]
      rfl

end Word

namespace Token

open Word

/-- White space before a text only moves its tokens. -/
theorem ofChars_blanks {blanks : List Char} (rest : List Char) (p : Position)
    (space : ∀ c ∈ blanks, Lexeme.isSpace c = true) :
    ofChars (blanks ++ rest) p = ofChars rest (p.afterAll blanks) := by
  induction blanks generalizing p with
  | nil => rfl
  | cons c blanks ih =>
      rw [List.cons_append, ofChars, if_pos (space c List.mem_cons_self)]
      exact ih (p.after c) fun d later => space d (List.mem_cons_of_mem c later)

/-- A line is read to its end. -/
theorem takeWhile_isInLine {line rest : List Char} (inLine : '\n' ∉ line)
    (ends : rest.head? = some '\n') :
    (line ++ rest).takeWhile isInLine = line ∧ (line ++ rest).dropWhile isInLine = rest := by
  refine takeWhile_exact (fun c member => ?_) fun c head => ?_
  · simp only [isInLine, bne_iff_ne]
    rintro rfl
    exact inLine member
  · obtain rfl := Option.some.inj (ends.symm.trans head)
    rfl

/-- A comment up to the end of its line only moves the tokens behind it. -/
theorem ofChars_comment {line rest : List Char} (p : Position) (inLine : '\n' ∉ line)
    (ends : rest.head? = some '\n') :
    ofChars (';' :: (line ++ rest)) p = ofChars rest (p.afterAll (';' :: line)) := by
  obtain ⟨taken, dropped⟩ := takeWhile_isInLine inLine ends
  rw [ofChars, if_neg (by decide), if_pos rfl, taken, dropped]

theorem ofChars_of_readsAs {w : Word} {c : Char} {tail rest : List Char} (p : Position)
    (reads : ReadsAs c tail rest w) :
    ofChars (c :: tail ++ rest) p =
      (ofChars rest (p.afterAll (c :: tail))).map (w.place p (p.afterAll (c :: tail)) :: ·) := by
  rw [List.cons_append, ofChars, if_neg (by simp [reads.notSpace]), if_neg reads.notComment,
    reads.read]
  simp [Lexeme.toToken, place]

/-- A word before a text is its first token. -/
theorem ofChars_chars {w : Word} {rest : List Char} (p : Position) (spelled : w.IsSpelled)
    (ends : w.EndsBefore rest) :
    ofChars (w.chars ++ rest) p =
      (ofChars rest (p.afterAll w.chars)).map (w.place p (p.afterAll w.chars) :: ·) := by
  obtain ⟨c, tail, chars, reads⟩ := readsAs_chars spelled ends
  rw [chars]
  exact ofChars_of_readsAs p reads

/-- The tokens of a text before its end are spelled. -/
theorem isSpelled_of_ofChars {cs : List Char} {p : Position} {tokens : List Token}
    (found : ofChars cs p = .ok tokens) {t : Token} (member : t ∈ tokens) (inner : t.kind ≠ .eof) :
    t.word.IsSpelled := by
  fun_induction ofChars cs p generalizing tokens with
  | case1 p =>
      obtain rfl := Except.ok.inj found
      obtain rfl := List.mem_singleton.mp member
      exact absurd rfl inner
  | case2 c rest p space ih => exact ih found member
  | case3 rest p space ih => exact ih found member
  | case4 => simp at found
  | case5 c rest p space _ lexeme read stop =>
      rename_i ih
      cases later : ofChars (rest.drop lexeme.extra) stop with
      | error fault => simp [later, Except.map] at found
      | ok behind =>
          simp only [later, Except.map, Except.ok.injEq] at found
          subst found
          rcases List.mem_cons.mp member with rfl | further
          · exact isSpelled_of_read read
          · exact ih later further

/-- The texts of tokens in a row, with gaps between them. -/
def joined (tokens : List Token) (gaps : List String) : String :=
  String.join (List.zipWith (fun t gap => t.render ++ gap) tokens (gaps ++ [""]))

@[simp]
theorem joined_nil (gaps : List String) : joined [] gaps = "" := by
  cases gaps <;> rfl

theorem toList_joined_singleton (t : Token) : (joined [t] []).toList = t.word.chars ++ [] := by
  rw [List.append_nil, ← toList_render]
  simp [joined, String.join]

theorem toList_joined_cons (t : Token) (tokens : List Token) (gap : String) (gaps : List String) :
    (joined (t :: tokens) (gap :: gaps)).toList =
      t.word.chars ++ (gap.toList ++ (joined tokens gaps).toList) := by
  rw [← toList_render]
  simp [joined]

theorem breaks_of_isSpace {c : Char} {rest : List Char} (space : Lexeme.isSpace c = true) :
    Breaks (c :: rest) := by
  intro d head
  obtain rfl := Option.some.inj head
  simp only [Lexeme.isSpace, Bool.or_eq_true, beq_iff_eq] at space
  rcases space with ((rfl | rfl) | rfl) | rfl <;> decide

private theorem words_ofChars_joined {tokens : List Token} {gaps : List String}
    (spelled : ∀ t ∈ tokens, t.word.IsSpelled) (between : gaps.length = tokens.length - 1)
    (blank : ∀ gap ∈ gaps, gap ≠ "" ∧ ∀ c ∈ gap.toList, Lexeme.isSpace c = true) (p : Position) :
    (ofChars (joined tokens gaps).toList p).map (·.map word) =
      .ok (tokens.map word ++ [⟨.eof, ""⟩]) := by
  induction tokens generalizing gaps p with
  | nil =>
      rw [joined_nil, String.toList_empty, ofChars]
      rfl
  | cons t tokens ih =>
      obtain ⟨here, later⟩ := List.forall_mem_cons.mp spelled
      cases gaps with
      | nil =>
          obtain rfl : tokens = [] := List.eq_nil_of_length_eq_zero (by simpa using between.symm)
          have ends : t.word.EndsBefore [] := Or.inr fun c head => by simp at head
          rw [toList_joined_singleton, ofChars_chars p here ends, ofChars]
          rfl
      | cons gap gaps =>
          obtain ⟨⟨nonempty, space⟩, blanks⟩ := List.forall_mem_cons.mp blank
          have ends : t.word.EndsBefore (gap.toList ++ (joined tokens gaps).toList) := by
            cases chars : gap.toList with
            | nil => exact absurd (String.toList_eq_nil_iff.mp chars) nonempty
            | cons c rest =>
                apply Or.inr
                apply breaks_of_isSpace
                exact space c (chars ▸ List.mem_cons_self)
          have counted : gaps.length = tokens.length - 1 := by
            simp only [List.length_cons] at between
            omega
          have onward := ih later counted blanks ((p.afterAll t.word.chars).afterAll gap.toList)
          rw [toList_joined_cons, ofChars_chars p here ends, ofChars_blanks _ _ space]
          cases read : ofChars (joined tokens gaps).toList
              ((p.afterAll t.word.chars).afterAll gap.toList) with
          | error fault => simp [read, Except.map] at onward
          | ok behind =>
              rw [read] at onward
              have words := Except.ok.inj onward
              simp [Except.map, words]

/-- Tokens that are spelled well, written in a row with white space between them, are read back as
the same words with the end behind them. -/
theorem ofSource_joined {tokens : List Token} {gaps : List String}
    (spelled : ∀ t ∈ tokens, t.word.IsSpelled) (between : gaps.length = tokens.length - 1)
    (blank : ∀ gap ∈ gaps, gap ≠ "" ∧ ∀ c ∈ gap.toList, Lexeme.isSpace c = true) :
    (ofSource (joined tokens gaps)).map (·.map word) = .ok (tokens.map word ++ [⟨.eof, ""⟩]) :=
  words_ofChars_joined spelled between blank Position.first

theorem ofSource_joined_numeral :
    (ofSource (joined [⟨.symbol, "a", Position.first, Position.first⟩,
        ⟨.string, "\\\"\n", Position.first, Position.first⟩,
        ⟨.number, "-1.5", Position.first, Position.first⟩] ["\t", " \n"])).map (·.map word) =
      .ok [⟨.symbol, "a"⟩, ⟨.string, "\\\"\n"⟩, ⟨.number, "-1.5"⟩, ⟨.eof, ""⟩] := by
  apply ofSource_joined
  case between => rfl
  case blank => simp [Lexeme.isSpace]
  case spelled =>
    have symbol : (Word.mk .symbol "a").IsSpelled := ⟨'a', [], rfl, by decide, by simp⟩
    have numeral : IsNumeral "-1.5".toList :=
      ⟨['-'], ['1'], ['.', '5'], rfl, Or.inr rfl, by simp [IsDigits, Lexeme.isDigit],
        Or.inr ⟨['5'], rfl, by simp [IsDigits, Lexeme.isDigit]⟩⟩
    simp only [List.forall_mem_cons]
    exact ⟨symbol, trivial, numeral, by simp⟩

end Token
end Wireframe
