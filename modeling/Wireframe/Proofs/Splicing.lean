import Wireframe.Proofs.Pieces
import Wireframe.Proofs.Tiling

/-!
# Putting a quoted text into a source

Where a word ends is seen from the character behind it, and no word but a text goes on with a quote.
So the words before a numeral stay as they are if the numeral is put between quotes.  The words
behind it are the same wherever they begin.
-/

namespace Wireframe

open Word

theorem head?_of_takeWhile_eq {p : Char → Bool} {body rest : List Char}
    (taken : (body ++ rest).takeWhile p = body) : ∀ c, rest.head? = some c → p c = false := by
  have whole := List.takeWhile_append_dropWhile (p := p) (l := body ++ rest)
  rw [taken] at whole
  rw [← List.append_cancel_left whole]
  exact not_of_head?_dropWhile

/-- Whether a character can begin the numeral of a number token. -/
def Lexeme.startsNumeral (c : Char) : Bool :=
  isDigit c || c == '-'

theorem Word.IsNumeral.head {cs : List Char} (numeral : IsNumeral cs) :
    ∃ c rest, cs = c :: rest ∧ Lexeme.startsNumeral c = true := by
  obtain ⟨sign, digits, fraction, rfl, signShape, ⟨nonempty, isDigit⟩, -⟩ := numeral
  rcases signShape with rfl | rfl
  · cases digits with
    | nil => exact absurd rfl nonempty
    | cons c digits =>
        exact ⟨c, digits ++ fraction, rfl, by simp [Lexeme.startsNumeral, isDigit]⟩
  · exact ⟨'-', digits ++ fraction, rfl, rfl⟩

namespace Lexeme

variable {c : Char} {body here there : List Char} {l : Lexeme}

private theorem not_digit_behind_decimals {rest : List Char}
    (start : ∀ d, rest.head? = some d → isDigit d = false) (split : rest = decimals rest ++ here) :
    ∀ d, here.head? = some d → isDigit d = false := by
  unfold decimals at split
  split at split
  · rename_i behind
    simp only at split
    split at split
    · exact (List.nil_append here ▸ split) ▸ start
    · have whole := (List.cons.inj split).2
      have taken : (behind.takeWhile isDigit ++ here).takeWhile isDigit =
          behind.takeWhile isDigit := congrArg (List.takeWhile isDigit) whole.symm
      exact head?_of_takeWhile_eq taken
  · exact (List.nil_append here ▸ split) ▸ start

/-- No numeral that was read goes on behind its end. -/
theorem endsDigits_of_numeral (whole : (numeral c (body ++ here)).extra = body.length)
    (point : here.head? ≠ some '.') : EndsDigits here := by
  have front : body = (body ++ here).takeWhile isDigit ++
      decimals ((body ++ here).dropWhile isDigit) := by
    have taken := take_numeral c (body ++ here)
    rw [whole, List.take_left] at taken
    exact (List.cons.inj taken).2
  have split : (body ++ here).dropWhile isDigit =
      decimals ((body ++ here).dropWhile isDigit) ++ here := by
    have whole : (body ++ here).takeWhile isDigit ++ (body ++ here).dropWhile isDigit =
        (body ++ here).takeWhile isDigit ++
          (decimals ((body ++ here).dropWhile isDigit) ++ here) := by
      rw [List.takeWhile_append_dropWhile, ← List.append_assoc, ← front]
    exact List.append_cancel_left whole
  have digit := not_digit_behind_decimals not_of_head?_dropWhile split
  exact fun d head => ⟨digit d head, fun same => point (same ▸ head)⟩

theorem eq_numeral_of_read {rest : List Char} (found : read c rest = .ok l)
    (number : l.kind = .number) : l = numeral c rest := by
  unfold read at found
  repeat' split at found
  · simp [← Except.ok.inj found] at number
  · simp [← Except.ok.inj found] at number
  · simp [kind_quoted found] at number
  · simp [kind_marked found] at number
  · simp [kind_marked found] at number
  · simp [kind_marked found] at number
  · exact (Except.ok.inj found).symm
  · simp [← Except.ok.inj found] at number
  · simp at found

theorem read_quote {rest value : List Char} {n : Nat}
    (body : Quoted.body? rest = .ok (some (value, n))) :
    read '"' rest = .ok ⟨.string, value, n⟩ := by
  simp [read, quoted, body]

/-- A text ends at its closing quote, whatever stands behind it. -/
theorem read_append_of_string (found : read c (body ++ here) = .ok l)
    (whole : l.extra = body.length) (string : l.kind = .string) (there : List Char) :
    read c (body ++ there) = .ok l := by
  obtain ⟨rfl, text, inside⟩ := body?_of_read found string
  have isText := Except.ok.inj (found.symm.trans (read_quote inside))
  generalize l.extra = n at inside isText whole
  obtain ⟨quoted, behind, split, rfl, spells⟩ := Quoted.exists_spells_of_body? inside
  have ended : body = quoted ++ ['"'] := by
    have same : body ++ here = (quoted ++ ['"']) ++ behind := by
      rw [split, List.append_assoc, List.singleton_append]
    refine List.append_inj_left same ?_
    rw [← whole, List.length_append, List.length_singleton]
  rw [ended, List.append_assoc, List.singleton_append, isText]
  exact read_quote (Quoted.body?_of_spells spells there)

/-- Whether a text begins like another one, or with a quote. -/
def GoesOn (here there : List Char) : Prop :=
  there.head? = here.head? ∨ there.head? = some '"'

theorem GoesOn.head (next : GoesOn here there) {P : Char → Prop} (quote : P '"')
    (ends : ∀ d, here.head? = some d → P d) : ∀ d, there.head? = some d → P d := by
  intro d head
  rcases next with alike | isQuote
  · exact ends d (alike ▸ head)
  · exact Option.some.inj (isQuote.symm.trans head) ▸ quote

section Append

variable (found : read c (body ++ here) = .ok l) (whole : l.extra = body.length)
  (point : here.head? ≠ some '.') (next : GoesOn here there)
include found whole

theorem chars_of_read (other : l.kind ≠ .string) :
    c :: body = (Word.mk l.kind (String.ofList l.value)).chars := by
  have chars := take_of_read found other
  rwa [whole, List.take_left] at chars

include point next

theorem read_append_of_isName (name : Span.IsName l.kind) : read c (body ++ there) = .ok l := by
  have behind := ends_of_read found name
  rw [whole, List.drop_left] at behind
  have breaks : Breaks there := next.head ⟨by decide, by decide⟩ fun d head =>
    ⟨behind d head, fun isPoint => point (isPoint ▸ head)⟩
  have other : l.kind ≠ .string := fun string => by simp [Span.IsName, string] at name
  obtain ⟨d, tail, split, reads⟩ := readsAs_chars (isSpelled_of_read found) (Or.inr breaks)
  obtain ⟨rfl, rfl⟩ := List.cons.inj ((chars_of_read found whole other).trans split)
  rw [reads.read, String.toList_ofList, ← whole]

theorem read_append_of_number (number : l.kind = .number) : read c (body ++ there) = .ok l := by
  have value : (String.ofList l.value).toList = c :: body := by
    rw [chars_of_read found whole (by simp [number]), chars_of_ne_string (by simp [number]), number]
    rfl
  have numeral : IsNumeral (c :: body) := value ▸ (isSpelled_of_read found).numeral number
  have isNumeral := eq_numeral_of_read found number
  have ends : EndsDigits there :=
    next.head ⟨by decide, by decide⟩ (endsDigits_of_numeral (isNumeral ▸ whole) point)
  have reads := readsAs_numeral (w := ⟨l.kind, String.ofList l.value⟩) number value numeral ends
  rw [reads.read, String.toList_ofList, ← whole]

/-- A lexeme is read alike before texts that begin alike, and before a quote. -/
theorem read_append : read c (body ++ there) = .ok l := by
  have named (name : Span.IsName l.kind) := read_append_of_isName found whole point next name
  have spelled := isSpelled_of_read found
  cases kind : l.kind with
  | string => exact read_append_of_string found whole kind there
  | number => exact read_append_of_number found whole point next kind
  | eof => exact absurd kind (kind_read_ne_eof found)
  | symbol => exact named (by simp [Span.IsName, kind])
  | keyword => exact named (by simp [Span.IsName, kind])
  | param => exact named (by simp [Span.IsName, kind])
  | hash => exact named (by simp [Span.IsName, kind])
  | openParen =>
      have chars := chars_of_read found whole (by simp [kind])
      rw [chars_of_openParen spelled kind] at chars
      obtain ⟨rfl, rfl⟩ := List.cons.inj chars
      exact found
  | closeParen =>
      have chars := chars_of_read found whole (by simp [kind])
      rw [chars_of_closeParen spelled kind] at chars
      obtain ⟨rfl, rfl⟩ := List.cons.inj chars
      exact found

end Append

end Lexeme

namespace Token

theorem head?_ne_point {cs : List Char} {p : Position} {tokens : List Token}
    (found : ofChars cs p = .ok tokens) : cs.head? ≠ some '.' := by
  intro head
  cases cs with
  | nil => cases head
  | cons c rest =>
      obtain rfl := Option.some.inj head
      simp [ofChars, Lexeme.isSpace, Lexeme.read, Lexeme.startsNumber, Lexeme.isDigit,
        Lexeme.isSymbolStart] at found

private theorem map_ok_eq_ok {x : Except LexFault (List Token)} {u : Token} {tokens : List Token}
    (found : x.map (u :: ·) = .ok tokens) : ∃ behind, x = .ok behind ∧ u :: behind = tokens := by
  cases x with
  | error fault => simp [Except.map] at found
  | ok behind => exact ⟨behind, rfl, Except.ok.inj found⟩

/-- Whether a token stands in a text between characters before it, which are read as some tokens if
a quote follows them, and characters that are read as the tokens behind it. -/
structure Around (cs : List Char) (p : Position) (front : List Token) (t : Token)
    (back : List Token) (before after : List Char) : Prop where
  split : cs = before ++ (t.value.toList ++ after)
  start : t.start = p.afterAll before
  behind : ofChars after t.stop = .ok back
  spliced : ∀ new : List Char, new.head? = some '"' →
    ofChars (before ++ new) p = (ofChars new t.start).map (front ++ ·)

namespace Around

variable {c : Char} {cs rest before after : List Char} {p : Position} {front back : List Token}
  {t : Token} {l : Lexeme}

theorem space (space : Lexeme.isSpace c = true)
    (around : Around rest (p.after c) front t back before after) :
    Around (c :: rest) p front t back (c :: before) after where
  split := congrArg (c :: ·) around.split
  start := around.start
  behind := around.behind
  spliced := fun new quote => by
    rw [List.cons_append, ofChars, if_pos space, around.spliced new quote]

/-- The numeral does not belong to the comment, since a line break stands behind that. -/
theorem comment (numeral : IsNumeral t.value.toList)
    (around : Around (rest.dropWhile isInLine) (p.afterAll (';' :: rest.takeWhile isInLine)) front t
      back before after) :
    Around (';' :: rest) p front t back (';' :: rest.takeWhile isInLine ++ before) after where
  split := by
    rw [List.append_assoc, ← around.split, List.cons_append, List.takeWhile_append_dropWhile]
  start := by rw [Position.afterAll_append, around.start]
  behind := around.behind
  spliced := fun new quote => by
    have ends := Comment.ends_of_dropWhile rest
    rw [around.split] at ends
    have inLine : '\n' ∉ rest.takeWhile isInLine := fun member =>
      absurd (List.all_eq_true.mp List.all_takeWhile _ member) (by decide)
    have breaks : (before ++ new).head? = some '\n' := by
      cases before with
      | nil =>
          obtain ⟨d, tail, value, starts⟩ := numeral.head
          rw [value] at ends
          obtain rfl := ends d rfl
          exact absurd starts (by decide)
      | cons e before => rw [ends e rfl, List.cons_append, List.head?_cons]
    rw [List.append_assoc, List.cons_append, ofChars_comment p inLine breaks,
      around.spliced new quote]

section Word

variable (read : Lexeme.read c rest = .ok l)
include read

theorem here (number : l.kind = .number)
    (later : ofChars (rest.drop l.extra) (p.afterAll (c :: rest.take l.extra)) = .ok back) :
    Around (c :: rest) p [] (l.toToken p (p.afterAll (c :: rest.take l.extra))) back []
      (rest.drop l.extra) where
  split := by
    have chars := Lexeme.take_of_read read (by simp [number])
    rw [chars_of_ne_string (by simp [number]), number] at chars
    have spelling : c :: rest.take l.extra = (String.ofList l.value).toList := chars
    change c :: rest = (String.ofList l.value).toList ++ rest.drop l.extra
    rw [← spelling, List.cons_append, List.take_append_drop]
  start := rfl
  behind := later
  spliced := fun new _ => by
    change ofChars new p = (ofChars new p).map fun tokens => tokens
    cases ofChars new p with
    | error fault => rfl
    | ok tokens => rfl

theorem word (notSpace : Lexeme.isSpace c = false) (notComment : c ≠ ';') {tokens : List Token}
    (later : ofChars (rest.drop l.extra) (p.afterAll (c :: rest.take l.extra)) = .ok tokens)
    (around : Around (rest.drop l.extra) (p.afterAll (c :: rest.take l.extra)) front t back before
      after) :
    Around (c :: rest) p (l.toToken p (p.afterAll (c :: rest.take l.extra)) :: front) t back
      (c :: rest.take l.extra ++ before) after where
  split := by rw [List.append_assoc, ← around.split, List.cons_append, List.take_append_drop]
  start := by rw [Position.afterAll_append, around.start]
  behind := around.behind
  spliced := fun new quote => by
    have length := List.length_take_of_le (Lexeme.extra_read_le read)
    have next : Lexeme.GoesOn (rest.drop l.extra) (before ++ new) := by
      cases before with
      | nil => exact Or.inr quote
      | cons e before => exact Or.inl (by rw [around.split]; rfl)
    have again := Lexeme.read_append (by rwa [List.take_append_drop]) length.symm
      (head?_ne_point later) next
    have reads : ReadsAs c (rest.take l.extra) (before ++ new)
        ⟨l.kind, String.ofList l.value⟩ := by
      refine ⟨notSpace, notComment, ?_⟩
      rw [again, String.toList_ofList, length]
    rw [List.append_assoc, ofChars_of_readsAs p reads, around.spliced new quote]
    cases ofChars new t.start with
    | error fault => rfl
    | ok tokens => rfl

end Word
end Around

/-- Every numeral among the tokens of a text stands somewhere in it. -/
theorem exists_around {cs : List Char} {p : Position} {front back : List Token} {t : Token}
    (found : ofChars cs p = .ok (front ++ t :: back)) (number : t.kind = .number) :
    ∃ before after, Around cs p front t back before after := by
  have spelled := isSpelled_of_ofChars found (t := t) (by simp) (by simp [number])
  have numeral : IsNumeral t.value.toList := spelled.numeral number
  fun_induction ofChars cs p generalizing front with
  | case1 p =>
      have member : t ∈ [eof p] := by simp [Except.ok.inj found]
      simp [List.mem_singleton.mp member, eof] at number
  | case2 c rest p space ih =>
      obtain ⟨before, after, around⟩ := ih found
      exact ⟨_, _, around.space space⟩
  | case3 rest p space ih =>
      obtain ⟨before, after, around⟩ := ih found
      exact ⟨_, _, around.comment numeral⟩
  | case4 => simp at found
  | case5 c rest p space notComment lexeme read stop =>
      rename_i ih
      obtain ⟨tokens, later, same⟩ := map_ok_eq_ok found
      cases front with
      | nil =>
          obtain ⟨rfl, rfl⟩ := List.cons.inj same
          exact ⟨_, _, .here read number later⟩
      | cons u front =>
          obtain ⟨rfl, rfl⟩ := List.cons.inj same
          obtain ⟨before, after, around⟩ := ih later
          exact ⟨_, _, around.word read (by simpa using space) notComment later⟩

theorem words_ofChars {cs : List Char} {p : Position} {tokens : List Token}
    (found : ofChars cs p = .ok tokens) (q : Position) :
    ∃ moved, ofChars cs q = .ok moved ∧ moved.map word = tokens.map word := by
  fun_induction ofChars cs p generalizing tokens q with
  | case1 p =>
      obtain rfl := Except.ok.inj found
      exact ⟨[eof q], by rw [ofChars], rfl⟩
  | case2 c rest p space ih =>
      rw [ofChars, if_pos space]
      exact ih found _
  | case3 rest p space ih =>
      rw [ofChars, if_neg space, if_pos rfl]
      exact ih found _
  | case4 => simp at found
  | case5 c rest p space notComment lexeme read stop =>
      rename_i ih
      obtain ⟨behind, later, rfl⟩ := map_ok_eq_ok found
      obtain ⟨moved, again, words⟩ := ih later (q.afterAll (c :: rest.take lexeme.extra))
      rw [ofChars, if_neg space, if_neg notComment, read]
      refine ⟨lexeme.toToken q (q.afterAll (c :: rest.take lexeme.extra)) :: moved, ?_, ?_⟩
      · simp only [again]
        rfl
      · rw [List.map_cons, List.map_cons, words]
        rfl

end Token

theorem Quoted.spells_self {cs : List Char} (plain : ∀ c ∈ cs, c ≠ '"' ∧ c ≠ '\\') :
    Spells cs cs := by
  induction cs with
  | nil => exact spells_nil
  | cons c cs ih =>
      obtain ⟨⟨notQuote, notBackslash⟩, later⟩ := List.forall_mem_cons.mp plain
      exact (ih later).cons (.plain notQuote notBackslash)

theorem Word.IsSpelled.spells {w : Word} (spelled : w.IsSpelled) (other : w.kind ≠ .string) :
    Quoted.Spells w.chars w.chars := by
  refine Quoted.spells_self fun c member => ?_
  cases isWordChar_of_mem_chars spelled other member with
  | symbol inside =>
      constructor
      · rintro rfl
        exact absurd inside (by decide)
      · rintro rfl
        exact absurd inside (by decide)
  | sign isSign =>
      simp only [List.mem_cons, List.not_mem_nil, or_false] at isSign
      rcases isSign with rfl | rfl | rfl | rfl <;> decide
  | opener => decide
  | closer => decide

namespace Token

/-- The same words are read with a text in place of a numeral that is put between quotes. -/
theorem words_of_quoted {source : String} {front back : List Token} {t : Token}
    (found : ofSource source = .ok (front ++ t :: back)) (number : t.kind = .number) :
    ∃ before after, source = before ++ t.value ++ after ∧
      t.start = Position.first.afterAll before.toList ∧
      ∃ tokens, ofSource (before ++ "\"" ++ t.value ++ "\"" ++ after) = .ok tokens ∧
        tokens.map word = front.map word ++ ⟨.string, t.value⟩ :: back.map word := by
  have spells : Quoted.Spells t.value.toList t.value.toList := by
    have spelled := isSpelled_of_ofChars found (t := t) (by simp) (by simp [number])
    have itself := spelled.spells (by simp [number])
    rwa [chars_of_ne_string (by simp [number]), word_kind, number] at itself
  obtain ⟨before, after, split, start, behind, spliced⟩ := exists_around found number
  have quoted := ofChars_quoted t.start (Quoted.body?_of_spells spells after)
  have rest : (t.value.toList ++ '"' :: after).drop (t.value.toList.length + 1) = after := by
    rw [← List.drop_drop, List.drop_left, List.drop_one, List.tail_cons]
  rw [rest] at quoted
  generalize t.start.afterAll ('"' :: _) = stop at quoted
  obtain ⟨moved, again, words⟩ := words_ofChars behind stop
  rw [again, Except.map] at quoted
  refine ⟨String.ofList before, String.ofList after, ?_, ?_, front ++ ⟨.string,
    String.ofList t.value.toList, t.start, stop⟩ :: moved, ?_, ?_⟩
  · refine String.toList_inj.mp ?_
    simp [split]
  · rw [String.toList_ofList, start]
  · have chars : (String.ofList before ++ "\"" ++ t.value ++ "\"" ++ String.ofList after).toList =
        before ++ '"' :: (t.value.toList ++ '"' :: after) := by
      simp
    rw [ofSource, chars, spliced _ rfl, quoted]
    rfl
  · rw [String.ofList_toList, List.map_append, List.map_cons, words]
    rfl

end Token
end Wireframe
