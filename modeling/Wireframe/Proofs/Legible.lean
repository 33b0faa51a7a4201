import Mathlib.Data.List.DropRight
import Wireframe.Proofs.Repair
import Wireframe.Proofs.Stroke

/-!
# Legible strokes

Strokes are legible if their marks are spelled and no mark runs into the one before: words without a
space between them have a parenthesis there, and a comment ends with its line.  The text of legible
strokes is read as their words.  The pen draws legible strokes only, so that formatting loses, joins
and alters no word.
-/

namespace Wireframe

/-- The text of a comment: a semicolon and characters of one line, the last of which is no blank. -/
structure IsRemark (text : String) : Prop where
  inLine : ∃ line, text.toList = ';' :: line ∧ '\n' ∉ line
  trimmed : Text.dropEndWhile Text.isBlank text.toList = text.toList

namespace Mark

def IsSound : Mark → Prop
  | word w _ => w.IsSpelled
  | comment text => IsRemark text

end Mark

namespace Stroke

/-- The strokes that may come behind a mark, or first. -/
inductive Follows : Option Mark → Stroke → Prop
  | first (w : Word) (name : String) : Follows none ⟨.none, .word w name⟩
  | remark (level : Nat) (text : String) : Follows none ⟨.line 0 level, .comment text⟩
  | line (before mark : Mark) {breaks : Nat} (level : Nat) (positive : 0 < breaks) :
      Follows (some before) ⟨.line breaks level, mark⟩
  | space (u w : Word) (outer inner : String) :
      Follows (some (.word u outer)) ⟨.space, .word w inner⟩
  | tight {u w : Word} (outer inner : String)
      (joined : u.kind = .openParen ∨ w.kind = .closeParen) :
      Follows (some (.word u outer)) ⟨.none, .word w inner⟩

/-- Whether strokes behind a mark can be read. -/
def Legible : Option Mark → List Stroke → Prop
  | _, [] => True
  | before, s :: rest => s.Follows before ∧ s.mark.IsSound ∧ Legible (some s.mark) rest

/-- The words of strokes at their places in a text that begins at a position. -/
def located (style : Style) : Position → List Stroke → List (Token × String)
  | _, [] => []
  | p, s :: rest =>
    let start := p.afterAll (s.lead.chars style)
    let stop := start.afterAll s.mark.chars
    match s.mark with
    | .word w name => (w.place start stop, name) :: located style stop rest
    | .comment _ => located style stop rest

theorem words_located (style : Style) (p : Position) (strokes : List Stroke) :
    (located style p strokes).map (fun entry => (entry.1.word, entry.2)) = words strokes := by
  induction strokes generalizing p with
  | nil => rfl
  | cons s rest ih =>
      obtain ⟨lead, mark⟩ := s
      cases mark with
      | word w name => exact congrArg ((w, name) :: ·) (ih _)
      | comment text => exact ih _

private theorem isSpace_margin {style : Style}
    (space : ∀ c ∈ style.indent, Lexeme.isSpace c = true) (level : Nat) :
    ∀ c ∈ Pen.margin style level, Lexeme.isSpace c = true := by
  intro c member
  obtain ⟨part, isPart, inside⟩ := List.mem_flatten.mp member
  obtain rfl := List.eq_of_mem_replicate isPart
  exact space c inside

private theorem isSpace_lead {style : Style}
    (space : ∀ c ∈ style.indent, Lexeme.isSpace c = true) (lead : Lead) :
    ∀ c ∈ lead.chars style, Lexeme.isSpace c = true := by
  intro c member
  cases lead with
  | none => simp [Lead.chars] at member
  | space =>
      obtain rfl := List.mem_singleton.mp member
      rfl
  | line breaks level =>
      rcases List.mem_append.mp member with isBreak | inMargin
      · obtain rfl := List.eq_of_mem_replicate isBreak
        rfl
      · exact isSpace_margin space level c inMargin

private theorem chars_line (style : Style) {breaks : Nat} (level : Nat) (positive : 0 < breaks) :
    ∃ rest, Lead.chars style (.line breaks level) = '\n' :: rest := by
  obtain ⟨n, rfl⟩ := Nat.exists_eq_succ_of_ne_zero (Nat.ne_of_gt positive)
  exact ⟨List.replicate n '\n' ++ Pen.margin style level, rfl⟩

private theorem breaks_cons {c : Char} (rest : List Char)
    (outside : Lexeme.isSymbolChar c = false ∧ c ≠ '.') : Word.Breaks (c :: rest) := by
  intro d head
  obtain rfl : c = d := by simpa using head
  exact outside

/-- A word ends before the strokes that may come behind it. -/
theorem endsBefore_text {style : Style} {w : Word} {name : String} {strokes : List Stroke}
    (legible : Legible (some (.word w name)) strokes) :
    w.EndsBefore (text style strokes ++ ['\n']) := by
  cases strokes with
  | nil => exact Or.inr (breaks_cons [] (by decide))
  | cons s rest =>
      obtain ⟨follows, sound, -⟩ := legible
      rw [text_cons, List.append_assoc]
      cases follows with
      | line _ mark level positive =>
          obtain ⟨behind, chars⟩ := chars_line style level positive
          rw [chars]
          exact Or.inr (breaks_cons _ (by decide))
      | space => exact Or.inr (breaks_cons _ (by decide))
      | @tight _ v _ inner joined =>
          rcases joined with opens | closes
          · exact Or.inl opens
          · have chars := Word.chars_of_closeParen sound closes
            simp only [Lead.chars, Mark.chars, chars]
            exact Or.inr (breaks_cons _ (by decide))

/-- A comment ends with its line before the strokes that may come behind it. -/
theorem head?_text_of_comment {style : Style} {remark : String} {strokes : List Stroke}
    (legible : Legible (some (.comment remark)) strokes) :
    (text style strokes ++ ['\n']).head? = some '\n' := by
  cases strokes with
  | nil => rfl
  | cons s rest =>
      obtain ⟨follows, -, -⟩ := legible
      cases follows with
      | line _ mark level positive =>
          obtain ⟨behind, chars⟩ := chars_line style level positive
          rw [text_cons, chars]
          rfl

/-- The text of legible strokes is read as their words. -/
theorem ofChars_text {style : Style} (space : ∀ c ∈ style.indent, Lexeme.isSpace c = true)
    {before : Option Mark} {strokes : List Stroke} (legible : Legible before strokes)
    (p : Position) :
    Token.ofChars (text style strokes ++ ['\n']) p =
      .ok ((located style p strokes).map Prod.fst ++
        [Token.eof (p.afterAll (text style strokes ++ ['\n']))]) := by
  induction strokes generalizing before p with
  | nil => simp [Token.ofChars, Lexeme.isSpace, located]
  | cons s rest ih =>
      obtain ⟨lead, mark⟩ := s
      obtain ⟨-, sound, later⟩ := legible
      rw [text_cons, List.append_assoc, List.append_assoc, Position.afterAll_append,
        Token.ofChars_blanks _ p (isSpace_lead space lead), Position.afterAll_append]
      generalize startEq : p.afterAll (lead.chars style) = start
      cases mark with
      | word w name =>
          change Token.ofChars (w.chars ++ _) start = _
          rw [Token.ofChars_chars start sound (endsBefore_text later), ih later]
          subst startEq
          rfl
      | comment remark =>
          obtain ⟨⟨line, chars, inLine⟩, -⟩ := sound
          have ends : (text style rest ++ ['\n']).head? = some '\n' := head?_text_of_comment later
          simp only [Mark.chars, chars, List.cons_append]
          rw [Token.ofChars_comment start inLine ends, ih later]
          subst startEq
          simp [located, Mark.chars, chars]

end Stroke

namespace Pen

open Stroke

/-- Whether a mark is what the pen has written last. -/
structure Behind (p : Pen) (before : Option Mark) : Prop where
  used : p.isUsed = before.isSome
  fresh : p.isFresh = before.isNone
  comment : p.afterComment = before.any fun mark => mark matches .comment _
  previous : ∀ w name, before = some (.word w name) → p.previous = some w.kind
  first : before = none → p.frames = [] ∧ p.previous = none

theorem behind_start (waiting : List Comment) : Behind (start waiting) none :=
  ⟨rfl, rfl, rfl, by simp, fun _ => ⟨rfl, rfl⟩⟩

private theorem behind_page {p : Pen} {before : Option Mark} :
    Behind p.page before ↔ Behind p before :=
  ⟨fun ⟨used, fresh, comment, previous, first⟩ => ⟨used, fresh, comment, previous, first⟩,
    fun ⟨used, fresh, comment, previous, first⟩ => ⟨used, fresh, comment, previous, first⟩⟩

/-- The place of the pen in the source has no influence on what it has written last. -/
theorem Behind.congr {p q : Pen} {before : Option Mark} (behind : Behind p before)
    (same : p.page = q.page) : Behind q before := by
  rw [← behind_page, ← same]
  exact behind_page.mpr behind

theorem Behind.breaks_pos {p : Pen} {mark : Mark} (behind : Behind p (some mark)) (blank : Bool) :
    0 < p.breaks blank := by
  have used : p.isUsed = true := behind.used
  unfold breaks
  rw [used]
  cases blank with
  | false => decide
  | true => decide

theorem behind_draw {style : Style} {p : Pen} {before : Option Mark} {s : Stroke}
    (behind : Behind p before) (follows : s.Follows before) :
    Behind (p.draw style s) (some s.mark) := by
  obtain ⟨lead, mark⟩ := s
  cases mark with
  | word w name =>
      refine ⟨rfl, rfl, ?_, ?_, by simp⟩
      · have written := behind.comment
        cases follows with
        | first => exact written
        | line => rfl
        | space => exact written
        | tight => exact written
      · rintro w name same
        cases same
        rfl
  | comment text => exact ⟨rfl, rfl, rfl, by simp, by simp⟩

private theorem follows_line {p : Pen} {before : Mark} (behind : Behind p (some before))
    (mark : Mark) (blank : Bool) (level : Nat) :
    Follows (some before) ⟨.line (p.breaks blank) level, mark⟩ :=
  .line before mark level (behind.breaks_pos blank)

private theorem follows_openLead {p : Pen} {before : Option Mark} (behind : Behind p before)
    (w : Word) (name : String) (gap : Bool) :
    Follows before ⟨p.openLead name gap, .word w name⟩ := by
  unfold openLead
  cases before with
  | none =>
      rw [(behind.first rfl).1, behind.used]
      exact .first w name
  | some mark =>
      have fresh := behind.fresh
      rw [behind.used]
      split
      · exact follows_line behind _ _ _
      · split
        · exact follows_line behind _ _ _
        · cases mark with
          | comment text =>
              rw [behind.comment]
              exact follows_line behind _ _ _
          | word u outer =>
              rw [behind.comment, behind.fresh, behind.previous u outer rfl]
              by_cases opens : u.kind = .openParen
              · simpa [opens] using Follows.tight outer name (Or.inl opens)
              · simpa [opens] using Follows.space u w outer name

private theorem follows_tightLead {p : Pen} {before : Option Mark} (behind : Behind p before)
    {w : Word} (name : String) (outward : Nat)
    (joined : w.kind = .closeParen ∨ p.previous = some TokenKind.openParen) :
    Follows before ⟨p.tightLead outward, .word w name⟩ := by
  unfold tightLead
  rw [behind.comment]
  cases before with
  | none => exact .first w name
  | some mark =>
      cases mark with
      | comment text => exact follows_line behind _ _ _
      | word u outer =>
          refine .tight outer name ?_
          rcases joined with closes | opens
          · exact Or.inr closes
          · rw [behind.previous u outer rfl] at opens
            exact Or.inl (Option.some.inj opens)

private theorem follows_atomLead {p : Pen} {before : Option Mark} (behind : Behind p before)
    (style : Style) (w next : Word) (name : String) :
    Follows before ⟨p.atomLead style w next, .word w name⟩ := by
  unfold atomLead
  rw [behind.comment]
  cases before with
  | none =>
      have fresh : p.isFresh = true := behind.fresh
      simpa [wraps, fresh] using Follows.first w name
  | some mark =>
      have fresh : p.isFresh = false := behind.fresh
      cases mark with
      | comment text => exact follows_line behind _ _ _
      | word u outer =>
          split
          · exact follows_line behind _ _ _
          · simpa [fresh] using Follows.space u w outer name

theorem follows_leadOf {p : Pen} {before : Option Mark} (behind : Behind p before)
    (style : Style) (w next : Word) (name : String) (gap : Bool) :
    Follows before ⟨p.leadOf style w next name gap, .word w name⟩ := by
  unfold leadOf
  split
  · exact follows_openLead behind w name gap
  · rename_i closes
    exact follows_tightLead behind name 1 (Or.inl closes)
  · split
    · rename_i opens
      exact follows_tightLead behind name 0 (Or.inr opens)
    · exact follows_atomLead behind style w next name
  · exact follows_atomLead behind style w next name

theorem follows_remark {p : Pen} {before : Option Mark} (behind : Behind p before) (c : Comment) :
    Follows before (p.remark c) := by
  cases before with
  | none =>
      have used : p.isUsed = false := behind.used
      simpa [remark, breaks, used] using Follows.remark p.level c.text
  | some mark => exact follows_line behind _ _ _

theorem behind_comment {style : Style} {p : Pen} {before : Option Mark} {c : Comment}
    (behind : Behind p before) : Behind (p.comment style c) (some (.comment c.text)) := by
  have drawn : Behind (p.draw style (p.remark c)) (some (.comment c.text)) :=
    behind_draw behind (follows_remark behind c)
  rw [comment_eq_draw]
  exact drawn.congr rfl

theorem behind_token {style : Style} {p : Pen} {after : Option Mark} {t : Token} (name : String)
    (next : Token) (spelled : t.word.IsSpelled)
    (behind : Behind (p.flush style (some t.start.line)) after) :
    Behind (p.token style t name next) (some (.word t.word name)) := by
  have drawn : Behind ((p.flush style (some t.start.line)).draw style (p.stroke style t name next))
      (some (.word t.word name)) :=
    behind_draw behind (follows_leadOf behind style _ _ _ _)
  rw [token_eq_draw style p name next spelled]
  exact drawn.congr rfl

private theorem legible_remarks {style : Style} {p : Pen} {before : Option Mark} {line : Option Int}
    {cs : List Comment} {rest : List Stroke} (behind : Behind p before)
    (remarks : ∀ c ∈ cs, IsRemark c.text)
    (later : ∀ after, Behind (comments style line cs p) after → Legible after rest) :
    Legible before (p.remarks style line cs ++ rest) := by
  induction cs generalizing p before with
  | nil => exact later before (behind.congr rfl)
  | cons c cs ih =>
      rw [comments] at later
      rw [Pen.remarks]
      split
      · rename_i reached
        rw [if_pos reached] at later
        exact later before (behind.congr rfl)
      · rename_i further
        rw [if_neg further] at later
        have tail := fun d member => remarks d (List.mem_cons_of_mem c member)
        split
        · rename_i passed
          rw [if_pos passed] at later
          exact ih behind tail later
        · rename_i ahead
          rw [if_neg ahead] at later
          exact ⟨follows_remark behind c, remarks c List.mem_cons_self,
            ih (behind_comment behind) tail later⟩

private theorem mem_waiting_comments {style : Style} {line : Option Int} {cs : List Comment}
    {p : Pen} {c : Comment} (member : c ∈ (comments style line cs p).waiting) : c ∈ cs := by
  induction cs generalizing p with
  | nil => exact member
  | cons d cs ih =>
      rw [comments] at member
      split at member
      · exact member
      · split at member
        · exact List.mem_cons_of_mem d (ih member)
        · exact List.mem_cons_of_mem d (ih member)

theorem waiting_draw (style : Style) (p : Pen) (s : Stroke) :
    (p.draw style s).waiting = p.waiting := by
  obtain ⟨lead, mark⟩ := s
  cases mark with
  | word w name => cases lead <;> rfl
  | comment text => cases lead <;> rfl

private theorem legible_ending {style : Style} {p : Pen} {before : Option Mark}
    (behind : Behind p before) (remarks : ∀ c ∈ p.waiting, IsRemark c.text) :
    Legible before (p.remarks style none p.waiting) := by
  have legible : Legible before (p.remarks style none p.waiting ++ []) :=
    legible_remarks behind remarks fun _ _ => trivial
  rwa [List.append_nil] at legible

/-- The strokes that the pen draws for spelled tokens and for comments are legible. -/
theorem legible_strokes {style : Style} {p : Pen} {before : Option Mark}
    {entries : List (Token × String)} (behind : Behind p before)
    (spelled : ∀ entry ∈ entries, entry.1.kind ≠ .eof → entry.1.word.IsSpelled)
    (remarks : ∀ c ∈ p.waiting, IsRemark c.text) :
    Legible before (p.strokes style entries) := by
  induction entries generalizing p before with
  | nil => exact legible_ending behind remarks
  | cons entry rest ih =>
      obtain ⟨t, name⟩ := entry
      rw [strokes]
      split
      · exact legible_ending behind remarks
      · rename_i inner
        have head : t.word.IsSpelled :=
          spelled (t, name) List.mem_cons_self (by simpa [Token.isEnd] using inner)
        refine legible_remarks behind remarks fun after reached => ?_
        refine ⟨follows_leadOf reached style _ _ _ _, head, ?_⟩
        refine ih (behind_token name _ head reached)
          (fun entry later => spelled entry (List.mem_cons_of_mem _ later)) fun c member => ?_
        rw [token_eq_draw style p name _ head] at member
        simp only [waiting_draw] at member
        exact remarks c (mem_waiting_comments member)

end Pen

private theorem dropEndWhile_cons {p : Char → Bool} {c : Char} (outside : p c = false)
    (cs : List Char) : Text.dropEndWhile p (c :: cs) = c :: Text.dropEndWhile p cs := by
  rw [Text.dropEndWhile, List.reverse_cons, List.dropWhile_append]
  split
  · rename_i empty
    rw [Text.dropEndWhile, List.isEmpty_iff.mp empty]
    simp [outside]
  · rw [List.reverse_append]
    rfl

theorem isRemark_ofLine (s : Comment.Scan) {line : List Char} (inLine : '\n' ∉ line) :
    IsRemark (Comment.ofLine s line).text := by
  have text : (Comment.ofLine s line).text.toList = ';' :: Text.dropEndWhile Text.isBlank line := by
    rw [Comment.ofLine, String.toList_ofList]
    exact dropEndWhile_cons (by decide) line
  refine ⟨⟨_, text, fun member => inLine ?_⟩, ?_⟩
  · have inside := List.mem_reverse.mp member
    exact List.mem_reverse.mp ((List.dropWhile_sublist Text.isBlank).mem inside)
  · rw [Comment.ofLine, String.toList_ofList, Text.dropEndWhile, Text.dropEndWhile,
      List.reverse_reverse, List.dropWhile_idempotent]

/-- The comments of a text run to the end of their lines at most. -/
theorem isRemark_of_mem_ofChars {s : Comment.Scan} {cs : List Char} {c : Comment}
    (member : c ∈ Comment.ofChars s cs) : IsRemark c.text := by
  fun_induction Comment.ofChars s cs with
  | case1 => simp at member
  | case2 s d rest starts line ih =>
      rcases List.mem_cons.mp member with rfl | later
      · refine isRemark_ofLine s fun inside => ?_
        have inLine := List.all_eq_true.mp List.all_takeWhile '\n' inside
        simp [Token.isInLine] at inLine
      · exact ih later
  | case3 s d rest starts ih => exact ih member

namespace Style

open Stroke

theorem isSpace_indent {style : Style} (unmarked : ∀ c ∈ style.indent, c = ' ' ∨ c = '\t') :
    ∀ c ∈ style.indent, Lexeme.isSpace c = true := by
  intro c member
  rcases unmarked c member with rfl | rfl <;> rfl

theorem newline_not_mem_indent {style : Style}
    (unmarked : ∀ c ∈ style.indent, c = ' ' ∨ c = '\t') : '\n' ∉ style.indent := by
  intro member
  rcases unmarked _ member with newline | newline
  · exact absurd newline (by decide)
  · exact absurd newline (by decide)

/-- The strokes of a source. -/
def strokes (style : Style) (comments : List Comment) (tokens : List Token) : List Stroke :=
  (Pen.start (comments.filter Comment.standalone)).strokes style
    (Token.named [] (Token.balance tokens))

theorem isSpelled_of_balance {source : String} {tokens : List Token}
    (found : Token.ofSource source = .ok tokens) (entry : Token × String)
    (member : entry ∈ Token.named [] (Token.balance tokens)) (inner : entry.1.kind ≠ .eof) :
    entry.1.word.IsSpelled := by
  have isToken : entry.1 ∈ Token.balance tokens := Token.mem_of_mem_named member
  rw [Token.balance] at isToken
  rcases List.mem_append.mp isToken with left | isEnd
  · rcases Balance.mem_results_cases left with kept | ⟨p, closer⟩
    · exact Token.isSpelled_of_ofChars found ((List.takeWhile_sublist _).mem kept) inner
    · rw [closer]
      exact (rfl : ")".toList = [')'])
  · rw [List.mem_singleton.mp isEnd] at inner
    exact absurd rfl inner

theorem isSpelled_of_results {source : String} {tokens : List Token}
    (found : Token.ofSource source = .ok tokens) :
    ∀ entry ∈ Token.named [] (Balance.results (Balance.ofTokens tokens)),
      entry.1.word.IsSpelled := by
  intro entry member
  refine isSpelled_of_balance found entry ?_ ?_
  · rw [Balance.named_balance]
    exact List.mem_append_left _ member
  · exact Balance.kind_ne_eof_of_mem_results (Token.mem_of_mem_named member)

theorem format_eq (style : Style) {source : String} {tokens : List Token}
    (found : Token.ofSource source = .ok tokens) :
    style.format source = .ok (String.ofList
      (text style (style.strokes (Comment.ofSource source) tokens) ++ ['\n'])) := by
  have written := Pen.text_tokens style
    (Pen.start ((Comment.ofSource source).filter Comment.standalone))
    (isSpelled_of_balance found)
  rw [Pen.text_start, List.nil_append] at written
  rw [format, found, Except.map, formatTokens, written]
  rfl

theorem legible_strokes (style : Style) {source : String} {tokens : List Token}
    (found : Token.ofSource source = .ok tokens) :
    Legible none (style.strokes (Comment.ofSource source) tokens) := by
  refine Pen.legible_strokes (Pen.behind_start _)
    (isSpelled_of_balance found) fun c waits => ?_
  exact isRemark_of_mem_ofChars (List.mem_filter.mp waits).1

theorem words_strokes (style : Style) (comments : List Comment) (tokens : List Token) :
    words (style.strokes comments tokens) =
      (Token.named [] (Balance.results (Balance.ofTokens tokens))).map fun entry =>
        (entry.1.word, entry.2) := by
  have inner : ∀ entry ∈ Token.named [] (Balance.results (Balance.ofTokens tokens)),
      (!entry.1.isEnd) = true := by
    intro entry member
    have isToken := Token.mem_of_mem_named member
    simpa [Token.isEnd] using Balance.kind_ne_eof_of_mem_results isToken
  rw [strokes, Pen.words_strokes, Balance.named_balance, List.takeWhile_append_of_pos inner]
  simp [Token.isEnd, Token.eof]

theorem located_strokes (style : Style) (comments : List Comment) (tokens : List Token)
    (p : Position) :
    ((located style p (style.strokes comments tokens)).map Prod.fst).map Token.word =
        (Balance.results (Balance.ofTokens tokens)).map Token.word ∧
      (located style p (style.strokes comments tokens)).map Prod.snd =
        (Token.named [] (Balance.results (Balance.ofTokens tokens))).map Prod.snd := by
  have words := words_located style p (style.strokes comments tokens)
  rw [words_strokes] at words
  have values := congrArg (List.map Prod.fst) words
  have names := congrArg (List.map Prod.snd) words
  have left := Token.map_fst_named [] (Balance.results (Balance.ofTokens tokens))
  constructor
  · refine Eq.trans ?_ (congrArg (List.map Token.word) left)
    simpa only [List.map_map, Function.comp_def] using values
  · simpa only [List.map_map, Function.comp_def] using names

theorem words_located_eof (style : Style) (comments : List Comment) (tokens : List Token)
    (start stop : Position) :
    ((located style start (style.strokes comments tokens)).map Prod.fst ++
        [Token.eof stop]).map Token.word = (Token.balance tokens).map Token.word := by
  rw [Token.balance, List.map_append, List.map_append,
    (located_strokes style comments tokens start).1]
  rfl

/-- The text of the strokes of a source is read as the words of the strokes. -/
theorem ofSource_strokes {style : Style} (space : ∀ c ∈ style.indent, Lexeme.isSpace c = true)
    {source : String} {tokens : List Token} (found : Token.ofSource source = .ok tokens) :
    ∃ p, Token.ofSource (String.ofList
        (text style (style.strokes (Comment.ofSource source) tokens) ++ ['\n'])) =
      .ok ((located style Position.first
        (style.strokes (Comment.ofSource source) tokens)).map Prod.fst ++ [Token.eof p]) := by
  rw [Token.ofSource, String.toList_ofList]
  exact ⟨_, ofChars_text space (style.legible_strokes found) Position.first⟩

/-- Formatted text is read as the balanced tokens of its source: no word is lost, joined, split,
altered or swallowed by a comment. -/
theorem format_keeps_words (style : Style) (space : ∀ c ∈ style.indent, Lexeme.isSpace c = true)
    {source : String} {tokens : List Token} (found : Token.ofSource source = .ok tokens) :
    ∃ text again, style.format source = .ok text ∧ Token.ofSource text = .ok again ∧
      again.map Token.word = (Token.balance tokens).map Token.word := by
  obtain ⟨p, read⟩ := ofSource_strokes space found
  exact ⟨_, _, style.format_eq found, read,
    words_located_eof style (Comment.ofSource source) tokens Position.first p⟩

theorem format_keeps_words_unclosed :
    ∃ text again, (Style.mk [' ', ' '] 80).format "(wire \"a;\n\"" = .ok text ∧
      Token.ofSource text = .ok again ∧
      again.map Token.word =
        [⟨.openParen, "("⟩, ⟨.symbol, "wire"⟩, ⟨.string, "a;\n"⟩, ⟨.closeParen, ")"⟩,
          ⟨.eof, ""⟩] := by
  have tokens : Token.ofSource "(wire \"a;\n\"" =
      .ok [⟨.openParen, "(", ⟨1, 1⟩, ⟨1, 2⟩⟩, ⟨.symbol, "wire", ⟨1, 2⟩, ⟨1, 6⟩⟩,
        ⟨.string, "a;\n", ⟨1, 7⟩, ⟨2, 2⟩⟩, Token.eof ⟨2, 2⟩] := by
    cbv
  exact format_keeps_words ⟨[' ', ' '], 80⟩ (by simp [Lexeme.isSpace]) tokens

end Style
end Wireframe
