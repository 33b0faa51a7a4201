import Wireframe.Proofs.Passing

/-!
# Comments and tokens apart

Tokens go down the lines of a source, and so do its comments, each on a line of its own.  A
standalone comment shares no line with a token, since only blanks stand before it in its line and
the comment takes the rest.  So the tokens before a standalone comment are those that start above
its line.
-/

namespace Wireframe

namespace Position

/-- Whether a position stands before another one. -/
def Precedes (p q : Position) : Prop :=
  p.line < q.line ∨ (p.line = q.line ∧ p.column < q.column)

instance (p q : Position) : Decidable (p.Precedes q) :=
  inferInstanceAs (Decidable (_ ∨ _))

theorem Precedes.trans {p q r : Position} (first : p.Precedes q) (second : q.Precedes r) :
    p.Precedes r := by
  unfold Precedes at *
  omega

theorem Precedes.asymm {p q : Position} (first : p.Precedes q) : ¬q.Precedes p := by
  unfold Precedes at *
  omega

theorem precedes_after (p : Position) (c : Char) : p.Precedes (p.after c) := by
  unfold Precedes after
  split
  · exact Or.inl (Int.lt_succ p.line)
  · exact Or.inr ⟨rfl, Int.lt_succ p.column⟩

theorem precedes_afterAll (p : Position) (c : Char) (cs : List Char) :
    p.Precedes (p.afterAll (c :: cs)) := by
  induction cs generalizing p c with
  | nil => exact precedes_after p c
  | cons d cs ih => exact (precedes_after p c).trans (ih (p.after c) d)

theorem line_le_afterAll (p : Position) (cs : List Char) : p.line ≤ (p.afterAll cs).line := by
  rw [line_afterAll]
  omega

end Position

namespace Comment

variable {s : Scan} {cs : List Char} {c : Comment}

/-- Where a comment starts. -/
def place (c : Comment) : Position :=
  ⟨c.line, c.column⟩

/-- The number of tokens before a comment, leaving out closing parentheses. -/
def wordsBefore (c : Comment) (tokens : List Token) : Nat :=
  tokens.countP fun t => t.kind ≠ .closeParen ∧ t.start.Precedes c.place

theorem Scan.position_step (s : Scan) (c : Char) : (s.step c).position = s.position.after c := by
  unfold Scan.step
  split
  · rfl
  · split
    · split
      · rfl
      · split <;> rfl
    · rfl

theorem line_le_of_mem_ofChars (found : c ∈ ofChars s cs) : s.position.line ≤ c.line := by
  fun_induction ofChars s cs with
  | case1 => simp at found
  | case2 s d rest starts line ih =>
      rcases List.mem_cons.mp found with rfl | later
      · exact Int.le_refl _
      · exact Int.le_trans (s.position.line_le_afterAll (d :: line)) (ih later)
  | case3 s d rest quiet ih =>
      have below := ih found
      rw [Scan.position_step] at below
      exact Int.le_trans (s.position.line_le_afterAll [d]) below

theorem line_lt_of_mem_ofChars (ends : ∀ d ∈ cs.head?, d = '\n') (found : c ∈ ofChars s cs) :
    s.position.line < c.line := by
  cases cs with
  | nil => simp [ofChars] at found
  | cons d rest =>
      obtain rfl := ends d rfl
      rw [ofChars_cons (by simp [Scan.startsComment])] at found
      have below := line_le_of_mem_ofChars found
      rw [Scan.position_step] at below
      exact below

theorem ends_of_dropWhile (cs : List Char) :
    ∀ d ∈ (cs.dropWhile Token.isInLine).head?, d = '\n' := by
  intro d head
  have outside := Word.not_of_head?_dropWhile d head
  simpa [Token.isInLine] using outside

/-- Every comment stands below the comments before it. -/
theorem pairwise_line_ofChars (s : Scan) (cs : List Char) :
    (ofChars s cs).Pairwise fun c d => c.line < d.line := by
  fun_induction ofChars s cs with
  | case1 => exact List.Pairwise.nil
  | case2 s d rest starts line ih =>
      refine List.pairwise_cons.mpr ⟨fun c later => ?_, ih⟩
      have below := line_lt_of_mem_ofChars (ends_of_dropWhile rest) later
      exact Int.lt_of_le_of_lt (s.position.line_le_afterAll (d :: line)) below
  | case3 s d rest quiet ih => exact ih

/-- Where a line has begun with more than blanks, standalone comments stand below it. -/
theorem line_lt_of_standalone (begun : s.blank = false) (found : c ∈ ofChars s cs)
    (alone : c.standalone = true) : s.position.line < c.line := by
  fun_induction ofChars s cs with
  | case1 => simp at found
  | case2 s d rest starts line ih =>
      rcases List.mem_cons.mp found with rfl | later
      · exact absurd (begun.symm.trans alone) (by simp)
      · exact Int.lt_of_le_of_lt (s.position.line_le_afterAll (d :: line)) (ih begun later)
  | case3 s d rest quiet ih =>
      by_cases newline : d = '\n'
      · have below := line_le_of_mem_ofChars found
        rw [Scan.position_step, newline] at below
        exact below
      · have still : (s.step d).blank = false := by
          simp only [Scan.step, newline, begun, Bool.false_and, if_false]
          repeat' split
          all_goals rfl
        have below := ih still found
        rw [Scan.position_step] at below
        exact Int.lt_of_le_of_lt (s.position.line_le_afterAll [d]) below

theorem precedes_of_mem_ofChars (found : c ∈ ofChars s cs) :
    c.place.Precedes (s.position.afterAll cs) := by
  fun_induction ofChars s cs with
  | case1 => simp at found
  | case2 s d rest starts line ih =>
      rcases List.mem_cons.mp found with rfl | later
      · exact s.position.precedes_afterAll d rest
      · have before := ih later
        rwa [← Position.afterAll_append, List.cons_append,
          List.takeWhile_append_dropWhile] at before
  | case3 s d rest quiet ih =>
      have before := ih found
      rwa [Scan.position_step] at before

end Comment

namespace Token

variable {line : Int} {t : Token} {tokens : List Token}

/-- Whether tokens go down the lines of a source, from a line on. -/
def Descend : Int → List Token → Prop
  | _, [] => True
  | line, t :: rest =>
    line ≤ t.start.line ∧ t.start.line ≤ t.stop.line ∧ Descend t.stop.line rest

theorem Descend.mono {line' : Int} (descend : Descend line tokens) (above : line' ≤ line) :
    Descend line' tokens := by
  cases tokens with
  | nil => trivial
  | cons t rest =>
      obtain ⟨start, stop, later⟩ := descend
      exact ⟨Int.le_trans above start, stop, later⟩

theorem Descend.of_append {left right : List Token} (descend : Descend line (left ++ right)) :
    Descend line left := by
  induction left generalizing line with
  | nil => trivial
  | cons t left ih =>
      obtain ⟨start, stop, later⟩ := descend
      exact ⟨start, stop, ih later⟩

/-- Tokens that go down from a line start no higher, and end no higher than they start. -/
theorem Descend.line_le (descend : Descend line tokens) (member : t ∈ tokens) :
    line ≤ t.start.line ∧ t.start.line ≤ t.stop.line := by
  induction tokens generalizing line with
  | nil => simp at member
  | cons u rest ih =>
      obtain ⟨start, stop, later⟩ := descend
      rcases List.mem_cons.mp member with rfl | further
      · exact ⟨start, stop⟩
      · obtain ⟨start', stop'⟩ := ih later further
        exact ⟨by omega, stop'⟩

theorem descend_ofChars {cs : List Char} {p : Position} (found : ofChars cs p = .ok tokens) :
    Descend p.line tokens := by
  fun_induction ofChars cs p generalizing tokens with
  | case1 p =>
      obtain rfl := Except.ok.inj found
      exact ⟨Int.le_refl _, Int.le_refl _, trivial⟩
  | case2 c rest p space ih => exact (ih found).mono (p.line_le_afterAll [c])
  | case3 rest p space ih => exact (ih found).mono (p.line_le_afterAll _)
  | case4 => simp at found
  | case5 c rest p space _ lexeme read stop =>
      rename_i ih
      cases later : ofChars (rest.drop lexeme.extra) stop with
      | error fault => simp [later, Except.map] at found
      | ok behind =>
          simp only [later, Except.map, Except.ok.injEq] at found
          subst found
          exact ⟨Int.le_refl _, p.line_le_afterAll _, ih later⟩

theorem line_lt_of_mem_ofChars {cs : List Char} {p : Position} (ends : ∀ d ∈ cs.head?, d = '\n')
    (found : ofChars cs p = .ok tokens) (member : t ∈ tokens) (inner : t.kind ≠ .eof) :
    p.line < t.start.line := by
  cases cs with
  | nil =>
      rw [ofChars] at found
      obtain rfl := Except.ok.inj found
      rw [List.mem_singleton.mp member] at inner
      exact absurd rfl inner
  | cons d rest =>
      obtain rfl := ends d rfl
      rw [ofChars, if_pos (by decide)] at found
      exact ((descend_ofChars found).line_le member).1

end Token

namespace Comment

/-- Whether a comment stands below a token or above it, in another line. -/
def Apart (c : Comment) (t : Token) : Prop :=
  t.stop.line < c.line ∨ c.line < t.start.line

/-- A standalone comment shares no line with a word. -/
theorem apart_ofChars {cs : List Char} {p : Position} {tokens : List Token}
    (found : Token.ofChars cs p = .ok tokens) {blank : Bool} {c : Comment}
    (isComment : c ∈ ofChars ⟨false, false, blank, p⟩ cs) (alone : c.standalone = true) :
    ∀ t ∈ tokens, t.kind ≠ .eof → c.Apart t := by
  fun_induction Token.ofChars cs p generalizing tokens blank with
  | case1 => simp [ofChars] at isComment
  | case2 d rest p space ih =>
      have plain : d ≠ ';' ∧ d ≠ '"' := by
        constructor
        · rintro rfl
          exact absurd space (by decide)
        · rintro rfl
          exact absurd space (by decide)
      rw [ofChars_cons_plain plain.1 plain.2] at isComment
      exact ih found isComment
  | case3 rest p notSpace ih =>
      rw [ofChars, if_pos (by simp [Scan.startsComment])] at isComment
      rcases List.mem_cons.mp isComment with rfl | later
      · -- The comment takes the rest of its line, so that all words behind it stand below.
        intro t member inner
        have below := Token.line_lt_of_mem_ofChars (ends_of_dropWhile rest) found member inner
        exact Or.inr (Int.lt_of_le_of_lt (p.line_le_afterAll _) below)
      · exact ih found later
  | case4 => simp at found
  | case5 d rest p notSpace _ lexeme read stop =>
      rename_i ih
      rw [ofChars_read read] at isComment
      cases later : Token.ofChars (rest.drop lexeme.extra) stop with
      | error fault => simp [later, Except.map] at found
      | ok behind =>
          simp only [later, Except.map, Except.ok.injEq] at found
          subst found
          intro t member inner
          rcases List.mem_cons.mp member with rfl | further
          · -- The line in which a word ends is not blank, even if the word has begun above it.
            exact Or.inl (line_lt_of_standalone rfl isComment alone)
          · exact ih later isComment t further inner

/-- The number of words that start above the line of a comment. -/
def wordsAbove (c : Comment) (tokens : List Token) : Nat :=
  tokens.countP fun t => t.kind ≠ .closeParen ∧ t.start.line < c.line

/-- The words before a comment that shares no line with a token are those that start above it. -/
theorem wordsBefore_eq_wordsAbove {c : Comment} {tokens : List Token}
    (apart : ∀ t ∈ tokens, c.Apart t) (ordered : ∀ t ∈ tokens, t.start.line ≤ t.stop.line) :
    c.wordsBefore tokens = c.wordsAbove tokens := by
  refine List.countP_congr fun t member => ?_
  have stop := ordered t member
  have same : t.start.Precedes c.place ↔ t.start.line < c.line := by
    unfold Position.Precedes place
    rcases apart t member with below | above
    · simp only
      omega
    · simp only
      omega
  simp only [same]

end Comment

section Source

variable {source : String} {tokens : List Token}

theorem Token.eq_beforeEnd_append (found : Token.ofSource source = .ok tokens) :
    tokens = Token.beforeEnd tokens ++ [Token.eof (Position.first.afterAll source.toList)] := by
  obtain ⟨front, same, inner⟩ := Token.ofChars_eq_append_eof found
  have inside : Token.beforeEnd tokens = front := by rw [same, Balance.beforeEnd_concat_eof inner]
  rw [inside]
  exact same

theorem Token.descend_beforeEnd (found : Token.ofSource source = .ok tokens) :
    Token.Descend Position.first.line (Token.beforeEnd tokens) := by
  have descend := Token.descend_ofChars found
  rw [Token.eq_beforeEnd_append found] at descend
  exact descend.of_append

namespace Comment

variable {c : Comment}

theorem apart_beforeEnd (found : Token.ofSource source = .ok tokens)
    (isComment : c ∈ ofSource source) (alone : c.standalone = true) :
    ∀ t ∈ Token.beforeEnd tokens, c.Apart t := by
  intro t member
  have inner : t.kind ≠ .eof := by
    simpa [Token.isEnd] using List.all_eq_true.mp List.all_takeWhile t member
  exact apart_ofChars found isComment alone t ((List.takeWhile_sublist _).mem member) inner

theorem wordsBefore_ofSource (found : Token.ofSource source = .ok tokens)
    (isComment : c ∈ ofSource source) (alone : c.standalone = true) :
    c.wordsBefore tokens = c.wordsAbove (Token.beforeEnd tokens) := by
  have ending : ¬(Position.first.afterAll source.toList).Precedes c.place :=
    (precedes_of_mem_ofChars isComment).asymm
  have split : c.wordsBefore tokens = c.wordsBefore (Token.beforeEnd tokens) := by
    conv => lhs; rw [Token.eq_beforeEnd_append found]
    rw [wordsBefore, wordsBefore, List.countP_append]
    simp [Token.eof, ending]
  rw [split]
  exact wordsBefore_eq_wordsAbove (apart_beforeEnd found isComment alone) fun t member =>
    ((Token.descend_beforeEnd found).line_le member).2

end Comment

end Source
end Wireframe
