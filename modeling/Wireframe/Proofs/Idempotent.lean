import Wireframe.Proofs.Remarks

/-!
# Formatting again

A source influences the leads of strokes only through its blank lines.  Strokes are stable if every
lead is the one that the pen chooses where the source leaves a blank line exactly if the lead does.
The strokes of any source are stable, and a pen that reads the text of stable strokes draws them
again: it meets every word and every comment on the page on which it was drawn before.
-/

namespace Wireframe

namespace Stroke

/-- The first word of strokes, or else the end of a source. -/
def nextWord (strokes : List Stroke) : Word :=
  ((words strokes).head?.map Prod.fst).getD ⟨.eof, ""⟩

/-- The lead that the pen chooses for a mark before further strokes. -/
def chosenLead (style : Style) (p : Pen) (mark : Mark) (rest : List Stroke) (gap : Bool) : Lead :=
  match mark with
  | .word w name => p.leadOf style w (nextWord rest) name gap
  | .comment _ => .line (p.breaks gap) p.level

/-- Whether the pen chooses the leads of strokes if a source has the blank lines of the strokes. -/
def Stable (style : Style) : Pen → List Stroke → Prop
  | _, [] => True
  | p, s :: rest =>
    s.lead = chosenLead style p s.mark rest (1 < s.lead.breaks) ∧ Stable style (p.draw style s) rest

theorem chosenLead_page (style : Style) {p q : Pen} (same : p.page = q.page) (mark : Mark)
    (rest : List Stroke) (gap : Bool) :
    chosenLead style p mark rest gap = chosenLead style q mark rest gap := by
  cases mark with
  | word w name =>
      rw [chosenLead, chosenLead, ← Pen.leadOf_page, same, Pen.leadOf_page]
  | comment text =>
      have breaks : p.breaks gap = q.breaks gap := by
        rw [← Pen.breaks_page, same, Pen.breaks_page]
      have level : p.page.level = q.page.level := congrArg Pen.level same
      rw [chosenLead, chosenLead, breaks]
      exact congrArg (Lead.line (q.breaks gap)) level

theorem draw_page (style : Style) {p q : Pen} (same : p.page = q.page) (s : Stroke) :
    (p.draw style s).page = (q.draw style s).page := by
  rw [Pen.page_draw, same, ← Pen.page_draw]

private theorem breaks_breaks (p : Pen) (blank : Bool) :
    p.breaks (1 < p.breaks blank) = p.breaks blank := by
  unfold Pen.breaks
  cases p.isUsed with
  | false => rfl
  | true => cases blank <;> rfl

private theorem breaks_or (p : Pen) (used : p.isUsed = true) (left right : Bool) :
    p.breaks (decide (1 < p.breaks (left || right)) || right) = p.breaks (left || right) := by
  unfold Pen.breaks
  rw [used]
  cases left <;> cases right <;> rfl

private theorem breaks_and (p : Pen) (left right : Bool) :
    p.breaks (decide (1 < p.breaks (left && right)) && right) = p.breaks (left && right) := by
  unfold Pen.breaks
  cases p.isUsed <;> cases left <;> cases right <;> rfl

private theorem openLead_openLead (p : Pen) (name : String) (gap : Bool) :
    p.openLead name (1 < (p.openLead name gap).breaks) = p.openLead name gap := by
  unfold Pen.openLead
  cases p.frames with
  | nil =>
      cases used : p.isUsed with
      | false => rfl
      | true => simp only [if_true, Lead.breaks, breaks_or p used]
  | cons parent outer =>
      by_cases nested : name ≠ "" ∧ parent.isBlock = true
      · simp only [if_pos nested, Lead.breaks, breaks_and]
      · simp only [if_neg nested]

/-- The pen chooses the same lead again if the source has the blank line of the lead. -/
theorem leadOf_leadOf (style : Style) (p : Pen) (w next : Word) (name : String) (gap : Bool) :
    p.leadOf style w next name (1 < (p.leadOf style w next name gap).breaks) =
      p.leadOf style w next name gap := by
  cases kind : w.kind with
  | openParen => simpa only [Pen.leadOf, kind] using openLead_openLead p name gap
  | _ => simp only [Pen.leadOf, kind]

private theorem stable_remarks {style : Style} {p r : Pen} {line : Option Int} {cs : List Comment}
    {rest : List Stroke} (same : r.page = p.page)
    (later : ∀ s, s.page = (Pen.comments style line cs p).page → Stable style s rest) :
    Stable style r (p.remarks style line cs ++ rest) := by
  induction cs generalizing p r with
  | nil => exact later r same
  | cons c cs ih =>
      rw [Pen.comments] at later
      rw [Pen.remarks]
      split
      · rename_i reached
        rw [if_pos reached] at later
        exact later r same
      · rename_i further
        rw [if_neg further] at later
        split
        · rename_i passed
          rw [if_pos passed] at later
          exact ih same later
        · rename_i ahead
          rw [if_neg ahead] at later
          refine ⟨?_, ih ?_ later⟩
          · rw [chosenLead_page style same]
            exact congrArg (Lead.line · p.level) (breaks_breaks p _).symm
          · rw [Pen.comment_eq_draw]
            exact draw_page style same (p.remark c)

private theorem nextWord_strokes (style : Style) (p : Pen) {front : List (Token × String)}
    (inner : ∀ entry ∈ front, entry.1.kind ≠ .eof) (e : Position) (t : Token) :
    nextWord (p.strokes style (front ++ [(Token.eof e, "")])) =
      (((front ++ [(Token.eof e, "")]).head?.map Prod.fst).getD t).word := by
  rw [nextWord, Pen.words_strokes]
  cases front with
  | nil => rfl
  | cons entry front =>
      have notEnd : entry.1.isEnd = false := by
        simpa [Token.isEnd] using inner entry List.mem_cons_self
      simp [notEnd]

theorem stable_strokes {style : Style} {p r : Pen} (same : r.page = p.page)
    {front : List (Token × String)} (inner : ∀ entry ∈ front, entry.1.kind ≠ .eof)
    (spelled : ∀ entry ∈ front, entry.1.word.IsSpelled) (e : Position) :
    Stable style r (p.strokes style (front ++ [(Token.eof e, "")])) := by
  induction front generalizing p r with
  | nil =>
      have stable : Stable style r (p.remarks style none p.waiting ++ []) :=
        stable_remarks same fun _ _ => trivial
      rw [List.append_nil] at stable
      exact stable
  | cons entry front ih =>
      obtain ⟨t, name⟩ := entry
      have notEnd : t.isEnd = false := by
        simpa [Token.isEnd] using inner (t, name) List.mem_cons_self
      have innerLater entry member := inner entry (List.mem_cons_of_mem (t, name) member)
      have head : t.word.IsSpelled := spelled (t, name) List.mem_cons_self
      rw [List.cons_append, Pen.strokes, if_neg (by simp [notEnd])]
      refine stable_remarks same fun s reached => ⟨?_, ?_⟩
      · rw [chosenLead_page style reached, Pen.stroke, chosenLead,
          nextWord_strokes style _ innerLater e t]
        exact (leadOf_leadOf style _ _ _ name _).symm
      · refine ih ?_ innerLater fun entry member => spelled entry (List.mem_cons_of_mem _ member)
        rw [Pen.token_eq_draw style p name _ head]
        exact draw_page style reached _

/-- Whether a pen on its way through the text of strokes is about to read the rest of them. -/
structure Retraces (style : Style) (q : Pen) (before : Option Mark) (p : Position)
    (rest : List Stroke) : Prop where
  behind : q.Behind before
  waiting : q.waiting = remarks style p rest
  first : before = none → q.line + 1 = p.line
  line : before ≠ none → q.line = p.line
  below : 1 ≤ p.line

theorem retraces_start (style : Style) (strokes : List Stroke) :
    Retraces style (Pen.start (remarks style Position.first strokes)) none Position.first strokes :=
  ⟨Pen.behind_start _, rfl, fun _ => rfl, fun some => absurd rfl some, Int.le_refl _⟩

variable {style : Style} {q : Pen} {before : Option Mark} {p : Position} {rest : List Stroke}

theorem Retraces.gapBefore (retraces : Retraces style q before p rest) {lead : Lead} {w : Word}
    {name : String} (follows : Follows before ⟨lead, .word w name⟩) {t : Token}
    (start : t.start.line = p.line + lead.breaks) : q.gapBefore t = decide (1 < lead.breaks) := by
  have below := retraces.below
  rw [Pen.gapBefore, start]
  cases before with
  | none =>
      have first := retraces.first rfl
      obtain ⟨frames, -⟩ := retraces.behind.first rfl
      cases follows with
      | first => simp [frames, Lead.breaks, first]
  | some mark =>
      have line := retraces.line (by simp)
      rw [line]
      have positive : decide (0 < p.line) = true := decide_eq_true (by omega)
      rw [positive, Bool.or_true, Bool.and_true]
      exact decide_eq_decide.mpr (by omega)

theorem Retraces.breaks (retraces : Retraces style q before p rest) {lead : Lead} {c : Comment}
    (start : c.line = p.line + lead.breaks) :
    q.breaks (q.line + 1 < c.line && q.isUsed) = q.breaks (1 < lead.breaks) := by
  have used := retraces.behind.used
  unfold Pen.breaks
  rw [used, start]
  cases before with
  | none => rfl
  | some mark =>
      have line := retraces.line (by simp)
      have same : decide (q.line + 1 < p.line + lead.breaks) = decide (1 < lead.breaks) :=
        decide_eq_decide.mpr (by omega)
      rw [same, Option.isSome_some, Bool.and_true]

theorem Retraces.line_lt (retraces : Retraces style q before p rest) {lead : Lead} {text : String}
    (follows : Follows before ⟨lead, .comment text⟩) : q.line < p.line + lead.breaks := by
  cases follows with
  | remark =>
      have := retraces.first rfl
      simp only [Lead.breaks]
      omega
  | line _ _ _ positive =>
      have := retraces.line (by simp)
      simp only [Lead.breaks]
      omega

end Stroke

namespace Pen

variable {style : Style} {q : Pen}

private theorem comments_waiting (line : Option Int) (cs : List Comment) (p : Pen)
    (ws : List Comment) :
    comments style line cs { p with waiting := ws } = comments style line cs p := by
  induction cs generalizing p with
  | nil => rfl
  | cons c cs ih =>
      rw [comments, comments]
      split
      · rfl
      · split
        · exact ih p
        · exact ih (p.comment style c)

private theorem remarks_waiting (line : Option Int) (cs : List Comment) (p : Pen)
    (ws : List Comment) :
    remarks style line cs { p with waiting := ws } = remarks style line cs p := by
  induction cs generalizing p with
  | nil => rfl
  | cons c cs ih =>
      rw [remarks, remarks]
      split
      · rfl
      · split
        · exact ih p
        · exact congrArg (p.remark c :: ·) (ih (p.comment style c))

/-- A waiting comment that the source has not passed is drawn before the words below it. -/
theorem strokes_of_comment (style : Style) {c : Comment} {later : List Comment}
    {entries : List (Token × String)}
    (waiting : q.waiting = c :: later) (ahead : q.line < c.line)
    (above : ∀ entry ∈ entries.head?, entry.1.isEnd = false → c.line < entry.1.start.line) :
    q.strokes style entries =
      q.remark c :: strokes style { q.comment style c with waiting := later } entries := by
  have drawn (line : Option Int) (reached : line.any (· ≤ c.line) = false) :
      q.remarks style line (c :: later) =
          q.remark c :: remarks style line later { q.comment style c with waiting := later } ∧
        comments style line (c :: later) q =
          comments style line later { q.comment style c with waiting := later } := by
    have notPassed : ¬c.line ≤ q.line := by omega
    rw [remarks, comments, reached]
    simp only [Bool.false_eq_true, if_false, notPassed]
    exact ⟨congrArg (q.remark c :: ·) (remarks_waiting line later _ later).symm,
      (comments_waiting line later _ later).symm⟩
  cases entries with
  | nil =>
      rw [strokes, strokes, waiting]
      exact (drawn none rfl).1
  | cons entry rest =>
      obtain ⟨t, name⟩ := entry
      rw [strokes, strokes, waiting]
      cases ends : t.isEnd with
      | true => exact (drawn none rfl).1
      | false =>
          have below : c.line < t.start.line := above (t, name) rfl ends
          obtain ⟨drawn, flushed⟩ := drawn (some t.start.line) (by simpa using below)
          have flush : q.flush style (some t.start.line) =
              flush style { q.comment style c with waiting := later } (some t.start.line) := by
            rw [Pen.flush, waiting, flushed, Pen.flush]
          rw [if_neg (by simp), if_neg (by simp), drawn]
          simp only [stroke, token, flush, List.cons_append]

private theorem flush_of_below (style : Style) {line : Int}
    (below : ∀ c ∈ q.waiting, line ≤ c.line) :
    q.flush style (some line) = q ∧ q.remarks style (some line) q.waiting = [] := by
  rw [flush]
  obtain ⟨_, _, _, _, _, _, _, waiting⟩ := q
  cases waiting with
  | nil => exact ⟨rfl, rfl⟩
  | cons c later =>
      have reached : line ≤ c.line := below c List.mem_cons_self
      simp [comments, remarks, reached]

theorem strokes_of_word (style : Style) (t : Token) (name : String) (rest : List (Token × String))
    (spelled : t.word.IsSpelled) (below : ∀ c ∈ q.waiting, t.start.line ≤ c.line) :
    let next := (rest.head?.map Prod.fst).getD t
    let s : Stroke := ⟨q.leadOf style t.word next.word name (q.gapBefore t), .word t.word name⟩
    q.strokes style ((t, name) :: rest) =
      s :: strokes style { q.draw style s with line := max q.line t.stop.line } rest := by
  obtain ⟨flushed, drawn⟩ := flush_of_below style below
  have inner : t.isEnd = false := by simpa [Token.isEnd] using Word.kind_ne_eof spelled
  intro next s
  rw [strokes, if_neg (by simp [inner]), drawn, List.nil_append,
    token_eq_draw style q name _ spelled, stroke, flushed]

end Pen

namespace Stroke

/-- A pen that has drawn the next stroke retraces those behind it. -/
theorem Retraces.step {style : Style} (inLine : '\n' ∉ style.indent) {q q' : Pen}
    {before : Option Mark} {p : Position} {s : Stroke} {rest : List Stroke}
    (retraces : Retraces style q before p (s :: rest)) (follows : s.Follows before)
    (sound : s.mark.IsSound) (drawn : (q.draw style s).page = q'.page)
    (waiting : q'.waiting =
      remarks style ((p.afterAll (s.lead.chars style)).afterAll s.mark.chars) rest)
    (line : q'.line = p.line + s.lead.breaks) :
    Retraces style q' (some s.mark) ((p.afterAll (s.lead.chars style)).afterAll s.mark.chars)
      rest := by
  have below := retraces.below
  have stop : ((p.afterAll (s.lead.chars style)).afterAll s.mark.chars).line =
      p.line + s.lead.breaks := by
    rw [line_mark sound, line_lead inLine]
  refine ⟨(Pen.behind_draw retraces.behind follows).congr drawn, waiting, by simp, fun _ => ?_, ?_⟩
  · rw [line, stop]
  · omega

private theorem nextWord_located (style : Style) (p : Position) (rest : List Stroke) (e : Position)
    (t : Token) :
    (((located style p rest ++ [(Token.eof e, "")]).head?.map Prod.fst).getD t).word =
      nextWord rest := by
  rw [nextWord, ← words_located style p rest]
  cases located style p rest with
  | nil => rfl
  | cons entry later => rfl

section Next

variable {style : Style} {q : Pen} {before : Option Mark} {p : Position} {lead : Lead}
  {rest : List Stroke}

/-- A pen that retraces strokes draws a word again if it chooses the lead of the word. -/
theorem Retraces.draws_word (inLine : '\n' ∉ style.indent) {w : Word} {name : String}
    (retraces : Retraces style q before p (⟨lead, .word w name⟩ :: rest))
    (chosen : lead = chosenLead style q (.word w name) rest (1 < lead.breaks))
    (legible : Legible before (⟨lead, .word w name⟩ :: rest)) (e : Position) :
    let stop := (p.afterAll (lead.chars style)).afterAll w.chars
    ∃ q', (q.draw style ⟨lead, .word w name⟩).page = q'.page ∧
      Retraces style q' (some (.word w name)) stop rest ∧
      q.strokes style (located style p (⟨lead, .word w name⟩ :: rest) ++ [(Token.eof e, "")]) =
        ⟨lead, .word w name⟩ ::
          q'.strokes style (located style stop rest ++ [(Token.eof e, "")]) := by
  intro stop
  obtain ⟨follows, sound, later⟩ := legible
  have start : (p.afterAll (lead.chars style)).line = p.line + lead.breaks :=
    line_lead inLine lead p
  have stopLine : stop.line = (p.afterAll (lead.chars style)).line := line_mark sound _
  have waiting : q.waiting = remarks style stop rest := retraces.waiting
  have below : ∀ c ∈ q.waiting, (p.afterAll (lead.chars style)).line ≤ c.line := by
    intro c member
    rw [waiting] at member
    exact stopLine ▸ (line_le inLine later stop).2 c member
  have passed : q.line ≤ p.line := by
    cases before with
    | none =>
        have := retraces.first rfl
        omega
    | some mark => exact Int.le_of_eq (retraces.line (by simp))
  let t := w.place (p.afterAll (lead.chars style)) stop
  have gap : q.gapBefore t = decide (1 < lead.breaks) := retraces.gapBefore follows start
  have again : q.leadOf style t.word (nextWord rest) name (1 < lead.breaks) = lead := chosen.symm
  have wrote := Pen.strokes_of_word style t name
    (located style stop rest ++ [(Token.eof e, "")]) sound below
  simp only [nextWord_located, gap, again] at wrote
  refine ⟨{ q.draw style ⟨lead, .word w name⟩ with line := max q.line stop.line }, rfl,
    retraces.step inLine follows sound rfl ?_ ?_, wrote⟩
  · exact (Pen.waiting_draw style q _).trans waiting
  · change max q.line stop.line = p.line + lead.breaks
    omega

theorem Retraces.draws_comment (inLine : '\n' ∉ style.indent) {text : String}
    (retraces : Retraces style q before p (⟨lead, .comment text⟩ :: rest))
    (chosen : lead = chosenLead style q (.comment text) rest (1 < lead.breaks))
    (legible : Legible before (⟨lead, .comment text⟩ :: rest)) (e : Position) :
    let stop := (p.afterAll (lead.chars style)).afterAll text.toList
    ∃ q', (q.draw style ⟨lead, .comment text⟩).page = q'.page ∧
      Retraces style q' (some (.comment text)) stop rest ∧
      q.strokes style (located style p (⟨lead, .comment text⟩ :: rest) ++ [(Token.eof e, "")]) =
        ⟨lead, .comment text⟩ ::
          q'.strokes style (located style stop rest ++ [(Token.eof e, "")]) := by
  intro stop
  obtain ⟨follows, sound, later⟩ := legible
  have start : (p.afterAll (lead.chars style)).line = p.line + lead.breaks :=
    line_lead inLine lead p
  have stopLine : stop.line = (p.afterAll (lead.chars style)).line := line_mark sound _
  let c : Comment :=
    ⟨(p.afterAll (lead.chars style)).line, (p.afterAll (lead.chars style)).column, text, true⟩
  have waiting : q.waiting = c :: remarks style stop rest := retraces.waiting
  have again : q.remark c = ⟨lead, .comment text⟩ := by
    rw [Pen.remark, retraces.breaks (c := c) start]
    exact congrArg (Stroke.mk · (.comment text)) chosen.symm
  have ahead : q.line < c.line := by
    change q.line < (p.afterAll (lead.chars style)).line
    rw [start]
    exact retraces.line_lt follows
  have above : ∀ entry ∈ (located style stop rest ++ [(Token.eof e, "")]).head?,
      entry.1.isEnd = false → c.line < entry.1.start.line := by
    intro entry head inner
    rcases List.mem_append.mp (List.mem_of_mem_head? head) with inside | isEnd
    · have lower := line_lt_of_comment inLine later stop entry inside
      rwa [stopLine] at lower
    · rw [List.mem_singleton.mp isEnd] at inner
      simp [Token.isEnd, Token.eof] at inner
  have wrote := Pen.strokes_of_comment style waiting ahead above
  rw [again] at wrote
  refine ⟨_, ?_, retraces.step inLine follows sound ?_ rfl start, wrote⟩
  · rw [Pen.comment_eq_draw, again]
    rfl
  · rw [Pen.comment_eq_draw, again]
    rfl

end Next

/-- A pen that retraces stable strokes draws them again. -/
theorem strokes_of_retraces {style : Style} (inLine : '\n' ∉ style.indent) {q r : Pen}
    {before : Option Mark} {p : Position} {strokes : List Stroke}
    (retraces : Retraces style q before p strokes) (same : q.page = r.page)
    (stable : Stable style r strokes) (legible : Legible before strokes) (e : Position) :
    q.strokes style (located style p strokes ++ [(Token.eof e, "")]) = strokes := by
  induction strokes generalizing q r before p with
  | nil =>
      change q.remarks style none q.waiting = []
      rw [retraces.waiting]
      rfl
  | cons s rest ih =>
      obtain ⟨lead, mark⟩ := s
      obtain ⟨chosen, later⟩ := stable
      rw [chosenLead_page style same.symm] at chosen
      have drawn := draw_page style same ⟨lead, mark⟩
      cases mark with
      | word w name =>
          obtain ⟨q', page, behind, wrote⟩ := retraces.draws_word inLine chosen legible e
          rw [wrote, ih behind (page.symm.trans drawn) later legible.2.2]
      | comment text =>
          obtain ⟨q', page, behind, wrote⟩ := retraces.draws_comment inLine chosen legible e
          rw [wrote, ih behind (page.symm.trans drawn) later legible.2.2]

theorem standalone_remarks (style : Style) (p : Position) (strokes : List Stroke) :
    (remarks style p strokes).filter Comment.standalone = remarks style p strokes := by
  induction strokes generalizing p with
  | nil => rfl
  | cons s rest ih =>
      obtain ⟨lead, mark⟩ := s
      cases mark with
      | word w name => exact ih _
      | comment text => exact congrArg (_ :: ·) (ih _)

end Stroke

namespace Style

open Stroke

theorem stable_strokes (style : Style) {source : String} {tokens : List Token}
    (found : Token.ofSource source = .ok tokens) (waiting : List Comment) :
    Stable style (Pen.start waiting) (style.strokes (Comment.ofSource source) tokens) := by
  have inner : ∀ entry ∈ Token.named [] (Balance.results (Balance.ofTokens tokens)),
      entry.1.kind ≠ .eof := fun entry member =>
    Balance.kind_ne_eof_of_mem_results (Token.mem_of_mem_named member)
  rw [strokes, Balance.named_balance]
  have same : (Pen.start waiting).page =
      (Pen.start ((Comment.ofSource source).filter Comment.standalone)).page := rfl
  exact Stroke.stable_strokes same inner (isSpelled_of_results found) _

theorem named_located (style : Style) (comments : List Comment) (tokens : List Token)
    (p : Position) :
    Token.named [] ((located style p (style.strokes comments tokens)).map Prod.fst) =
      located style p (style.strokes comments tokens) := by
  obtain ⟨words, names⟩ := located_strokes style comments tokens p
  have sameNames := (Balance.map_snd_named_congr rfl words).trans names.symm
  exact (List.zip_of_prod (Token.map_fst_named [] _) sameNames).trans
    (List.zip_of_prod rfl rfl).symm

theorem balance_located (style : Style) (comments : List Comment) (tokens : List Token)
    (p e : Position) :
    Token.balance ((located style p (style.strokes comments tokens)).map Prod.fst ++
        [Token.eof e]) =
      (located style p (style.strokes comments tokens)).map Prod.fst ++ [Token.eof e] := by
  have words := (located_strokes style comments tokens p).1
  refine Balance.balance_eq_self (fun t member => ?_) ?_
  · have isWord := words ▸ List.mem_map_of_mem (f := Token.word) member
    obtain ⟨u, isToken, same⟩ := List.mem_map.mp isWord
    have kind : u.kind = t.kind := congrArg Word.kind same
    exact kind ▸ Balance.kind_ne_eof_of_mem_results isToken
  · exact Balance.settled_named_congr words.symm (Balance.settled_ofTokens tokens)

/-- Formatting formatted text changes nothing. -/
theorem format_format (style : Style) (unmarked : ∀ c ∈ style.indent, c = ' ' ∨ c = '\t')
    {source : String} {tokens : List Token} (found : Token.ofSource source = .ok tokens) :
    ∃ text, style.format source = .ok text ∧ style.format text = .ok text := by
  have inLine := newline_not_mem_indent unmarked
  have legible := style.legible_strokes found
  obtain ⟨e, read⟩ := ofSource_strokes (isSpace_indent unmarked) found
  refine ⟨_, style.format_eq found, ?_⟩
  rw [style.format_eq read, Comment.ofSource, String.toList_ofList, Comment.Scan.start,
    ofChars_remarks unmarked legible Position.first fun _ => rfl, strokes, standalone_remarks,
    balance_located, Balance.named_concat_eof, named_located,
    strokes_of_retraces inLine (retraces_start style _) rfl
      (style.stable_strokes found _) legible e]

theorem format_format_unclosed :
    ∃ text, (Style.mk ['\t'] (-1)).format "(wire\n\n;a\n(b" = .ok text ∧
      (Style.mk ['\t'] (-1)).format text = .ok text := by
  have tokens : Token.ofSource "(wire\n\n;a\n(b" =
      .ok [⟨.openParen, "(", ⟨1, 1⟩, ⟨1, 2⟩⟩, ⟨.symbol, "wire", ⟨1, 2⟩, ⟨1, 6⟩⟩,
        ⟨.openParen, "(", ⟨4, 1⟩, ⟨4, 2⟩⟩, ⟨.symbol, "b", ⟨4, 2⟩, ⟨4, 3⟩⟩, Token.eof ⟨4, 3⟩] := by
    cbv
  exact format_format ⟨['\t'], -1⟩ (by simp) tokens

end Style
end Wireframe
