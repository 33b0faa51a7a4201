import Wireframe.Proofs.Idempotent
import Wireframe.Proofs.Standing

/-!
# The course of the pen

Where a pen stands follows from the strokes that it has drawn: the mark that it is behind, the
column that the text has come to and the forms that are open behind the words.  Each stroke of a
source is met by a pen that has drawn the strokes before it and that chooses its lead.
-/

namespace Wireframe

open Balance

/-- The frame of a form of a name. -/
def Frame.ofName (name : String) : Frame :=
  ⟨name, name ≠ "" && Schema.isBlockForm name⟩

theorem Position.column_afterAll {cs : List Char} (inLine : '\n' ∉ cs) (p : Position) :
    (p.afterAll cs).column = p.column + cs.length := by
  induction cs generalizing p with
  | nil => simp
  | cons c cs ih =>
      have notNewline : c ≠ '\n' := fun same => inLine (same ▸ List.mem_cons_self)
      rw [Position.afterAll_cons, ih fun later => inLine (List.mem_cons_of_mem c later)]
      simp only [Position.after, if_neg notNewline, List.length_cons]
      omega

/-- Behind its breaks, the lead of a line begins at the margin. -/
theorem Position.column_breaks {n : Nat} (positive : 0 < n) (p : Position) :
    (p.afterAll (List.replicate n '\n')).column = 1 := by
  obtain ⟨n, rfl⟩ := Nat.exists_eq_succ_of_ne_zero (Nat.ne_of_gt positive)
  rw [Nat.succ_eq_add_one, List.replicate_succ', afterAll_append]
  rfl

/-- Whether a token is the first of its line behind the tokens before it. -/
def Token.Leads (before : List Token) (t : Token) : Prop :=
  ∀ u ∈ before, u.stop.line ≠ t.start.line

namespace Stroke

variable {style : Style}

theorem located_append (style : Style) (p : Position) (front back : List Stroke) :
    located style p (front ++ back) =
      located style p front ++ located style (p.afterAll (text style front)) back := by
  induction front generalizing p with
  | nil => rfl
  | cons s front ih =>
      obtain ⟨lead, mark⟩ := s
      rw [text_cons, Position.afterAll_append, Position.afterAll_append]
      cases mark with
      | word w name => exact congrArg (_ :: ·) (ih _)
      | comment text => exact ih _

/-- The place where a stroke behind others begins its mark. -/
def markStart (style : Style) (front : List Stroke) (lead : Lead) : Position :=
  (Position.first.afterAll (text style front)).afterAll (lead.chars style)

/-- The token of a word that is drawn behind other strokes. -/
def tokenAt (style : Style) (front : List Stroke) (lead : Lead) (w : Word) : Token :=
  w.place (markStart style front lead) ((markStart style front lead).afterAll w.chars)

theorem located_concat_word (style : Style) (front : List Stroke) (lead : Lead) (w : Word)
    (name : String) :
    located style Position.first (front ++ [⟨lead, .word w name⟩]) =
      located style Position.first front ++ [(tokenAt style front lead w, name)] :=
  located_append style Position.first front _

theorem located_concat_comment (style : Style) (front : List Stroke) (lead : Lead)
    (remark : String) :
    located style Position.first (front ++ [⟨lead, .comment remark⟩]) =
      located style Position.first front :=
  (located_append style Position.first front _).trans (List.append_nil _)

theorem exists_stroke {strokes : List Stroke} {before after : List (Token × String)}
    {entry : Token × String}
    (split : located style Position.first strokes = before ++ entry :: after) :
    ∃ front lead w rest, strokes = front ++ ⟨lead, .word w entry.2⟩ :: rest ∧
      located style Position.first front = before ∧ entry.1 = tokenAt style front lead w := by
  induction strokes using List.reverseRecOn generalizing after with
  | nil => simp [located] at split
  | append_singleton strokes s ih =>
      obtain ⟨lead, mark⟩ := s
      cases mark with
      | comment remark =>
          rw [located_concat_comment] at split
          obtain ⟨front, lead', w, rest, rfl, rest'⟩ := ih split
          exact ⟨front, lead', w, rest ++ [⟨lead, .comment remark⟩], by simp, rest'⟩
      | word w name =>
          rw [located_concat_word] at split
          cases after using List.reverseRecOn with
          | nil =>
              obtain ⟨same, last⟩ := List.append_inj' split rfl
              obtain rfl := List.singleton_inj.mp last
              exact ⟨strokes, lead, w, [], rfl, same, rfl⟩
          | append_singleton after last =>
              rw [← List.cons_append, ← List.append_assoc] at split
              obtain ⟨earlier, -⟩ := List.append_inj' split rfl
              obtain ⟨front, lead', u, rest, rfl, rest'⟩ := ih earlier
              exact ⟨front, lead', u, rest ++ [⟨lead, .word w name⟩], by simp, rest'⟩

theorem stop_le {before : Option Mark} {strokes : List Stroke} (legible : Legible before strokes)
    (p : Position) :
    ∀ entry ∈ located style p strokes, entry.1.stop.line = entry.1.start.line ∧
      entry.1.stop.line ≤ (p.afterAll (text style strokes)).line := by
  induction strokes generalizing before p with
  | nil => simp [located]
  | cons s rest ih =>
      obtain ⟨lead, mark⟩ := s
      obtain ⟨-, sound, later⟩ := legible
      rw [text_cons, Position.afterAll_append, Position.afterAll_append]
      cases mark with
      | comment remark => exact ih later _
      | word w name =>
          intro entry member
          rcases List.mem_cons.mp member with rfl | further
          · refine ⟨line_mark sound _, ?_⟩
            rw [Position.line_afterAll _ (text style rest)]
            exact Int.le_add_of_nonneg_right (Int.natCast_nonneg _)
          · exact ih later _ entry further

theorem legible_append {before : Option Mark} {front back : List Stroke}
    (legible : Legible before (front ++ back)) :
    Legible before front ∧ Legible ((front.getLast?.map mark).or before) back := by
  induction front generalizing before with
  | nil => exact ⟨trivial, legible⟩
  | cons s front ih =>
      obtain ⟨follows, sound, later⟩ := legible
      obtain ⟨left, right⟩ := ih later
      refine ⟨⟨follows, sound, left⟩, ?_⟩
      rw [List.getLast?_cons]
      cases last : front.getLast? with
      | none => simpa [last] using right
      | some t => simpa [last] using right

theorem line_markStart (inLine : '\n' ∉ style.indent) (front : List Stroke) (lead : Lead) :
    (markStart style front lead).line =
      (Position.first.afterAll (text style front)).line + lead.breaks :=
  line_lead inLine lead _

/-- A word behind a line break is the first of its line. -/
theorem leads_of_breaks (inLine : '\n' ∉ style.indent) {front : List Stroke}
    (legible : Legible none front) {lead : Lead} (breaks : 0 < lead.breaks) (w : Word) :
    (tokenAt style front lead w).Leads ((located style Position.first front).map Prod.fst) := by
  intro u member same
  obtain ⟨entry, isEntry, rfl⟩ := List.mem_map.mp member
  have above := (stop_le legible Position.first entry isEntry).2
  have start := line_markStart inLine front lead
  change entry.1.stop.line = (markStart style front lead).line at same
  omega

/-- A word that is not the first of its line stands behind others and no line break. -/
theorem stays_of_not_leads (inLine : '\n' ∉ style.indent) {front : List Stroke}
    (legible : Legible none front) {lead : Lead} {w : Word}
    (inside : ¬(tokenAt style front lead w).Leads
      ((located style Position.first front).map Prod.fst)) :
    lead.breaks = 0 ∧ ∃ mark, front.getLast?.map Stroke.mark = some mark := by
  refine ⟨Nat.eq_zero_of_not_pos fun breaks => inside (leads_of_breaks inLine legible breaks w), ?_⟩
  cases last : front.getLast? with
  | none =>
      rw [List.getLast?_eq_none_iff.mp last] at inside
      exact absurd (fun u member => absurd member List.not_mem_nil) inside
  | some s => exact ⟨s.mark, rfl⟩

/-- Strokes that end with a word have its token last. -/
theorem exists_last {front : List Stroke} {u : Word} {outer : String}
    (last : front.getLast?.map mark = some (.word u outer)) :
    ∃ front' lead, front = front' ++ [⟨lead, .word u outer⟩] := by
  obtain ⟨s, isLast, same⟩ := Option.map_eq_some_iff.mp last
  obtain ⟨lead, mark⟩ := s
  obtain rfl : mark = .word u outer := same
  exact ⟨front.dropLast, lead, (List.dropLast_append_getLast? _ isLast).symm⟩

theorem Follows.behind_word {s : Stroke} {mark : Mark} (follows : s.Follows (some mark))
    (stays : s.lead.breaks = 0) :
    ∃ u outer w inner, mark = .word u outer ∧ s.mark = .word w inner ∧
      (s.lead = .space ∨ s.lead = .none) := by
  cases follows with
  | line _ _ _ positive => exact absurd stays (Nat.ne_of_gt positive)
  | space u w outer inner => exact ⟨u, outer, w, inner, rfl, rfl, Or.inl rfl⟩
  | @tight u w outer inner => exact ⟨u, outer, w, inner, rfl, rfl, Or.inr rfl⟩

end Stroke

namespace Pen

open Stroke

variable {style : Style}

theorem newline_not_mem_margin (inLine : '\n' ∉ style.indent) (level : Nat) :
    '\n' ∉ margin style level := by
  intro member
  obtain ⟨part, isPart, inside⟩ := List.mem_flatten.mp member
  obtain rfl := List.eq_of_mem_replicate isPart
  exact inLine inside

/-- Whether a pen stands where one that has drawn strokes on an empty page does. -/
structure Reached (style : Style) (front : List Stroke) (p : Pen) : Prop where
  behind : p.Behind (front.getLast?.map Stroke.mark)
  column : (p.column : Int) + 1 = (Position.first.afterAll (Stroke.text style front)).column
  frames : p.frames = (openForms [] (located style Position.first front)).map Frame.ofName

theorem reached_start (waiting : List Comment) : Reached style [] (start waiting) :=
  ⟨behind_start waiting, rfl, rfl⟩

theorem Reached.column_go {front : List Stroke} {p : Pen} (inLine : '\n' ∉ style.indent)
    (reached : Reached style front p) {s : Stroke}
    (follows : s.Follows (front.getLast?.map Stroke.mark)) :
    ((p.go style s.lead).column : Int) + 1 = (markStart style front s.lead).column := by
  obtain ⟨lead, mark⟩ := s
  have column := reached.column
  cases lead with
  | none => exact column
  | space =>
      rw [markStart, Lead.chars, Position.column_afterAll (by decide), ← column]
      rfl
  | line breaks level =>
      have margin := newline_not_mem_margin inLine level
      rw [markStart, Lead.chars, Position.afterAll_append, Position.column_afterAll margin]
      have left : ((Position.first.afterAll (Stroke.text style front)).afterAll
          (List.replicate breaks '\n')).column = 1 := by
        by_cases positive : 0 < breaks
        · exact Position.column_breaks positive _
        · -- Only the first comment begins its line without a break.
          obtain rfl := Nat.eq_zero_of_not_pos positive
          have first : front = [] := by
            cases last : front.getLast? with
            | none => exact List.getLast?_eq_none_iff.mp last
            | some t =>
                obtain ⟨_, before⟩ := t
                rw [last] at follows
                cases follows with
                | line _ _ _ positive' => exact absurd positive' positive
          rw [first]
          rfl
      rw [left]
      exact Int.add_comm _ _

theorem framesBehind_map (w : Word) (name : String) (p q : Position) (stack : List String) :
    framesBehind w name (stack.map Frame.ofName) =
      (openForms stack [(w.place p q, name)]).map Frame.ofName := by
  have kind : (w.place p q).kind = w.kind := rfl
  rcases paren_cases (w.place p q) with opens | closes | ⟨opens, closes⟩
  · rw [openForms_openParen opens, framesBehind, ← kind, opens]
    rfl
  · rw [openForms_closeParen closes, framesBehind, ← kind, closes]
    exact List.map_tail.symm
  · rw [kind] at opens closes
    simp only [openForms, framesBehind, Word.place]

theorem frames_go (style : Style) (p : Pen) (lead : Lead) :
    (p.go style lead).frames = p.frames := by
  cases lead <;> rfl

theorem Reached.draw {front : List Stroke} {p : Pen} (inLine : '\n' ∉ style.indent)
    (reached : Reached style front p) {s : Stroke}
    (follows : s.Follows (front.getLast?.map Stroke.mark)) (sound : s.mark.IsSound) :
    Reached style (front ++ [s]) (p.draw style s) := by
  refine ⟨?_, ?_, ?_⟩
  · rw [List.getLast?_concat]
    exact behind_draw reached.behind follows
  · have column := reached.column_go inLine follows
    have drawn : (p.draw style s).column = (p.go style s.lead).column + s.mark.chars.length := by
      obtain ⟨lead, mark⟩ := s
      cases mark <;> rfl
    have behind : Position.first.afterAll (Stroke.text style (front ++ [s])) =
        (markStart style front s.lead).afterAll s.mark.chars := by
      simp [text_append, Position.afterAll_append, markStart]
    rw [behind, Position.column_afterAll (newline_not_mem_mark sound), ← column, drawn]
    omega
  · obtain ⟨lead, mark⟩ := s
    cases mark with
    | word w name =>
        rw [located_concat_word, openForms_append, tokenAt, ← framesBehind_map, ← reached.frames,
          ← frames_go style p lead]
        rfl
    | comment remark =>
        rw [located_concat_comment, ← reached.frames, ← frames_go style p lead]
        rfl

end Pen

namespace Stroke

/-- How much further out than the innermost open form the line of a mark begins. -/
def outward : Mark → Nat
  | .word w _ => if w.kind = .closeParen then 1 else 0
  | .comment _ => 0

/-- What a pen may choose as a lead. -/
inductive Choice (p : Pen) (mark : Mark) : Lead → Prop
  | none : Choice p mark .none
  | space : Choice p mark .space
  | line (blank : Bool) : Choice p mark (.line (p.breaks blank) (p.level - outward mark))

private theorem choice_openLead {w : Word} (opens : w.kind = .openParen) (p : Pen) (name : String)
    (gap : Bool) : Choice p (.word w name) (p.openLead name gap) := by
  have stays : outward (.word w name) = 0 := by simp [outward, opens]
  have line (blank : Bool) : Choice p (.word w name) (.line (p.breaks blank) p.level) := by
    have choice : Choice p (.word w name) _ := .line blank
    rwa [stays] at choice
  unfold Pen.openLead
  split
  · rename_i outside
    split
    · have level : p.level = 0 := by rw [Pen.level, outside]; rfl
      exact level ▸ line _
    · exact .none
  · split
    · exact line _
    · split
      · exact line _
      · split
        · exact .space
        · exact .none

private theorem choice_tightLead (p : Pen) (mark : Mark) :
    Choice p mark (p.tightLead (outward mark)) := by
  unfold Pen.tightLead
  split
  · exact .line false
  · exact .none

private theorem choice_atomLead {w : Word} (closes : w.kind ≠ .closeParen) (style : Style) (p : Pen)
    (next : Word) (name : String) : Choice p (.word w name) (p.atomLead style w next) := by
  have line : Choice p (.word w name) _ := .line false
  rw [outward, if_neg closes] at line
  unfold Pen.atomLead
  split
  · exact line
  · split
    · exact .none
    · exact .space

theorem choice_chosenLead (style : Style) (p : Pen) (mark : Mark) (rest : List Stroke)
    (gap : Bool) : Choice p mark (chosenLead style p mark rest gap) := by
  cases mark with
  | comment remark => exact .line gap
  | word w name =>
      have tight := choice_tightLead p (.word w name)
      rw [outward] at tight
      rw [chosenLead, Pen.leadOf]
      split
      · rename_i opens
        exact choice_openLead opens p name gap
      · rename_i closes
        rwa [if_pos closes] at tight
      · rename_i symbol
        have inner : w.kind ≠ .closeParen := by simp [symbol]
        split
        · rwa [if_neg inner] at tight
        · exact choice_atomLead inner style p _ name
      · rename_i inner _
        exact choice_atomLead inner style p _ name

/-- Whether a pen draws strokes on an empty page and chooses their leads. -/
structure Composed (style : Style) (strokes : List Stroke) : Prop where
  legible : Legible none strokes
  stable : Stable style (Pen.start []) strokes

private theorem exists_reached_from {style : Style} (inLine : '\n' ∉ style.indent)
    {front back rest : List Stroke} {p : Pen} (reached : p.Reached style front)
    (legible : Legible (front.getLast?.map mark) (back ++ rest))
    (stable : Stable style p (back ++ rest)) :
    ∃ q, q.Reached style (front ++ back) ∧ Stable style q rest := by
  induction back generalizing front p with
  | nil => exact ⟨p, (List.append_nil front).symm ▸ reached, stable⟩
  | cons s back ih =>
      obtain ⟨follows, sound, later⟩ := legible
      have next := reached.draw inLine follows sound
      rw [List.append_cons]
      refine ih next ?_ stable.2
      rwa [List.getLast?_concat]

/-- The pen that comes to a stroke chooses its lead. -/
theorem Composed.exists_pen {style : Style} {strokes front rest : List Stroke} {s : Stroke}
    (composed : Composed style strokes) (inLine : '\n' ∉ style.indent)
    (split : strokes = front ++ s :: rest) :
    ∃ p, p.Reached style front ∧ s.lead = chosenLead style p s.mark rest (1 < s.lead.breaks) := by
  subst split
  obtain ⟨p, reached, stable⟩ :=
    exists_reached_from inLine (Pen.reached_start []) composed.legible composed.stable
  exact ⟨p, reached, stable.1⟩

theorem Composed.legible_split {style : Style} {strokes front rest : List Stroke} {s : Stroke}
    (composed : Composed style strokes) (split : strokes = front ++ s :: rest) :
    Legible none front ∧ Legible (front.getLast?.map mark) (s :: rest) := by
  have legible := legible_append (split ▸ composed.legible)
  rwa [Option.or_none] at legible

end Stroke

/-- The strokes of a source are composed by the pen. -/
theorem Style.composed_strokes (style : Style) {source : String} {tokens : List Token}
    (found : Token.ofSource source = .ok tokens) :
    Stroke.Composed style (style.strokes (Comment.ofSource source) tokens) :=
  ⟨style.legible_strokes found, style.stable_strokes found []⟩

end Wireframe
