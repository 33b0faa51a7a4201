import Wireframe.Reading.Document

/-!
# Skipping forms

A form may be skipped without being read: its parentheses are counted from the first one on until
none is open.  Forms are read from a stack of open lists, whose height is that count, so that a form
ends where skipping it ends, whatever it is read as.  The forms in a list are therefore those that
begin one where skipping the one before it ends.
-/

namespace Wireframe
namespace Token

/-- The tokens behind the parenthesis that closes the last open list, given how many lists are open;
none if the tokens end before. -/
def skip : (depth : Nat) → List Token → List Token
  | _, [] => []
  | depth, t :: rest =>
    match t.kind with
    | .openParen => skip (depth + 1) rest
    | .closeParen => if depth = 1 then rest else skip (depth - 1) rest
    | _ => skip depth rest

/-- The tokens behind the first form, which is a list or a single token. -/
def skipForm : List Token → List Token
  | [] => []
  | t :: rest => if t.kind = .openParen then skip 0 (t :: rest) else rest

variable {t : Token}

theorem skip_other (opens : t.kind ≠ .openParen) (closes : t.kind ≠ .closeParen) (depth : Nat)
    (rest : List Token) : skip depth (t :: rest) = skip depth rest := by
  rw [skip.eq_def]
  simp only

theorem length_skip_le (depth : Nat) (tokens : List Token) :
    (skip depth tokens).length ≤ tokens.length := by
  fun_induction skip depth tokens with
  | case1 => exact Nat.le_refl 0
  | case2 depth t rest opens ih => exact Nat.le_succ_of_le ih
  | case3 t rest closes => exact Nat.le_succ rest.length
  | case4 depth t rest closes more ih => exact Nat.le_succ_of_le ih
  | case5 depth t rest opens closes ih => exact Nat.le_succ_of_le ih

theorem skipForm_of_openParen (opens : t.kind = .openParen) (rest : List Token) :
    skipForm (t :: rest) = skip 1 rest := by
  rw [skipForm, if_pos opens, skip, opens]

theorem length_skipForm_le (t : Token) (rest : List Token) :
    (skipForm (t :: rest)).length ≤ rest.length := by
  by_cases opens : t.kind = .openParen
  · rw [skipForm_of_openParen opens]
    exact length_skip_le 1 rest
  · exact Nat.le_of_eq (congrArg List.length (if_neg opens))

end Token

namespace OpenList

variable {t : Token}

/-- Read the first form of tokens: the form and the tokens behind it. -/
def readForm (eof t : Token) (rest : List Token) : Form × List Token :=
  if t.kind = .openParen then read eof ⟨t, []⟩ [] rest else (.atom t, rest)

/-- Reading ends where skipping the open lists ends. -/
theorem behind_read (eof : Token) (l : OpenList) (outer : List OpenList) (tokens : List Token) :
    (read eof l outer tokens).2 = Token.skip (outer.length + 1) tokens := by
  fun_induction read eof l outer tokens with
  | case1 => rfl
  | case2 l outer t rest opens ih => rw [ih, Token.skip, opens, List.length_cons]
  | case3 l t rest closes => simp [Token.skip, closes]
  | case4 l t rest closes parent outer ih => rw [ih, Token.skip, closes]; rfl
  | case5 l outer t rest opens closes ih => rw [ih, Token.skip_other opens closes]

theorem behind_readForm (eof t : Token) (rest : List Token) :
    (readForm eof t rest).2 = Token.skipForm (t :: rest) := by
  by_cases opens : t.kind = .openParen
  · rw [readForm, if_pos opens, behind_read, Token.skipForm_of_openParen opens]
    rfl
  · rw [readForm, if_neg opens, Token.skipForm, if_neg opens]

/-- The lists around an open list do not matter to what is read inside it. -/
theorem read_inside (eof : Token) (l : OpenList) (outer : List OpenList) (m : OpenList)
    (inner : List OpenList) (tokens : List Token) :
    read eof m (inner ++ l :: outer) tokens =
      read eof (l.add (read eof m inner tokens).1) outer (read eof m inner tokens).2 := by
  fun_induction read eof m inner tokens with
  | case1 m inner =>
      simp only [read]
      induction inner generalizing m with
      | nil => rfl
      | cons parent inner ih => exact ih (parent.add (m.close eof))
  | case2 m inner t rest opens ih => rw [← ih, List.cons_append, read_openParen _ _ _ opens]
  | case3 m t rest closes => rw [List.nil_append, read_closeParen_cons _ _ _ _ closes]
  | case4 m t rest closes parent inner ih =>
      rw [← ih, List.cons_append, read_closeParen_cons _ _ _ _ closes]
  | case5 m inner t rest opens closes ih => rw [← ih, read_other _ _ _ opens closes]

/-- A form in a list is read as it is on its own, and reading goes on where skipping it ends. -/
theorem read_form (eof : Token) (l : OpenList) (outer : List OpenList)
    (inside : t.kind ≠ .closeParen) (rest : List Token) :
    read eof l outer (t :: rest) =
      read eof (l.add (readForm eof t rest).1) outer (Token.skipForm (t :: rest)) := by
  rw [← behind_readForm eof]
  by_cases opens : t.kind = .openParen
  · rw [readForm, if_pos opens, read_openParen _ _ _ opens]
    exact read_inside eof l outer ⟨t, []⟩ [] rest
  · rw [readForm, if_neg opens, read_other _ _ _ opens inside]

/-- Whether forms are those at the front of tokens, each of which begins where skipping the one
before it ends, and what is left behind the last one. -/
inductive Skips (eof : Token) : List Form → List Token → List Token → Prop
  /-- Nothing is skipped. -/
  | done (tokens : List Token) : Skips eof [] tokens tokens
  /-- The first form is skipped, and others behind it. -/
  | step {t : Token} {rest left : List Token} {forms : List Form} (inside : t.kind ≠ .closeParen)
      (later : Skips eof forms (Token.skipForm (t :: rest)) left) :
      Skips eof ((readForm eof t rest).1 :: forms) (t :: rest) left

/-- An open list goes on with the forms that are skipped one after the other, and is ended by the
first parenthesis that closes none of them, or else by the end of the source. -/
theorem exists_skips (eof : Token) (l : OpenList) (tokens : List Token) :
    ∃ items left, read eof l [] tokens =
        (.list l.opener (l.items.reverse ++ items) (left.head?.getD eof), left.tail) ∧
      Skips eof items tokens left ∧ ∀ t ∈ left.head?, t.kind = .closeParen := by
  match tokens with
  | [] => exact ⟨[], [], by simp [read, closeAll, close], .done [], by simp⟩
  | t :: rest =>
      by_cases closes : t.kind = .closeParen
      · refine ⟨[], t :: rest, ?_, .done _, by simpa using closes⟩
        rw [read_closeParen_nil _ _ closes, List.append_nil]
        rfl
      · obtain ⟨items, left, same, skips, ends⟩ :=
          exists_skips eof (l.add (readForm eof t rest).1) (Token.skipForm (t :: rest))
        refine ⟨(readForm eof t rest).1 :: items, left, ?_, .step closes skips, ends⟩
        rw [read_form eof l [] closes, same]
        simp [add]
termination_by tokens.length
decreasing_by exact Nat.lt_succ_of_le (Token.length_skipForm_le t rest)

end OpenList

namespace Document

theorem behind_rootForm (tokens : List Token) :
    (rootForm tokens).2 = Token.skipForm (Token.beforeEnd tokens) := by
  unfold rootForm
  cases Token.beforeEnd tokens with
  | nil => rfl
  | cons t rest => exact OpenList.behind_readForm _ t rest

/-- The forms in a root form begin one where skipping the one before it ends, whatever is wrong with
them. -/
theorem exists_skips_rootForm {tokens rest : List Token} {opener : Token}
    (split : Token.beforeEnd tokens = opener :: rest) (opens : opener.kind = .openParen) :
    ∃ items left, rootForm tokens =
        (.list opener items (left.head?.getD (Token.ending tokens)), left.tail) ∧
      OpenList.Skips (Token.ending tokens) items rest left ∧
        ∀ t ∈ left.head?, t.kind = .closeParen := by
  obtain ⟨items, left, read, skips⟩ :=
    OpenList.exists_skips (Token.ending tokens) ⟨opener, []⟩ rest
  refine ⟨items, left, ?_, skips⟩
  simpa [rootForm, split, opens] using read

end Document
end Wireframe
