import Wireframe.Proofs.Phrases
import Wireframe.Proofs.Repair
import Wireframe.Proofs.Skipping

/-!
# Enclosed tokens

Tokens are enclosed if they run from an opening parenthesis to the closing one that matches it,
which is told by counting parentheses.  The enclosed tokens are those of closed lists, so that
reading them from their first parenthesis ends at their last one, and so does skipping them.
-/

namespace Wireframe

open Balance

namespace Token

/-- Whether parentheses pair up in tokens: none closes what is not open, and none stays open. -/
structure Paired (tokens : List Token) : Prop where
  nested : ∀ front back, tokens = front ++ back → 0 ≤ unclosed front
  closed : unclosed tokens = 0

/-- Whether tokens run from an opening parenthesis to the closing one that matches it. -/
def Enclosed (tokens : List Token) : Prop :=
  ∃ opener inner closer, tokens = opener :: (inner ++ [closer]) ∧ opener.kind = .openParen ∧
    closer.kind = .closeParen ∧ Paired inner ∧ ∀ t ∈ inner, t.kind ≠ .eof

variable {tokens left right : List Token} {opener closer t : Token}

theorem paired_nil : Paired [] where
  nested := by
    intro front back split
    obtain ⟨rfl, -⟩ := List.append_eq_nil_iff.mp split.symm
    simp [unclosed]
  closed := by simp [unclosed]

theorem Paired.append (first : Paired left) (second : Paired right) : Paired (left ++ right) where
  nested := by
    intro front back split
    rcases List.append_eq_append_iff.mp split with ⟨rest, rfl, inRight⟩ | ⟨rest, inLeft, -⟩
    · have within := second.nested rest back inRight
      rw [unclosed_append, first.closed]
      omega
    · exact first.nested front rest inLeft
  closed := by rw [unclosed_append, first.closed, second.closed, Int.add_zero]

theorem paired_atom (opens : t.kind ≠ .openParen) (closes : t.kind ≠ .closeParen) : Paired [t] where
  nested := by
    intro front back split
    rcases List.append_eq_singleton_iff.mp split.symm with ⟨rfl, -⟩ | ⟨rfl, -⟩
    · simp [unclosed]
    · rw [unclosed_other opens closes]
  closed := unclosed_other opens closes

theorem Paired.enclose (paired : Paired tokens) (opens : opener.kind = .openParen)
    (closes : closer.kind = .closeParen) : Paired (opener :: (tokens ++ [closer])) where
  nested := by
    intro front back split
    cases front with
    | nil => simp [unclosed]
    | cons first front =>
        obtain ⟨rfl, behind⟩ := List.cons.inj split
        rw [unclosed_cons, unclosed_openParen opens]
        rcases List.append_eq_append_iff.mp behind with ⟨rest, rfl, last⟩ | ⟨rest, inside, -⟩
        · rcases List.append_eq_singleton_iff.mp last.symm with ⟨rfl, -⟩ | ⟨rfl, -⟩
          · rw [List.append_nil, paired.closed]
            omega
          · rw [unclosed_append, paired.closed, unclosed_closeParen closes]
            omega
        · have within := paired.nested front rest inside
          omega
  closed := by
    rw [unclosed_cons, unclosed_append, unclosed_openParen opens, paired.closed,
      unclosed_closeParen closes]
    omega

end Token

namespace Form

mutual

theorem paired_tokens : ∀ form : Form, form.Closed → Token.Paired form.tokens
  | .atom t, closed => by
      obtain ⟨⟨opens, closes⟩, -⟩ := closed_atom_iff.mp closed
      exact Token.paired_atom opens closes
  | .list opener items closer, closed => by
      obtain ⟨opens, closes, inner⟩ := closed_list_iff.mp closed
      exact (paired_tokensAll items inner).enclose opens closes

theorem paired_tokensAll :
    ∀ forms : List Form, (∀ form ∈ forms, form.Closed) → Token.Paired (tokensAll forms)
  | [], _ => Token.paired_nil
  | form :: forms, closed => by
      obtain ⟨here, later⟩ := List.forall_mem_cons.mp closed
      exact (paired_tokens form here).append (paired_tokensAll forms later)

end

end Form

namespace OpenList

/-- Tokens that pair up with the lists open before them fill the outermost of these. -/
theorem exists_filled {l : OpenList} {outer : List OpenList} {tokens : List Token}
    (closed : l.Closed) (around : ∀ m ∈ outer, m.Closed)
    (nested : ∀ front back, tokens = front ++ back → 0 ≤ outer.length + unclosed front)
    (ends : outer.length + unclosed tokens = 0) (inner : ∀ t ∈ tokens, t.kind ≠ .eof) :
    ∃ root : OpenList, root.Closed ∧
      root.tokens = (l :: outer).reverse.flatMap OpenList.tokens ++ tokens := by
  induction tokens generalizing l outer with
  | nil =>
      have none : outer.length = 0 := by
        simp only [unclosed, List.countP_nil] at ends
        omega
      obtain rfl := List.length_eq_zero_iff.mp none
      exact ⟨l, closed, by simp⟩
  | cons t rest ih =>
      obtain ⟨notEnd, inner⟩ := List.forall_mem_cons.mp inner
      have later (front back : List Token) (split : rest = front ++ back) :
          0 ≤ outer.length + (unclosed [t] + unclosed front) := by
        rw [← unclosed_cons]
        exact nested (t :: front) back (by rw [split, List.cons_append])
      rw [unclosed_cons] at ends
      rcases paren_cases t with opens | closes | ⟨opens, closes⟩
      · rw [unclosed_openParen opens] at later ends
        obtain ⟨root, isClosed, same⟩ := ih (l := ⟨t, []⟩) ⟨opens, by simp⟩
          (List.forall_mem_cons.mpr ⟨closed, around⟩)
          (fun front back split => by have := later front back split; rw [List.length_cons]; omega)
          (by rw [List.length_cons]; omega) inner
        refine ⟨root, isClosed, ?_⟩
        rw [same]
        simp [OpenList.tokens, Form.tokensAll]
      · rw [unclosed_closeParen closes] at later ends
        cases outer with
        | nil =>
            have surplus := later [] rest rfl
            simp [unclosed] at surplus
        | cons parent outer =>
            obtain ⟨here, around⟩ := List.forall_mem_cons.mp around
            rw [List.length_cons] at later ends
            obtain ⟨root, isClosed, same⟩ := ih (here.add (closed.close closes)) around
              (fun front back split => by have := later front back split; omega) (by omega) inner
            refine ⟨root, isClosed, ?_⟩
            rw [same]
            simp
      · rw [unclosed_other opens closes] at later ends
        obtain ⟨root, isClosed, same⟩ := ih
          (closed.add (Form.closed_atom_iff.mpr ⟨⟨opens, closes⟩, notEnd⟩)) around
          (fun front back split => by have := later front back split; omega) (by omega) inner
        refine ⟨root, isClosed, ?_⟩
        rw [same]
        simp [Form.tokens]

end OpenList

namespace Token

/-- Enclosed tokens are those of a closed list. -/
theorem enclosed_iff {tokens : List Token} :
    Enclosed tokens ↔ ∃ form : Form, form.ClosedList ∧ form.tokens = tokens := by
  constructor
  · rintro ⟨opener, inner, closer, rfl, opens, closes, paired, notEnd⟩
    have empty : (OpenList.mk opener []).Closed := ⟨opens, by simp⟩
    obtain ⟨⟨first, items⟩, closed, same⟩ := OpenList.exists_filled empty (List.forall_mem_nil _)
      (by simpa using paired.nested) (by simpa using paired.closed) notEnd
    obtain ⟨rfl, rfl⟩ : first = opener ∧ Form.tokensAll items.reverse = inner := by
      simpa [OpenList.tokens, Form.tokensAll] using same
    exact ⟨.list first items.reverse closer, ⟨closed.close closes, opens⟩, rfl⟩
  · rintro ⟨form, closed, rfl⟩
    obtain ⟨opener, items, closer, rfl⟩ := closed.eq_list
    obtain ⟨opens, closes, inner⟩ := Form.closed_list_iff.mp closed.1
    refine ⟨opener, Form.tokensAll items, closer, rfl, opens, closes,
      Form.paired_tokensAll items inner, ?_⟩
    exact fun t member => closed.1.inner t ((Form.tokensAll_infix_tokens _ _ _).mem member)

/-- Skipping a form ends at the parenthesis that matches its first one, whatever is between. -/
theorem skipForm_of_enclosed {row : List Token} (enclosed : Enclosed row) (rest : List Token) :
    skipForm (row ++ rest) = rest := by
  obtain ⟨form, closed, rfl⟩ := enclosed_iff.mp enclosed
  obtain ⟨opener, items, closer, rfl⟩ := closed.eq_list
  obtain ⟨opens, closes, inner⟩ := Form.closed_list_iff.mp closed.1
  have found := OpenList.behind_readForm closer opener (Form.tokensAll items ++ closer :: rest)
  rw [OpenList.readForm, if_pos opens, Form.read_tokensAll closer _ items _ _ inner,
    OpenList.read_closeParen_nil _ _ closes] at found
  simpa [Form.tokens] using found.symm

/-- Rows of enclosed tokens are the tokens of closed lists. -/
theorem exists_forms {rows : List (List Token)} (enclosed : ∀ row ∈ rows, Enclosed row) :
    ∃ forms : List Form, (∀ form ∈ forms, form.ClosedList) ∧ forms.map Form.tokens = rows := by
  induction rows with
  | nil => exact ⟨[], by simp, rfl⟩
  | cons row rows ih =>
      obtain ⟨here, later⟩ := List.forall_mem_cons.mp enclosed
      obtain ⟨form, closed, rfl⟩ := enclosed_iff.mp here
      obtain ⟨forms, lists, rfl⟩ := ih later
      exact ⟨form :: forms, List.forall_mem_cons.mpr ⟨closed, lists⟩, rfl⟩

end Token

end Wireframe
