import Wireframe.Proofs.Closed
import Wireframe.Proofs.Repair

/-!
# Headed lists

A list is headed if it has a name of its own, other than that of the root form; a parameter list
needs none.  Balancing keeps the names of lists, so that the lists of balanced tokens are headed if
those of their source are.
-/

namespace Wireframe
namespace Balance

/-- Whether each list that begins among tokens is headed, given the tokens before, latest first. -/
def Headed : List Token → List Token → Prop
  | _, [] => True
  | before, t :: rest =>
    (t.kind = .openParen → heading before ≠ .titled →
      Token.formName before rest ≠ "" ∧ Token.formName before rest ≠ Schema.rootForm) ∧
    Headed (t :: before) rest

theorem headed_iff {before tokens : List Token} : Headed before tokens ↔
    ∀ front t back, tokens = front ++ t :: back → t.kind = .openParen →
      heading (front.reverse ++ before) ≠ .titled →
        Token.formName (front.reverse ++ before) back ≠ "" ∧
          Token.formName (front.reverse ++ before) back ≠ Schema.rootForm := by
  induction tokens generalizing before with
  | nil => simp [Headed]
  | cons u rest ih =>
      rw [Headed, ih]
      constructor
      · rintro ⟨here, later⟩ front t back same
        cases front with
        | nil =>
            obtain ⟨rfl, rfl⟩ := List.cons.inj same
            exact here
        | cons v front =>
            obtain ⟨rfl, behind⟩ := List.cons.inj same
            simpa using later front t back behind
      · refine fun all => ⟨all [] u rest rfl, fun front t back same => ?_⟩
        simpa [same] using all (u :: front) t back

private theorem headed_closers {n : Nat} {p : Position} {before rest : List Token}
    (headed : Headed (List.replicate n (Token.closer p) ++ before) rest) :
    Headed before (List.replicate n (Token.closer p) ++ rest) := by
  induction n generalizing before with
  | zero => exact headed
  | succ n ih =>
      refine ⟨fun opens => absurd opens (by simp [Token.closer]), ih ?_⟩
      rwa [List.append_cons, ← List.replicate_succ']

/-- Balancing keeps lists headed.  The tokens before, latest first, may differ in closing
parentheses from those that are left of them, as long as both make up the same part of the head of a
definition. -/
theorem headed_edits {stack : List String} {before before' : List Token} (anchor : Position)
    (tokens : List Token) (same : heading before' = heading before)
    (outside : stack = [] → heading before = .nothing) (headed : Headed before tokens) :
    Headed before' (results (edits stack anchor (Token.named before tokens))) := by
  induction tokens generalizing stack before before' anchor with
  | nil =>
      rw [Token.named, edits, List.map_const', results_closers,
        ← List.append_nil (List.replicate _ _)]
      exact headed_closers trivial
  | cons t rest ih =>
      obtain ⟨here, later⟩ := headed
      rw [Token.named]
      rcases paren_cases t with opens | closes | ⟨opens, closes⟩
      · rw [if_pos opens, edits_openParen opens]
        generalize nameEq : Token.formName before rest = name at here
        have next := nextSymbol_results name (stack.drop (endedBefore name stack)) t.stop
          (t :: before) rest
        rw [results_append, results_closers, results_keep]
        refine headed_closers ⟨fun _ untitled => ?_, ih t.stop ?_ (by simp) later⟩
        · rw [formName_results anchor nameEq same next]
          -- A parameter list has no name, so that nothing is inserted before it.
          refine here opens fun titled => untitled ?_
          have unnamed : name = "" := by
            rw [← nameEq, formName_eq, if_pos titled]
          rw [unnamed, endedBefore_unnamed, List.replicate_zero, List.nil_append, same, titled]
        · rw [heading_of_openParen opens, heading_of_openParen opens]
      · have nothing := heading_of_closeParen closes before
        cases stack with
        | nil =>
            rw [edits_surplus closes, results_drop]
            exact ih anchor (by rw [same, outside rfl, nothing]) (fun _ => nothing) later
        | cons parent outer =>
            rw [edits_closeParen closes, results_keep]
            exact ⟨fun opens => absurd (closes.symm.trans opens) (by simp),
              ih t.stop (heading_cons_congr same) (fun _ => nothing) later⟩
      · rw [edits_other opens closes, results_keep]
        exact ⟨fun isOpen => absurd isOpen opens, ih t.stop (heading_cons_congr same)
          (fun empty => heading_cons_of_nothing opens (outside empty)) later⟩

/-- The places of tokens have no influence on whether lists are headed. -/
theorem headed_congr {before before' tokens tokens' : List Token}
    (same : heading before = heading before')
    (words : tokens.map Token.word = tokens'.map Token.word) (headed : Headed before tokens) :
    Headed before' tokens' := by
  induction tokens generalizing before before' tokens' with
  | nil =>
      obtain rfl := List.map_eq_nil_iff.mp words.symm
      trivial
  | cons t rest ih =>
      obtain ⟨u, rest', rfl, word, behind⟩ := List.map_eq_cons_iff.mp words.symm
      obtain ⟨kind, value⟩ : u.kind = t.kind ∧ u.value = t.value := by
        simpa [Token.word] using word
      have later : heading (t :: before) = heading (u :: before') := by
        rw [heading, heading, same]
        simp [Heading.past, Token.isSymbol, kind, value]
      refine ⟨?_, ih later behind.symm headed.2⟩
      rw [formName_eq, ← same, ← nextSymbol_congr behind.symm, ← formName_eq, kind]
      exact headed.1

end Balance
end Wireframe
