import Wireframe.Proofs.Enclosed

/-!
# Orderly tokens

Tokens are orderly if their parentheses pair up and every form stands where its name allows.  These
are the tokens that balancing leaves as they are, and all that it yields, so that balancing twice is
balancing once.
-/

namespace Wireframe

namespace Balance

variable {stack : List String} {tokens : List (Token × String)}

/-- Tokens that close just the open forms and their own are settled if every form is placed. -/
theorem settled_of_placed
    (nested : ∀ front back, tokens = front ++ back →
      0 ≤ stack.length + unclosed (front.map Prod.fst))
    (closed : stack.length + unclosed (tokens.map Prod.fst) = 0)
    (placed : ∀ front t name back, tokens = front ++ (t, name) :: back → t.kind = .openParen →
      Placed name (openForms stack front)) : Settled stack tokens := by
  induction tokens generalizing stack with
  | nil =>
      have none : stack.length = 0 := by
        simp only [List.map_nil, unclosed, List.countP_nil] at closed
        omega
      exact List.length_eq_zero_iff.mp none
  | cons entry rest ih =>
      obtain ⟨t, name⟩ := entry
      have nested' (front back : List (Token × String)) (split : rest = front ++ back) :
          0 ≤ stack.length + (unclosed [t] + unclosed (front.map Prod.fst)) := by
        rw [← unclosed_cons]
        exact nested ((t, name) :: front) back (by rw [split, List.cons_append])
      have placed' (front : List (Token × String)) (u : Token) (word : String)
          (back : List (Token × String)) (split : rest = front ++ (u, word) :: back)
          (opens : u.kind = .openParen) : Placed word (openForms stack ((t, name) :: front)) :=
        placed _ u word back (by rw [split, List.cons_append]) opens
      rw [List.map_cons, unclosed_cons] at closed
      rcases paren_cases t with opens | closes | ⟨opens, closes⟩
      · rw [unclosed_openParen opens] at closed nested'
        refine (settled_openParen opens).mpr ⟨placed [] t name rest rfl opens, ih ?_ ?_ ?_⟩
        · intro front back split
          have := nested' front back split
          rw [List.length_cons]
          omega
        · rw [List.length_cons]
          omega
        · intro front u word back split isOpen
          rw [← openForms_openParen opens]
          exact placed' front u word back split isOpen
      · rw [unclosed_closeParen closes] at closed nested'
        cases stack with
        | nil =>
            have surplus := nested' [] rest rfl
            simp [unclosed] at surplus
        | cons parent outer =>
            rw [List.length_cons] at closed nested'
            refine (settled_closeParen closes).mpr (ih ?_ ?_ ?_)
            · intro front back split
              have := nested' front back split
              omega
            · omega
            · intro front u word back split isOpen
              have := placed' front u word back split isOpen
              rwa [openForms_closeParen closes] at this
      · rw [unclosed_other opens closes] at closed nested'
        refine (settled_other opens closes).mpr (ih ?_ ?_ ?_)
        · intro front back split
          have := nested' front back split
          omega
        · omega
        · intro front u word back split isOpen
          rw [← openForms_other opens closes]
          exact placed' front u word back split isOpen

end Balance

namespace Token

open Balance

/-- Whether parentheses pair up in tokens and every form stands where its name allows: a top-level
form outside all forms or directly inside a root form, an overlay that has a screen around it
directly inside a screen, and no named form directly inside a named one that takes no children. -/
structure Orderly (tokens : List Token) : Prop where
  paired : Paired tokens
  placed : ∀ front t name back, named [] tokens = front ++ (t, name) :: back →
    t.kind = .openParen → Placed name (openForms [] front)

/-- Whether tokens end with the end of a source, which stands nowhere else and has no width. -/
def EndsOnce (tokens : List Token) : Prop :=
  ∃ front p, tokens = front ++ [eof p] ∧ ∀ t ∈ front, t.kind ≠ .eof

theorem endsOnce_balance (tokens : List Token) : EndsOnce (balance tokens) :=
  ⟨_, endOf tokens, rfl, fun _ => kind_ne_eof_of_mem_results⟩

theorem paired_of_settled {tokens : List Token} (settled : Settled [] (named [] tokens)) :
    Paired tokens where
  nested := by
    intro front back split
    have fronts := map_fst_named [] tokens
    rw [split, List.map_eq_append_iff] at fronts
    obtain ⟨entries, rest, same, rfl, -⟩ := fronts
    rw [split, same] at settled
    have count := (settled_append settled).2
    simp only [List.length_nil] at count
    omega
  closed := by
    have whole : Settled [] (named [] tokens ++ []) := by simpa using settled
    obtain ⟨none, count⟩ := settled_append whole
    have empty : openForms [] (named [] tokens) = [] := none
    rw [empty, map_fst_named] at count
    simpa using count.symm

theorem orderly_iff_settled {tokens : List Token} :
    Orderly tokens ↔ Settled [] (named [] tokens) := by
  constructor
  · intro orderly
    refine settled_of_placed (fun front back split => ?_) ?_ orderly.placed
    · have fronts := map_fst_named [] tokens
      rw [split, List.map_append] at fronts
      have := orderly.paired.nested _ _ fronts.symm
      simpa using this
    · rw [map_fst_named]
      simpa using orderly.paired.closed
  · intro settled
    refine ⟨paired_of_settled settled, fun front t name back split opens => ?_⟩
    rw [split] at settled
    exact ((settled_openParen opens).mp (settled_append settled).1).1

theorem balance_eq_self_iff {tokens : List Token} (ends : EndsOnce tokens) :
    balance tokens = tokens ↔ Orderly tokens := by
  obtain ⟨front, p, rfl, inner⟩ := ends
  constructor
  · intro kept
    have settled := settled_balance (front ++ [eof p])
    rw [kept] at settled
    exact orderly_iff_settled.mpr settled
  · intro orderly
    have settled := orderly_iff_settled.mp orderly
    rw [named_concat_eof, settled_concat_eof] at settled
    exact balance_eq_self inner settled

/-- Balancing twice is balancing once, and the tokens that it leaves as they are are the orderly
ones. -/
theorem balance_tidies (tokens : List Token) :
    balance (balance tokens) = balance tokens ∧
      (EndsOnce tokens → (balance tokens = tokens ↔ Orderly tokens)) := by
  have settled := settled_balance tokens
  refine ⟨?_, balance_eq_self_iff⟩
  exact (balance_eq_self_iff (endsOnce_balance tokens)).mpr (orderly_iff_settled.mpr settled)

/-- A parameter list has no name, so that one that begins like a screen is left inside a
definition. -/
theorem balance_tidies_params : ∃ tokens,
    ofSource "(wire (define c (screen) (box)))" = .ok tokens ∧ EndsOnce tokens ∧
      Orderly tokens := by
  have found : ofSource "(wire (define c (screen) (box)))" =
      .ok [⟨.openParen, "(", ⟨1, 1⟩, ⟨1, 2⟩⟩, ⟨.symbol, "wire", ⟨1, 2⟩, ⟨1, 6⟩⟩,
        ⟨.openParen, "(", ⟨1, 7⟩, ⟨1, 8⟩⟩, ⟨.symbol, "define", ⟨1, 8⟩, ⟨1, 14⟩⟩,
        ⟨.symbol, "c", ⟨1, 15⟩, ⟨1, 16⟩⟩, ⟨.openParen, "(", ⟨1, 17⟩, ⟨1, 18⟩⟩,
        ⟨.symbol, "screen", ⟨1, 18⟩, ⟨1, 24⟩⟩, ⟨.closeParen, ")", ⟨1, 24⟩, ⟨1, 25⟩⟩,
        ⟨.openParen, "(", ⟨1, 26⟩, ⟨1, 27⟩⟩, ⟨.symbol, "box", ⟨1, 27⟩, ⟨1, 30⟩⟩,
        ⟨.closeParen, ")", ⟨1, 30⟩, ⟨1, 31⟩⟩, ⟨.closeParen, ")", ⟨1, 31⟩, ⟨1, 32⟩⟩,
        ⟨.closeParen, ")", ⟨1, 32⟩, ⟨1, 33⟩⟩, eof ⟨1, 33⟩] := by
    cbv
  have ends : EndsOnce _ := (ofChars_eq_append_eof found).imp fun _ split => ⟨_, split⟩
  exact ⟨_, found, ends, ((balance_tidies _).2 ends).mp (by decide +kernel)⟩

end Token
end Wireframe
