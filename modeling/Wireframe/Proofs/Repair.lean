import Wireframe.Proofs.Nesting

/-!
# Repair

Balancing is first told as a machine that can get stuck: it closes only forms that are open, and an
added parenthesis needs a kept token to stand behind.  The machine never gets stuck, whatever tokens
it is given, and what it leaves is repaired: forms nest, each stands where its name allows, and no
token but a surplus closing parenthesis is lost.
-/

namespace Wireframe
namespace Balance

/-- Close forms until one of a name is innermost, each behind the last token kept: the forms left
open and the parentheses added.  Closing is stuck without such a token, and without any form unless
all forms may close. -/
def closeTo? (name : String) (mayEmpty : Bool) (anchor : Option Position) :
    List String → Option (List String × List Token)
  | [] => if mayEmpty then some ([], []) else none
  | parent :: outer =>
    if parent = name then some (parent :: outer, [])
    else do
      let p ← anchor
      let (stack, added) ← closeTo? name mayEmpty anchor outer
      return (stack, Token.closer p :: added)

/-- Close what ends before a form of a name begins. -/
def makeRoom? (name : String) (anchor : Option Position) (stack : List String) :
    Option (List String × List Token) :=
  if Schema.topLevelForms.contains name then closeTo? Schema.rootForm true anchor stack
  else if Schema.overlayForms.contains name && stack.contains Schema.screenForm then
    closeTo? Schema.screenForm false anchor stack
  else
    match stack with
    | [] => some ([], [])
    | parent :: outer =>
      if name ≠ "" ∧ parent ≠ "" ∧ !Schema.acceptsChildren parent then do
        let p ← anchor
        return (outer, [Token.closer p])
      else some (parent :: outer, [])

/-- Balance tokens, given the open forms and where the last token kept, if any, has ended. -/
def run? : List String → Option Position → List (Token × String) → Option (List Token)
  | stack, anchor, [] => stack.mapM fun _ => anchor.map Token.closer
  | stack, anchor, (t, name) :: rest =>
    match t.kind with
    | .openParen => do
      let (stack, added) ← makeRoom? name anchor stack
      let later ← run? (name :: stack) (some t.stop) rest
      return added ++ t :: later
    | .closeParen =>
      match stack with
      | [] => run? [] anchor rest
      | _ :: outer => do
        let later ← run? outer (some t.stop) rest
        return t :: later
    | _ => do
      let later ← run? stack (some t.stop) rest
      return t :: later

/-- Balance the tokens of a source, stuck where a step is. -/
def balance? (tokens : List Token) : Option (List Token) :=
  (run? [] none (Token.named [] (Token.beforeEnd tokens))).map
    (· ++ [Token.eof (Token.endOf tokens)])

private theorem closeTo?_eq_some {name : String} {mayEmpty : Bool} {stack : List String}
    (p : Position) (ends : mayEmpty = true ∨ name ∈ stack) :
    closeTo? name mayEmpty (some p) stack =
      some (stack.drop (stack.takeWhile (· != name)).length,
        List.replicate (stack.takeWhile (· != name)).length (Token.closer p)) := by
  induction stack with
  | nil =>
      obtain rfl : mayEmpty = true := by simpa using ends
      rfl
  | cons parent outer ih =>
      by_cases same : parent = name
      · simp [closeTo?, same]
      · have later := ih (ends.imp id fun member =>
          (List.mem_cons.mp member).resolve_left (Ne.symm same))
        simp [closeTo?, same, later, List.replicate_succ]

private theorem makeRoom?_eq_some (name : String) (p : Position) (stack : List String) :
    makeRoom? name (some p) stack =
      some (stack.drop (endedBefore name stack),
        List.replicate (endedBefore name stack) (Token.closer p)) := by
  rw [makeRoom?.eq_def, endedBefore.eq_def]
  split
  · exact closeTo?_eq_some p (Or.inl rfl)
  · split
    · rename_i overlay
      exact closeTo?_eq_some p (Or.inr (by simpa using (Bool.and_eq_true_iff.mp overlay).2))
    · cases stack with
      | nil => rfl
      | cons parent outer =>
          simp only
          split <;> simp

private theorem makeRoom?_nil (name : String) (anchor : Option Position) :
    makeRoom? name anchor [] = some ([], []) := by
  simp [makeRoom?, closeTo?]

private theorem mapM_closer (p : Position) (stack : List String) :
    stack.mapM (fun _ => (some p).map Token.closer) =
      some (List.replicate stack.length (Token.closer p)) := by
  induction stack with
  | nil => rfl
  | cons name stack ih =>
      rw [List.mapM_cons, ih]
      rfl

/-- The machine never gets stuck: a token has been kept whenever a form is open. -/
theorem run?_eq_some {stack : List String} {anchor : Option Position}
    (tokens : List (Token × String)) (kept : stack ≠ [] → anchor.isSome = true) :
    run? stack anchor tokens =
      some (results (edits stack (anchor.getD Position.first) tokens)) := by
  induction tokens generalizing stack anchor with
  | nil =>
      cases anchor with
      | none =>
          obtain rfl : stack = [] := by simpa using kept
          rfl
      | some p =>
          rw [run?, mapM_closer, edits, List.map_const', results_closers]
          rfl
  | cons entry rest ih =>
      obtain ⟨t, name⟩ := entry
      rcases paren_cases t with opens | closes | ⟨opens, closes⟩
      · have room : makeRoom? name anchor stack =
            some (stack.drop (endedBefore name stack), List.replicate (endedBefore name stack)
              (Token.closer (anchor.getD Position.first))) := by
          cases anchor with
          | some p => exact makeRoom?_eq_some name p stack
          | none =>
              obtain rfl : stack = [] := by simpa using kept
              have none := endedBefore_le_length name []
              rw [makeRoom?_nil, Nat.le_zero.mp none]
              rfl
        rw [edits_openParen opens, results_append, results_closers, results_keep]
        simp [run?, opens, room, ih]
      · cases stack with
        | nil =>
            rw [edits_surplus closes, results_drop, ← ih (by simp)]
            simp [run?, closes]
        | cons parent outer =>
            rw [edits_closeParen closes, results_keep]
            simp [run?, closes, ih]
      · rw [edits_other opens closes, results_keep]
        simp [run?, ih]

/-- Whether edits lead from some tokens to others, adding closing parentheses only, and leaving one
out exactly where no form is open. -/
structure Edited (source result : List Token) (edits : List Edit) : Prop where
  /-- Each token is kept or left out, in order. -/
  source_eq : edits.filterMap Edit.source? = source
  /-- Each token left was there before or is added, in order. -/
  result_eq : edits.filterMap Edit.result? = result
  /-- Only closing parentheses are added. -/
  added : ∀ t, .insert t ∈ edits → t.kind = .closeParen
  /-- Only closing parentheses are left out. -/
  left : ∀ t, .drop t ∈ edits → t.kind = .closeParen
  /-- A closing parenthesis is left out exactly if no form is open at it. -/
  surplus : ∀ front e back t, edits = front ++ e :: back → e.source? = some t →
    t.kind = .closeParen → (e = .drop t ↔ unclosed (front.filterMap Edit.result?) = 0)

/-- What balancing makes of the tokens of a source. -/
structure Repaired (source result : List Token) : Prop where
  /-- The end of the source stands behind all other tokens. -/
  ends : ∃ front, result = front ++ [Token.eof (Token.endOf source)] ∧
    (∀ t ∈ front, t.kind ≠ .eof) ∧
    front.filter (·.kind != .closeParen) =
      (Token.beforeEnd source).filter (·.kind != .closeParen) ∧
    Edited (Token.beforeEnd source) front (ofTokens source)
  /-- Nothing closes that is not open. -/
  nested : ∀ front back, result = front ++ back → 0 ≤ unclosed front
  /-- Nothing stays open. -/
  closed : unclosed result = 0
  /-- Every form stands where its name allows, by the names that the tokens left give. -/
  placed : ∀ front t name back, Token.named [] result = front ++ (t, name) :: back →
    t.kind = .openParen → Placed name (openForms [] front)

theorem unclosed_append (left right : List Token) :
    unclosed (left ++ right) = unclosed left + unclosed right := by
  simp only [unclosed, List.countP_append]
  omega

theorem unclosed_cons (t : Token) (rest : List Token) :
    unclosed (t :: rest) = unclosed [t] + unclosed rest :=
  unclosed_append [t] rest

theorem unclosed_openParen {t : Token} (opens : t.kind = .openParen) :
    unclosed [t] = 1 := by
  simp [unclosed, opens]

theorem unclosed_closeParen {t : Token} (closes : t.kind = .closeParen) :
    unclosed [t] = -1 := by
  simp [unclosed, closes]

theorem unclosed_other {t : Token} (opens : t.kind ≠ .openParen)
    (closes : t.kind ≠ .closeParen) : unclosed [t] = 0 := by
  simp [unclosed, opens, closes]

private theorem unclosed_closers (n : Nat) (p : Position) :
    unclosed (List.replicate n (Token.closer p)) = -n := by
  simp [unclosed, Token.closer, List.countP_replicate]

/-- Behind the front of settled tokens the open forms are those that the front leaves open, and the
rest is settled among them. -/
theorem settled_append {stack : List String} {front back : List (Token × String)}
    (settled : Settled stack (front ++ back)) :
    Settled (openForms stack front) back ∧
      ((openForms stack front).length : Int) = stack.length + unclosed (front.map Prod.fst) := by
  induction front generalizing stack with
  | nil => exact ⟨settled, by simp [openForms, unclosed]⟩
  | cons entry front ih =>
      obtain ⟨t, name⟩ := entry
      rw [List.cons_append] at settled
      rw [List.map_cons, unclosed_cons]
      rcases paren_cases t with opens | closes | ⟨opens, closes⟩
      · rw [openForms_openParen opens, unclosed_openParen opens]
        obtain ⟨later, count⟩ := ih ((settled_openParen opens).mp settled).2
        refine ⟨later, ?_⟩
        rw [count, List.length_cons]
        omega
      · cases stack with
        | nil => exact absurd settled (not_settled_surplus closes)
        | cons parent outer =>
            rw [openForms_closeParen closes, unclosed_closeParen closes]
            obtain ⟨later, count⟩ := ih ((settled_closeParen closes).mp settled)
            refine ⟨later, ?_⟩
            rw [List.tail_cons, count, List.length_cons]
            omega
      · rw [openForms_other opens closes, unclosed_other opens closes]
        obtain ⟨later, count⟩ := ih ((settled_other opens closes).mp settled)
        refine ⟨later, ?_⟩
        rw [count]
        omega

/-- Whether edits leave out a closing parenthesis exactly where no form is open, given how many are
open before. -/
def DropsSurplus : Int → List Edit → Prop
  | _, [] => True
  | depth, e :: es =>
    (∀ t, e.source? = some t → t.kind = .closeParen → (e = .drop t ↔ depth = 0)) ∧
      DropsSurplus (depth + unclosed e.result?.toList) es

private theorem dropsSurplus_append {depth : Int} {left right : List Edit} :
    DropsSurplus depth (left ++ right) ↔
      DropsSurplus depth left ∧ DropsSurplus (depth + unclosed (results left)) right := by
  induction left generalizing depth with
  | nil => simp [DropsSurplus, results, unclosed]
  | cons e left ih =>
      have step : unclosed (results (e :: left)) =
          unclosed e.result?.toList + unclosed (results left) := by
        cases e with
        | keep t => exact unclosed_cons t (results left)
        | insert t => exact unclosed_cons t (results left)
        | drop t =>
            rw [results_drop]
            simp [Edit.result?, unclosed]
      rw [List.cons_append, DropsSurplus, DropsSurplus, ih, step, Int.add_assoc, and_assoc]

private theorem dropsSurplus_closers (depth : Int) (n : Nat) (p : Position) :
    DropsSurplus depth (List.replicate n (.insert (Token.closer p))) := by
  induction n generalizing depth with
  | zero => trivial
  | succ n ih =>
      rw [List.replicate_succ]
      exact ⟨fun t source => by simp [Edit.source?] at source, ih _⟩

private theorem dropsSurplus_keep {depth : Int} {t : Token} {es : List Edit}
    (deep : t.kind = .closeParen → depth ≠ 0)
    (later : DropsSurplus (depth + unclosed [t]) es) : DropsSurplus depth (.keep t :: es) := by
  refine ⟨fun u source closes => ?_, later⟩
  obtain rfl : t = u := by simpa [Edit.source?] using source
  simp [deep closes]

/-- Balancing leaves out a closing parenthesis exactly where no form is open. -/
theorem dropsSurplus_edits (stack : List String) (anchor : Position)
    (tokens : List (Token × String)) :
    DropsSurplus stack.length (edits stack anchor tokens) := by
  induction tokens generalizing stack anchor with
  | nil =>
      rw [edits, List.map_const']
      exact dropsSurplus_closers _ _ anchor
  | cons entry rest ih =>
      obtain ⟨t, name⟩ := entry
      rcases paren_cases t with opens | closes | ⟨opens, closes⟩
      · rw [edits_openParen opens, dropsSurplus_append, results_closers, unclosed_closers]
        refine ⟨dropsSurplus_closers _ _ anchor, dropsSurplus_keep (by simp [opens]) ?_⟩
        have bound := endedBefore_le_length name stack
        have later := ih (name :: stack.drop (endedBefore name stack)) t.stop
        rw [unclosed_openParen opens]
        rw [List.length_cons, List.length_drop] at later
        have depth : ((stack.length - endedBefore name stack + 1 : Nat) : Int) =
            stack.length + -(endedBefore name stack : Int) + 1 := by omega
        rwa [depth] at later
      · cases stack with
        | nil =>
            rw [edits_surplus closes]
            refine ⟨fun u source _ => ?_, ih [] anchor⟩
            obtain rfl : t = u := by simpa [Edit.source?] using source
            simp
        | cons parent outer =>
            rw [edits_closeParen closes]
            refine dropsSurplus_keep (fun _ => ?_) ?_
            · rw [List.length_cons]
              omega
            · rw [unclosed_closeParen closes, List.length_cons, Int.natCast_add,
                Int.add_assoc]
              exact ih outer t.stop
      · rw [edits_other opens closes]
        refine dropsSurplus_keep (fun isClose => absurd isClose closes) ?_
        rw [unclosed_other opens closes, Int.add_zero]
        exact ih stack t.stop

theorem edited_ofTokens (tokens : List Token) :
    Edited (Token.beforeEnd tokens) (results (ofTokens tokens)) (ofTokens tokens) := by
  refine ⟨?_, rfl, fun t added => ?_, fun t => kind_of_drop_mem_edits, ?_⟩
  · rw [ofTokens, filterMap_source?_edits, Token.map_fst_named]
  · obtain ⟨p, rfl⟩ := eq_closer_of_insert_mem_edits added
    rfl
  · intro front e back t split source closes
    have drops := dropsSurplus_edits [] Position.first (Token.named [] (Token.beforeEnd tokens))
    rw [← ofTokens, split, dropsSurplus_append] at drops
    simpa [results] using drops.2.1 t source closes

theorem Edited.filter_eq {source result : List Token} {edits : List Edit}
    (edited : Edited source result edits) :
    result.filter (·.kind != .closeParen) = source.filter (·.kind != .closeParen) := by
  obtain ⟨rfl, rfl, added, left, -⟩ := edited
  induction edits with
  | nil => rfl
  | cons e edits ih =>
      have later := ih (fun t member => added t (List.mem_cons_of_mem e member))
        (fun t member => left t (List.mem_cons_of_mem e member))
      cases e with
      | keep t =>
          change (t :: _).filter _ = (t :: _).filter _
          rw [List.filter_cons, List.filter_cons, later]
      | insert t =>
          refine Eq.trans ?_ later
          exact List.filter_cons_of_neg (by simp [added t List.mem_cons_self])
      | drop t =>
          refine later.trans (Eq.symm ?_)
          exact List.filter_cons_of_neg (by simp [left t List.mem_cons_self])

/-- The end of a source does not matter to whether tokens are settled. -/
theorem settled_concat_eof {stack : List String} {tokens : List (Token × String)} (p : Position) :
    Settled stack (tokens ++ [(Token.eof p, "")]) ↔ Settled stack tokens := by
  induction tokens generalizing stack with
  | nil => exact settled_other (by simp [Token.eof]) (by simp [Token.eof])
  | cons entry rest ih =>
      obtain ⟨t, name⟩ := entry
      rw [List.cons_append]
      rcases paren_cases t with opens | closes | ⟨opens, closes⟩
      · rw [settled_openParen opens, settled_openParen opens, ih]
      · cases stack with
        | nil => exact iff_of_false (not_settled_surplus closes) (not_settled_surplus closes)
        | cons parent outer => rw [settled_closeParen closes, settled_closeParen closes, ih]
      · rw [settled_other opens closes, settled_other opens closes, ih]

/-- The tokens that balancing leaves are settled, its end included. -/
theorem settled_balance (tokens : List Token) :
    Settled [] (Token.named [] (Token.balance tokens)) := by
  rw [named_balance]
  exact (settled_concat_eof _).mpr (settled_ofTokens tokens)

/-- Balancing any tokens returns, and repairs them. -/
theorem balance_repairs (tokens : List Token) :
    balance? tokens = some (Token.balance tokens) ∧ Repaired tokens (Token.balance tokens) := by
  have settled := settled_balance tokens
  refine ⟨?_, ?_, ?_, ?_, ?_⟩
  · rw [balance?, run?_eq_some _ (by simp)]
    rfl
  · exact ⟨results (ofTokens tokens), rfl, fun t => kind_ne_eof_of_mem_results,
      (edited_ofTokens tokens).filter_eq, edited_ofTokens tokens⟩
  · intro front back split
    have fronts := Token.map_fst_named [] (Token.balance tokens)
    rw [split, List.map_eq_append_iff] at fronts
    obtain ⟨named, rest, same, rfl, -⟩ := fronts
    rw [split, same] at settled
    have count := (settled_append settled).2
    simp only [List.length_nil] at count
    omega
  · have whole : Settled [] (Token.named [] (Token.balance tokens) ++ []) := by simpa using settled
    have all := settled_append whole
    have empty : openForms [] (Token.named [] (Token.balance tokens)) = [] := all.1
    have count := all.2
    rw [empty, Token.map_fst_named] at count
    simpa using count.symm
  · intro front t name back split opens
    rw [split] at settled
    exact ((settled_openParen opens).mp (settled_append settled).1).1

end Balance
end Wireframe
