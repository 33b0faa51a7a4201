import Wireframe.Form
import Wireframe.Schema.Registry

/-!
# Balanced tokens

Missing closing parentheses are inserted and surplus ones dropped.  The names of the open forms say
where a missing one belongs: a top-level form closes everything back to the root form, an overlay
closes everything back to its screen, and a form inside an element without children closes that
element.  What is still open at the end is closed there.  Inserted parentheses have no width and
stand behind the last token kept.
-/

namespace Wireframe
namespace Token

/-- Whether the tokens before an opening parenthesis, latest first, make it the parameter list of a
definition. -/
def startsParams : List Token → Bool
  | name :: word :: opener :: _ =>
    opener.kind == .openParen && word.isSymbol Schema.defineForm && name.kind == .symbol
  | _ => false

/-- The name of the form that a parenthesis opens, by the tokens before it, latest first, and those
behind it.  A parameter list and a list that does not begin with a symbol have no name. -/
def formName (before behind : List Token) : String :=
  match behind with
  | [] => ""
  | t :: _ => if t.kind ≠ .symbol ∨ startsParams before then "" else t.value

/-- Tokens with the names of the forms that they open, given the tokens before, latest first. -/
def named (before : List Token) : List Token → List (Token × String)
  | [] => []
  | t :: behind =>
    (t, if t.kind = .openParen then formName before behind else "") :: named (t :: before) behind

@[simp]
theorem map_fst_named (before tokens : List Token) :
    (named before tokens).map Prod.fst = tokens := by
  induction tokens generalizing before with
  | nil => rfl
  | cons t behind ih => simp [named, ih]

theorem mem_of_mem_named {before tokens : List Token} {entry : Token × String}
    (member : entry ∈ named before tokens) : entry.1 ∈ tokens := by
  rw [← map_fst_named before tokens]
  exact List.mem_map_of_mem member

end Token

/-- What balancing does with a parenthesis or another token. -/
inductive Edit where
  /-- The token stays. -/
  | keep (t : Token)
  /-- A closing parenthesis is added. -/
  | insert (t : Token)
  /-- A surplus closing parenthesis is left out. -/
  | drop (t : Token)
  deriving DecidableEq, Repr

namespace Edit

/-- The token that an edit leaves. -/
def result? : Edit → Option Token
  | keep t => some t
  | insert t => some t
  | drop _ => none

/-- The token that an edit is made for. -/
def source? : Edit → Option Token
  | keep t => some t
  | insert _ => none
  | drop t => some t

/-- Whether an edit adds a token. -/
def isInsert : Edit → Bool
  | insert _ => true
  | _ => false

/-- Whether an edit leaves out a token. -/
def isDrop : Edit → Bool
  | drop _ => true
  | _ => false

end Edit

namespace Balance

/-- The number of open forms, innermost first, that end before a form of the given name begins. -/
def endedBefore (name : String) (stack : List String) : Nat :=
  if Schema.topLevelForms.contains name then (stack.takeWhile (· != Schema.rootForm)).length
  else if Schema.overlayForms.contains name && stack.contains Schema.screenForm then
    (stack.takeWhile (· != Schema.screenForm)).length
  else
    match stack with
    | [] => 0
    | parent :: _ => if name ≠ "" ∧ parent ≠ "" ∧ !Schema.acceptsChildren parent then 1 else 0

/-- The edits that balance tokens, given the open forms, innermost first, and where the last token
kept has ended. -/
def edits : (stack : List String) → (anchor : Position) → List (Token × String) → List Edit
  | stack, anchor, [] => stack.map fun _ => .insert (Token.closer anchor)
  | stack, anchor, (t, name) :: rest =>
    match t.kind with
    | .openParen =>
      let ended := endedBefore name stack
      List.replicate ended (.insert (Token.closer anchor)) ++
        .keep t :: edits (name :: stack.drop ended) t.stop rest
    | .closeParen =>
      match stack with
      | [] => .drop t :: edits [] anchor rest
      | _ :: outer => .keep t :: edits outer t.stop rest
    | _ => .keep t :: edits stack t.stop rest

/-- The edits that balance the tokens of a source. -/
def ofTokens (tokens : List Token) : List Edit :=
  edits [] Position.first (Token.named [] (Token.beforeEnd tokens))

/-- Every token is kept or left out, in order. -/
theorem filterMap_source?_edits (stack : List String) (anchor : Position)
    (tokens : List (Token × String)) :
    (edits stack anchor tokens).filterMap Edit.source? = tokens.map Prod.fst := by
  induction tokens generalizing stack anchor with
  | nil => simp [edits, Edit.source?]
  | cons entry rest ih =>
    obtain ⟨t, name⟩ := entry
    rw [edits.eq_def]
    simp only
    split
    · simp [ih, List.filterMap_append, List.filterMap_replicate, Edit.source?]
    · cases stack with
      | nil => simp [ih, Edit.source?]
      | cons parent outer => simp [ih, Edit.source?]
    · simp [ih, Edit.source?]

/-- Only closing parentheses without width are added. -/
theorem eq_closer_of_insert_mem_edits {stack : List String} {anchor : Position}
    {tokens : List (Token × String)} {t : Token} (added : .insert t ∈ edits stack anchor tokens) :
    ∃ p, t = Token.closer p := by
  induction tokens generalizing stack anchor with
  | nil =>
    simp only [edits, List.mem_map, Edit.insert.injEq] at added
    obtain ⟨_, _, rfl⟩ := added
    exact ⟨anchor, rfl⟩
  | cons entry rest ih =>
    obtain ⟨u, name⟩ := entry
    rw [edits.eq_def] at added
    simp only at added
    split at added
    · simp only [List.mem_append, List.mem_replicate, List.mem_cons, Edit.insert.injEq,
        reduceCtorEq, false_or] at added
      obtain ⟨_, rfl⟩ | later := added
      · exact ⟨anchor, rfl⟩
      · exact ih later
    · cases stack with
      | nil =>
        simp only [List.mem_cons, reduceCtorEq, false_or] at added
        exact ih added
      | cons parent outer =>
        simp only [List.mem_cons, reduceCtorEq, false_or] at added
        exact ih added
    · simp only [List.mem_cons, reduceCtorEq, false_or] at added
      exact ih added

/-- Only closing parentheses are left out. -/
theorem kind_of_drop_mem_edits {stack : List String} {anchor : Position}
    {tokens : List (Token × String)} {t : Token} (left : .drop t ∈ edits stack anchor tokens) :
    t.kind = .closeParen := by
  induction tokens generalizing stack anchor with
  | nil => simp [edits] at left
  | cons entry rest ih =>
    obtain ⟨u, name⟩ := entry
    rw [edits.eq_def] at left
    simp only at left
    split at left
    · simp only [List.mem_append, List.mem_replicate, List.mem_cons, reduceCtorEq, and_false,
        false_or] at left
      exact ih left
    · rename_i closes
      cases stack with
      | nil =>
        simp only [List.mem_cons, Edit.drop.injEq] at left
        obtain rfl | later := left
        · exact closes
        · exact ih later
      | cons parent outer =>
        simp only [List.mem_cons, reduceCtorEq, false_or] at left
        exact ih left
    · simp only [List.mem_cons, reduceCtorEq, false_or] at left
      exact ih left

end Balance

/-- The tokens of a source with its parentheses balanced, and its end. -/
def Token.balance (tokens : List Token) : List Token :=
  (Balance.ofTokens tokens).filterMap Edit.result? ++ [Token.eof (Token.endOf tokens)]

end Wireframe
