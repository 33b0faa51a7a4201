import Wireframe.Token.Source

/-!
# Forms

A form is an atom or a parenthesized list.  The tokens of a source are read into one form by a stack
of open lists; a list that the source leaves open is ended by the end of the source, so the token
that ends a list says whether it was closed.
-/

namespace Wireframe

/-- An atom, or a list with the tokens that open and end it. -/
inductive Form where
  /-- A single token. -/
  | atom (token : Token)
  /-- The forms between an opening parenthesis and the token that ends the list. -/
  | list (opener : Token) (items : List Form) (closer : Token)
  deriving Repr

/-- A list that is still open. -/
structure OpenList where
  /-- The opening parenthesis. -/
  opener : Token
  /-- The forms read so far, latest first. -/
  items : List Form

namespace OpenList

/-- The list with one more form. -/
def add (l : OpenList) (item : Form) : OpenList :=
  ⟨l.opener, item :: l.items⟩

/-- The form of a list that a token ends. -/
def close (l : OpenList) (closer : Token) : Form :=
  .list l.opener l.items.reverse closer

/-- End a list and the lists around it, innermost first. -/
def closeAll (eof : Token) : OpenList → List OpenList → Form
  | l, [] => l.close eof
  | l, outer :: rest => closeAll eof (outer.add (l.close eof)) rest

/-- Read tokens into an open list and the lists around it until the outermost one ends: its form
and the tokens behind it. -/
def read (eof : Token) : OpenList → List OpenList → List Token → Form × List Token
  | l, outer, [] => (closeAll eof l outer, [])
  | l, outer, t :: rest =>
    match t.kind with
    | .openParen => read eof ⟨t, []⟩ (l :: outer) rest
    | .closeParen =>
      match outer with
      | [] => (l.close t, rest)
      | parent :: outer => read eof (parent.add (l.close t)) outer rest
    | _ => read eof (l.add (.atom t)) outer rest

variable {t : Token}

theorem read_openParen (eof : Token) (l : OpenList) (outer : List OpenList)
    (opens : t.kind = .openParen) (rest : List Token) :
    read eof l outer (t :: rest) = read eof ⟨t, []⟩ (l :: outer) rest := by
  rw [read.eq_def]
  simp only [opens]

theorem read_closeParen_nil (eof : Token) (l : OpenList) (closes : t.kind = .closeParen)
    (rest : List Token) : read eof l [] (t :: rest) = (l.close t, rest) := by
  rw [read.eq_def]
  simp only [closes]

theorem read_closeParen_cons (eof : Token) (l parent : OpenList) (outer : List OpenList)
    (closes : t.kind = .closeParen) (rest : List Token) :
    read eof l (parent :: outer) (t :: rest) = read eof (parent.add (l.close t)) outer rest := by
  rw [read.eq_def]
  simp only [closes]

theorem read_other (eof : Token) (l : OpenList) (outer : List OpenList)
    (opens : t.kind ≠ .openParen) (closes : t.kind ≠ .closeParen) (rest : List Token) :
    read eof l outer (t :: rest) = read eof (l.add (.atom t)) outer rest := by
  rw [read.eq_def]
  simp only

end OpenList

namespace Form

/-- The first token of a form. -/
def first : Form → Token
  | atom token => token
  | list opener _ _ => opener

mutual

/-- The tokens of a form in order. -/
def tokens : Form → List Token
  | atom token => [token]
  | list opener items closer => opener :: tokensAll items ++ [closer]

/-- The tokens of several forms in order. -/
def tokensAll : List Form → List Token
  | [] => []
  | form :: rest => tokens form ++ tokensAll rest

end

theorem tokensAll_append (left right : List Form) :
    tokensAll (left ++ right) = tokensAll left ++ tokensAll right := by
  induction left with
  | nil => rfl
  | cons form rest ih => simp only [List.cons_append, tokensAll, ih, List.append_assoc]

end Form

namespace OpenList

/-- The tokens of an open list in order. -/
def tokens (l : OpenList) : List Token :=
  l.opener :: Form.tokensAll l.items.reverse

@[simp]
theorem tokens_add (l : OpenList) (item : Form) :
    (l.add item).tokens = l.tokens ++ item.tokens := by
  simp [add, tokens, Form.tokensAll_append, Form.tokensAll]

@[simp]
theorem tokens_close (l : OpenList) (closer : Token) :
    (l.close closer).tokens = l.tokens ++ [closer] := by
  simp [close, tokens, Form.tokens]

theorem tokens_closeAll (eof : Token) (l : OpenList) (outer : List OpenList) :
    (closeAll eof l outer).tokens =
      (l :: outer).reverse.flatMap tokens ++ List.replicate (outer.length + 1) eof := by
  induction outer generalizing l with
  | nil => simp [closeAll]
  | cons parent rest ih =>
    rw [closeAll, ih]
    simp [List.replicate_succ]

/-- Reading loses no token: the form and what is behind it are the tokens read, with the end of the
source once for each list that was left open. -/
theorem tokens_read (eof : Token) (l : OpenList) (outer : List OpenList) (ts : List Token) :
    ∃ unclosed,
      (read eof l outer ts).1.tokens ++ (read eof l outer ts).2 =
        (l :: outer).reverse.flatMap tokens ++ ts ++ List.replicate unclosed eof ∧
      (unclosed = 0 ∨ (read eof l outer ts).2 = []) := by
  fun_induction read eof l outer ts with
  | case1 l outer => exact ⟨outer.length + 1, by simp [tokens_closeAll], Or.inr rfl⟩
  | case2 l outer t rest opens ih =>
    obtain ⟨unclosed, same, bound⟩ := ih
    exact ⟨unclosed, by rw [same]; simp [tokens, Form.tokensAll], bound⟩
  | case3 l t rest closes => exact ⟨0, by simp, Or.inl rfl⟩
  | case4 l t rest closes parent outer ih =>
    obtain ⟨unclosed, same, bound⟩ := ih
    exact ⟨unclosed, by rw [same]; simp, bound⟩
  | case5 l outer t rest opens closes ih =>
    obtain ⟨unclosed, same, bound⟩ := ih
    exact ⟨unclosed, by rw [same]; simp [Form.tokens], bound⟩

end OpenList

namespace Token

/-- Whether a token is the end of a source. -/
def isEnd (t : Token) : Bool :=
  t.kind == .eof

/-- The tokens before the end of the source. -/
def beforeEnd (tokens : List Token) : List Token :=
  tokens.takeWhile (!·.isEnd)

/-- The end of the source, placed behind the last token if it is missing. -/
def ending (tokens : List Token) : Token :=
  (tokens.find? isEnd).getD (eof (endOf tokens))

/-- The first opening parenthesis at which more lists are open than the limit allows, a surplus
closing parenthesis being left out of account. -/
def tooDeep? (limit : Int) : (depth : Nat) → List Token → Option Token
  | _, [] => none
  | depth, t :: rest =>
    match t.kind with
    | .openParen => if limit < depth + 1 then some t else tooDeep? limit (depth + 1) rest
    | .closeParen => tooDeep? limit (depth - 1) rest
    | _ => tooDeep? limit depth rest

end Token
end Wireframe
