import Wireframe.Proofs.Accepted

/-!
# Root forms

The first form of a source holds all tokens of the source up to the one that closes it, or all of
them if nothing does.  It is the root form of a document exactly if the tokens begin with the
opening parenthesis and the name of one.
-/

namespace Wireframe

namespace Form

theorem tokens_eq_cons (form : Form) : ∃ back, form.tokens = form.first :: back := by
  cases form with
  | atom t => exact ⟨[], rfl⟩
  | list opener items closer => exact ⟨tokensAll items ++ [closer], rfl⟩

theorem tokensAll_eq_flatMap (forms : List Form) : tokensAll forms = forms.flatMap tokens := by
  induction forms with
  | nil => rfl
  | cons form rest ih => rw [tokensAll, ih, List.flatMap_cons]

theorem tokensAll_atoms (head : List Token) : tokensAll (head.map atom) = head := by
  induction head with
  | nil => rfl
  | cons t head ih => rw [List.map_cons, tokensAll, ih, tokens, List.singleton_append]

theorem tokens_infix_tokensAll {form : Form} {forms : List Form} (member : form ∈ forms) :
    form.tokens <:+: tokensAll forms := by
  obtain ⟨front, back, rfl⟩ := List.append_of_mem member
  exact ⟨tokensAll front, tokensAll back, by simp [tokensAll_append, tokensAll]⟩

theorem tokensAll_infix_tokens (opener : Token) (items : List Form) (closer : Token) :
    tokensAll items <:+: (list opener items closer).tokens :=
  ⟨[opener], [closer], by simp [tokens]⟩

theorem items_of_head {opener closer t : Token} {items : List Form}
    (first : t ∈ (list opener items closer).parts.head.head?) :
    ∃ rest, items = .atom t :: rest := by
  obtain ⟨behind, split, -⟩ := Parts.items_eq_parts opener items closer
  cases head : (list opener items closer).parts.head with
  | nil => simp [head] at first
  | cons u atoms =>
      obtain rfl : u = t := by simpa [head] using first
      exact ⟨_, by rw [split, head]; rfl⟩

end Form

namespace Token

/-- The number of lists open behind tokens, a surplus closing parenthesis being left out of account,
given the number open before them. -/
def depth : Nat → List Token → Nat
  | n, [] => n
  | n, t :: rest =>
    match t.kind with
    | .openParen => depth (n + 1) rest
    | .closeParen => depth (n - 1) rest
    | _ => depth n rest

/-- Whether tokens open a list when as many lists are open as a limit allows. -/
def Exceeds (limit : Int) (tokens : List Token) : Prop :=
  ∃ front t back, tokens = front ++ t :: back ∧ t.kind = .openParen ∧ limit < depth 0 front + 1

theorem tooDeep?_eq_none_iff {limit : Int} {n : Nat} {tokens : List Token} :
    tooDeep? limit n tokens = none ↔ ∀ front t back, tokens = front ++ t :: back →
      t.kind = .openParen → (depth n front + 1 : Int) ≤ limit := by
  induction tokens generalizing n with
  | nil => simp [tooDeep?]
  | cons u rest ih =>
      have split (m : Nat) (inside : ∀ front, depth n (u :: front) = depth m front) :
          (∀ front t back, u :: rest = front ++ t :: back → t.kind = .openParen →
            (depth n front + 1 : Int) ≤ limit) ↔
          (u.kind = .openParen → (n + 1 : Int) ≤ limit) ∧ tooDeep? limit m rest = none := by
        rw [ih]
        constructor
        · refine fun all => ⟨fun opens => all [] u rest rfl opens,
            fun front t back same opens => ?_⟩
          rw [← inside]
          exact all (u :: front) t back (by rw [same, List.cons_append]) opens
        · rintro ⟨here, later⟩ front t back same opens
          cases front with
          | nil =>
              obtain ⟨rfl, rfl⟩ := List.cons.inj same
              exact here opens
          | cons v front =>
              obtain ⟨rfl, behind⟩ := List.cons.inj same
              rw [inside]
              exact later front t back behind opens
      rw [tooDeep?]
      cases kind : u.kind with
      | openParen =>
          rw [split (n + 1) fun front => by simp [depth, kind]]
          by_cases deep : limit < (n : Int) + 1
          · simp [deep, kind]
            omega
          · simp [deep, kind]
            omega
      | closeParen =>
          rw [split (n - 1) fun front => by simp [depth, kind]]
          simp [kind]
      | _ =>
          rw [split n fun front => by simp [depth, kind]]
          simp [kind]

theorem tooDeep?_eq_none {limit : Int} {tokens : List Token} :
    tooDeep? limit 0 tokens = none ↔ ¬Exceeds limit tokens := by
  simp [tooDeep?_eq_none_iff, Exceeds]

theorem mem_of_tooDeep? {limit : Int} {n : Nat} {tokens : List Token} {t : Token}
    (found : tooDeep? limit n tokens = some t) : t ∈ tokens := by
  fun_induction tooDeep? limit n tokens with
  | case1 => simp at found
  | case2 n u rest opens deep =>
      obtain rfl := Option.some.inj found
      exact List.mem_cons_self
  | case3 n u rest opens shallow ih => exact List.mem_cons_of_mem u (ih found)
  | case4 n u rest closes ih => exact List.mem_cons_of_mem u (ih found)
  | case5 n u rest opens closes ih => exact List.mem_cons_of_mem u (ih found)

/-- Whether tokens begin with the opening parenthesis and the name of a root form. -/
def startsRoot : List Token → Bool
  | opener :: name :: _ => opener.kind == .openParen && name.isSymbol Schema.rootForm
  | _ => false

theorem opens_of_startsRoot {t : Token} {rest : List Token}
    (starts : startsRoot (t :: rest) = true) :
    t.kind = .openParen := by
  cases rest with
  | nil => simp [startsRoot] at starts
  | cons name rest =>
      simp only [startsRoot, Bool.and_eq_true, beq_iff_eq] at starts
      exact starts.1

theorem ending_concat_eof {front : List Token} (inner : ∀ t ∈ front, t.kind ≠ .eof) (p : Position) :
    ending (front ++ [eof p]) = eof p := by
  have none : front.find? isEnd = none := by
    refine List.find?_eq_none.mpr fun t member => ?_
    simpa [isEnd] using inner t member
  simp [ending, List.find?_append, none, isEnd, eof]

end Token

namespace Document

open Form

variable {front : List Token} {p : Position}

theorem rootForm_eq_read {tokens rest : List Token} {t : Token}
    (before : Token.beforeEnd tokens = t :: rest) (opens : t.kind = .openParen) :
    rootForm tokens = OpenList.read (Token.ending tokens) ⟨t, []⟩ [] rest := by
  rw [rootForm, before]
  simp [opens]

/-- The first form of tokens that begin with a parenthesis is a list.  Its tokens and those behind
it are the tokens before the end, with the end for each list that is open there. -/
theorem rootForm_of_beforeEnd {tokens rest : List Token} {t : Token}
    (before : Token.beforeEnd tokens = t :: rest) (opens : t.kind = .openParen) :
    ∃ items closer behind unclosed,
      rootForm tokens = (.list t items closer, behind) ∧
      (Form.list t items closer).Shaped ∧
      (Form.list t items closer).tokens ++ behind =
        t :: rest ++ List.replicate unclosed (Token.ending tokens) ∧
      (unclosed = 0 ∨ behind = []) := by
  have shaped := OpenList.shaped_read (kind_ending tokens) rest (l := ⟨t, []⟩) ⟨opens, by simp⟩
    fun m member => absurd member List.not_mem_nil
  obtain ⟨unclosed, same, bound⟩ := OpenList.tokens_read (Token.ending tokens) ⟨t, []⟩ [] rest
  have inside : (rootForm tokens).1.tokens ++ (rootForm tokens).2 =
      t :: rest ++ List.replicate unclosed (Token.ending tokens) := by
    rw [rootForm_eq_read before opens, same]
    simp [OpenList.tokens, tokensAll]
  rw [← rootForm_eq_read before opens] at shaped bound
  cases root : rootForm tokens with
  | mk form behind =>
      rw [root] at shaped bound inside
      cases form with
      | atom u =>
          obtain ⟨rfl, -⟩ : u = t ∧ _ := by simpa [Form.tokens] using inside
          exact absurd opens shaped.1
      | list opener items closer =>
          obtain ⟨rfl, -⟩ : opener = t ∧ _ := by simpa [Form.tokens] using inside
          exact ⟨items, closer, behind, unclosed, rfl, shaped, inside, bound⟩

theorem rootForm_of_opens {t : Token} {rest : List Token}
    (inner : ∀ u ∈ t :: rest, u.kind ≠ .eof) (opens : t.kind = .openParen) :
    ∃ items closer behind unclosed,
      rootForm (t :: rest ++ [Token.eof p]) = (.list t items closer, behind) ∧
      (Form.list t items closer).Shaped ∧
      (Form.list t items closer).tokens ++ behind =
        t :: rest ++ List.replicate unclosed (Token.eof p) ∧
      (unclosed = 0 ∨ behind = []) := by
  have whole := rootForm_of_beforeEnd (Balance.beforeEnd_concat_eof inner p) opens
  rwa [Token.ending_concat_eof inner] at whole

/-- The root form is named at its head exactly if the source is. -/
theorem startsRoot_iff {t closer : Token} {rest behind : List Token} {items : List Form}
    {unclosed : Nat} (inner : ∀ u ∈ t :: rest, u.kind ≠ .eof)
    (shaped : (Form.list t items closer).Shaped)
    (tokens : (Form.list t items closer).tokens ++ behind =
      t :: rest ++ List.replicate unclosed (Token.eof p)) :
    Token.startsRoot (t :: rest ++ [Token.eof p]) = true ↔
      ∃ name others, items = .atom name :: others ∧ name.isSymbol Schema.rootForm = true := by
  obtain ⟨opens, closes, inside⟩ := shaped
  have behindOpener : tokensAll items ++ closer :: behind =
      rest ++ List.replicate unclosed (Token.eof p) := by
    simpa [Form.tokens] using tokens
  have notEnd {u : Token} (symbol : u.isSymbol Schema.rootForm = true) : u.kind = .symbol := by
    simp only [Token.isSymbol, Bool.and_eq_true, beq_iff_eq] at symbol
    exact symbol.1
  constructor
  · intro starts
    cases rest with
    | nil => simp [Token.startsRoot, Token.isSymbol, Token.eof] at starts
    | cons name rest =>
        have symbol : name.isSymbol Schema.rootForm = true := by
          simpa [Token.startsRoot, opens] using starts
        cases items with
        | nil =>
            obtain ⟨rfl, -⟩ := List.cons.inj behindOpener
            rcases closes with closes | ends
            · exact absurd (closes.symm.trans (notEnd symbol)) (by decide)
            · exact absurd (ends.symm.trans (notEnd symbol)) (by decide)
        | cons form others =>
            cases form with
            | atom u =>
                obtain ⟨rfl, -⟩ : u = name ∧ _ := by
                  simpa [tokensAll, Form.tokens] using behindOpener
                exact ⟨u, others, rfl, symbol⟩
            | list opener' items' closer' =>
                obtain ⟨rfl, -⟩ : opener' = name ∧ _ := by
                  simpa [tokensAll, Form.tokens] using behindOpener
                exact absurd (inside.1.1.symm.trans (notEnd symbol)) (by decide)
  · rintro ⟨name, others, rfl, symbol⟩
    have head : name :: (tokensAll others ++ closer :: behind) =
        rest ++ List.replicate unclosed (Token.eof p) := by
      simpa [tokensAll, Form.tokens] using behindOpener
    cases rest with
    | nil =>
        have isEof : name ∈ List.replicate unclosed (Token.eof p) := by
          rw [List.nil_append] at head
          simp [← head]
        obtain rfl := List.eq_of_mem_replicate isEof
        exact absurd (notEnd symbol) (by simp [Token.eof])
    | cons u rest =>
        obtain ⟨rfl, -⟩ := List.cons.inj head
        simp [Token.startsRoot, opens, symbol]

theorem rootItems_of_isSymbol {name : Token} (closer : Token) (items : List Form)
    (symbol : name.isSymbol Schema.rootForm = true) :
    rootItems closer (.atom name :: items) = pure items := by
  simp only [Token.isSymbol, Bool.and_eq_true, beq_iff_eq] at symbol
  simp [rootItems, Form.first, Attempt.expect, symbol]

/-- Items that do not begin with the name of a root form fail at their first token. -/
theorem rootItems_fails {opener closer : Token} {items : List Form}
    (shaped : (Form.list opener items closer).Shaped)
    (other : ¬∃ name others, items = .atom name :: others ∧ name.isSymbol Schema.rootForm = true) :
    ∃ cause, rootItems closer items =
      Attempt.fail cause ((items.head?.map Form.first).getD closer) := by
  unfold rootItems Attempt.expect
  split
  · rename_i symbol
    simp only [pure_bind]
    split
    · exact ⟨_, rfl⟩
    · rename_i isRoot
      refine absurd ?_ other
      cases items with
      | nil =>
          rcases shaped.2.1 with closes | ends
          · exact absurd (closes.symm.trans symbol) (by decide)
          · exact absurd (ends.symm.trans symbol) (by decide)
      | cons form others =>
          cases form with
          | atom u =>
              have isRoot : u.value = Schema.rootForm := by simpa [Form.first] using isRoot
              have symbol : u.kind = .symbol := symbol
              exact ⟨u, others, rfl, by simp [Token.isSymbol, symbol, isRoot]⟩
          | list opener' items' closer' =>
              exact absurd (shaped.2.2.1.1.symm.trans symbol) (by decide)
  · exact ⟨_, rfl⟩

/-- The document of a source with a root form is made of what the forms in it add. -/
theorem ofTokens_of_startsRoot {limit : Int} (inner : ∀ t ∈ front, t.kind ≠ .eof)
    (shallow : ¬Token.Exceeds limit (front ++ [Token.eof p]))
    (starts : Token.startsRoot (front ++ [Token.eof p]) = true) :
    ∃ opener name items closer behind unclosed,
      rootForm (front ++ [Token.eof p]) = (.list opener (.atom name :: items) closer, behind) ∧
      ofTokens limit (front ++ [Token.eof p]) = (do
        let found ← entries items
        checkEnd closer behind
        return ofEntries found (← Attempt.place opener closer)) ∧
      name.isSymbol Schema.rootForm = true ∧
      (Form.list opener (.atom name :: items) closer).Shaped ∧
      (Form.list opener (.atom name :: items) closer).tokens ++ behind =
        front ++ List.replicate unclosed (Token.eof p) ∧
      (unclosed = 0 ∨ behind = []) := by
  cases front with
  | nil => simp [Token.startsRoot] at starts
  | cons t rest =>
      have opens : t.kind = .openParen := Token.opens_of_startsRoot starts
      obtain ⟨items, closer, behind, unclosed, root, shaped, tokens, bound⟩ :=
        rootForm_of_opens (p := p) inner opens
      obtain ⟨name, others, rfl, symbol⟩ := (startsRoot_iff inner shaped tokens).mp starts
      refine ⟨t, name, others, closer, behind, unclosed, root, ?_, symbol, shaped, tokens, bound⟩
      rw [ofTokens, Token.tooDeep?_eq_none.mpr shallow, root]
      simp only [ofForm, rootItems_of_isSymbol closer others symbol, pure_bind]

/-- A source whose lists are nested too deeply, or without a root form, has no document, and one
fault at one of its tokens. -/
theorem ofTokens_fails {limit : Int} (inner : ∀ t ∈ front, t.kind ≠ .eof)
    (none : Token.Exceeds limit (front ++ [Token.eof p]) ∨
      Token.startsRoot (front ++ [Token.eof p]) = false) :
    ∃ cause, ∃ t ∈ front ++ [Token.eof p],
      ofTokens limit (front ++ [Token.eof p]) = Attempt.fail cause t := by
  unfold ofTokens
  cases deep : Token.tooDeep? limit 0 (front ++ [Token.eof p]) with
  | some t => exact ⟨_, t, Token.mem_of_tooDeep? deep, rfl⟩
  | none =>
      have unnamed := none.resolve_left (Token.tooDeep?_eq_none.mp deep)
      cases front with
      | nil => exact ⟨_, Token.eof p, by simp, rfl⟩
      | cons t rest =>
          by_cases opens : t.kind = .openParen
          · obtain ⟨items, closer, behind, unclosed, root, shaped, tokens, -⟩ :=
              rootForm_of_opens (p := p) inner opens
            have other := mt (startsRoot_iff inner shaped tokens).mpr (Bool.not_eq_true _ ▸ unnamed)
            obtain ⟨cause, fails⟩ := rootItems_fails shaped other
            refine ⟨cause, (items.head?.map Form.first).getD closer, ?_, ?_⟩
            · have inside : (items.head?.map Form.first).getD closer ∈
                  (Form.list t items closer).tokens ++ behind := by
                cases items with
                | nil => simp [Form.tokens]
                | cons form others =>
                    obtain ⟨back, same⟩ := form.tokens_eq_cons
                    simp [Form.tokens, tokensAll, same]
              rw [tokens] at inside
              rcases List.mem_append.mp inside with early | last
              · exact List.mem_append_left _ early
              · rw [List.eq_of_mem_replicate last]
                exact List.mem_append_right _ (List.mem_singleton_self _)
            · rw [root]
              simp only [ofForm, fails, Attempt.fail_bind]
          · have root : rootForm (t :: rest ++ [Token.eof p]) = (.atom t, rest) := by
              rw [rootForm, Balance.beforeEnd_concat_eof inner]
              simp [opens]
            exact ⟨_, t, by simp, by rw [root]; rfl⟩

end Document
end Wireframe
