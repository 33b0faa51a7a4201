import Wireframe.Proofs.Root

/-!
# Closed forms

A form is closed if every list in it is ended by a closing parenthesis of its own.  The tokens of a
closed form are read as that form, and the lists of settled tokens are closed.
-/

namespace Wireframe

open Balance

namespace Form

/-- Whether every list in a form of a source is closed. -/
structure Closed (form : Form) : Prop where
  shaped : form.Shaped
  inner : ∀ t ∈ form.tokens, t.kind ≠ .eof

variable {opener closer : Token} {items : List Form}

theorem closed_atom_iff {t : Token} :
    (atom t).Closed ↔ (t.kind ≠ .openParen ∧ t.kind ≠ .closeParen) ∧ t.kind ≠ .eof :=
  ⟨fun closed => ⟨closed.shaped, closed.inner t (by simp [tokens])⟩,
    fun kinds => ⟨kinds.1, by simpa [tokens] using kinds.2⟩⟩

theorem closed_list_iff : (list opener items closer).Closed ↔
    opener.kind = .openParen ∧ closer.kind = .closeParen ∧ ∀ item ∈ items, item.Closed := by
  constructor
  · rintro ⟨⟨opens, ends, shaped⟩, inner⟩
    have notEnd : closer.kind ≠ .eof := inner closer (by simp [tokens])
    refine ⟨opens, ends.resolve_right notEnd, fun item member => ?_⟩
    have inside := (tokens_infix_tokensAll member).trans
      (tokensAll_infix_tokens opener items closer)
    exact ⟨shapedAll_iff.mp shaped item member, fun t inItem => inner t (inside.mem inItem)⟩
  · rintro ⟨opens, closes, closed⟩
    refine ⟨⟨opens, Or.inl closes,
      shapedAll_iff.mpr fun item member => (closed item member).shaped⟩,
      fun t member => ?_⟩
    have cases : t = opener ∨ (∃ item ∈ items, t ∈ item.tokens) ∨ t = closer := by
      simpa [tokens, tokensAll_eq_flatMap] using member
    rcases cases with rfl | ⟨item, isItem, inItem⟩ | rfl
    · simp [opens]
    · exact (closed item isItem).inner t inItem
    · simp [closes]

/-- No end of a source stands for the closing parentheses of a closed form. -/
theorem Closed.tokens_append {form : Form} {front behind : List Token} {eof : Token} {n : Nat}
    (closed : form.Closed) (ends : eof.kind = .eof)
    (tokens : form.tokens ++ behind = front ++ List.replicate n eof) (bound : n = 0 ∨ behind = []) :
    form.tokens ++ behind = front := by
  cases n with
  | zero => simpa using tokens
  | succ n =>
      obtain rfl := bound.resolve_left (Nat.succ_ne_zero n)
      refine absurd ends (closed.inner eof ?_)
      rw [List.append_nil] at tokens
      simp [tokens]

/-- How much of the head of a definition is made up behind a closed form. -/
theorem heading_tokens_of_closed {form : Form} (closed : form.Closed) (before : List Token) :
    heading (form.tokens.reverse ++ before) = past (heading before) form := by
  cases form with
  | atom t => rfl
  | list opener items closer =>
      simp only [tokens, List.reverse_append, List.reverse_cons, List.reverse_nil, List.nil_append,
        List.cons_append]
      exact heading_of_closeParen (closed_list_iff.mp closed).2.1 _

theorem heading_tokensAll_of_closed {forms : List Form} (closed : ∀ form ∈ forms, form.Closed)
    (before : List Token) :
    heading ((tokensAll forms).reverse ++ before) = forms.foldl past (heading before) := by
  induction forms generalizing before with
  | nil => rfl
  | cons form rest ih =>
      rw [tokensAll, List.reverse_append, List.append_assoc,
        ih fun other later => closed other (List.mem_cons_of_mem form later),
        heading_tokens_of_closed (closed form List.mem_cons_self), List.foldl_cons]

private theorem past_eq_titled {h : Heading} {form : Form} (titled : past h form = .titled) :
    ∃ name, form = .atom name ∧ h = .defining := by
  cases form with
  | list => simp [past] at titled
  | atom t =>
      refine ⟨t, rfl, ?_⟩
      rw [past] at titled
      unfold Heading.past at titled
      split at titled
      · simp at titled
      · cases h with
        | defining => rfl
        | nothing => simp at titled
        | opened => simp only at titled; split at titled <;> simp at titled
        | titled => simp at titled

private theorem past_eq_defining {h : Heading} {form : Form} (defining : past h form = .defining) :
    ∃ word, form = .atom word ∧ h = .opened ∧ word.isSymbol Schema.defineForm = true := by
  cases form with
  | list => simp [past] at defining
  | atom t =>
      refine ⟨t, rfl, ?_⟩
      rw [past] at defining
      unfold Heading.past at defining
      split at defining
      · simp at defining
      · cases h with
        | opened => exact ⟨rfl, by simpa using defining⟩
        | nothing => simp at defining
        | defining => simp only at defining; split at defining <;> simp at defining
        | titled => simp at defining

private theorem past_ne_opened {form : Form} (closed : form.Closed) (h : Heading) :
    past h form ≠ .opened := by
  cases form with
  | list => simp [past]
  | atom t =>
      rw [past]
      unfold Heading.past
      rw [if_neg (closed_atom_iff.mp closed).1.1]
      cases h with
      | opened => simp only; split <;> simp
      | defining => simp only; split <;> simp
      | nothing => simp
      | titled => simp

/-- The head of a definition in a list is made up of its first two atoms. -/
theorem eq_of_foldl_past_titled {forms : List Form} (closed : ∀ form ∈ forms, form.Closed)
    (titled : forms.foldl past .opened = .titled) :
    ∃ word name, forms = [.atom word, .atom name] ∧ word.isSymbol Schema.defineForm = true := by
  rcases List.eq_nil_or_concat forms with rfl | ⟨front, last, rfl⟩
  · simp at titled
  · rw [List.concat_eq_append, List.foldl_append] at titled
    obtain ⟨name, rfl, defining⟩ := past_eq_titled titled
    rcases List.eq_nil_or_concat front with rfl | ⟨front', word, rfl⟩
    · simp at defining
    · rw [List.concat_eq_append, List.foldl_append] at defining
      obtain ⟨word, rfl, opened, isDefine⟩ := past_eq_defining defining
      rcases List.eq_nil_or_concat front' with rfl | ⟨front'', other, rfl⟩
      · exact ⟨word, name, by simp, isDefine⟩
      · rw [List.concat_eq_append, List.foldl_append] at opened
        exact absurd opened (past_ne_opened (closed other (by simp)) _)

mutual

theorem read_tokens (eof : Token) (rest : List Token) :
    ∀ (form : Form) (l : OpenList) (outer : List OpenList), form.Closed →
      OpenList.read eof l outer (form.tokens ++ rest) = OpenList.read eof (l.add form) outer rest
  | .atom t, l, outer, closed => by
      obtain ⟨⟨notOpen, notClose⟩, -⟩ := closed_atom_iff.mp closed
      rw [tokens, List.singleton_append, OpenList.read_other eof l outer notOpen notClose]
  | .list opener items closer, l, outer, closed => by
      obtain ⟨opens, closes, inner⟩ := closed_list_iff.mp closed
      rw [tokens, List.cons_append, List.cons_append, List.append_assoc,
        OpenList.read_openParen eof l outer opens, read_tokensAll eof _ items _ _ inner,
        List.singleton_append, OpenList.read_closeParen_cons eof _ l outer closes]
      simp [OpenList.close]

theorem read_tokensAll (eof : Token) (rest : List Token) :
    ∀ (forms : List Form) (l : OpenList) (outer : List OpenList), (∀ form ∈ forms, form.Closed) →
      OpenList.read eof l outer (tokensAll forms ++ rest) =
        OpenList.read eof ⟨l.opener, forms.reverse ++ l.items⟩ outer rest
  | [], l, outer, _ => by simp [tokensAll]
  | form :: forms, l, outer, closed => by
      rw [tokensAll, List.append_assoc,
        read_tokens eof _ form l outer (closed form List.mem_cons_self),
        read_tokensAll eof rest forms _ outer fun other later =>
          closed other (List.mem_cons_of_mem form later)]
      simp [OpenList.add]

end

end Form

namespace OpenList

/-- Whether an open list of a source holds closed forms. -/
def Closed (l : OpenList) : Prop :=
  l.opener.kind = .openParen ∧ ∀ form ∈ l.items, form.Closed

theorem Closed.add {l : OpenList} (closed : l.Closed) {form : Form} (item : form.Closed) :
    (l.add form).Closed := by
  refine ⟨closed.1, fun other member => ?_⟩
  rcases List.mem_cons.mp member with rfl | earlier
  · exact item
  · exact closed.2 other earlier

theorem Closed.close {l : OpenList} (closed : l.Closed) {closer : Token}
    (closes : closer.kind = .closeParen) : (l.close closer).Closed :=
  Form.closed_list_iff.mpr ⟨closed.1, closes, fun form member =>
    closed.2 form (List.mem_reverse.mp member)⟩

/-- Settled tokens are read as a closed form. -/
theorem closed_read {eof : Token} {l : OpenList} {outer : List OpenList} {stack : List String}
    {before tokens : List Token} (settled : Settled stack (Token.named before tokens))
    (depth : stack.length = outer.length + 1) (inner : ∀ t ∈ tokens, t.kind ≠ .eof)
    (closed : l.Closed) (around : ∀ m ∈ outer, m.Closed) :
    (read eof l outer tokens).1.Closed := by
  induction tokens generalizing l outer stack before with
  | nil =>
      obtain rfl : stack = [] := settled
      simp at depth
  | cons t rest ih =>
      obtain ⟨notEnd, inner⟩ := List.forall_mem_cons.mp inner
      rw [Token.named] at settled
      rcases paren_cases t with opens | closes | ⟨opens, closes⟩
      · rw [read_openParen eof l outer opens]
        refine ih ((settled_openParen opens).mp settled).2 (by simp [depth]) inner
          ⟨opens, by simp⟩ ?_
        exact List.forall_mem_cons.mpr ⟨closed, around⟩
      · cases stack with
        | nil => simp at depth
        | cons name stack =>
            have later := (settled_closeParen closes).mp settled
            cases outer with
            | nil =>
                rw [read_closeParen_nil eof l closes]
                exact closed.close closes
            | cons parent outer =>
                obtain ⟨here, around⟩ := List.forall_mem_cons.mp around
                rw [read_closeParen_cons eof l parent outer closes]
                exact ih later (by simpa using depth) inner (here.add (closed.close closes)) around
      · rw [read_other eof l outer opens closes]
        exact ih ((settled_other opens closes).mp settled) depth inner
          (closed.add (Form.closed_atom_iff.mpr ⟨⟨opens, closes⟩, notEnd⟩)) around

end OpenList

theorem Document.closed_rootForm {front : List Token} {p : Position}
    (inner : ∀ t ∈ front, t.kind ≠ .eof) (settled : Settled [] (Token.named [] front))
    (starts : Token.startsRoot (front ++ [Token.eof p]) = true) :
    (rootForm (front ++ [Token.eof p])).1.Closed := by
  cases front with
  | nil => simp [Token.startsRoot] at starts
  | cons t rest =>
      have opens := Token.opens_of_startsRoot starts
      rw [rootForm_eq_read (beforeEnd_concat_eof inner p) opens, Token.ending_concat_eof inner]
      rw [Token.named] at settled
      exact OpenList.closed_read ((settled_openParen opens).mp settled).2 rfl
        (List.forall_mem_cons.mp inner).2 ⟨opens, by simp⟩ (by simp)

end Wireframe
