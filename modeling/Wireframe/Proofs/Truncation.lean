import Wireframe.Proofs.Chart
import Wireframe.Proofs.Skipping

/-!
# Documents that are cut off

Where the tokens of a document end among its forms, every list that is open there ends with them.
No form that is cut off adds anything to the document, so that what is read is what the forms before
it add, and the last fault is that the root form is not closed.
-/

namespace Wireframe

open Balance

/-- The rows that lie wholly among the first tokens of all rows. -/
def Token.whole : Nat → List (List Token) → List (List Token)
  | _, [] => []
  | n, row :: rest => if row.length ≤ n then row :: whole (n - row.length) rest else []

namespace Form

/-- Whether tokens are a part of a closed list that is neither empty nor all of it. -/
structure CutOff (part : List Token) (form : Form) : Prop where
  closed : form.ClosedList
  inside : part <+: form.tokens
  nonempty : part ≠ []
  short : part.length < form.tokens.length

/-- The first tokens of closed lists are those of the lists that lie wholly among them, and behind
these at most a part of the next. -/
theorem take_tokensAll {forms : List Form} (lists : ∀ form ∈ forms, form.ClosedList) (n : Nat) :
    ∃ front back part, forms = front ++ back ∧
      Token.whole n (forms.map tokens) = front.map tokens ∧
      (tokensAll forms).take n = tokensAll front ++ part ∧
      (part = [] ∨ ∃ form ∈ back.head?, CutOff part form) := by
  induction forms generalizing n with
  | nil => exact ⟨[], [], [], rfl, rfl, by simp [tokensAll], Or.inl rfl⟩
  | cons form rest ih =>
      obtain ⟨here, later⟩ := List.forall_mem_cons.mp lists
      rw [List.map_cons, Token.whole, tokensAll]
      by_cases fits : form.tokens.length ≤ n
      · obtain ⟨front, back, part, rfl, rows, taken, cut⟩ := ih later (n - form.tokens.length)
        refine ⟨form :: front, back, part, rfl, ?_, ?_, cut⟩
        · rw [if_pos fits, rows, List.map_cons]
        · rw [List.take_append, List.take_of_length_le fits, taken, tokensAll, List.append_assoc]
      · refine ⟨[], form :: rest, form.tokens.take n, rfl, if_neg fits, ?_, ?_⟩
        · rw [List.take_append_of_le_length (by omega)]
          rfl
        · by_cases none : form.tokens.take n = []
          · exact Or.inl none
          · refine Or.inr ⟨form, rfl, here, List.take_prefix _ _, none, ?_⟩
            rw [List.length_take]
            omega

end Form

namespace OpenList

private theorem exists_closeAll (eof : Token) (l : OpenList) (outer : List OpenList) :
    ∃ opener items, closeAll eof l outer = .list opener items eof := by
  induction outer generalizing l with
  | nil => exact ⟨l.opener, l.items.reverse, rfl⟩
  | cons parent outer ih => exact ih _

private theorem nested_tail {t : Token} {rest : List Token} {n : Nat}
    (nested : ∀ front back, t :: rest = front ++ back → 0 ≤ n + unclosed front)
    {front back : List Token} (split : rest = front ++ back) :
    0 ≤ n + (unclosed [t] + unclosed front) := by
  rw [← unclosed_cons]
  exact nested (t :: front) back (by rw [split, List.cons_append])

/-- Tokens that close no more lists than stand around a list leave one open, which ends where they
end. -/
theorem read_of_nested (eof : Token) (l : OpenList) (outer : List OpenList) {tokens : List Token}
    (nested : ∀ front back, tokens = front ++ back → 0 ≤ outer.length + unclosed front) :
    ∃ opener items, read eof l outer tokens = (.list opener items eof, []) := by
  fun_induction read eof l outer tokens with
  | case1 l outer =>
      obtain ⟨opener, items, same⟩ := exists_closeAll eof l outer
      exact ⟨opener, items, by rw [same]⟩
  | case2 l outer t rest opens ih =>
      refine ih fun front back split => ?_
      have bound := nested_tail nested split
      rw [unclosed_openParen opens] at bound
      rw [List.length_cons]
      omega
  | case3 l t rest closes =>
      have surplus := nested [t] rest rfl
      rw [unclosed_closeParen closes] at surplus
      exact absurd surplus (by decide)
  | case4 l t rest closes parent outer ih =>
      refine ih fun front back split => ?_
      have bound := nested_tail nested split
      rw [unclosed_closeParen closes, List.length_cons] at bound
      omega
  | case5 l outer t rest opens closes ih =>
      refine ih fun front back split => ?_
      have bound := nested_tail nested split
      rw [unclosed_other opens closes] at bound
      omega

theorem read_cutOff (eof : Token) (root : OpenList) {part : List Token} {form : Form}
    (cut : form.CutOff part) :
    ∃ opener items, read eof root [] part =
      ((root.add (.list opener items eof)).close eof, []) := by
  obtain ⟨closed, inside, nonempty, short⟩ := cut
  obtain ⟨opener, items, closer, rfl⟩ := closed.eq_list
  obtain ⟨opens, closes, inner⟩ := Form.closed_list_iff.mp closed.1
  have paired := Form.paired_tokensAll items inner
  rw [Form.tokens, List.cons_append] at inside short
  cases part with
  | nil => exact absurd rfl nonempty
  | cons t rest =>
      obtain ⟨rfl, behind⟩ := List.cons_prefix_cons.mp inside
      have within : rest <+: Form.tokensAll items := by
        refine List.prefix_of_prefix_length_le behind (List.prefix_append _ _) ?_
        have bound : rest.length < (Form.tokensAll items).length + 1 := by simpa using short
        omega
      have nested (front back : List Token) (split : rest = front ++ back) :
          0 ≤ (0 : Nat) + unclosed front := by
        obtain ⟨others, whole⟩ := within
        have := paired.nested front (back ++ others) (by rw [← whole, split, List.append_assoc])
        simpa using this
      obtain ⟨first, cutOff, same⟩ := read_of_nested eof ⟨t, []⟩ [] nested
      refine ⟨first, cutOff, ?_⟩
      rw [read_openParen eof root [] opens, ← List.nil_append [root], read_inside, same]
      rfl

end OpenList

namespace Form

variable {opener closer : Token} {items : List Form}

open Parts in
theorem closes_of_added (shaped : (list opener items closer).Shaped) {entry : Entry}
    (adds : (list opener items closer).added = some entry) :
    closer.kind = .closeParen := by
  have read := Attempt.value?_eq_some.mp (Option.join_eq_some_iff.mp adds)
  obtain ⟨⟨word, left⟩, named, behind, -⟩ := Attempt.of_bind_value read
  obtain ⟨name, head, -, -⟩ :=
    symbol_eq_pure shaped (Attempt.eq_pure_of_value (noted_symbol _ _) named)
  have atoms : ∀ t ∈ left, t ∈ (list opener items closer).parts.head := fun t member => by
    rw [head]
    exact List.mem_cons_of_mem name member
  have ofNext {t : Token} (ends : (Attempt.expect .closeParen
      (list opener items closer).parts.next).outcome = .value t) : closer.kind = .closeParen :=
    (closes_of_next shaped (Attempt.expect_eq_pure_iff.mp (Attempt.expect_of_value ends)).1).1
  simp only at behind
  split at behind
  · obtain ⟨i, inclusion, -⟩ := Attempt.of_bind_value behind
    rw [toInclude] at inclusion
    simp only at inclusion
    split at inclusion
    · cases inclusion
    · obtain ⟨t, ends, -⟩ := Attempt.of_bind_value inclusion
      exact (closes_of_current shaped (fun t member => atoms t (List.mem_of_mem_tail member))
        (Attempt.expect_of_value ends)).2.2.closer_kind
  · obtain ⟨facts, stated, -⟩ := Attempt.of_bind_value behind
    obtain ⟨⟨facts', left'⟩, clauses, later, -⟩ := Attempt.of_bind_value stated
    obtain ⟨t, ends, -⟩ := Attempt.of_bind_value later
    exact (closes_of_current shaped (fun t member => atoms t (mem_of_readClauses clauses t member))
      (Attempt.expect_of_value ends)).2.2.closer_kind
  · obtain ⟨c, component, -⟩ := Attempt.of_bind_value behind
    obtain ⟨-, n, m, child, t, location, -, -, -, ends, -⟩ := component_of_value component
    exact ofNext ends
  · obtain ⟨l, layout, -⟩ := Attempt.of_bind_value behind
    obtain ⟨⟨title, left'⟩, -, later, -⟩ := Attempt.of_bind_value layout
    obtain ⟨⟨body, rest⟩, -, later, -⟩ := Attempt.of_bind_value later
    obtain ⟨t, ends, -⟩ := Attempt.of_bind_value later
    exact ofNext (closeBody_of_value ends).2
  · obtain ⟨s, screen, -⟩ := Attempt.of_bind_value behind
    obtain ⟨⟨id, left'⟩, named, later, -⟩ := Attempt.of_bind_value screen
    obtain ⟨⟨options, left''⟩, clauses, later, -⟩ := Attempt.of_bind_value later
    obtain ⟨⟨root, overlays⟩, -, later, -⟩ := Attempt.of_bind_value later
    obtain ⟨t, ends, -⟩ := Attempt.of_bind_value later
    obtain ⟨u, rfl, -⟩ :=
      symbol_eq_pure shaped (Attempt.eq_pure_of_value (noted_symbol _ _) named)
    have inside : ∀ t ∈ left'', t ∈ (list opener items closer).parts.head := fun t member =>
      atoms t (List.mem_cons_of_mem u (mem_of_title (mem_of_readClauses clauses t member)))
    exact (closes_of_closing shaped inside (Attempt.expect_of_value ends)).2.closer_kind
  · obtain ⟨-, -, same, -⟩ := Attempt.of_bind_value behind
    cases same

theorem added_of_ends (shaped : (list opener items closer).Shaped) (ends : closer.kind = .eof) :
    (list opener items closer).added = none := by
  cases found : (list opener items closer).added with
  | none => rfl
  | some entry =>
      exact absurd ((closes_of_added shaped found).symm.trans ends) (by decide)

end Form

namespace Casing

variable {c : Casing} {n : Nat} {rows : List (List Token)}

/-- The tokens of a list up to a number of tokens behind its head. -/
def cut (c : Casing) (n : Nat) (rows : List (List Token)) : List Token :=
  c.opener :: (c.head ++ rows.flatten.take n)

theorem cut_prefix_around : c.cut n rows <+: c.around rows := by
  obtain ⟨rest, same⟩ := List.take_prefix n rows.flatten
  refine ⟨rest ++ [c.closer], ?_⟩
  simp only [around, cut, List.cons_append, List.append_assoc, List.append_cancel_left_eq,
    List.cons.injEq, true_and]
  rw [← List.append_assoc, same]

theorem inner_cut (c : Casing) {forms : List Form} (lists : ∀ form ∈ forms, form.ClosedList) :
    ∀ t ∈ c.cut n (forms.map Form.tokens), t.kind ≠ .eof := by
  have whole := (c.closedList_list lists).1.inner
  rw [c.tokens_list] at whole
  exact fun t member => whole t (cut_prefix_around.mem member)

end Casing

namespace Token

variable {limit : Int} {left right : List Token}

theorem Exceeds.append (exceeds : Exceeds limit left) : Exceeds limit (left ++ right) := by
  obtain ⟨front, t, back, rfl, opens, deep⟩ := exceeds
  exact ⟨front, t, back ++ right, by simp, opens, deep⟩

theorem Exceeds.of_append (exceeds : Exceeds limit (left ++ right))
    (flat : ∀ t ∈ right, t.kind ≠ .openParen) : Exceeds limit left := by
  obtain ⟨front, t, back, split, opens, deep⟩ := exceeds
  rcases List.append_eq_append_iff.mp split with ⟨rest, rfl, same⟩ | ⟨rest, rfl, same⟩
  · refine absurd opens (flat t ?_)
    rw [same]
    simp
  · cases rest with
    | nil =>
        refine absurd opens (flat t ?_)
        rw [List.nil_append] at same
        simp [← same]
    | cons u rest =>
        obtain ⟨rfl, rfl⟩ := List.cons.inj same
        exact ⟨front, t, rest, rfl, opens, deep⟩

theorem beforeEnd_append_ends (inner : ∀ t ∈ left, t.kind ≠ .eof)
    (ends : ∀ t ∈ right, t.kind = .eof) : beforeEnd (left ++ right) = left := by
  rw [beforeEnd, List.takeWhile_append_of_pos fun t member => by simpa [isEnd] using inner t member]
  cases right with
  | nil => simp
  | cons t rest => simp [isEnd, ends t List.mem_cons_self]

end Token

namespace Document

theorem eq_ofEntries_of_value {items : List Form} {opener closer : Token} {behind : List Token}
    {d : Document} (read : (do
      let found ← entries items
      checkEnd closer behind
      return ofEntries found (← Attempt.place opener closer) : Attempt Document).outcome =
        .value d) :
    (∀ form ∈ items, form.entry?.Settles) ∧ opener.start.isProper = true ∧
      ∃ location, d = ofEntries (items.flatMap (·.added.toList)) location := by
  obtain ⟨found, here, later⟩ := Attempt.outcome_bind_eq_value.mp read
  obtain ⟨-, -, later⟩ := Attempt.outcome_bind_eq_value.mp later
  obtain ⟨location, placed, same⟩ := Attempt.outcome_bind_eq_value.mp later
  have settles := settles_of_entries here
  rw [entries_eq settles] at here
  obtain rfl := Outcome.value.inj here
  obtain rfl := Outcome.value.inj same
  refine ⟨settles, ?_, location, rfl⟩
  unfold Attempt.place at placed
  split at placed
  · assumption
  · cases placed

/-- What is read of a document that is cut off a number of tokens behind its head, with or without
an end of its own. -/
structure CutsOff (limit : Int) (root : Casing) (ending : Token) (rows : List (List Token))
    (n : Nat) (ends : List Token) : Prop where
  /-- Tokens as a source has them, without an infinite count, have a document. -/
  settles : (∀ t ∈ root.cut n rows, t.Readable) →
    (Token.ending (root.cut n rows ++ ends)).start.isProper →
    Token.FiniteCounts (root.cut n rows) →
    ∃ d, (ofTokens limit (root.cut n rows ++ ends)).outcome = .value d
  /-- A document joins the documents of the rows that are whole before the cut, and its last fault
  is that it is not closed. -/
  joins : ∀ d, (ofTokens limit (root.cut n rows ++ ends)).outcome = .value d →
    ∃ ds, List.Forall₂ (fun row part => (root.document limit ending [row]).outcome = .value part)
        (Token.whole n rows) ds ∧
      d.Joins ds ∧
      (ofTokens limit (root.cut n rows ++ ends)).faults.getLast?.map Fault.diagnostic =
        some ⟨"Missing closing parenthesis for 'wire'",
          (Token.ending (root.cut n rows ++ ends)).start⟩

section

variable {limit : Int} {root : Casing} {forms : List Form} {n : Nat} {ends : List Token}
  {eof : Token}

theorem rootForm_eq_read_behind {name : Token} {front : List Form} {tokens behind : List Token}
    (head : root.head = [name]) (closed : ∀ form ∈ front, form.Closed)
    (before : Token.beforeEnd tokens =
      root.opener :: (root.head ++ (Form.tokensAll front ++ behind))) :
    rootForm tokens = OpenList.read (Token.ending tokens)
      ⟨root.opener, front.reverse ++ [.atom name]⟩ [] behind := by
  have named : (Form.atom name).Closed :=
    Form.closed_atom_iff.mpr (root.atoms name (by simp [head]))
  have atoms : root.head = (Form.atom name).tokens := head
  rw [rootForm_eq_read before root.opens, atoms, Form.read_tokens _ _ _ _ _ named,
    Form.read_tokensAll _ _ _ _ _ closed]
  rfl

/-- The root form of a document that is cut off holds the forms that are whole before the cut, and
behind them at most one that ends where the tokens end. -/
theorem rootForm_cut (isRoot : root.IsRoot) (lists : ∀ form ∈ forms, form.ClosedList)
    (isEnd : ∀ t ∈ ends, t.kind = .eof)
    (isEof : Token.ending (root.cut n (forms.map Form.tokens) ++ ends) = eof) :
    ∃ name front back broken, name.isSymbol Schema.rootForm = true ∧ forms = front ++ back ∧
      Token.whole n (forms.map Form.tokens) = front.map Form.tokens ∧
      (∀ form ∈ broken, ∃ opener items, form = .list opener items eof) ∧
      rootForm (root.cut n (forms.map Form.tokens) ++ ends) =
        (.list root.opener (.atom name :: (front ++ broken)) eof, []) := by
  obtain ⟨name, head, symbol⟩ := isRoot
  obtain ⟨front, back, part, split, rows, taken, cut⟩ := Form.take_tokensAll lists n
  have tokens : root.cut n (forms.map Form.tokens) =
      root.opener :: (root.head ++ (Form.tokensAll front ++ part)) := by
    rw [Casing.cut, ← taken, Form.tokensAll_eq_flatMap, List.flatMap_def]
  have before := Token.beforeEnd_append_ends (root.inner_cut (n := n) lists) isEnd
  have closed : ∀ form ∈ front, form.Closed := fun form member =>
    (lists form (split ▸ List.mem_append_left back member)).1
  have read := rootForm_eq_read_behind head closed (before.trans tokens)
  rw [isEof] at read
  rcases cut with rfl | ⟨form, -, cut⟩
  · refine ⟨name, front, back, [], symbol, split, rows, by simp, ?_⟩
    rw [read, OpenList.read]
    simp [OpenList.closeAll, OpenList.close]
  · obtain ⟨opener, items, ended⟩ := OpenList.read_cutOff eof
      ⟨root.opener, front.reverse ++ [.atom name]⟩ cut
    refine ⟨name, front, back, [.list opener items eof], symbol, split, rows, by simp, ?_⟩
    exact (read.trans ended).trans (by simp [OpenList.close, OpenList.add])

theorem ofTokens_cut (isRoot : root.IsRoot) (lists : ∀ form ∈ forms, form.ClosedList)
    (isEnd : ∀ t ∈ ends, t.kind = .eof)
    (isEof : Token.ending (root.cut n (forms.map Form.tokens) ++ ends) = eof)
    (shallow : ¬Token.Exceeds limit (root.cut n (forms.map Form.tokens) ++ ends)) :
    ∃ name front back broken unclosed, forms = front ++ back ∧
      Token.whole n (forms.map Form.tokens) = front.map Form.tokens ∧
      (∀ form ∈ broken, ∃ opener items, form = .list opener items eof) ∧
      (Form.list root.opener (.atom name :: (front ++ broken)) eof).Shaped ∧
      (Form.list root.opener (.atom name :: (front ++ broken)) eof).tokens =
        root.cut n (forms.map Form.tokens) ++ List.replicate unclosed eof ∧
      ofTokens limit (root.cut n (forms.map Form.tokens) ++ ends) = (do
        let found ← entries (front ++ broken)
        checkEnd eof []
        return ofEntries found (← Attempt.place root.opener eof)) := by
  obtain ⟨name, front, back, broken, symbol, split, rows, ended, read⟩ :=
    rootForm_cut isRoot lists isEnd isEof
  have before : Token.beforeEnd (root.cut n (forms.map Form.tokens) ++ ends) =
      root.opener :: (root.head ++ (forms.map Form.tokens).flatten.take n) :=
    Token.beforeEnd_append_ends (root.inner_cut lists) isEnd
  obtain ⟨items, closer, behind, unclosed, same, shaped, tokens, -⟩ :=
    rootForm_of_beforeEnd before root.opens
  rw [read] at same
  obtain ⟨form, rfl⟩ := Prod.mk.inj same
  rw [← form] at shaped tokens
  rw [List.append_nil, isEof] at tokens
  refine ⟨name, front, back, broken, unclosed, split, rows, ended, shaped, tokens, ?_⟩
  rw [ofTokens, Token.tooDeep?_eq_none.mpr shallow, read]
  simp only [ofForm, rootItems_of_isSymbol _ _ symbol, pure_bind]

theorem settles_cut (isRoot : root.IsRoot) (lists : ∀ form ∈ forms, form.ClosedList)
    (isEnd : ∀ t ∈ ends, t.kind = .eof)
    (shallow : ¬Token.Exceeds limit (root.cut n (forms.map Form.tokens) ++ ends))
    (readable : ∀ t ∈ root.cut n (forms.map Form.tokens), t.Readable)
    (proper : (Token.ending (root.cut n (forms.map Form.tokens) ++ ends)).start.isProper = true)
    (counts : Token.FiniteCounts (root.cut n (forms.map Form.tokens))) :
    ∃ d, (ofTokens limit (root.cut n (forms.map Form.tokens) ++ ends)).outcome = .value d := by
  have isEnding := kind_ending (root.cut n (forms.map Form.tokens) ++ ends)
  obtain ⟨name, front, back, broken, unclosed, -, -, -, shaped, tokens, whole⟩ :=
    ofTokens_cut isRoot lists isEnd rfl shallow
  generalize Token.ending (root.cut n (forms.map Form.tokens) ++ ends) = eof at *
  have readable : ∀ t ∈ root.cut n (forms.map Form.tokens) ++ [eof], t.Readable := by
    intro t member
    rcases List.mem_append.mp member with early | last
    · exact readable t early
    · obtain rfl := List.mem_singleton.mp last
      exact ⟨proper, by simp [isEnding], fun _ _ => trivial⟩
  obtain ⟨sound, -⟩ := sound_of_tokens isEnding shaped readable counts.repeats
    ((List.append_nil _).trans tokens)
  have granted := Form.granted_of_position fun _ => True
  rw [whole]
  exact (yields_ofEntries granted sound (by simp)
    (fun form member => Form.holds_sound (sound.item (List.mem_cons_of_mem _ member)))
    fun _ => trivial).value

theorem joins_cut {ending : Token} (isRoot : root.IsRoot) (isEnding : ending.kind = .eof)
    (lists : ∀ form ∈ forms, form.ClosedList) (isEnd : ∀ t ∈ ends, t.kind = .eof)
    (shallow : ¬Token.Exceeds limit (root.around (forms.map Form.tokens) ++ [ending]))
    (isEof : Token.ending (root.cut n (forms.map Form.tokens) ++ ends) = eof)
    (shallow' : ¬Token.Exceeds limit (root.cut n (forms.map Form.tokens) ++ ends)) {d : Document}
    (read : (ofTokens limit (root.cut n (forms.map Form.tokens) ++ ends)).outcome = .value d) :
    ∃ ds, List.Forall₂ (fun row part => (root.document limit ending [row]).outcome = .value part)
        (Token.whole n (forms.map Form.tokens)) ds ∧
      d.Joins ds ∧ (ofTokens limit (root.cut n (forms.map Form.tokens) ++ ends)).faults.getLast? =
        some ⟨.unclosed Schema.rootForm, eof.start⟩ := by
  obtain ⟨name, front, back, broken, unclosed, rfl, rows, ended, shaped, -, whole⟩ :=
    ofTokens_cut isRoot lists isEnd isEof shallow'
  have isEnd : eof.kind = .eof := isEof ▸ kind_ending _
  rw [whole] at read ⊢
  obtain ⟨settles, proper, location, rfl⟩ := eq_ofEntries_of_value read
  obtain ⟨place, placed⟩ : ∃ place, Attempt.place root.opener root.closer = pure place :=
    ⟨_, Attempt.place_of_isProper proper⟩
  have nothing : broken.flatMap (·.added.toList) = [] := by
    refine List.flatMap_eq_nil_iff.mpr fun form member => ?_
    obtain ⟨opener, items, rfl⟩ := ended form member
    have inside := Form.shapedAll_iff.mp shaped.2.2 (.list opener items eof) (by simp [member])
    rw [Form.added_of_ends inside isEnd, Option.toList_none]
  refine ⟨(front.map Form.added).map fun entry => ofEntries entry.toList place, ?documents, ?joins,
    ?last⟩
  case documents =>
    rw [rows, List.map_map, List.forall₂_map_left_iff, List.forall₂_map_right_iff,
      List.forall₂_same]
    intro form member
    rw [document_singleton isRoot isEnding lists shallow placed (List.mem_append_left back member)
      (settles form (List.mem_append_left broken member))]
    rfl
  case joins =>
    rw [List.flatMap_append, nothing, List.append_nil, ← List.flatMap_map]
    obtain ⟨includes, components, layouts, screens, metadata⟩ :=
      joins_ofEntries (front.map Form.added) place
    exact ⟨includes, components, layouts, screens, metadata⟩
  case last =>
    have unclosed : checkEnd eof [] = Attempt.note (.unclosed Schema.rootForm) eof := by
      simp [checkEnd, Token.isEnd, isEnd]
    rw [Attempt.faults_of_value read, entries_eq settles, Attempt.noted_bind_of_value rfl, unclosed,
      Attempt.place_of_isProper proper, List.getLast?_append]
    rfl

end

/-- Cutting off a document loses nothing that is whole: rows of tokens, each from an opening
parenthesis to the closing one that matches it, are read before the cut as if nothing were missing,
and a row that is cut adds nothing. -/
theorem cutsOff_of_enclosed {limit : Int} {root : Casing} {ending : Token}
    {rows : List (List Token)} (isRoot : root.IsRoot) (isEnding : ending.kind = .eof)
    (enclosed : ∀ row ∈ rows, Token.Enclosed row)
    (shallow : ¬Token.Exceeds limit (root.around rows ++ [ending])) (n : Nat) {ends : List Token}
    (isEnd : ∀ t ∈ ends, t.kind = .eof) : CutsOff limit root ending rows n ends := by
  obtain ⟨forms, lists, rfl⟩ := Token.exists_forms enclosed
  have shallow' : ¬Token.Exceeds limit (root.cut n (forms.map Form.tokens) ++ ends) := by
    intro exceeds
    have inCut := exceeds.of_append fun t member => by simp [isEnd t member]
    obtain ⟨behind, same⟩ : root.cut n (forms.map Form.tokens) <+:
        root.around (forms.map Form.tokens) := Casing.cut_prefix_around
    exact shallow (same ▸ inCut.append.append)
  refine ⟨settles_cut isRoot lists isEnd shallow', fun d read => ?_⟩
  obtain ⟨ds, documents, joins, last⟩ :=
    joins_cut isRoot isEnding lists isEnd shallow rfl shallow' read
  exact ⟨ds, documents, joins, by rw [last]; rfl⟩

/-- An include is read from a document that is cut off in the screen behind it. -/
theorem cutsOff_of_enclosed_screen : ∃ (root : Casing) (rows : List (List Token)),
    rows = [[⟨.openParen, "(", ⟨1, 7⟩, ⟨1, 8⟩⟩, ⟨.symbol, "include", ⟨1, 8⟩, ⟨1, 15⟩⟩,
        ⟨.string, "a", ⟨1, 16⟩, ⟨1, 19⟩⟩, ⟨.closeParen, ")", ⟨1, 19⟩, ⟨1, 20⟩⟩],
      [⟨.openParen, "(", ⟨1, 21⟩, ⟨1, 22⟩⟩, ⟨.symbol, "screen", ⟨1, 22⟩, ⟨1, 28⟩⟩,
        ⟨.symbol, "b", ⟨1, 29⟩, ⟨1, 30⟩⟩, ⟨.closeParen, ")", ⟨1, 30⟩, ⟨1, 31⟩⟩]] ∧
      CutsOff 10 root (Token.eof ⟨1, 32⟩) rows 6 [] ∧
      (ofTokens 10 (root.cut 6 rows ++ [])).value?.map (·.includes.length) = some 1 := by
  let root : Casing := ⟨⟨.openParen, "(", ⟨1, 1⟩, ⟨1, 2⟩⟩, [⟨.symbol, "wire", ⟨1, 2⟩, ⟨1, 6⟩⟩],
    ⟨.closeParen, ")", ⟨1, 31⟩, ⟨1, 32⟩⟩, rfl, by simp, rfl⟩
  refine ⟨root, _, rfl, cutsOff_of_enclosed ⟨_, rfl, rfl⟩ rfl ?enclosed
    (Token.tooDeep?_eq_none.mp (by decide)) 6 (by simp), by decide +kernel⟩
  simp only [List.forall_mem_cons]
  refine ⟨Token.enclosed_iff.mpr ⟨.list _ [.atom _, .atom _] _, ?file, rfl⟩,
    Token.enclosed_iff.mpr ⟨.list _ [.atom _, .atom _] _, ?screen, rfl⟩, by simp⟩
  case file =>
    simp [Form.ClosedList, Form.closed_list_iff, Form.closed_atom_iff, Form.first]
  case screen =>
    simp [Form.ClosedList, Form.closed_list_iff, Form.closed_atom_iff, Form.first]

end Document
end Wireframe
