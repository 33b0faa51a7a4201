import Wireframe.Proofs.Fitting
import Wireframe.Reading.Document

/-!
# Accepted sources

Reading and balancing find the structure of a source each in its own way: reading by what a form may
hold, balancing by the names of the open forms.  They agree on every source that is read without a
fault: its forms fit, so that balancing leaves it as it is.
-/

namespace Wireframe

namespace Form

mutual

/-- Whether parentheses stand only where lists begin and end. -/
def Shaped : Form → Prop
  | .atom t => t.kind ≠ .openParen ∧ t.kind ≠ .closeParen
  | .list opener items closer =>
    opener.kind = .openParen ∧ (closer.kind = .closeParen ∨ closer.kind = .eof) ∧ ShapedAll items
termination_by structural form => form

def ShapedAll : List Form → Prop
  | [] => True
  | form :: rest => Shaped form ∧ ShapedAll rest
termination_by structural forms => forms

end

theorem shapedAll_iff {forms : List Form} : ShapedAll forms ↔ ∀ form ∈ forms, Shaped form := by
  induction forms with
  | nil => simp [ShapedAll]
  | cons form rest ih => simp [ShapedAll, ih]

end Form

namespace OpenList

/-- Whether an open list holds forms of a source. -/
def Shaped (l : OpenList) : Prop :=
  l.opener.kind = .openParen ∧ ∀ form ∈ l.items, form.Shaped

theorem Shaped.add {l : OpenList} (shaped : l.Shaped) {form : Form} (item : form.Shaped) :
    (l.add form).Shaped := by
  refine ⟨shaped.1, fun other member => ?_⟩
  rcases List.mem_cons.mp member with rfl | earlier
  · exact item
  · exact shaped.2 other earlier

theorem Shaped.close {l : OpenList} (shaped : l.Shaped) {closer : Token}
    (closes : closer.kind = .closeParen ∨ closer.kind = .eof) : (l.close closer).Shaped := by
  refine ⟨shaped.1, closes, Form.shapedAll_iff.mpr fun form member => ?_⟩
  exact shaped.2 form (List.mem_reverse.mp member)

private theorem shaped_closeAll {eof : Token} (ends : eof.kind = .eof) {l : OpenList}
    {outer : List OpenList} (shaped : l.Shaped) (around : ∀ m ∈ outer, m.Shaped) :
    (closeAll eof l outer).Shaped := by
  induction outer generalizing l with
  | nil => exact shaped.close (Or.inr ends)
  | cons parent rest ih =>
      rw [closeAll]
      refine ih ((around parent List.mem_cons_self).add (shaped.close (Or.inr ends))) ?_
      exact fun m later => around m (List.mem_cons_of_mem parent later)

/-- Parentheses stand only where lists begin and end in what is read of a source. -/
theorem shaped_read {eof : Token} (ends : eof.kind = .eof) {l : OpenList} {outer : List OpenList}
    (tokens : List Token) (shaped : l.Shaped) (around : ∀ m ∈ outer, m.Shaped) :
    (read eof l outer tokens).1.Shaped := by
  fun_induction read eof l outer tokens with
  | case1 => exact shaped_closeAll ends shaped around
  | case2 l outer t rest opens ih =>
      exact ih ⟨opens, by simp⟩ (List.forall_mem_cons.mpr ⟨shaped, around⟩)
  | case3 l t rest closes => exact shaped.close (Or.inl closes)
  | case4 l t rest closes parent outer ih =>
      obtain ⟨here, around⟩ := List.forall_mem_cons.mp around
      exact ih (here.add (shaped.close (Or.inl closes))) around
  | case5 l outer t rest opens closes ih => exact ih (shaped.add ⟨opens, closes⟩) around

end OpenList

namespace Form

theorem readItems_eq_map (items : List Form) :
    readItems items = items.map fun form => Item.ofForm form form.child := by
  induction items with
  | nil => rfl
  | cons form rest ih => rw [readItems, ih, List.map_cons]

private theorem eq_map_atom {items : List Form} {head : List Token}
    (same : items.map (fun form => Item.ofForm form form.child) = head.map Item.atom) :
    items = head.map Form.atom := by
  induction items generalizing head with
  | nil => simpa using same.symm
  | cons form items ih =>
      cases head with
      | nil => simp at same
      | cons t head =>
          obtain ⟨here, later⟩ := List.cons.inj same
          cases form with
          | atom u =>
              obtain rfl : u = t := by simpa [Item.ofForm] using here
              rw [List.map_cons, ih later]
          | list => simp [Item.ofForm] at here

private theorem eq_map_nested {items : List Form} {nested : List Nested}
    (same : items.map (fun form => Item.ofForm form form.child) = nested.map Item.nested) :
    items = nested.map Nested.form ∧ ∀ n ∈ nested, n.child = n.form.child := by
  induction items generalizing nested with
  | nil =>
      obtain rfl : nested = [] := by simpa using same.symm
      simp
  | cons form items ih =>
      cases nested with
      | nil => simp at same
      | cons n nested =>
          obtain ⟨here, later⟩ := List.cons.inj same
          obtain ⟨rest, children⟩ := ih later
          cases form with
          | atom => simp [Item.ofForm] at here
          | list opener inner closer =>
              obtain rfl : ⟨_, _⟩ = n := by simpa [Item.ofForm] using here
              refine ⟨by rw [List.map_cons, ← rest], fun m member => ?_⟩
              rcases List.mem_cons.mp member with rfl | further
              · rfl
              · exact children m further

theorem first_kind {form : Form} (shaped : form.Shaped) : form.first.kind ≠ .closeParen := by
  cases form with
  | atom t => exact shaped.2
  | list opener items closer => simp [first, shaped.1]

end Form

namespace Parts

variable {opener closer : Token} {items : List Form}

theorem first_ofForm (form : Form) (child : Attempt Child) :
    (Item.ofForm form child).first = form.first := by
  cases form with
  | atom => rfl
  | list => rfl

private theorem parts_eq (opener : Token) (items : List Form) (closer : Token) :
    ∃ behind, (Form.list opener items closer).parts.head.map Item.atom ++
        ((Form.list opener items closer).parts.nested.map Item.nested ++ behind) =
          Form.readItems items ∧
      (Form.list opener items closer).parts.next = (behind.head?.map Item.first).getD closer := by
  refine ⟨(splitNested (splitAtoms (Form.readItems items)).2).2, ?_, rfl⟩
  have atoms := map_atom_splitAtoms (Form.readItems items)
  have forms := map_nested_splitNested (splitAtoms (Form.readItems items)).2
  rw [← forms] at atoms
  exact atoms

private theorem splitAtoms_eq_nil {items : List Item}
    (none : (splitNested (splitAtoms items).2).1 = []) : (splitAtoms items).2 = [] := by
  fun_induction splitAtoms items with
  | case1 token rest atoms behind same ih =>
      rw [same] at ih
      exact ih none
  | case2 items notAtom =>
      cases items with
      | nil => rfl
      | cons item rest =>
          cases item with
          | atom token => exact absurd rfl (notAtom token rest)
          | nested n => simp [splitNested] at none

/-- The items of a list are the atoms at its head, the forms nested behind them and the forms behind
those, the first of which, if any, begins with the token that comes next. -/
theorem items_eq_parts (opener : Token) (items : List Form) (closer : Token) :
    ∃ behind, items = (Form.list opener items closer).parts.head.map Form.atom ++
        ((Form.list opener items closer).parts.nested.map Nested.form ++ behind) ∧
      (Form.list opener items closer).parts.next = (behind.head?.map Form.first).getD closer ∧
      ((Form.list opener items closer).parts.nested = [] → behind = []) ∧
      ∀ n ∈ (Form.list opener items closer).parts.nested, n.child = n.form.child := by
  obtain ⟨behind, same, next⟩ := parts_eq opener items closer
  have whole := same.trans (Form.readItems_eq_map items)
  obtain ⟨front, others, split, atoms, later⟩ := List.map_eq_append_iff.mp whole.symm
  obtain ⟨forms, last, rfl, inner, rfl⟩ := List.map_eq_append_iff.mp later
  obtain ⟨nested, children⟩ := Form.eq_map_nested inner
  refine ⟨last, ?_, ?_, fun none => ?_, children⟩
  · rw [← nested, ← Form.eq_map_atom atoms]
    exact split
  · rw [next]
    cases last with
    | nil => rfl
    | cons form last => exact first_ofForm form form.child
  · have atoms := map_atom_splitAtoms (Form.readItems items)
    rw [splitAtoms_eq_nil none, List.append_nil] at atoms
    rw [none, ← atoms] at same
    simpa [Form.parts, ofItems] using same

section

variable (shaped : (Form.list opener items closer).Shaped)

include shaped

theorem head_kind {t : Token} (member : t ∈ (Form.list opener items closer).parts.head) :
    t.kind ≠ .openParen ∧ t.kind ≠ .closeParen := by
  obtain ⟨behind, same, -⟩ := parts_eq opener items closer
  have isItem : Item.atom t ∈ Form.readItems items := by
    rw [← same]
    exact List.mem_append_left _ (List.mem_map_of_mem member)
  rw [Form.readItems_eq_map] at isItem
  obtain ⟨form, isForm, here⟩ := List.mem_map.mp isItem
  cases form with
  | atom u =>
      obtain rfl : u = t := by simpa [Item.ofForm] using here
      exact Form.shapedAll_iff.mp shaped.2.2 _ isForm
  | list => simp [Item.ofForm] at here

theorem nested_shaped {n : Nested} (member : n ∈ (Form.list opener items closer).parts.nested) :
    n.form ∈ items ∧ n.form.Shaped ∧ n.opener.kind = .openParen := by
  obtain ⟨behind, same, -⟩ := parts_eq opener items closer
  have isItem : Item.nested n ∈ Form.readItems items := by
    rw [← same]
    exact List.mem_append_right _ (List.mem_append_left _ (List.mem_map_of_mem member))
  rw [Form.readItems_eq_map] at isItem
  obtain ⟨form, isForm, here⟩ := List.mem_map.mp isItem
  cases form with
  | atom => simp [Item.ofForm] at here
  | list opener' inner closer' =>
      obtain rfl : ⟨_, _⟩ = n := by simpa [Item.ofForm] using here
      have inside := Form.shapedAll_iff.mp shaped.2.2 _ isForm
      exact ⟨isForm, inside, inside.1⟩

/-- Behind the atoms of a list comes a nested form or the end of the list. -/
theorem afterHead_eq (plain : (Form.list opener items closer).parts.afterHead.kind ≠ .openParen) :
    (Form.list opener items closer).parts.nested = [] ∧
      (Form.list opener items closer).parts.next = closer := by
  have none : (Form.list opener items closer).parts.nested = [] := by
    cases forms : (Form.list opener items closer).parts.nested with
    | nil => rfl
    | cons n rest =>
        have member : n ∈ (Form.list opener items closer).parts.nested := by simp [forms]
        have opens := (nested_shaped shaped member).2.2
        rw [afterHead, forms] at plain
        exact absurd opens plain
  refine ⟨none, ?_⟩
  have behind : (splitAtoms (Form.readItems items)).2 = [] := splitAtoms_eq_nil none
  simp [Form.parts, ofItems, behind, splitNested]

theorem afterHead_kind :
    (Form.list opener items closer).parts.afterHead.kind = .openParen ∨
      (Form.list opener items closer).parts.afterHead = closer := by
  by_cases opens : (Form.list opener items closer).parts.afterHead.kind = .openParen
  · exact Or.inl opens
  · obtain ⟨none, next⟩ := afterHead_eq shaped opens
    rw [afterHead, none]
    exact Or.inr next

/-- A symbol that comes next is an atom of the list. -/
theorem symbol_eq_pure {left left' : List Token} {name : String}
    (read : (Form.list opener items closer).parts.symbol left = pure (name, left')) :
    ∃ t, left = t :: left' ∧ t.kind = .symbol ∧ t.value = name := by
  obtain ⟨t, found, named⟩ := Attempt.bind_eq_pure_iff.mp read
  obtain ⟨symbol, rfl⟩ := Attempt.expect_eq_pure_iff.mp found
  obtain ⟨rfl, rfl⟩ : _ = name ∧ _ = left' := by simpa using named
  cases left with
  | nil =>
      exfalso
      change (Form.list opener items closer).parts.afterHead.kind = .symbol at symbol
      rcases afterHead_kind shaped with opens | ends
      · simp [opens] at symbol
      · rw [ends] at symbol
        rcases shaped.2.1 with closes | ends
        · simp [closes] at symbol
        · simp [ends] at symbol
  | cons t left => exact ⟨t, rfl, symbol, rfl⟩

end

/-- Whether a list is closed behind the forms nested in it. -/
structure Closes (p : Parts) (items : List Form) (closer : Token) : Prop where
  closer_kind : closer.kind = .closeParen
  next : p.next = closer
  items_eq : items = p.head.map Form.atom ++ p.nested.map Nested.form
  child : ∀ n ∈ p.nested, n.child = n.form.child

section

variable (shaped : (Form.list opener items closer).Shaped)

include shaped

theorem closes_of_next (closes : (Form.list opener items closer).parts.next.kind = .closeParen) :
    Closes (Form.list opener items closer).parts items closer := by
  obtain ⟨behind, split, next, -, children⟩ := items_eq_parts opener items closer
  rw [next] at closes
  cases behind with
  | cons form behind =>
      have member : form ∈ items := by
        rw [split]
        simp
      exact absurd closes (Form.first_kind (Form.shapedAll_iff.mp shaped.2.2 form member))
  | nil => exact ⟨closes, next, by rwa [List.append_nil] at split, children⟩

/-- A list that is closed behind some atoms left has none of them. -/
theorem closes_of_closing {left : List Token} {t : Token}
    (atoms : ∀ t ∈ left, t ∈ (Form.list opener items closer).parts.head)
    (closes : Attempt.expect .closeParen ((Form.list opener items closer).parts.closing left) =
      pure t) :
    left = [] ∧ Closes (Form.list opener items closer).parts items closer := by
  obtain ⟨kind, -⟩ := Attempt.expect_eq_pure_iff.mp closes
  cases left with
  | nil => exact ⟨rfl, closes_of_next shaped kind⟩
  | cons u left => exact absurd kind (head_kind shaped (atoms u List.mem_cons_self)).2

/-- A list that is closed where a nested form may come has no nested forms. -/
theorem closes_of_current {left : List Token} {t : Token}
    (atoms : ∀ t ∈ left, t ∈ (Form.list opener items closer).parts.head)
    (closes : Attempt.expect .closeParen ((Form.list opener items closer).parts.current left) =
      pure t) :
    left = [] ∧ (Form.list opener items closer).parts.nested = [] ∧
      Closes (Form.list opener items closer).parts items closer := by
  obtain ⟨kind, -⟩ := Attempt.expect_eq_pure_iff.mp closes
  cases left with
  | nil =>
      change (Form.list opener items closer).parts.afterHead.kind = .closeParen at kind
      obtain ⟨none, next⟩ := afterHead_eq shaped (by simp [kind])
      refine ⟨rfl, none, closes_of_next shaped ?_⟩
      rw [afterHead, none] at kind
      exact kind
  | cons u left => exact absurd kind (head_kind shaped (atoms u List.mem_cons_self)).2

end

/-! ## Lists that are read -/

theorem mem_of_readClauses {σ : Type} {after : Token}
    {step : σ → Token → Token → Attempt (Option (σ × Bool))} {s s' : σ} {left left' : List Token}
    (read : (readClauses after step s left).outcome = .value (s', left')) :
    ∀ t ∈ left', t ∈ left := by
  fun_induction readClauses after step s left with
  | case1 s =>
      obtain ⟨rfl, rfl⟩ : s = s' ∧ [] = left' := by simpa using read
      simp
  | case2 s key keyword =>
      obtain ⟨result, -, chosen⟩ := Attempt.outcome_bind_eq_value.mp read
      cases result with
      | none =>
          obtain ⟨rfl, rfl⟩ : s = s' ∧ [key] = left' := by simpa using chosen
          simp
      | some result =>
          obtain ⟨-, rfl⟩ : result.1 = s' ∧ [] = left' := by simpa using chosen
          simp
  | case3 s key other =>
      obtain ⟨rfl, rfl⟩ : s = s' ∧ [key] = left' := by simpa using read
      simp
  | case4 s key next rest keyword used unused =>
      obtain ⟨result, -, chosen⟩ := Attempt.outcome_bind_eq_value.mp read
      match result, chosen with
      | none, chosen =>
          obtain ⟨rfl, rfl⟩ : s = s' ∧ key :: next :: rest = left' := by simpa using chosen
          simp
      | some (state, true), chosen =>
          exact fun t member =>
            List.mem_cons_of_mem key (List.mem_cons_of_mem next (used state chosen t member))
      | some (state, false), chosen =>
          exact fun t member => List.mem_cons_of_mem key (unused state chosen t member)
  | case5 s key next rest other =>
      obtain ⟨rfl, rfl⟩ : s = s' ∧ key :: next :: rest = left' := by simpa using read
      simp

theorem mem_of_content {schema : ElementSchema} {left : List Token} {t : Token}
    (member : t ∈ (content schema left).2) : t ∈ left := by
  cases left with
  | nil => exact member
  | cons u rest =>
      rw [content] at member
      split at member
      · exact List.mem_cons_of_mem u member
      · split at member
        · exact List.mem_cons_of_mem u member
        · exact member

theorem mem_of_title {left : List Token} {t : Token} (member : t ∈ (title left).2) : t ∈ left := by
  cases left with
  | nil => exact member
  | cons u rest =>
      rw [title] at member
      split at member
      · exact List.mem_cons_of_mem u member
      · exact member

theorem child_of_readNested {nested : List Nested} {children : List Child}
    (read : readNested nested = pure children) : ∀ n ∈ nested, ∃ c, n.child = pure c := by
  induction nested generalizing children with
  | nil => simp
  | cons n rest ih =>
      obtain ⟨found, here, behind⟩ := Attempt.bind_eq_pure_iff.mp read
      obtain ⟨later, others, -⟩ := Attempt.bind_eq_pure_iff.mp behind
      obtain ⟨c, -, child⟩ := Attempt.recover_eq_pure_iff.mp here
      intro m member
      rcases List.mem_cons.mp member with rfl | further
      · exact ⟨c, child⟩
      · exact ih others m further

theorem child_of_children {schema : ElementSchema} {nested : List Nested} {cs : List Child}
    (read : children schema nested = pure cs) :
    ∀ n ∈ nested, schema.takesChildren = true ∧ ∃ c, n.child = pure c := by
  cases nested with
  | nil => simp
  | cons n rest =>
      rw [children] at read
      split at read
      · rename_i takes
        exact fun m member => ⟨takes, child_of_readNested read m member⟩
      · exact absurd read (Attempt.note_bind_ne_pure _ _ _ _)

theorem element_eq_pure {p : Parts} {left : List Token} {e : Element} {rest : List Nested}
    (read : p.element left = pure (e, rest)) :
    left = [] ∧ ∃ n, p.nested = n :: rest ∧ ∃ c, n.child = pure c := by
  cases left with
  | cons t left => exact absurd read (Attempt.fail_ne_pure _ _ _)
  | nil =>
      cases forms : p.nested with
      | nil =>
          simp only [element, upcoming, forms] at read
          exact absurd read (Attempt.fail_ne_pure _ _ _)
      | cons n nested =>
          simp only [element, upcoming, forms] at read
          obtain ⟨c, child, taken⟩ := Attempt.bind_eq_pure_iff.mp read
          obtain ⟨-, rfl⟩ : c.toElement = e ∧ nested = rest := by simpa using taken
          exact ⟨rfl, n, rfl, c, child⟩

theorem closeBody_eq_pure {p : Parts} {form : String} {nested : List Nested} {t : Token}
    (read : p.closeBody form nested = pure t) :
    nested = [] ∧ Attempt.expect .closeParen p.next = pure t := by
  cases nested with
  | nil => exact ⟨rfl, read⟩
  | cons n rest => exact absurd read (Attempt.fail_ne_pure _ _ _)

/-- Whether a list of a name is closed and holds only nodes, and those only if it may. -/
def Holds (p : Parts) (items : List Form) (closer : Token) (name : String) : Prop :=
  Closes p items closer ∧
    ∀ n ∈ p.nested, Schema.acceptsChildren name = true ∧ ∃ c, n.child = pure c

section

variable (shaped : (Form.list opener items closer).Shaped)

include shaped

theorem holds_of_toElement {name : String} {left : List Token} {e : Element}
    (atoms : ∀ t ∈ left, t ∈ (Form.list opener items closer).parts.head)
    (read : (Form.list opener items closer).parts.toElement name left = pure e) :
    Holds (Form.list opener items closer).parts items closer name := by
  obtain ⟨⟨props, left'⟩, clauses, behind⟩ := Attempt.bind_eq_pure_iff.mp read
  obtain ⟨cs, nodes, behind⟩ := Attempt.bind_eq_pure_iff.mp behind
  obtain ⟨t, closes, -⟩ := Attempt.bind_eq_pure_iff.mp behind
  have inside : ∀ t ∈ left', t ∈ (Form.list opener items closer).parts.head :=
    fun t member => atoms t (mem_of_content (mem_of_readClauses (congrArg _ clauses) t member))
  obtain ⟨rfl, closed⟩ := closes_of_closing shaped inside closes
  refine ⟨closed, fun n member => ?_⟩
  obtain ⟨takes, child⟩ := child_of_children nodes n member
  exact ⟨by simp [Schema.acceptsChildren, takes], child⟩

theorem holds_of_toRepetition {left : List Token} {r : Repetition}
    (read : (Form.list opener items closer).parts.toRepetition left = pure r) :
    Holds (Form.list opener items closer).parts items closer Schema.repeatForm := by
  obtain ⟨⟨options, left'⟩, -, behind⟩ := Attempt.bind_eq_pure_iff.mp read
  obtain ⟨⟨body, rest⟩, element, behind⟩ := Attempt.bind_eq_pure_iff.mp behind
  obtain ⟨t, closes, -⟩ := Attempt.bind_eq_pure_iff.mp behind
  obtain ⟨-, n, nested, c, child⟩ := element_eq_pure element
  obtain ⟨rfl, closes⟩ := closeBody_eq_pure closes
  refine ⟨closes_of_next shaped (Attempt.expect_eq_pure_iff.mp closes).1, fun m member => ?_⟩
  rw [nested] at member
  obtain rfl := List.mem_singleton.mp member
  refine ⟨?_, c, child⟩
  simp [Schema.acceptsChildren, Schema.isStructural, Schema.structuralForms, Schema.repeatForm]

/-- A list that is read as a node begins with its name, which is no name of a form that stands
elsewhere. -/
theorem holds_of_toChild {c : Child}
    (read : (Form.list opener items closer).parts.toChild = pure c) :
    ∃ name rest, (Form.list opener items closer).parts.head = name :: rest ∧ name.kind = .symbol ∧
      name.value ∉ Schema.topLevelForms ∧ name.value ∉ Schema.overlayForms ∧
      Holds (Form.list opener items closer).parts items closer name.value := by
  obtain ⟨⟨name, left⟩, symbol, behind⟩ := Attempt.bind_eq_pure_iff.mp read
  obtain ⟨t, head, kind, rfl⟩ := symbol_eq_pure shaped symbol
  have atoms : ∀ u ∈ left, u ∈ (Form.list opener items closer).parts.head := by
    intro u member
    rw [head]
    exact List.mem_cons_of_mem t member
  refine ⟨t, left, head, kind, ?_⟩
  simp only at behind
  split at behind
  · rename_i isRepeat
    obtain ⟨r, repetition, -⟩ := Attempt.bind_eq_pure_iff.mp behind
    rw [isRepeat]
    exact ⟨by decide, by decide, holds_of_toRepetition shaped repetition⟩
  · split at behind
    · exact absurd behind (Attempt.fail_ne_pure _ _ _)
    · split at behind
      · exact absurd behind (Attempt.fail_ne_pure _ _ _)
      · rename_i overlay top
        obtain ⟨e, element, -⟩ := Attempt.bind_eq_pure_iff.mp behind
        exact ⟨by simpa using top, by simpa using overlay,
          holds_of_toElement shaped atoms element⟩

end

end Parts

/-! ## Accepted forms fit -/

namespace Form

open Parts Balance

variable {opener closer : Token} {items : List Form}

private theorem fits_of_closes (shaped : (Form.list opener items closer).Shaped) {h : Heading}
    {stack : List String} {name : Token} {rest : List Token}
    (closes : Closes (Form.list opener items closer).parts items closer)
    (head : (Form.list opener items closer).parts.head = name :: rest) (untitled : h ≠ .titled)
    (symbol : name.kind = .symbol) (word : name.value ≠ Schema.defineForm)
    (placed : Placed name.value stack)
    (inner : ∀ n ∈ (Form.list opener items closer).parts.nested,
      Fits .nothing (name.value :: stack) n.form) :
    Fits h stack (.list opener items closer) := by
  have whole := closes.items_eq
  have plain : ∀ t ∈ rest, t.kind ≠ .openParen ∧ t.kind ≠ .closeParen := by
    intro t member
    refine head_kind shaped ?_
    rw [head]
    exact List.mem_cons_of_mem name member
  rw [head, List.map_cons, List.cons_append] at whole
  rw [whole]
  refine fits_list shaped.1 closes.closer_kind untitled symbol word placed fun item member => ?_
  rcases List.mem_append.mp member with isAtom | isNested
  · obtain ⟨t, isToken, rfl⟩ := List.mem_map.mp isAtom
    exact fits_atom (plain t isToken)
  · obtain ⟨n, isPart, rfl⟩ := List.mem_map.mp isNested
    exact inner n isPart

private theorem ne_defineForm {name : String} (notTop : name ∉ Schema.topLevelForms) :
    name ≠ Schema.defineForm := by
  rintro rfl
  exact notTop (by decide)

mutual

/-- A form that is read as a node fits where nodes may be. -/
theorem fits_of_child {parent : String} {outer : List String}
    (accepts : Schema.acceptsChildren parent = true) :
    ∀ (form : Form) {c : Child}, form.Shaped → form.child = pure c →
      Fits .nothing (parent :: outer) form
  | .atom t, _, _, read => absurd read (Attempt.fail_ne_pure _ _ _)
  | .list opener items closer, _, shaped, read => by
      obtain ⟨name, rest, head, symbol, notTop, notOverlay, closes, holds⟩ :=
        holds_of_toChild shaped read
      refine fits_of_closes shaped closes head (by simp) symbol (ne_defineForm notTop)
        (placed_node outer notTop notOverlay accepts) fun n member => ?_
      obtain ⟨acceptsNested, c, child⟩ := holds n member
      obtain ⟨isItem, nestedShaped, -⟩ := nested_shaped shaped member
      rw [closes.child n member] at child
      exact fits_of_children acceptsNested items n.form isItem nestedShaped child

theorem fits_of_children {parent : String} {outer : List String}
    (accepts : Schema.acceptsChildren parent = true) :
    ∀ (items : List Form) (form : Form) {c : Child}, form ∈ items → form.Shaped →
      form.child = pure c → Fits .nothing (parent :: outer) form
  | item :: rest, form, _, member, shaped, read => by
      rcases List.mem_cons.mp member with same | later
      · rw [same] at shaped read ⊢
        exact fits_of_child accepts item shaped read
      · exact fits_of_children accepts rest form later shaped read

end

end Form

namespace Parts

open Form Balance

variable {opener closer : Token} {items : List Form} {outer : List String}

/-- A list fits if it is closed and its nested forms are read as nodes. -/
private theorem fits_of_nodes (shaped : (Form.list opener items closer).Shaped) {h : Heading}
    {name : Token} {rest : List Token}
    (closes : Closes (Form.list opener items closer).parts items closer)
    (head : (Form.list opener items closer).parts.head = name :: rest) (untitled : h ≠ .titled)
    (symbol : name.kind = .symbol) (word : name.value ≠ Schema.defineForm)
    (placed : Placed name.value outer) (accepts : Schema.acceptsChildren name.value = true)
    (nodes : ∀ n ∈ (Form.list opener items closer).parts.nested, ∃ c, n.child = pure c) :
    Fits h outer (.list opener items closer) := by
  refine fits_of_closes shaped closes head untitled symbol word placed fun n member => ?_
  obtain ⟨c, child⟩ := nodes n member
  rw [closes.child n member] at child
  exact fits_of_child accepts n.form (nested_shaped shaped member).2.1 child

theorem overlayKind?_eq_some {form : Form} {kind : OverlayKind}
    (found : overlayKind? form = some kind) :
    ∃ opener name rest closer, form = .list opener (.atom name :: rest) closer ∧
      name.kind = .symbol ∧ name.value ∈ Schema.overlayForms := by
  cases form with
  | atom t => simp [overlayKind?] at found
  | list opener items closer =>
      cases items with
      | nil => simp [overlayKind?] at found
      | cons item rest =>
          cases item with
          | list => simp [overlayKind?] at found
          | atom name =>
              rw [overlayKind?] at found
              split at found
              · rename_i symbol
                refine ⟨opener, name, rest, closer, rfl, symbol, ?_⟩
                have named := List.find?_some found
                have known : ∀ kind : OverlayKind, kind.name ∈ Schema.overlayForms := by
                  intro kind
                  cases kind <;> decide
                rw [← beq_iff_eq.mp named]
                exact known kind
              · simp at found

private theorem head_cons (opener name : Token) (rest : List Form) (closer : Token) :
    ∃ more, (Form.list opener (.atom name :: rest) closer).parts.head = name :: more :=
  ⟨_, rfl⟩

/-- An overlay of a screen fits in the screen. -/
theorem fits_of_toOverlay {form : Form} (shaped : form.Shaped) {kind : OverlayKind} {o : Overlay}
    (found : overlayKind? form = some kind) (read : form.parts.toOverlay kind = pure o) :
    Fits .nothing (Schema.screenForm :: outer) form := by
  obtain ⟨opener, name, rest, closer, rfl, symbol, isOverlay⟩ := overlayKind?_eq_some found
  obtain ⟨more, head⟩ := head_cons opener name rest closer
  obtain ⟨⟨options, left⟩, clauses, behind⟩ := Attempt.bind_eq_pure_iff.mp read
  obtain ⟨children, nodes, behind⟩ := Attempt.bind_eq_pure_iff.mp behind
  obtain ⟨t, closes, -⟩ := Attempt.bind_eq_pure_iff.mp behind
  have notTop : name.value ∉ Schema.topLevelForms := by
    intro top
    simp only [Schema.overlayForms, List.mem_cons, List.not_mem_nil, or_false] at isOverlay
    rcases isOverlay with same | same | same <;> rw [same] at top <;> exact absurd top (by decide)
  have accepts : Schema.acceptsChildren name.value = true := by
    simp [Schema.acceptsChildren, Schema.isStructural, isOverlay]
  have atoms : ∀ t ∈ left, t ∈ (Form.list opener (.atom name :: rest) closer).parts.head := by
    intro t member
    have inTail := mem_of_readClauses (congrArg _ clauses) t member
    exact List.mem_of_mem_tail inTail
  obtain ⟨rfl, closed⟩ := closes_of_closing shaped atoms closes
  exact fits_of_nodes shaped closed head (by simp) symbol (ne_defineForm notTop)
    (Placed.of_screen notTop rfl) accepts (child_of_readNested nodes)

theorem fits_of_screenForms {screen : String} {root : Option Element} {nested : List Nested}
    {result : Option Element × List Overlay} (read : screenForms screen root nested = pure result)
    (shaped : ∀ n ∈ nested, n.form.Shaped) (children : ∀ n ∈ nested, n.child = n.form.child) :
    ∀ n ∈ nested, Fits .nothing (Schema.screenForm :: outer) n.form := by
  induction nested generalizing root result with
  | nil => simp
  | cons n rest ih =>
      have here := shaped n List.mem_cons_self
      have later {root : Option Element} {result : Option Element × List Overlay}
          (read : screenForms screen root rest = pure result) :=
        ih read (fun m member => shaped m (List.mem_cons_of_mem n member))
          fun m member => children m (List.mem_cons_of_mem n member)
      have accepts : Schema.acceptsChildren Schema.screenForm = true := by
        simp [Schema.acceptsChildren, Schema.isStructural, Schema.structuralForms,
          Schema.screenForm]
      rw [screenForms.eq_def] at read
      simp only at read
      intro m member
      split at read
      · rename_i kind found
        obtain ⟨overlay, recovered, behind⟩ := Attempt.bind_eq_pure_iff.mp read
        obtain ⟨result', others, -⟩ := Attempt.bind_eq_pure_iff.mp behind
        obtain ⟨o, -, isOverlay⟩ := Attempt.recover_eq_pure_iff.mp recovered
        rcases List.mem_cons.mp member with rfl | further
        · exact fits_of_toOverlay here found isOverlay
        · exact later others m further
      · split at read
        · obtain ⟨child, recovered, others⟩ := Attempt.bind_eq_pure_iff.mp read
          obtain ⟨c, -, isNode⟩ := Attempt.recover_eq_pure_iff.mp recovered
          rcases List.mem_cons.mp member with rfl | further
          · rw [children m List.mem_cons_self] at isNode
            exact fits_of_child accepts m.form here isNode
          · exact later others m further
        · exact absurd read (Attempt.note_bind_ne_pure _ _ _ _)

/-- Whether a list begins with a symbol. -/
structure Led (opener : Token) (items : List Form) (closer name : Token) (left : List Token) :
    Prop where
  shaped : (Form.list opener items closer).Shaped
  head : (Form.list opener items closer).parts.head = name :: left
  symbol : name.kind = .symbol

variable {name : Token} {left : List Token}

theorem Led.mem (led : Led opener items closer name left) {t : Token} (member : t ∈ left) :
    t ∈ (Form.list opener items closer).parts.head := by
  rw [led.head]
  exact List.mem_cons_of_mem name member

/-- A top-level form other than a definition fits if its nested forms do. -/
private theorem Led.fits (led : Led opener items closer name left)
    (closes : Closes (Form.list opener items closer).parts items closer) {word : String}
    (same : name.value = word) (top : word ∈ Schema.topLevelForms)
    (other : word ≠ Schema.defineForm)
    (inner : ∀ n ∈ (Form.list opener items closer).parts.nested,
      Fits .nothing (word :: Schema.rootForm :: outer) n.form) :
    Fits .nothing (Schema.rootForm :: outer) (.list opener items closer) := by
  subst same
  exact fits_of_closes led.shaped closes led.head (by simp) led.symbol other
    (Placed.of_root top (Or.inr rfl)) inner

theorem Led.fits_include (led : Led opener items closer name left) (word : name.value = "include")
    {i : Include} (read : (Form.list opener items closer).parts.toInclude left = pure i) :
    Fits .nothing (Schema.rootForm :: outer) (.list opener items closer) := by
  rw [toInclude] at read
  simp only at read
  split at read
  · exact absurd read (Attempt.fail_ne_pure _ _ _)
  · obtain ⟨t, ends, -⟩ := Attempt.bind_eq_pure_iff.mp read
    have atoms : ∀ t ∈ left.tail, t ∈ (Form.list opener items closer).parts.head :=
      fun t member => led.mem (List.mem_of_mem_tail member)
    obtain ⟨-, none, closes⟩ := closes_of_current led.shaped atoms ends
    exact led.fits closes word (by decide) (by decide) (by simp [none])

theorem Led.fits_facts (led : Led opener items closer name left) (word : name.value = "meta")
    {facts : Table Scalar}
    (read : (Form.list opener items closer).parts.toFacts left = pure facts) :
    Fits .nothing (Schema.rootForm :: outer) (.list opener items closer) := by
  obtain ⟨⟨facts', left'⟩, clauses, behind⟩ := Attempt.bind_eq_pure_iff.mp read
  obtain ⟨t, ends, -⟩ := Attempt.bind_eq_pure_iff.mp behind
  have atoms : ∀ t ∈ left', t ∈ (Form.list opener items closer).parts.head :=
    fun t member => led.mem (mem_of_readClauses (congrArg _ clauses) t member)
  obtain ⟨-, none, closes⟩ := closes_of_current led.shaped atoms ends
  exact led.fits closes word (by decide) (by decide) (by simp [none])

theorem Led.fits_layout (led : Led opener items closer name left) (word : name.value = "layout")
    {l : Layout} (read : (Form.list opener items closer).parts.toLayout left = pure l) :
    Fits .nothing (Schema.rootForm :: outer) (.list opener items closer) := by
  obtain ⟨⟨title, left'⟩, -, behind⟩ := Attempt.bind_eq_pure_iff.mp read
  obtain ⟨⟨body, rest⟩, element, behind⟩ := Attempt.bind_eq_pure_iff.mp behind
  obtain ⟨t, ends, -⟩ := Attempt.bind_eq_pure_iff.mp behind
  obtain ⟨-, n, nested, c, child⟩ := element_eq_pure element
  obtain ⟨rfl, ends⟩ := closeBody_eq_pure ends
  have closes := closes_of_next led.shaped (Attempt.expect_eq_pure_iff.mp ends).1
  refine led.fits closes word (by decide) (by decide) fun m member => ?_
  have shaped := (nested_shaped led.shaped member).2.1
  rw [nested] at member
  obtain rfl := List.mem_singleton.mp member
  rw [closes.child m (by simp [nested])] at child
  exact fits_of_child
    (by simp [Schema.acceptsChildren, Schema.isStructural, Schema.structuralForms]) m.form shaped
    child

theorem Led.fits_screen (led : Led opener items closer name left) (word : name.value = "screen")
    {s : Screen} (read : (Form.list opener items closer).parts.toScreen left = pure s) :
    Fits .nothing (Schema.rootForm :: outer) (.list opener items closer) := by
  obtain ⟨⟨id, left'⟩, symbol, behind⟩ := Attempt.bind_eq_pure_iff.mp read
  obtain ⟨⟨options, left''⟩, clauses, behind⟩ := Attempt.bind_eq_pure_iff.mp behind
  obtain ⟨⟨root, overlays⟩, forms, behind⟩ := Attempt.bind_eq_pure_iff.mp behind
  obtain ⟨t, ends, -⟩ := Attempt.bind_eq_pure_iff.mp behind
  obtain ⟨u, rfl, -⟩ := symbol_eq_pure led.shaped symbol
  have atoms : ∀ t ∈ left'', t ∈ (Form.list opener items closer).parts.head := by
    intro t member
    have inTitle := mem_of_readClauses (congrArg _ clauses) t member
    exact led.mem (List.mem_cons_of_mem u (mem_of_title inTitle))
  obtain ⟨rfl, closes⟩ := closes_of_closing led.shaped atoms ends
  refine led.fits closes word (by decide) (by decide) ?_
  exact fits_of_screenForms forms (fun n member => (nested_shaped led.shaped member).2.1)
    closes.child

private theorem names_eq_pure {shapedItems : List Form} (shaped : ShapedAll shapedItems)
    {closer : Token} {read : List String}
    (found : names closer (Form.readItems shapedItems) = pure read) :
    closer.kind = .closeParen ∧
      ∀ item ∈ shapedItems, ∃ t, item = .atom t ∧ t.kind = .symbol := by
  induction shapedItems generalizing read with
  | nil =>
      obtain ⟨t, closes, -⟩ := Attempt.bind_eq_pure_iff.mp found
      exact ⟨(Attempt.expect_eq_pure_iff.mp closes).1, by simp⟩
  | cons item rest ih =>
      obtain ⟨t, symbol, behind⟩ := Attempt.bind_eq_pure_iff.mp found
      obtain ⟨later, others, -⟩ := Attempt.bind_eq_pure_iff.mp behind
      obtain ⟨closes, atoms⟩ := ih shaped.2 others
      refine ⟨closes, fun other member => ?_⟩
      rcases List.mem_cons.mp member with rfl | further
      · have kind := (Attempt.expect_eq_pure_iff.mp symbol).1
        rw [first_ofForm] at kind
        cases other with
        | atom u => exact ⟨u, rfl, kind⟩
        | list opener items closer =>
            have opens : opener.kind = .openParen := shaped.1.1
            simp [Form.first, opens] at kind
      · exact atoms other further

theorem params_eq_pure {form : Form} (shaped : form.Shaped) {read : List String}
    (found : params form = pure read) :
    ∃ opener items closer, form = .list opener items closer ∧ opener.kind = .openParen ∧
      closer.kind = .closeParen ∧ ∀ item ∈ items, ∃ t, item = .atom t ∧ t.kind = .symbol := by
  cases form with
  | atom t => exact absurd found (Attempt.fail_ne_pure _ _ _)
  | list opener items closer =>
      obtain ⟨closes, atoms⟩ := names_eq_pure shaped.2.2 found
      exact ⟨opener, items, closer, rfl, shaped.1, closes, atoms⟩

theorem Led.fits_component (led : Led opener items closer name left)
    (word : name.value = Schema.defineForm) {c : Component}
    (read : (Form.list opener items closer).parts.toComponent left = pure c) :
    Fits .nothing (Schema.rootForm :: outer) (.list opener items closer) := by
  obtain ⟨⟨title, left'⟩, symbol, behind⟩ := Attempt.bind_eq_pure_iff.mp read
  obtain ⟨u, rfl, titleSymbol, -⟩ := symbol_eq_pure led.shaped symbol
  cases left' with
  | cons t left' => exact absurd behind (Attempt.fail_ne_pure _ _ _)
  | nil =>
      cases forms : (Form.list opener items closer).parts.nested with
      | nil =>
          simp only [upcoming, forms] at behind
          exact absurd behind (Attempt.fail_ne_pure _ _ _)
      | cons n rest =>
          simp only [upcoming, forms] at behind
          obtain ⟨names, parameters, behind⟩ := Attempt.bind_eq_pure_iff.mp behind
          obtain ⟨⟨body, rest'⟩, element, behind⟩ := Attempt.bind_eq_pure_iff.mp behind
          obtain ⟨t, ends, -⟩ := Attempt.bind_eq_pure_iff.mp behind
          obtain ⟨-, m, same, c, child⟩ := element_eq_pure element
          obtain ⟨rfl, ends⟩ := closeBody_eq_pure ends
          have closes := closes_of_next led.shaped (Attempt.expect_eq_pure_iff.mp ends).1
          obtain rfl : rest = [m] := same
          have isFirst : n ∈ (Form.list opener items closer).parts.nested := by simp [forms]
          have isSecond : m ∈ (Form.list opener items closer).parts.nested := by simp [forms]
          obtain ⟨paramsOpener, params, paramsCloser, isList, opens, paramsClose, atoms⟩ :=
            params_eq_pure (nested_shaped led.shaped isFirst).2.1 parameters
          have whole := closes.items_eq
          rw [led.head, forms] at whole
          simp only [List.map_cons, List.map_nil, List.cons_append, List.nil_append, isList]
            at whole
          rw [closes.child m isSecond] at child
          rw [whole]
          exact fits_define led.shaped.1 closes.closer_kind (by simp) led.symbol word titleSymbol
            opens
            paramsClose atoms (Placed.of_root (by decide) (Or.inr rfl))
            (fits_of_child (by simp [Schema.acceptsChildren, Schema.isStructural,
                Schema.structuralForms, Schema.defineForm]) m.form
              (nested_shaped led.shaped isSecond).2.1 child)

theorem fits_of_entry? {form : Form} (shaped : form.Shaped) {entry : Option Entry}
    (read : form.entry? = pure entry) : Fits .nothing (Schema.rootForm :: outer) form := by
  cases form with
  | atom t => exact absurd read (Attempt.fail_ne_pure _ _ _)
  | list opener items closer =>
      obtain ⟨⟨word, left⟩, symbol, behind⟩ := Attempt.bind_eq_pure_iff.mp read
      obtain ⟨name, head, kind, named⟩ := symbol_eq_pure shaped symbol
      have led : Led opener items closer name left := ⟨shaped, head, kind⟩
      simp only at behind
      split at behind
      · obtain ⟨i, inclusion, -⟩ := Attempt.bind_eq_pure_iff.mp behind
        exact led.fits_include named inclusion
      · obtain ⟨facts, stated, -⟩ := Attempt.bind_eq_pure_iff.mp behind
        exact led.fits_facts named stated
      · obtain ⟨c, component, -⟩ := Attempt.bind_eq_pure_iff.mp behind
        exact led.fits_component named component
      · obtain ⟨l, layout, -⟩ := Attempt.bind_eq_pure_iff.mp behind
        exact led.fits_layout named layout
      · obtain ⟨s, screen, -⟩ := Attempt.bind_eq_pure_iff.mp behind
        exact led.fits_screen named screen
      · exact absurd behind (Attempt.note_bind_ne_pure _ _ _ _)

end Parts

namespace Document

open Form Balance

theorem fits_of_entries {forms : List Form} {read : List Entry} {outer : List String}
    (found : entries forms = pure read) (shaped : ShapedAll forms) :
    ∀ form ∈ forms, Fits .nothing (Schema.rootForm :: outer) form := by
  induction forms generalizing read with
  | nil => simp
  | cons form rest ih =>
      obtain ⟨entry, recovered, behind⟩ := Attempt.bind_eq_pure_iff.mp found
      obtain ⟨later, others, -⟩ := Attempt.bind_eq_pure_iff.mp behind
      obtain ⟨e, -, isEntry⟩ := Attempt.recover_eq_pure_iff.mp recovered
      intro other member
      rcases List.mem_cons.mp member with rfl | further
      · exact Parts.fits_of_entry? shaped.1 isEntry
      · exact ih others shaped.2 other further

theorem rootItems_eq_pure {opener closer : Token} {items rest : List Form}
    (shaped : (Form.list opener items closer).Shaped) (found : rootItems closer items = pure rest) :
    ∃ name, items = .atom name :: rest ∧ name.kind = .symbol ∧ name.value = Schema.rootForm := by
  obtain ⟨name, expected, behind⟩ := Attempt.bind_eq_pure_iff.mp found
  obtain ⟨symbol, same⟩ := Attempt.expect_eq_pure_iff.mp expected
  simp only at behind
  split at behind
  · exact absurd behind (Attempt.fail_ne_pure _ _ _)
  · rename_i isRoot
    obtain rfl : items.tail = rest := by simpa using behind
    cases items with
    | nil =>
        change closer.kind = .symbol at symbol
        rcases shaped.2.1 with closes | ends
        · simp [closes] at symbol
        · simp [ends] at symbol
    | cons item items =>
        cases item with
        | atom t =>
            obtain rfl : t = name := same
            exact ⟨t, rfl, symbol, by simpa using isRoot⟩
        | list opener' inner closer' =>
            change opener'.kind = .symbol at symbol
            simp [shaped.2.2.1.1] at symbol

theorem checkEnd_eq_pure {closer : Token} {behind : List Token}
    (found : checkEnd closer behind = pure ()) : closer.kind ≠ .eof ∧ behind = [] := by
  unfold checkEnd at found
  split at found
  · exact absurd found (by simp [Attempt.note, pure])
  · rename_i inner
    refine ⟨by simpa [Token.isEnd] using inner, ?_⟩
    cases behind with
    | nil => rfl
    | cons t rest => exact absurd found (by simp [Attempt.note, pure])

/-- The root form of an accepted source fits, and nothing follows it. -/
theorem fits_of_ofForm {behind : List Token} {form : Form} (shaped : form.Shaped) {d : Document}
    (read : ofForm behind form = pure d) : Fits .nothing [] form ∧ behind = [] := by
  cases form with
  | atom t => exact absurd read (Attempt.fail_ne_pure _ _ _)
  | list opener items closer =>
      obtain ⟨rest, root, later⟩ := Attempt.bind_eq_pure_iff.mp read
      obtain ⟨found, stated, later⟩ := Attempt.bind_eq_pure_iff.mp later
      obtain ⟨⟨⟩, ends, -⟩ := Attempt.bind_eq_pure_iff.mp later
      obtain ⟨name, rfl, symbol, isRoot⟩ := rootItems_eq_pure shaped root
      obtain ⟨notEnd, rfl⟩ := checkEnd_eq_pure ends
      have closes : closer.kind = .closeParen := shaped.2.1.resolve_right notEnd
      refine ⟨fits_list shaped.1 closes (by simp) symbol (by simp [isRoot, Schema.rootForm,
        Schema.defineForm]) (placed_outside _) fun item member => ?_, rfl⟩
      rw [isRoot]
      exact fits_of_entries stated shaped.2.2.2 item member

theorem kind_ending (tokens : List Token) : (Token.ending tokens).kind = .eof := by
  unfold Token.ending
  cases found : tokens.find? Token.isEnd with
  | none => rfl
  | some t => simpa [Token.isEnd] using List.find?_some found

private theorem getLast?_tokens {form : Form} {d : Document} (fits : Fits .nothing [] form)
    (read : ofForm [] form = pure d) :
    ∃ closer, form.tokens.getLast? = some closer ∧ closer.kind = .closeParen := by
  cases form with
  | atom t => exact absurd read (Attempt.fail_ne_pure _ _ _)
  | list opener items closer =>
      refine ⟨closer, ?_, fits.2.1⟩
      rw [Form.tokens, List.getLast?_append]
      rfl

/-- The tokens of an accepted source are those of its root form. -/
theorem settled_of_rootForm {front : List Token} {p : Position} {form : Form} {behind : List Token}
    {d : Document} (inner : ∀ t ∈ front, t.kind ≠ .eof)
    (root : rootForm (front ++ [Token.eof p]) = (form, behind))
    (read : ofForm behind form = pure d) :
    Settled [] (Token.named [] front) := by
  rw [rootForm, beforeEnd_concat_eof inner] at root
  cases front with
  | nil =>
      obtain ⟨rfl, rfl⟩ := Prod.mk.inj root
      exact absurd read (Attempt.fail_ne_pure _ _ _)
  | cons t rest =>
      simp only at root
      split at root
      · rename_i opens
        have ends := kind_ending (t :: rest ++ [Token.eof p])
        have shaped := OpenList.shaped_read ends rest (l := ⟨t, []⟩) ⟨opens, by simp⟩
          fun m member => absurd member (List.not_mem_nil)
        obtain ⟨unclosed, same, -⟩ :=
          OpenList.tokens_read (Token.ending (t :: rest ++ [Token.eof p])) ⟨t, []⟩ [] rest
        rw [root] at shaped same
        obtain ⟨fits, rfl⟩ := fits_of_ofForm shaped read
        obtain ⟨closer, last, closes⟩ := getLast?_tokens fits read
        rw [List.append_nil] at same
        cases unclosed with
        | zero =>
            have whole : form.tokens = t :: rest := by simpa [OpenList.tokens, tokensAll] using same
            have settled : Settled [] (Token.named [] (form.tokens ++ [])) :=
              settled_tokens form fits rfl rfl
            rwa [List.append_nil, whole] at settled
        | succ n =>
            rw [same, List.replicate_succ', ← List.append_assoc, List.getLast?_append] at last
            obtain rfl := Option.some.inj last
            exact absurd (closes.symm.trans ends) (by decide)
      · obtain ⟨rfl, rfl⟩ := Prod.mk.inj root
        exact absurd read (Attempt.fail_ne_pure _ _ _)

/-- Balancing leaves a source as it is that is read without a fault. -/
theorem balance_of_accepted {limit : Int} {front : List Token} {p : Position} {d : Document}
    (inner : ∀ t ∈ front, t.kind ≠ .eof)
    (read : ofTokens limit (front ++ [Token.eof p]) = pure d) :
    Token.balance (front ++ [Token.eof p]) = front ++ [Token.eof p] := by
  refine balance_eq_self inner ?_
  unfold ofTokens at read
  split at read
  · exact absurd read (Attempt.fail_ne_pure _ _ _)
  · exact settled_of_rootForm inner rfl read

end Document
end Wireframe
