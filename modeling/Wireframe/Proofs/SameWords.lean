import Wireframe.Proofs.Alike

/-!
# Reading the same words

Alike tokens are read alike: the same faults are noted, and the documents have one bare form but for
the ids made up for overlays that have none.
-/

namespace Wireframe

open List (Forall₂)

/-- Two nested forms are alike if their tokens are, and so are the attempts to read them. -/
structure Nested.Alike (Φ Ψ : Fault → Prop) (n m : Nested) : Prop where
  form : n.form.Alike m.form
  child : n.child.Alike Φ Ψ (·.bare = ·.bare) m.child

/-- Two items are alike if they are alike atoms or alike nested forms. -/
inductive Item.Alike (Φ Ψ : Fault → Prop) : Item → Item → Prop where
  | atom {t u : Token} (word : t.Alike u) : Item.Alike Φ Ψ (.atom t) (.atom u)
  | nested {n m : Nested} (same : n.Alike Φ Ψ m) : Item.Alike Φ Ψ (.nested n) (.nested m)

/-- The parts of two lists are alike if they are one by one. -/
structure Parts.Alike (Φ Ψ : Fault → Prop) (p q : Parts) : Prop where
  opener : p.opener.Alike q.opener
  head : Forall₂ Token.Alike p.head q.head
  nested : Forall₂ (Nested.Alike Φ Ψ) p.nested q.nested
  next : p.next.Alike q.next

variable {Φ Ψ : Fault → Prop}

theorem Nested.Alike.opener {n m : Nested} (same : n.Alike Φ Ψ m) : n.opener.Alike m.opener :=
  same.form.first

theorem Item.Alike.first {i j : Item} (same : i.Alike Φ Ψ j) : i.first.Alike j.first := by
  cases same with
  | atom word => exact word
  | nested same => exact same.opener

private theorem alike_head?_getD {α : Type} {R : α → α → Prop} {as bs : List α}
    (same : Forall₂ R as bs) {f : α → Token} (first : ∀ a b, R a b → (f a).Alike (f b))
    {t u : Token} (word : t.Alike u) :
    ((as.head?.map f).getD t).Alike ((bs.head?.map f).getD u) := by
  cases same with
  | nil => exact word
  | cons head tail => exact first _ _ head

namespace Parts

theorem alike_splitAtoms {is js : List Item} (same : Forall₂ (Item.Alike Φ Ψ) is js) :
    Forall₂ Token.Alike (splitAtoms is).1 (splitAtoms js).1 ∧
      Forall₂ (Item.Alike Φ Ψ) (splitAtoms is).2 (splitAtoms js).2 := by
  induction same with
  | nil => exact ⟨.nil, .nil⟩
  | cons head tail ih =>
      cases head with
      | atom word => exact ⟨.cons word ih.1, ih.2⟩
      | nested same => exact ⟨.nil, .cons (.nested same) tail⟩

theorem alike_splitNested {is js : List Item} (same : Forall₂ (Item.Alike Φ Ψ) is js) :
    Forall₂ (Nested.Alike Φ Ψ) (splitNested is).1 (splitNested js).1 ∧
      Forall₂ (Item.Alike Φ Ψ) (splitNested is).2 (splitNested js).2 := by
  induction same with
  | nil => exact ⟨.nil, .nil⟩
  | cons head tail ih =>
      cases head with
      | atom word => exact ⟨.nil, .cons (.atom word) tail⟩
      | nested same => exact ⟨.cons same ih.1, ih.2⟩

theorem alike_ofItems {opener opener' closer closer' : Token} {is js : List Item}
    (opens : opener.Alike opener') (same : Forall₂ (Item.Alike Φ Ψ) is js)
    (closes : closer.Alike closer') :
    (ofItems opener is closer).Alike Φ Ψ (ofItems opener' js closer') := by
  obtain ⟨atoms, behind⟩ := alike_splitAtoms same
  obtain ⟨nested, behind⟩ := alike_splitNested behind
  exact ⟨opens, atoms, nested, alike_head?_getD behind (fun _ _ => Item.Alike.first) closes⟩

namespace Alike

variable {p q : Parts} {left left' : List Token}

theorem afterHead (same : p.Alike Φ Ψ q) : p.afterHead.Alike q.afterHead :=
  alike_head?_getD same.nested (fun _ _ => Nested.Alike.opener) same.next

private theorem head?_getD (words : Forall₂ Token.Alike left left') {t u : Token}
    (word : t.Alike u) : (left.head?.getD t).Alike (left'.head?.getD u) := by
  cases words with
  | nil => exact word
  | cons head tail => exact head

theorem current (same : p.Alike Φ Ψ q) (words : Forall₂ Token.Alike left left') :
    (p.current left).Alike (q.current left') :=
  head?_getD words same.afterHead

theorem closing (same : p.Alike Φ Ψ q) (words : Forall₂ Token.Alike left left') :
    (p.closing left).Alike (q.closing left') :=
  head?_getD words same.next

theorem upcoming (same : p.Alike Φ Ψ q) (words : Forall₂ Token.Alike left left') :
    Forall₂ (Nested.Alike Φ Ψ) (p.upcoming left) (q.upcoming left') := by
  cases words with
  | nil => exact same.nested
  | cons head tail => exact .nil

end Alike
end Parts

/-- Two readings from the atoms of a list are alike if they read the same and leave alike tokens. -/
def SameReading {α : Type} (a b : α × List Token) : Prop :=
  a.1 = b.1 ∧ Forall₂ Token.Alike a.2 b.2

private theorem forall₂_tail {left left' : List Token} (words : Forall₂ Token.Alike left left') :
    Forall₂ Token.Alike left.tail left'.tail := by
  cases words with
  | nil => exact .nil
  | cons head tail => exact tail

theorem Parts.Alike.symbol {p q : Parts} (same : p.Alike Φ Ψ q) {left left' : List Token}
    (words : Forall₂ Token.Alike left left') :
    (p.symbol left).Alike Φ Ψ SameReading (q.symbol left') := by
  refine .bind (.expect (same.current words)) fun t u word => ?_
  exact .pure ⟨word.value, forall₂_tail words⟩

section Clauses

variable {σ : Type} {step : σ → Token → Token → Attempt (Option (σ × Bool))}

/-- Clauses are read alike if each of them is. -/
theorem alike_readClauses {after after' : Token} (behind : after.Alike after')
    (alike : ∀ (s : σ) {key key' next next' : Token}, key.Alike key' → next.Alike next' →
      (step s key next).Alike Φ Ψ Eq (step s key' next'))
    {left left' : List Token} (words : Forall₂ Token.Alike left left') (s : σ) :
    (readClauses after step s left).Alike Φ Ψ SameReading (readClauses after' step s left') := by
  fun_induction readClauses after step s left generalizing left' with
  | case1 s =>
      cases words
      exact .pure ⟨rfl, .nil⟩
  | case2 s key isKeyword =>
      obtain @⟨⟩ | ⟨word, ⟨⟩⟩ := words
      rw [readClauses, if_pos (word.kind ▸ isKeyword)]
      refine .bind_same (alike s word behind) fun found => ?_
      cases found with
      | none => exact .pure ⟨rfl, .cons word .nil⟩
      | some found => exact .pure ⟨rfl, .nil⟩
  | case3 s key other =>
      obtain @⟨⟩ | ⟨word, ⟨⟩⟩ := words
      rw [readClauses, if_neg (word.kind ▸ other)]
      exact .pure ⟨rfl, .cons word .nil⟩
  | case4 s key next rest isKeyword ih ih' =>
      obtain @⟨⟩ | ⟨word, @⟨⟩ | ⟨word', tail⟩⟩ := words
      rw [readClauses, if_pos (word.kind ▸ isKeyword)]
      refine .bind_same (alike s word word') fun found => ?_
      match found with
      | none => exact .pure ⟨rfl, .cons word (.cons word' tail)⟩
      | some (later, true) => exact ih later tail
      | some (later, false) => exact ih' later (.cons word' tail)
  | case5 s key next rest other =>
      obtain @⟨⟩ | ⟨word, @⟨⟩ | ⟨word', tail⟩⟩ := words
      rw [readClauses, if_neg (word.kind ▸ other)]
      exact .pure ⟨rfl, .cons word (.cons word' tail)⟩

end Clauses

theorem Literal.alike_ofToken {t u : Token} (word : t.Alike u) : ofToken t = ofToken u := by
  rw [Literal.ofToken, Literal.ofToken, word.kind, word.value]

namespace PropValue

theorem alike_ofToken (type : Option PropType) {t u : Token} (word : t.Alike u) :
    ofToken type t = ofToken type u := by
  rw [ofToken, ofToken, word.kind, word.value, Literal.alike_ofToken word]

theorem alike_targetOfToken {t u : Token} (word : t.Alike u) :
    (targetOfToken t).Alike Φ Ψ Eq (targetOfToken u) := by
  rw [targetOfToken, targetOfToken, word.kind, word.value]
  split
  · exact .pure rfl
  · exact .pure rfl
  · exact .pure rfl
  · exact .pure rfl
  · exact .pure rfl
  · exact .fail

theorem alike_read (definition : Option PropDef) {t u : Token} (word : t.Alike u) :
    (read definition t).Alike Φ Ψ Eq (read definition u) := by
  unfold read
  rw [word.kind]
  split
  · exact .bind_same (alike_targetOfToken word) fun value => .pure rfl
  · rw [alike_ofToken _ word]
    exact .refl (fun _ => rfl) _

end PropValue

theorem alike_readProperty (known : Table PropDef) (props : Table PropValue)
    {key key' next next' : Token} (word : key.Alike key') (behind : next.Alike next') :
    (readProperty known props key next).Alike Φ Ψ Eq (readProperty known props key' next') := by
  rw [readProperty, readProperty, word.value]
  exact .bind_same (PropValue.alike_read _ behind) fun found => .pure rfl

theorem alike_readFact (facts : Table Scalar) {key key' next next' : Token}
    (word : key.Alike key') (behind : next.Alike next') :
    (readFact facts key next).Alike Φ Ψ Eq (readFact facts key' next') := by
  rw [readFact, readFact, word.value, behind.kind, behind.text, Literal.alike_ofToken behind]
  exact .refl (fun _ => rfl) _

/-! ## Nodes -/

theorem Child.bare_toElement {c d : Child} (same : c.bare = d.bare) :
    c.toElement.bare = d.toElement.bare := by
  cases c with
  | element e =>
      cases d with
      | element f => simpa [Child.bare, Child.toElement] using same
      | repetition r => simp [Child.bare] at same
  | repetition r =>
      cases d with
      | element f => simp [Child.bare] at same
      | repetition s =>
          simp only [Child.toElement, Element.bare, Child.bareAll, same]

theorem alike_readNested {ns ms : List Nested} (same : Forall₂ (Nested.Alike Φ Ψ) ns ms) :
    (readNested ns).Alike Φ Ψ (Child.bareAll · = Child.bareAll ·) (readNested ms) := by
  induction same with
  | nil => exact .pure rfl
  | cons head tail ih =>
      refine .bind (.recover head.child) fun c d one => .bind ih fun cs ds rest => .pure ?_
      rw [Child.bareAll_append, Child.bareAll_append, rest]
      cases one with
      | none => rfl
      | some one => simp [Child.bareAll, one]

namespace Parts

variable {p q : Parts} {left left' : List Token}

theorem Alike.element (same : p.Alike Φ Ψ q) (words : Forall₂ Token.Alike left left') :
    (p.element left).Alike Φ Ψ
      (fun a b => a.1.bare = b.1.bare ∧ Forall₂ (Nested.Alike Φ Ψ) a.2 b.2) (q.element left') := by
  have upcoming := same.upcoming words
  rw [Parts.element, Parts.element]
  generalize p.upcoming left = ns, q.upcoming left' = ms at upcoming
  cases upcoming with
  | nil => exact .unexpected (same.closing words)
  | cons head tail =>
      exact .bind head.child fun c d one => .pure ⟨Child.bare_toElement one, tail⟩

theorem Alike.closeBody (same : p.Alike Φ Ψ q) (form : String) {ns ms : List Nested}
    (nested : Forall₂ (Nested.Alike Φ Ψ) ns ms) :
    (p.closeBody form ns).Alike Φ Ψ Token.Alike (q.closeBody form ms) := by
  cases nested with
  | nil => exact .expect same.next
  | cons head tail => exact .fail

theorem alike_content (schema : ElementSchema) (words : Forall₂ Token.Alike left left') :
    SameReading (content schema left) (content schema left') := by
  cases words with
  | nil => exact ⟨rfl, .nil⟩
  | cons word tail =>
      rw [content, content, word.kind, word.value]
      split
      · exact ⟨rfl, tail⟩
      · split
        · exact ⟨rfl, tail⟩
        · exact ⟨rfl, .cons word tail⟩

theorem alike_children (schema : ElementSchema) {ns ms : List Nested}
    (nested : Forall₂ (Nested.Alike Φ Ψ) ns ms) :
    (children schema ns).Alike Φ Ψ (Child.bareAll · = Child.bareAll ·) (children schema ms) := by
  have nodes := alike_readNested nested
  cases nested with
  | nil => exact .pure rfl
  | cons head tail =>
      rw [children, children]
      split
      · exact nodes
      · exact .bind .note fun _ _ _ => .bind nodes fun _ _ _ => .pure rfl

theorem Alike.toElement (same : p.Alike Φ Ψ q) (name : String)
    (words : Forall₂ Token.Alike left left') :
    (p.toElement name left).Alike Φ Ψ (·.bare = ·.bare) (q.toElement name left') := by
  rw [Parts.toElement, Parts.toElement]
  have texts := alike_content (Schema.element name) words
  generalize content (Schema.element name) left = found,
    content (Schema.element name) left' = found' at texts
  obtain ⟨text, left⟩ := found
  obtain ⟨text', left'⟩ := found'
  obtain ⟨rfl, words⟩ := texts
  refine .bind (alike_readClauses same.afterHead (alike_readProperty _) words _) ?_
  rintro ⟨props, left⟩ ⟨props', left'⟩ ⟨rfl, words⟩
  refine .bind (alike_children _ (same.upcoming words)) fun children children' nodes => ?_
  refine .bind (.expect (same.closing words)) fun closer closer' _ => ?_
  refine .bind (.place same.opener) fun location location' _ => .pure ?_
  rw [Element.bare, Element.bare, nodes]

/-- One option of a repetition is read alike. -/
theorem alike_repeatOption (s : RepeatOptions) {key key' next next' : Token}
    (word : key.Alike key') (behind : next.Alike next') :
    (repeatOption s key next).Alike Φ Ψ Eq (repeatOption s key' next') := by
  rw [repeatOption, repeatOption, word.value, behind.kind, behind.value]
  split
  · split
    · refine .bind_same (.refl (fun _ => rfl) _) fun number => ?_
      refine .bind_same (.refl (fun _ => rfl) _) fun times => ?_
      refine .bind_same (.refl (fun _ => rfl) _) fun whole => ?_
      simp only
      split
      · exact .bind .note fun _ _ _ => .pure rfl
      · exact .pure rfl
    · exact .pure rfl
    · exact .bind .note fun _ _ _ => .pure rfl
  · split
    · split
      · exact .pure rfl
      · exact .bind .note fun _ _ _ => .pure rfl
    · exact .pure rfl

theorem Alike.toRepetition (same : p.Alike Φ Ψ q) (words : Forall₂ Token.Alike left left') :
    (p.toRepetition left).Alike Φ Ψ (·.bare = ·.bare) (q.toRepetition left') := by
  refine .bind (alike_readClauses same.afterHead alike_repeatOption words _) ?_
  rintro ⟨options, left⟩ ⟨options', left'⟩ ⟨rfl, words⟩
  refine .bind (same.element words) ?_
  rintro ⟨body, nested⟩ ⟨body', nested'⟩ ⟨bodies, rest⟩
  refine .bind (same.closeBody _ rest) fun closer closer' _ => ?_
  refine .bind (.place same.opener) fun location location' _ => .pure ?_
  rw [Repetition.bare, Repetition.bare, bodies]

theorem Alike.toChild (same : p.Alike Φ Ψ q) :
    p.toChild.Alike Φ Ψ (·.bare = ·.bare) q.toChild := by
  refine .bind (same.symbol same.head) ?_
  rintro ⟨name, left⟩ ⟨name', left'⟩ ⟨rfl, words⟩
  simp only
  split
  · refine .bind (same.toRepetition words) fun r r' one => .pure ?_
    rw [Child.bare, Child.bare, one]
  · split
    · exact .fail
    · split
      · exact .fail
      · refine .bind (same.toElement name words) fun e e' one => .pure ?_
        rw [Child.bare, Child.bare, one]

end Parts

namespace Form

private theorem alike_ofForm {form form' : Form} (same : form.Alike form') {x y : Attempt Child}
    (nodes : x.Alike Φ Ψ (·.bare = ·.bare) y) :
    (Item.ofForm form x).Alike Φ Ψ (Item.ofForm form' y) := by
  cases same with
  | atom word => exact .atom word
  | list opens inner closes => exact .nested ⟨.list opens inner closes, nodes⟩

mutual

/-- Alike forms are read as nodes of one bare form. -/
theorem alike_child {form form' : Form} :
    form.Alike form' → form.child.Alike Φ Ψ (·.bare = ·.bare) form'.child
  | .atom word => .unexpected word
  | .list opens inner closes =>
      (Parts.alike_ofItems opens (alike_readItems inner) closes).toChild

theorem alike_readItems {items items' : List Form} :
    AllAlike items items' → Forall₂ (Item.Alike Φ Ψ) (readItems items) (readItems items')
  | .nil => .nil
  | .cons head tail => .cons (alike_ofForm head (alike_child head)) (alike_readItems tail)

end

theorem Alike.parts {form form' : Form} (same : form.Alike form') :
    form.parts.Alike Φ Ψ form'.parts := by
  cases same with
  | atom word => exact ⟨word, .nil, .nil, word⟩
  | list opens inner closes => exact Parts.alike_ofItems opens (alike_readItems inner) closes

end Form

/-- Whether an overlay has no id of its own: a class has the fault noted of it, and its id is made
up of its place. -/
def Overlay.Unnamed (Φ : Fault → Prop) (o : Overlay) : Prop :=
  ∃ place, o.location = some place ∧ Φ ⟨.missingId o.kind, place.start⟩ ∧
    o.id = Parts.fallbackId o.kind place.start

/-- Two overlays are alike if they are the same but for their places and, where both have no id of
their own, the ids made up for them. -/
structure Overlay.Alike (Φ Ψ : Fault → Prop) (o o' : Overlay) : Prop where
  kind : o.kind = o'.kind
  id : o.id = o'.id ∨ o.Unnamed Φ ∧ o'.Unnamed Ψ
  props : o.props = o'.props
  children : Child.bareAll o.children = Child.bareAll o'.children

/-- Two screens are alike if they are the same but for their places, with alike overlays. -/
structure Screen.Alike (Φ Ψ : Fault → Prop) (s s' : Screen) : Prop where
  id : s.id = s'.id
  name : s.name = s'.name
  viewport : s.viewport = s'.viewport
  layout : s.layout = s'.layout
  root : s.root.bare = s'.root.bare
  overlays : Forall₂ (Overlay.Alike Φ Ψ) s.overlays s'.overlays

/-- Two entries are alike if they add the same to a document, but for places. -/
inductive Entry.Alike (Φ Ψ : Fault → Prop) : Entry → Entry → Prop where
  | inclusion {i j : Include} (same : i.bare = j.bare) :
      Entry.Alike Φ Ψ (.inclusion i) (.inclusion j)
  | facts (stated : Table Scalar) : Entry.Alike Φ Ψ (.facts stated) (.facts stated)
  | component {c d : Component} (same : c.bare = d.bare) :
      Entry.Alike Φ Ψ (.component c) (.component d)
  | layout {l m : Layout} (same : l.bare = m.bare) : Entry.Alike Φ Ψ (.layout l) (.layout m)
  | screen {s s' : Screen} (same : s.Alike Φ Ψ s') : Entry.Alike Φ Ψ (.screen s) (.screen s')

namespace Parts

variable {p q : Parts} {left left' : List Token}

theorem Alike.toInclude (same : p.Alike Φ Ψ q) (words : Forall₂ Token.Alike left left') :
    (p.toInclude left).Alike Φ Ψ (·.bare = ·.bare) (q.toInclude left') := by
  have path := same.current words
  rw [Parts.toInclude, Parts.toInclude]
  simp only [← path.kind, ← path.value]
  split
  · exact .fail
  · refine .bind (.expect (same.current (forall₂_tail words))) fun closer closer' _ => ?_
    exact .bind (.place same.opener) fun location location' _ => .pure rfl

theorem Alike.toFacts (same : p.Alike Φ Ψ q) (words : Forall₂ Token.Alike left left') :
    (p.toFacts left).Alike Φ Ψ Eq (q.toFacts left') := by
  refine .bind (alike_readClauses same.afterHead alike_readFact words _) ?_
  rintro ⟨stated, left⟩ ⟨stated', left'⟩ ⟨rfl, words⟩
  exact .bind (.expect (same.current words)) fun closer closer' _ => .pure rfl

theorem alike_names {closer closer' : Token} (closes : closer.Alike closer') {is js : List Item}
    (same : Forall₂ (Item.Alike Φ Ψ) is js) :
    (names closer is).Alike Φ Ψ Eq (names closer' js) := by
  induction same with
  | nil => exact .bind (.expect closes) fun t u _ => .pure rfl
  | cons head tail ih =>
      refine .bind (.expect head.first) fun t u word => .bind_same ih fun rest => .pure ?_
      rw [word.value]

theorem alike_params {form form' : Form} (same : form.Alike form') :
    (params form).Alike Φ Ψ Eq (params form') := by
  cases same with
  | atom word => exact .unexpected word
  | list opens inner closes => exact alike_names closes (Form.alike_readItems inner)

theorem Alike.toComponent (same : p.Alike Φ Ψ q) (words : Forall₂ Token.Alike left left') :
    (p.toComponent left).Alike Φ Ψ (·.bare = ·.bare) (q.toComponent left') := by
  refine .bind (same.symbol words) ?_
  rintro ⟨name, left⟩ ⟨name', left'⟩ ⟨rfl, words⟩
  have upcoming := same.upcoming words
  simp only
  generalize p.upcoming left = ns, q.upcoming left' = ms at upcoming
  cases upcoming with
  | nil => exact .unexpected (same.closing words)
  | @cons n m rest rest' head tail =>
      have behind : Parts.Alike Φ Ψ { p with nested := rest } { q with nested := rest' } :=
        ⟨same.opener, same.head, tail, same.next⟩
      refine .bind_same (alike_params head.form) fun params => ?_
      refine .bind (behind.element .nil) ?_
      rintro ⟨body, nested⟩ ⟨body', nested'⟩ ⟨bodies, others⟩
      refine .bind (same.closeBody _ others) fun closer closer' _ => ?_
      refine .bind (.place same.opener) fun location location' _ => .pure ?_
      rw [Component.bare, Component.bare, bodies]

theorem Alike.toLayout (same : p.Alike Φ Ψ q) (words : Forall₂ Token.Alike left left') :
    (p.toLayout left).Alike Φ Ψ (·.bare = ·.bare) (q.toLayout left') := by
  refine .bind (same.symbol words) ?_
  rintro ⟨name, left⟩ ⟨name', left'⟩ ⟨rfl, words⟩
  refine .bind (same.element words) ?_
  rintro ⟨body, nested⟩ ⟨body', nested'⟩ ⟨bodies, rest⟩
  refine .bind (same.closeBody _ rest) fun closer closer' _ => ?_
  refine .bind (.place same.opener) fun location location' _ => .pure ?_
  rw [Layout.bare, Layout.bare, bodies]

theorem alike_overlayOption (s : OverlayOptions) {key key' next next' : Token}
    (word : key.Alike key') (behind : next.Alike next') :
    (overlayOption s key next).Alike Φ Ψ Eq (overlayOption s key' next') := by
  rw [overlayOption, overlayOption, word.value, behind.kind, behind.value]
  split
  · split
    · exact .pure rfl
    · exact .bind .note fun _ _ _ => .pure rfl
  · exact .bind_same (PropValue.alike_read _ behind) fun found => .pure rfl

theorem Alike.toOverlay (same : p.Alike Φ Ψ q) (kind : OverlayKind) :
    (p.toOverlay kind).Alike Φ Ψ (Overlay.Alike Φ Ψ) (q.toOverlay kind) := by
  refine .bind (alike_readClauses same.afterHead alike_overlayOption (forall₂_tail same.head) _) ?_
  rintro ⟨options, left⟩ ⟨options', left'⟩ ⟨rfl, words⟩
  refine .bind (alike_readNested (same.upcoming words)) fun children children' nodes => ?_
  refine .bind (.expect (same.closing words)) fun closer closer' _ => ?_
  simp only
  split
  · refine .note_bind fun missing missing' => ?_
    refine .bind (.place same.opener) fun location location' starts => .pure ?_
    refine ⟨rfl, .inr ⟨⟨location, rfl, ?_, ?_⟩, ⟨location', rfl, ?_, ?_⟩⟩, rfl, nodes⟩
    · rwa [starts.1]
    · rw [starts.1]
    · rwa [starts.2]
    · rw [starts.2]
  · refine .bind (.place same.opener) fun location location' _ => .pure ?_
    exact ⟨rfl, .inl rfl, rfl, nodes⟩

theorem alike_screenOption (s : ScreenOptions) {key key' next next' : Token}
    (word : key.Alike key') (behind : next.Alike next') :
    (screenOption s key next).Alike Φ Ψ Eq (screenOption s key' next') := by
  rw [screenOption, screenOption, word.value, behind.kind]
  split
  · exact .pure rfl
  · split
    · refine .bind (.expect behind) fun t u name => .pure ?_
      rw [name.value]
    · exact .bind .note fun _ _ _ => .pure rfl

theorem alike_overlayKind? {form form' : Form} (same : form.Alike form') :
    overlayKind? form = overlayKind? form' := by
  cases same with
  | atom word => rfl
  | list opens inner closes =>
      cases inner with
      | nil => rfl
      | cons head tail =>
          cases head with
          | atom word => rw [overlayKind?, overlayKind?, word.kind, word.value]
          | list => rfl

/-- The forms of a screen are read alike, given alike roots. -/
theorem alike_screenForms (screen : String) {ns ms : List Nested}
    (nested : Forall₂ (Nested.Alike Φ Ψ) ns ms) {root root' : Option Element}
    (roots : Option.Rel (·.bare = ·.bare) root root') :
    (screenForms screen root ns).Alike Φ Ψ
      (fun a b => Option.Rel (·.bare = ·.bare) a.1 b.1 ∧ Forall₂ (Overlay.Alike Φ Ψ) a.2 b.2)
      (screenForms screen root' ms) := by
  induction nested generalizing root root' with
  | nil => exact .pure ⟨roots, .nil⟩
  | cons head tail ih =>
      rw [screenForms.eq_def, screenForms.eq_def screen root']
      simp only [alike_overlayKind? head.form]
      split
      · rename_i kind _
        refine .bind (.recover (head.form.parts.toOverlay kind)) fun overlay overlay' one => ?_
        refine .bind (ih roots) ?_
        rintro ⟨root, overlays⟩ ⟨root', overlays'⟩ ⟨roots, others⟩
        refine .pure ⟨roots, ?_⟩
        cases one with
        | none => exact others
        | some one => exact .cons one others
      · cases roots with
        | none =>
            refine .bind (.recover head.child) fun child child' one => ih ?_
            cases one with
            | none => exact .none
            | some one => exact .some (Child.bare_toElement one)
        | some root => exact .bind .note fun _ _ _ => ih (.some root)

theorem alike_title (words : Forall₂ Token.Alike left left') :
    SameReading (title left) (title left') := by
  cases words with
  | nil => exact ⟨rfl, .nil⟩
  | cons word tail =>
      rw [title, title, word.kind, word.value]
      split
      · exact ⟨rfl, tail⟩
      · exact ⟨rfl, .cons word tail⟩

theorem Alike.toScreen (same : p.Alike Φ Ψ q) (words : Forall₂ Token.Alike left left') :
    (p.toScreen left).Alike Φ Ψ (Screen.Alike Φ Ψ) (q.toScreen left') := by
  refine .bind (same.symbol words) ?_
  rintro ⟨id, left⟩ ⟨id', left'⟩ ⟨rfl, words⟩
  have titles := alike_title words
  simp only
  generalize title left = found, title left' = found' at titles
  obtain ⟨name, left⟩ := found
  obtain ⟨name', left'⟩ := found'
  obtain ⟨rfl, words⟩ := titles
  refine .bind (alike_readClauses same.afterHead alike_screenOption words _) ?_
  rintro ⟨options, left⟩ ⟨options', left'⟩ ⟨rfl, words⟩
  refine .bind (alike_screenForms id (same.upcoming words) .none) ?_
  rintro ⟨root, overlays⟩ ⟨root', overlays'⟩ ⟨roots, others⟩
  refine .bind (.expect (same.closing words)) fun closer closer' _ => ?_
  cases roots with
  | none => exact .fail
  | some root =>
      refine .bind (.place same.opener) fun location location' _ => .pure ?_
      exact ⟨rfl, rfl, rfl, rfl, root, others⟩

/-- Alike top-level forms add the same to a document, but for places. -/
theorem Alike.toEntry? (same : p.Alike Φ Ψ q) :
    p.toEntry?.Alike Φ Ψ (Option.Rel (Entry.Alike Φ Ψ)) q.toEntry? := by
  refine .bind (same.symbol same.head) ?_
  rintro ⟨name, left⟩ ⟨name', left'⟩ ⟨rfl, words⟩
  simp only
  split
  · exact .bind (same.toInclude words) fun i j one => .pure (.some (.inclusion one))
  · exact .bind_same (same.toFacts words) fun stated => .pure (.some (.facts stated))
  · exact .bind (same.toComponent words) fun c d one => .pure (.some (.component one))
  · exact .bind (same.toLayout words) fun l m one => .pure (.some (.layout one))
  · exact .bind (same.toScreen words) fun s s' one => .pure (.some (.screen one))
  · exact .bind .note fun _ _ _ => .pure .none

end Parts

theorem Form.alike_entry? {form form' : Form} (same : form.Alike form') :
    form.entry?.Alike Φ Ψ (Option.Rel (Entry.Alike Φ Ψ)) form'.entry? := by
  cases same with
  | atom word => exact .unexpected word
  | list opens inner closes => exact (Form.Alike.list opens inner closes).parts.toEntry?

/-- Two documents are alike if they are the same but for places, with alike screens. -/
structure Document.Alike (Φ Ψ : Fault → Prop) (d e : Document) : Prop where
  metadata : d.metadata = e.metadata
  includes : d.includes.map Include.bare = e.includes.map Include.bare
  components : d.components.map Component.bare = e.components.map Component.bare
  layouts : d.layouts.map Layout.bare = e.layouts.map Layout.bare
  screens : Forall₂ (Screen.Alike Φ Ψ) d.screens e.screens

private theorem map_congr {α β : Type} {R : α → α → Prop} {f : α → β} {as bs : List α}
    (same : Forall₂ R as bs) (related : ∀ a b, R a b → f a = f b) : as.map f = bs.map f := by
  induction same with
  | nil => rfl
  | cons head tail ih => rw [List.map_cons, List.map_cons, related _ _ head, ih]

/-- Where no fault is noted no id is made up, so alike overlays have one bare form. -/
theorem Overlay.Alike.bare_eq {o o' : Overlay} (same : o.Alike (fun _ => False) Ψ o') :
    o.bare = o'.bare := by
  obtain ⟨kind, id, props, children, location⟩ := o
  obtain ⟨kind', id', props', children', location'⟩ := o'
  obtain ⟨rfl, sameId | ⟨⟨_, _, noted, _⟩, -⟩, rfl, nodes⟩ := same
  · obtain rfl : id = id' := sameId
    simp only [Overlay.bare, nodes]
  · exact noted.elim

theorem Screen.Alike.bare_eq {s s' : Screen} (same : s.Alike (fun _ => False) Ψ s') :
    s.bare = s'.bare := by
  have overlays := map_congr same.overlays fun _ _ => Overlay.Alike.bare_eq
  rw [Screen.bare, Screen.bare, same.id, same.name, same.viewport, same.layout, same.root, overlays]

namespace Document

theorem Alike.bare_eq {d e : Document} (same : d.Alike (fun _ => False) Ψ e) : d.bare = e.bare := by
  have screens := map_congr same.screens fun _ _ => Screen.Alike.bare_eq
  rw [bare, bare, same.metadata, same.includes, same.components, same.layouts, screens]

theorem alike_entries {forms forms' : List Form} :
    Form.AllAlike forms forms' →
      (entries forms).Alike Φ Ψ (Forall₂ (Entry.Alike Φ Ψ)) (entries forms')
  | .nil => .pure .nil
  | .cons head tail => by
      refine .bind (.recover (Form.alike_entry? head)) fun entry entry' one => ?_
      refine .bind (alike_entries tail) fun later later' others => .pure ?_
      cases one with
      | none => exact others
      | some one =>
          cases one with
          | none => exact others
          | some one => exact .cons one others

section Entries

variable {found found' : List Entry}

private theorem map_filterMap {α : Type} {select : Entry → Option α} {bare : α → α}
    (same : Forall₂ (Entry.Alike Φ Ψ) found found')
    (selects : ∀ e e', e.Alike Φ Ψ e' → (select e).map bare = (select e').map bare) :
    (found.filterMap select).map bare = (found'.filterMap select).map bare := by
  rw [List.map_filterMap, List.map_filterMap]
  induction same with
  | nil => rfl
  | cons head tail ih => rw [List.filterMap_cons, List.filterMap_cons, selects _ _ head, ih]

private theorem include?_bare {e e' : Entry} (same : e.Alike Φ Ψ e') :
    e.include?.map Include.bare = e'.include?.map Include.bare := by
  cases same with
  | inclusion same => exact congrArg some same
  | _ => rfl

private theorem component?_bare {e e' : Entry} (same : e.Alike Φ Ψ e') :
    e.component?.map Component.bare = e'.component?.map Component.bare := by
  cases same with
  | component same => exact congrArg some same
  | _ => rfl

private theorem layout?_bare {e e' : Entry} (same : e.Alike Φ Ψ e') :
    e.layout?.map Layout.bare = e'.layout?.map Layout.bare := by
  cases same with
  | layout same => exact congrArg some same
  | _ => rfl

private theorem screen?_alike {e e' : Entry} (same : e.Alike Φ Ψ e') :
    Option.Rel (Screen.Alike Φ Ψ) e.screen? e'.screen? := by
  cases same with
  | screen same => exact .some same
  | _ => exact .none

private theorem statements_eq {e e' : Entry} (same : e.Alike Φ Ψ e') :
    e.statements = e'.statements := by
  cases same with
  | _ => rfl

theorem alike_ofEntries (same : Forall₂ (Entry.Alike Φ Ψ) found found')
    (location location' : Location) :
    (ofEntries found location).Alike Φ Ψ (ofEntries found' location') where
  metadata := by
    have statements := map_congr same fun _ _ => statements_eq
    rw [ofEntries, ofEntries, List.flatMap, List.flatMap, statements]
  includes := map_filterMap same fun _ _ => include?_bare
  components := map_filterMap same fun _ _ => component?_bare
  layouts := map_filterMap same fun _ _ => layout?_bare
  screens := by
    apply List.rel_filterMap (R := Entry.Alike Φ Ψ) _ same
    exact fun _ _ => screen?_alike

end Entries

/-! ## Sources -/

section Tokens

variable {tokens tokens' behind behind' : List Token} {closer closer' : Token}

theorem alike_rootItems (closes : closer.Alike closer') {items items' : List Form}
    (same : Form.AllAlike items items') :
    (rootItems closer items).Alike Φ Ψ Form.AllAlike (rootItems closer' items') := by
  have first : ((items.head?.map Form.first).getD closer).Alike
      ((items'.head?.map Form.first).getD closer') := by
    cases same with
    | nil => exact closes
    | cons head tail => exact head.first
  refine .bind (.expect first) fun name name' word => ?_
  simp only [word.value]
  split
  · exact .fail
  · cases same with
    | nil => exact .pure .nil
    | cons head tail => exact .pure tail

theorem alike_checkEnd (closes : closer.Alike closer')
    (words : Forall₂ Token.Alike behind behind') :
    (checkEnd closer behind).Alike Φ Ψ Eq (checkEnd closer' behind') := by
  unfold checkEnd
  rw [Token.isEnd, Token.isEnd, closes.kind]
  split
  · exact .note
  · cases words with
    | nil => exact .pure rfl
    | cons head tail => exact .note

theorem alike_ofForm (words : Forall₂ Token.Alike behind behind') {form form' : Form}
    (same : form.Alike form') :
    (ofForm behind form).Alike Φ Ψ (Document.Alike Φ Ψ) (ofForm behind' form') := by
  cases same with
  | atom word => exact .unexpected word
  | list opens inner closes =>
      refine .bind (alike_rootItems closes inner) fun items items' rest => ?_
      refine .bind (alike_entries rest) fun found found' others => ?_
      refine .bind_same (alike_checkEnd closes words) fun _ => ?_
      exact .bind (.place opens) fun location location' _ => .pure (alike_ofEntries others _ _)

theorem alike_beforeEnd (words : Forall₂ Token.Alike tokens tokens') :
    Forall₂ Token.Alike (Token.beforeEnd tokens) (Token.beforeEnd tokens') := by
  induction words with
  | nil => exact .nil
  | cons word tail ih =>
      rw [Token.beforeEnd, Token.beforeEnd, List.takeWhile_cons, List.takeWhile_cons, Token.isEnd,
        Token.isEnd, word.kind]
      split
      · exact .cons word ih
      · exact .nil

theorem alike_find?_isEnd (words : Forall₂ Token.Alike tokens tokens') :
    Option.Rel Token.Alike (tokens.find? Token.isEnd) (tokens'.find? Token.isEnd) := by
  induction words with
  | nil => exact .none
  | @cons t u rest rest' word tail ih =>
      have kinds : t.isEnd = u.isEnd := congrArg (· == TokenKind.eof) word.kind
      rw [List.find?_cons, List.find?_cons, ← kinds]
      cases t.isEnd with
      | true => exact .some word
      | false => exact ih

/-- The ends of alike sources are alike if they have one. -/
theorem alike_ending (words : Forall₂ Token.Alike tokens tokens') (ended : ∃ t ∈ tokens, t.isEnd) :
    (Token.ending tokens).Alike (Token.ending tokens') := by
  have found := alike_find?_isEnd words
  have some : (tokens.find? Token.isEnd).isSome := List.find?_isSome.mpr ended
  rw [Token.ending, Token.ending]
  generalize tokens.find? Token.isEnd = t, tokens'.find? Token.isEnd = u at found some
  cases found with
  | none => simp at some
  | some word => exact word

theorem alike_rootForm (words : Forall₂ Token.Alike tokens tokens')
    (ends : (Token.ending tokens).Alike (Token.ending tokens')) :
    (rootForm tokens).1.Alike (rootForm tokens').1 ∧
      Forall₂ Token.Alike (rootForm tokens).2 (rootForm tokens').2 := by
  have inner := alike_beforeEnd words
  rw [rootForm, rootForm]
  generalize Token.beforeEnd tokens = front, Token.beforeEnd tokens' = front' at inner
  cases inner with
  | nil => exact ⟨.atom ends, .nil⟩
  | cons word tail =>
      simp only [word.kind]
      split
      · exact OpenList.Alike.read ends tail .nil ⟨word, .nil⟩
      · exact ⟨.atom word, tail⟩

theorem alike_tooDeep? (limit : Int) (depth : Nat) (words : Forall₂ Token.Alike tokens tokens') :
    Option.Rel Token.Alike (Token.tooDeep? limit depth tokens)
      (Token.tooDeep? limit depth tokens') := by
  induction words generalizing depth with
  | nil => exact .none
  | cons word tail ih =>
      rw [Token.tooDeep?, Token.tooDeep?, word.kind]
      split
      · split
        · exact .some word
        · exact ih _
      · exact ih _
      · exact ih _

/-- Sources of the same words are read alike. -/
theorem alike_ofTokens (limit : Int) (words : Forall₂ Token.Alike tokens tokens')
    (ends : (Token.ending tokens).Alike (Token.ending tokens')) :
    (ofTokens limit tokens).Alike Φ Ψ (Document.Alike Φ Ψ) (ofTokens limit tokens') := by
  have deep := alike_tooDeep? limit 0 words
  have same := alike_rootForm words ends
  rw [ofTokens, ofTokens]
  generalize Token.tooDeep? limit 0 tokens = t, Token.tooDeep? limit 0 tokens' = u at deep
  cases deep with
  | some word => exact .fail
  | none => exact alike_ofForm same.2 same.1

end Tokens
end Document
end Wireframe
