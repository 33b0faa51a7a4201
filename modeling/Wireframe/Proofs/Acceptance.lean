import Wireframe.Proofs.Derivation
import Wireframe.Proofs.Recovery

/-!
# Accepted documents

A form is read without a fault exactly if its tokens belong to the language of the grammar for it:
of nodes by the structure of forms, and of all others from their parts.
-/

namespace Wireframe

open scoped Computability

/-- Whether a form is closed and its tokens can be read. -/
structure Form.Regular (form : Form) : Prop where
  closed : form.Closed
  readable : ∀ t ∈ form.tokens, t.Readable

/-- Whether a nested form is a regular list and comes with the attempt to read it. -/
structure Nested.Regular (n : Nested) : Prop where
  form : n.form.Regular
  opens : n.opener.kind = .openParen
  child : n.child = n.form.child

namespace Form

variable {opener closer : Token} {items : List Form}

theorem Regular.item (regular : (list opener items closer).Regular) {form : Form}
    (member : form ∈ items) : form.Regular := by
  have inside : form.tokens <:+: (list opener items closer).tokens :=
    (tokens_infix_tokensAll member).trans (tokensAll_infix_tokens opener items closer)
  exact ⟨(closed_list_iff.mp regular.closed).2.2 form member,
    fun t inForm => regular.readable t (inside.mem inForm)⟩

theorem Regular.nested (regular : (list opener items closer).Regular) :
    ∀ n ∈ (list opener items closer).parts.nested, n.Regular := by
  intro n member
  obtain ⟨isItem, -, opens⟩ := Parts.nested_shaped regular.closed.shaped member
  obtain ⟨-, -, -, -, children⟩ := Parts.items_eq_parts opener items closer
  exact ⟨regular.item isItem, opens, children n member⟩

theorem Regular.parts (regular : (list opener items closer).Regular) :
    (list opener items closer).parts.Regular := by
  have inside := head_infix_tokens opener items closer
  have shaped := regular.closed.shaped
  refine ⟨?_, fun t member => ?_, fun t => Parts.head_kind shaped, fun n member => ?_,
    fun none => ?_⟩
  · exact (regular.readable opener (by simp [tokens])).proper
  · exact regular.readable t (inside.mem (List.mem_append_left _ member))
  · exact (Parts.nested_shaped shaped member).2.2
  · obtain ⟨behind, -, next, last, -⟩ := Parts.items_eq_parts opener items closer
    rw [next, last none]
    exact (closed_list_iff.mp regular.closed).2.1

end Form

namespace Grammar

open Form

/-! ## Languages of atoms and lists -/

theorem flat_kind {k : TokenKind} (atom : k ≠ .openParen ∧ k ≠ .closeParen ∧ k ≠ .eof) :
    Flat (kind k) :=
  flat_one fun t same => closed_atom_iff.mpr (by simpa [same, and_assoc] using atom)

theorem flat_word (name : String) : Flat (word name) :=
  flat_one fun t ⟨same, _⟩ => closed_atom_iff.mpr (by simp [same])

theorem flat_keyword (p : String → Prop) : Flat (keyword p) :=
  flat_one fun t ⟨same, _⟩ => closed_atom_iff.mpr (by simp [same])

theorem flat_value : Flat value := by
  refine flat_one fun t isValue => closed_atom_iff.mpr ⟨⟨?_, ?_⟩, ?_⟩
  all_goals
    intro kind
    simp [kind, TokenKind.isValue] at isValue

theorem flat_text : Flat text := by
  refine flat_one fun t kinds => closed_atom_iff.mpr ⟨⟨?_, ?_⟩, ?_⟩
  all_goals
    intro kind
    simp [kind] at kinds

theorem flat_property (schema : ElementSchema) : Flat (property schema) := by
  refine ((flat_keyword _).mul (flat_one fun t kinds => closed_atom_iff.mpr ⟨⟨?_, ?_⟩, ?_⟩)).add
    ((flat_keyword _).mul flat_value.optional)
  all_goals
    intro kind
    simp [kind] at kinds

theorem flat_content (schema : ElementSchema) : Flat (content schema) := by
  unfold content
  split
  · exact ((flat_kind (by decide)).add (flat_kind (by decide))).optional
  · exact flat_empty

theorem flat_atoms (schema : ElementSchema) : Flat (content schema * (property schema)∗) :=
  (flat_content schema).mul (flat_property schema).kstar

theorem flat_repeatOption : Flat repeatOption := by
  refine ((flat_keyword _).mul (Flat.add ?_ (flat_kind (by decide)))).add
    ((flat_keyword _).mul flat_text)
  exact flat_one fun t ⟨number, _⟩ => closed_atom_iff.mpr (by simp [number])

theorem flat_overlayOptions : Flat overlayOptions := by
  have flatProperty : Flat overlayProperty := (flat_keyword _).mul flat_value.optional
  have flatId : Flat overlayId := (flat_keyword _).mul flat_text
  have flatProper : Flat properId := flatId.mono fun ts member => by
    obtain ⟨key, next, rfl, keyword, isId, kinds, -⟩ := mem_keyword_one.mp member
    exact mem_keyword_one.mpr ⟨key, next, rfl, keyword, isId, kinds⟩
  exact ((flatId.add flatProperty).kstar.mul flatProper).mul flatProperty.kstar

theorem flat_screenOption : Flat screenOption :=
  (flat_keyword _).add ((flat_keyword _).mul (flat_kind (by decide)))

/-- The children that an element may have. -/
def children (schema : ElementSchema) : Language Token :=
  if schema.takesChildren then node∗ else 1

theorem mem_paren_mul_iff {l m : Language Token} {ts : List Token} : ts ∈ paren (l * m) ↔
    ∃ opener front back closer, ts = opener :: (front ++ back ++ [closer]) ∧
      opener.kind = .openParen ∧ front ∈ l ∧ back ∈ m ∧ closer.kind = .closeParen := by
  constructor
  · rintro ⟨_, ⟨_, ⟨opener, rfl, opens⟩, _, ⟨front, isFront, back, isBack, rfl⟩, rfl⟩, _,
      ⟨closer, rfl, closes⟩, rfl⟩
    exact ⟨opener, front, back, closer, rfl, opens, isFront, isBack, closes⟩
  · rintro ⟨opener, front, back, closer, rfl, opens, isFront, isBack, closes⟩
    exact ⟨opener :: (front ++ back), ⟨[opener], ⟨opener, rfl, opens⟩, front ++ back,
      ⟨front, isFront, back, isBack, rfl⟩, rfl⟩, [closer], ⟨closer, rfl, closes⟩, rfl⟩

theorem mem_node_iff {ts : List Token} : ts ∈ node ↔
    ts ∈ paren (word Schema.repeatForm * repeatOption∗ * node) ∨
      ∃ name, IsElementName name ∧ ts ∈ paren (word name * (content (Schema.element name) *
        (property (Schema.element name))∗) * children (Schema.element name)) := by
  constructor
  · rintro (⟨opens, symbol, named, isOptions, isBody, closes⟩ |
      ⟨opens, symbol, named, isAtoms, accepts, isChildren, closes⟩)
    · refine Or.inl (mem_paren_mul_iff.mpr ⟨_, _ :: _, _, _, rfl, opens, ?_, isBody, closes⟩)
      exact mem_one_mul.mpr ⟨_, _, rfl, ⟨symbol, named⟩, isOptions⟩
    · refine Or.inr ⟨_, named, mem_paren_mul_iff.mpr ⟨_, _ :: _, _, _, rfl, opens, ?_, ?_, closes⟩⟩
      · exact mem_one_mul.mpr ⟨_, _, rfl, ⟨symbol, rfl⟩, isAtoms⟩
      · unfold children
        split
        · exact Language.join_mem_kstar isChildren
        · rename_i leaf
          rw [of_not_not (mt accepts leaf)]
          rfl
  · rintro (repetition | ⟨name, isName, element⟩)
    · obtain ⟨opener, _, body, closer, rfl, opens, front, isBody, closes⟩ :=
        mem_paren_mul_iff.mp repetition
      obtain ⟨name, options, rfl, ⟨symbol, named⟩, isOptions⟩ := mem_one_mul.mp front
      exact .repetition opens symbol named isOptions isBody closes
    · obtain ⟨opener, _, back, closer, rfl, opens, front, isBack, closes⟩ :=
        mem_paren_mul_iff.mp element
      obtain ⟨name, atoms, rfl, ⟨symbol, rfl⟩, isAtoms⟩ := mem_one_mul.mp front
      unfold children at isBack
      split at isBack
      · rename_i takes
        obtain ⟨parts, rfl, isChildren⟩ := isBack
        exact .element opens symbol isName isAtoms (fun _ => takes) isChildren closes
      · obtain rfl : back = [] := isBack
        have none : ∀ part ∈ ([] : List (List Token)), part ∈ node := by simp
        exact .element opens symbol isName isAtoms (fun some => absurd rfl some) none closes

theorem phrase_node : Phrase node := by
  intro ts isNode
  induction isNode with
  | @repetition opener name closer options body opens symbol named isOptions isBody closes ih =>
      have bodies : Phrases {body} := by
        rintro _ rfl
        obtain ⟨form, closed, same⟩ := ih
        exact ⟨[form], by simpa using closed, by simpa [tokensAll] using same⟩
      refine phrase_paren ((flat_word Schema.repeatForm).mul flat_repeatOption.kstar) bodies _ ?_
      exact mem_paren_mul_iff.mpr ⟨opener, name :: options, _, closer, rfl, opens,
        mem_one_mul.mpr ⟨name, options, rfl, ⟨symbol, named⟩, isOptions⟩, rfl, closes⟩
  | @element opener name closer atoms children opens symbol named isAtoms accepts isChildren closes
      ih =>
      have nodes : Phrases {children.flatten} := by
        rintro _ rfl
        clear accepts isChildren
        induction children with
        | nil => exact ⟨[], by simp, rfl⟩
        | cons part parts later =>
            obtain ⟨here, others⟩ := List.forall_mem_cons.mp ih
            obtain ⟨form, closed, rfl⟩ := here
            obtain ⟨forms, all, same⟩ := later others
            exact ⟨form :: forms, List.forall_mem_cons.mpr ⟨closed, all⟩, by
              rw [tokensAll, same, List.flatten_cons]⟩
      refine phrase_paren ((flat_word name.value).mul (flat_atoms (Schema.element name.value)))
        nodes _ ?_
      exact mem_paren_mul_iff.mpr ⟨opener, name :: atoms, _, closer, rfl, opens,
        mem_one_mul.mpr ⟨name, atoms, rfl, ⟨symbol, rfl⟩, isAtoms⟩, rfl, closes⟩

theorem phrases_children (schema : ElementSchema) : Phrases (children schema) := by
  unfold children
  split
  · exact phrase_node.phrases.kstar
  · exact phrases_empty

end Grammar

namespace Form

open Grammar

/-! ## Nested forms -/

section

variable {nested : List Nested} (regular : ∀ n ∈ nested, n.Regular) {l : Language Token}

include regular

theorem closed_map_form : ∀ form ∈ nested.map Nested.form, form.Closed :=
  List.forall_mem_map.mpr fun n member => (regular n member).form.closed

/-- Nested forms are a single list exactly if there is only one of them, which is that list. -/
theorem nested_mem_phrase_iff (phrase : Phrase l) :
    tokensAll (nested.map Nested.form) ∈ l ↔ ∃ n, nested = [n] ∧ n.form.tokens ∈ l := by
  rw [tokensAll_mem_phrase_iff (closed_map_form regular) phrase]
  constructor
  · rintro ⟨form, same, member⟩
    obtain ⟨n, rfl, rfl⟩ := List.map_eq_singleton_iff.mp same
    exact ⟨n, rfl, member⟩
  · rintro ⟨n, rfl, member⟩
    exact ⟨n.form, rfl, member⟩

theorem nested_mem_kstar_iff (phrase : Phrase l) :
    tokensAll (nested.map Nested.form) ∈ l∗ ↔ ∀ n ∈ nested, n.form.tokens ∈ l := by
  rw [tokensAll_mem_kstar_iff (closed_map_form regular) phrase.closed, List.forall_mem_map]

theorem nested_mem_mul_iff {m : Language Token} (left : Phrases l) (right : Phrases m) :
    tokensAll (nested.map Nested.form) ∈ l * m ↔ ∃ front back, nested = front ++ back ∧
      tokensAll (front.map Nested.form) ∈ l ∧ tokensAll (back.map Nested.form) ∈ m := by
  rw [tokensAll_mem_mul_iff (closed_map_form regular) left right]
  constructor
  · rintro ⟨_, _, same, isFront, isBack⟩
    obtain ⟨front, back, rfl, rfl, rfl⟩ := List.map_eq_append_iff.mp same
    exact ⟨front, back, rfl, isFront, isBack⟩
  · rintro ⟨front, back, rfl, isFront, isBack⟩
    exact ⟨_, _, List.map_append, isFront, isBack⟩

theorem nested_mem_empty_iff :
    tokensAll (nested.map Nested.form) ∈ (1 : Language Token) ↔ nested = [] := by
  rw [tokensAll_mem_empty_iff (closed_map_form regular), List.map_eq_nil_iff]

theorem nested_mem_children_iff (schema : ElementSchema) :
    tokensAll (nested.map Nested.form) ∈ children schema ↔
      (nested ≠ [] → schema.takesChildren = true) ∧ ∀ n ∈ nested, n.form.tokens ∈ node := by
  unfold Grammar.children
  split
  · rename_i takes
    rw [nested_mem_kstar_iff regular phrase_node]
    exact (and_iff_right fun _ => takes).symm
  · rename_i leaf
    rw [nested_mem_empty_iff regular]
    constructor
    · rintro rfl
      simp
    · exact fun accepts => of_not_not (mt accepts.1 leaf)

end

variable {opener closer : Token} {items : List Form}

theorem tokens_atom_notMem_paren {t : Token} {l : Language Token} : (atom t).tokens ∉ paren l := by
  rintro ⟨_, ⟨_, ⟨opener, rfl, -⟩, inner, -, rfl⟩, _, ⟨closer, rfl, -⟩, same⟩
  simp [tokens] at same

/-- A list that begins with a symbol is between parentheses exactly if its other atoms, its nested
forms and its end are as they should be. -/
theorem tokens_mem_paren_one_iff (regular : (list opener items closer).Regular)
    {l m : Language Token} {p : Token → Prop} (symbols : ∀ t, p t → t.kind = .symbol)
    (flat : Flat l) (phrases : Phrases m) :
    (list opener items closer).tokens ∈ paren (one p * l * m) ↔
      (∃ t left, (list opener items closer).parts.head = t :: left ∧ p t ∧ left ∈ l) ∧
        tokensAll ((list opener items closer).parts.nested.map Nested.form) ∈ m ∧
        (list opener items closer).parts.next.kind = .closeParen := by
  have flatOne : Flat (one p) :=
    flat_one fun t holds => closed_atom_iff.mpr (by simp [symbols t holds])
  rw [tokens_mem_paren_iff regular.closed,
    tokensAll_mem_flat_mul_iff regular.closed (flatOne.mul flat) phrases, mem_one_mul]

/-- A list of regular nested forms is read as a node exactly if it is one, given this of the forms
nested in it. -/
private theorem succeeds_child_list_iff (regular : (list opener items closer).Regular)
    (inner : ∀ n ∈ (list opener items closer).parts.nested,
      (n.child.succeeds = true ↔ n.form.tokens ∈ node)) :
    (list opener items closer).child.succeeds = true ↔
      (list opener items closer).tokens ∈ node := by
  have nested := regular.nested
  have whole : (list opener items closer).child = (list opener items closer).parts.toChild := rfl
  rw [whole, regular.parts.succeeds_toChild_iff, mem_node_iff, word,
    tokens_mem_paren_one_iff regular (fun t word => word.1) flat_repeatOption.kstar
      phrase_node.phrases,
    nested_mem_phrase_iff nested phrase_node]
  have elements (name : String) := tokens_mem_paren_one_iff regular
    (p := fun t => t.kind = .symbol ∧ t.value = name) (fun t word => word.1)
    (flat_atoms (Schema.element name)) (phrases_children (Schema.element name))
  simp only [word, elements]
  have inside {t : Token} {left : List Token}
      (head : (list opener items closer).parts.head = t :: left) :
      ∀ u ∈ left, u ∈ (list opener items closer).parts.head :=
    fun u member => head ▸ List.mem_cons_of_mem t member
  have nodes : (∀ n ∈ (list opener items closer).parts.nested, n.child.succeeds = true) ↔
      ∀ n ∈ (list opener items closer).parts.nested, n.form.tokens ∈ node :=
    forall₂_congr inner
  constructor
  · rintro ⟨t, left, head, symbol, ⟨isRepeat, success⟩ | ⟨isName, success⟩⟩
    · obtain ⟨options, ⟨n, single, child⟩, next⟩ :=
        (regular.parts.succeeds_toRepetition_iff (inside head)).mp success
      exact Or.inl ⟨⟨t, left, head, ⟨symbol, isRepeat⟩, options⟩, ⟨n, single,
        (inner n (by simp [single])).mp child⟩, next⟩
    · obtain ⟨atoms, accepted, next⟩ :=
        (regular.parts.succeeds_toElement_iff (inside head) t.value).mp success
      exact Or.inr ⟨t.value, isName, ⟨t, left, head, ⟨symbol, rfl⟩, atoms⟩,
        (nested_mem_children_iff nested _).mpr (accepted.imp_right nodes.mp), next⟩
  · rintro (⟨⟨t, left, head, ⟨symbol, isRepeat⟩, options⟩, ⟨n, single, isNode⟩, next⟩ |
      ⟨_, isName, ⟨t, left, head, ⟨symbol, rfl⟩, atoms⟩, accepted, next⟩)
    · refine ⟨t, left, head, symbol, Or.inl ⟨isRepeat, ?_⟩⟩
      exact (regular.parts.succeeds_toRepetition_iff (inside head)).mpr
        ⟨options, ⟨n, single, (inner n (by simp [single])).mpr isNode⟩, next⟩
    · refine ⟨t, left, head, symbol, Or.inr ⟨isName, ?_⟩⟩
      exact (regular.parts.succeeds_toElement_iff (inside head) t.value).mpr
        ⟨atoms, ((nested_mem_children_iff nested _).mp accepted).imp_right nodes.mpr, next⟩

mutual

/-- A form is read as a node exactly if it is one. -/
theorem succeeds_child_iff : ∀ form : Form, form.Regular →
    (form.child.succeeds = true ↔ form.tokens ∈ node)
  | .atom t, _ => by
      refine iff_of_false (by simp [child, Attempt.unexpected]) fun isNode => ?_
      rcases mem_node_iff.mp isNode with repetition | ⟨name, -, element⟩
      · exact tokens_atom_notMem_paren repetition
      · exact tokens_atom_notMem_paren element
  | .list opener items closer, regular => by
      refine succeeds_child_list_iff regular fun n member => ?_
      have nested := regular.nested n member
      rw [nested.child]
      exact succeeds_children_iff items n.form
        (Parts.nested_shaped regular.closed.shaped member).1 nested.form

theorem succeeds_children_iff : ∀ (items : List Form) (form : Form), form ∈ items → form.Regular →
    (form.child.succeeds = true ↔ form.tokens ∈ node)
  | item :: rest, form, member, regular => by
      rcases List.mem_cons.mp member with same | later
      · rw [same] at regular ⊢
        exact succeeds_child_iff item regular
      · exact succeeds_children_iff rest form later regular

end

end Form

theorem Nested.Regular.succeeds_child_iff {n : Nested} (regular : n.Regular) :
    n.child.succeeds = true ↔ n.form.tokens ∈ Grammar.node := by
  rw [regular.child]
  exact Form.succeeds_child_iff n.form regular.form

namespace Form

open Grammar

variable {opener closer : Token} {items : List Form}

/-- A form has the kind of an overlay exactly if its first atom is the name of one. -/
theorem exists_overlayKind?_iff :
    (∃ kind, Parts.overlayKind? (list opener items closer) = some kind) ↔
      ∃ t left, (list opener items closer).parts.head = t :: left ∧ t.kind = .symbol ∧
        t.value ∈ Schema.overlayForms := by
  constructor
  · rintro ⟨kind, found⟩
    obtain ⟨opener', name, rest, closer', same, symbol, isOverlay⟩ :=
      Parts.overlayKind?_eq_some found
    cases same
    exact ⟨name, _, rfl, symbol, isOverlay⟩
  · rintro ⟨t, left, head, symbol, isOverlay⟩
    obtain ⟨rest, rfl⟩ := items_of_head (t := t) (by rw [head]; rfl)
    simp only [Parts.overlayKind?, if_pos symbol]
    simp only [Schema.overlayForms, List.mem_cons, List.not_mem_nil, or_false] at isOverlay
    rcases isOverlay with word | word | word
    all_goals
      rw [word]
      exact ⟨_, rfl⟩

theorem phrase_overlay : Phrase overlay :=
  phrase_paren ((flat_one fun t ⟨symbol, _⟩ => closed_atom_iff.mpr (by simp [symbol])).mul
    flat_overlayOptions) phrase_node.phrases.kstar

theorem isOverlay_iff {n : Nested} (regular : n.Regular) :
    Parts.IsOverlay n ↔ n.form.tokens ∈ overlay := by
  obtain ⟨form, child⟩ := n
  obtain ⟨regular, opens, -⟩ := regular
  cases form with
  | atom t => exact absurd opens (closed_atom_iff.mp regular.closed).1.1
  | list opener items closer =>
      have nested := regular.nested
      have nodes := forall₂_congr fun n member => (nested n member).succeeds_child_iff
      rw [overlay, tokens_mem_paren_one_iff regular (fun t word => word.1) flat_overlayOptions
        phrase_node.phrases.kstar, nested_mem_kstar_iff nested phrase_node, ← nodes]
      constructor
      · rintro ⟨kind, isKind, success⟩
        obtain ⟨options, ends⟩ := (regular.parts.succeeds_toOverlay_iff kind).mp success
        obtain ⟨t, left, head, symbol, isOverlay⟩ := exists_overlayKind?_iff.mp ⟨kind, isKind⟩
        exact ⟨⟨t, left, head, ⟨symbol, isOverlay⟩, by simpa [head] using options⟩, ends⟩
      · rintro ⟨⟨t, left, head, ⟨symbol, isOverlay⟩, options⟩, ends⟩
        obtain ⟨kind, isKind⟩ := exists_overlayKind?_iff.mpr ⟨t, left, head, symbol, isOverlay⟩
        exact ⟨kind, isKind, (regular.parts.succeeds_toOverlay_iff kind).mpr
          ⟨by simpa [head] using options, ends⟩⟩

theorem overlayKind?_of_node {form : Form} (regular : form.Regular) (isNode : form.tokens ∈ node) :
    Parts.overlayKind? form = none := by
  cases form with
  | atom t => rfl
  | list opener items closer =>
      rw [Option.eq_none_iff_forall_ne_some]
      intro kind isKind
      obtain ⟨t, left, head, -, isOverlay⟩ := exists_overlayKind?_iff.mp ⟨kind, isKind⟩
      have success : (list opener items closer).parts.toChild.succeeds = true :=
        (succeeds_child_iff _ regular).mpr isNode
      obtain ⟨u, rest, head', -, named⟩ := regular.parts.succeeds_toChild_iff.mp success
      obtain rfl : t = u := (List.cons.inj (head.symm.trans head')).1
      rcases named with ⟨isRepeat, -⟩ | ⟨isName, -⟩
      · rw [isRepeat] at isOverlay
        exact absurd isOverlay (by decide)
      · exact isName.2.1 isOverlay

theorem isScreenBody_iff {nested : List Nested} (regular : ∀ n ∈ nested, n.Regular) :
    Parts.IsScreenBody nested ↔
      tokensAll (nested.map Nested.form) ∈ overlay∗ * node * overlay∗ := by
  have overlays := phrase_overlay.phrases.kstar
  have overlays_iff {nested : List Nested} (regular : ∀ n ∈ nested, n.Regular) :
      (∀ n ∈ nested, Parts.IsOverlay n) ↔ tokensAll (nested.map Nested.form) ∈ overlay∗ := by
    rw [nested_mem_kstar_iff regular phrase_overlay]
    exact forall₂_congr fun n member => isOverlay_iff (regular n member)
  rw [nested_mem_mul_iff regular (overlays.mul phrase_node.phrases) overlays]
  constructor
  · rintro ⟨front, n, back, rfl, all, -, success⟩
    simp only [List.forall_mem_append, List.forall_mem_cons] at all regular
    obtain ⟨early, here, late⟩ := regular
    have single : ∀ m ∈ [n], m.Regular := by simpa using here
    refine ⟨front ++ [n], back, List.append_cons front n back, ?_, (overlays_iff late).mp all.2⟩
    refine (nested_mem_mul_iff (List.forall_mem_append.mpr ⟨early, single⟩) overlays
      phrase_node.phrases).mpr ⟨front, [n], rfl, (overlays_iff early).mp all.1, ?_⟩
    exact (nested_mem_phrase_iff single phrase_node).mpr
      ⟨n, rfl, here.succeeds_child_iff.mp success⟩
  · rintro ⟨_, back, rfl, isFront, isBack⟩
    obtain ⟨regular, late⟩ := List.forall_mem_append.mp regular
    obtain ⟨front, _, rfl, isEarly, body⟩ :=
      (nested_mem_mul_iff regular overlays phrase_node.phrases).mp isFront
    obtain ⟨early, single⟩ := List.forall_mem_append.mp regular
    obtain ⟨n, rfl, isNode⟩ := (nested_mem_phrase_iff single phrase_node).mp body
    have here := single n (List.mem_singleton_self n)
    exact ⟨front, n, back, (List.append_cons front n back).symm,
      List.forall_mem_append.mpr ⟨(overlays_iff early).mpr isEarly, (overlays_iff late).mpr isBack⟩,
      overlayKind?_of_node here.form isNode, here.succeeds_child_iff.mpr isNode⟩

theorem succeeds_params_iff {form : Form} (regular : form.Regular) :
    (Parts.params form).succeeds = true ↔ form.tokens ∈ paren (kind .symbol)∗ := by
  cases form with
  | atom t =>
      exact iff_of_false (by simp [Parts.params, Attempt.unexpected]) tokens_atom_notMem_paren
  | list opener items closer =>
      obtain ⟨-, closes, inner⟩ := closed_list_iff.mp regular.closed
      have symbols : ∀ ts ∈ kind .symbol, ∃ form : Form, form.Closed ∧ form.tokens = ts := by
        rintro _ ⟨t, rfl, symbol⟩
        exact ⟨atom t, closed_atom_iff.mpr (by simp [symbol]), rfl⟩
      rw [tokens_mem_paren_iff regular.closed, tokensAll_mem_kstar_iff inner symbols, Parts.params,
        Parts.succeeds_names_iff closes fun item member => (inner item member).shaped]
      refine forall₂_congr fun item _ => ⟨?_, ?_⟩
      · rintro ⟨t, rfl, symbol⟩
        exact ⟨t, rfl, symbol⟩
      · rintro ⟨t, same, symbol⟩
        cases item with
        | atom u => exact ⟨u, rfl, by simp_all [tokens]⟩
        | list opener' items' closer' => simp [tokens] at same

theorem phrase_params : Phrase (paren (kind .symbol)∗) := by
  have phrase := phrase_paren (flat_kind (k := .symbol) (by decide)).kstar phrases_empty
  rwa [mul_one] at phrase

section

variable (regular : (list opener items closer).Regular)

include regular

private theorem named_iff {l m : Language Token} (name : String) (flat : Flat l)
    (phrases : Phrases m) {P : List Token → Prop}
    (reads : ∀ left, (∀ t ∈ left, t ∈ (list opener items closer).parts.head) → (P left ↔ left ∈ l ∧
      tokensAll ((list opener items closer).parts.nested.map Nested.form) ∈ m ∧
      (list opener items closer).parts.next.kind = .closeParen)) :
    (list opener items closer).tokens ∈ paren (word name * l * m) ↔
      ∃ t left, (list opener items closer).parts.head = t :: left ∧ t.kind = .symbol ∧
        t.value = name ∧ P left := by
  have inside {t : Token} {left : List Token}
      (head : (list opener items closer).parts.head = t :: left) :
      ∀ u ∈ left, u ∈ (list opener items closer).parts.head :=
    fun u member => head ▸ List.mem_cons_of_mem t member
  rw [word, tokens_mem_paren_one_iff regular (fun t word => word.1) flat phrases]
  constructor
  · rintro ⟨⟨t, left, head, ⟨symbol, same⟩, member⟩, ends⟩
    exact ⟨t, left, head, symbol, same, (reads left (inside head)).mpr ⟨member, ends⟩⟩
  · rintro ⟨t, left, head, symbol, same, success⟩
    obtain ⟨member, ends⟩ := (reads left (inside head)).mp success
    exact ⟨⟨t, left, head, ⟨symbol, same⟩, member⟩, ends⟩

theorem tokens_mem_inclusion_iff : (list opener items closer).tokens ∈ inclusion ↔
    ∃ t left, (list opener items closer).parts.head = t :: left ∧ t.kind = .symbol ∧
      t.value = "include" ∧ ((list opener items closer).parts.toInclude left).succeeds = true := by
  rw [inclusion, ← mul_one (word _ * _)]
  refine named_iff regular _ (flat_kind (by decide)) phrases_empty fun left inside => ?_
  rw [regular.parts.succeeds_toInclude_iff inside, nested_mem_empty_iff regular.nested]

theorem tokens_mem_facts_iff : (list opener items closer).tokens ∈ facts ↔
    ∃ t left, (list opener items closer).parts.head = t :: left ∧ t.kind = .symbol ∧
      t.value = "meta" ∧ ((list opener items closer).parts.toFacts left).succeeds = true := by
  rw [facts, ← mul_one (word _ * _)]
  refine named_iff regular _ ((flat_keyword _).mul flat_value.optional).kstar phrases_empty
    fun left inside => ?_
  rw [regular.parts.succeeds_toFacts_iff inside, nested_mem_empty_iff regular.nested]

theorem tokens_mem_layout_iff : (list opener items closer).tokens ∈ layout ↔
    ∃ t left, (list opener items closer).parts.head = t :: left ∧ t.kind = .symbol ∧
      t.value = "layout" ∧ ((list opener items closer).parts.toLayout left).succeeds = true := by
  refine named_iff regular _ (flat_kind (by decide)) phrase_node.phrases fun left _ => ?_
  have nested := regular.nested
  rw [regular.parts.succeeds_toLayout_iff, nested_mem_phrase_iff nested phrase_node]
  refine and_congr_right' (and_congr_left' (exists_congr fun n => and_congr_right fun single => ?_))
  exact (nested n (by simp [single])).succeeds_child_iff

theorem tokens_mem_component_iff : (list opener items closer).tokens ∈ component ↔
    ∃ t left, (list opener items closer).parts.head = t :: left ∧ t.kind = .symbol ∧
      t.value = "define" ∧ ((list opener items closer).parts.toComponent left).succeeds = true := by
  have params := phrase_params.phrases
  rw [component, mul_assoc]
  refine named_iff regular _ (flat_kind (by decide)) (params.mul phrase_node.phrases)
    fun left _ => ?_
  have nested := regular.nested
  rw [regular.parts.succeeds_toComponent_iff, nested_mem_mul_iff nested params phrase_node.phrases]
  refine and_congr_right' (and_congr_left' ⟨?_, ?_⟩)
  · rintro ⟨m, n, pair, names, child⟩
    have first : ∀ x ∈ [m], x.Regular := by simpa using nested m (by simp [pair])
    have second : ∀ x ∈ [n], x.Regular := by simpa using nested n (by simp [pair])
    exact ⟨[m], [n], pair,
      (nested_mem_phrase_iff first phrase_params).mpr
        ⟨m, rfl, (succeeds_params_iff (first m (by simp)).form).mp names⟩,
      (nested_mem_phrase_iff second phrase_node).mpr
        ⟨n, rfl, (second n (by simp)).succeeds_child_iff.mp child⟩⟩
  · rintro ⟨front, back, split, names, body⟩
    rw [split] at nested ⊢
    obtain ⟨first, second⟩ := List.forall_mem_append.mp nested
    obtain ⟨m, rfl, isParams⟩ := (nested_mem_phrase_iff first phrase_params).mp names
    obtain ⟨n, rfl, isNode⟩ := (nested_mem_phrase_iff second phrase_node).mp body
    exact ⟨m, n, rfl, (succeeds_params_iff (first m (by simp)).form).mpr isParams,
      (second n (by simp)).succeeds_child_iff.mpr isNode⟩

theorem tokens_mem_screen_iff : (list opener items closer).tokens ∈ screen ↔
    ∃ t left, (list opener items closer).parts.head = t :: left ∧ t.kind = .symbol ∧
      t.value = "screen" ∧ ((list opener items closer).parts.toScreen left).succeeds = true := by
  have overlays := phrase_overlay.phrases.kstar
  rw [screen, mul_assoc (word _ * _), mul_assoc (word _)]
  refine named_iff regular _ ((flat_kind (by decide)).mul
    ((flat_kind (by decide)).optional.mul flat_screenOption.kstar))
    ((overlays.mul phrase_node.phrases).mul overlays) fun left inside => ?_
  rw [regular.parts.succeeds_toScreen_iff inside, isScreenBody_iff regular.nested]

end

/-- A top-level form is read without a fault exactly if it is one of the grammar. -/
theorem succeeds_entry?_iff {form : Form} (regular : form.Regular) :
    form.entry?.succeeds = true ↔ form.tokens ∈ topLevel := by
  cases form with
  | atom t =>
      refine iff_of_false (by simp [Form.entry?, Attempt.unexpected]) ?_
      rintro ((((member | member) | member) | member) | member)
      all_goals exact tokens_atom_notMem_paren member
  | list opener items closer =>
      simp only [topLevel, Language.mem_add, tokens_mem_inclusion_iff regular,
        tokens_mem_facts_iff regular, tokens_mem_component_iff regular,
        tokens_mem_layout_iff regular, tokens_mem_screen_iff regular]
      refine regular.parts.succeeds_toEntry?_iff.trans ?_
      simp only [and_or_left, exists_or, or_assoc]

theorem phrase_topLevel : Phrase topLevel := by
  have flatName : Flat (kind .symbol) := flat_kind (by decide)
  have overlays := phrase_overlay.phrases.kstar
  have inclusions : Phrase inclusion := by
    rw [inclusion, ← mul_one (word _ * _)]
    exact phrase_paren ((flat_word _).mul (flat_kind (by decide))) phrases_empty
  have statements : Phrase facts := by
    rw [facts, ← mul_one (word _ * _)]
    exact phrase_paren ((flat_word _).mul ((flat_keyword _).mul flat_value.optional).kstar)
      phrases_empty
  have components : Phrase component := by
    rw [component, mul_assoc]
    exact phrase_paren ((flat_word _).mul flatName) (phrase_params.phrases.mul phrase_node.phrases)
  have layouts : Phrase layout :=
    phrase_paren ((flat_word _).mul flatName) phrase_node.phrases
  have screens : Phrase screen :=
    phrase_paren ((((flat_word _).mul flatName).mul (flat_kind (by decide)).optional).mul
      flat_screenOption.kstar) ((overlays.mul phrase_node.phrases).mul overlays)
  exact (((inclusions.add statements).add components).add layouts).add screens

/-- Forms are read as what they add to a document without a fault exactly if all of them are
top-level forms. -/
theorem succeeds_entries_iff {forms : List Form} (regular : ∀ form ∈ forms, form.Regular) :
    (Document.entries forms).succeeds = true ↔ tokensAll forms ∈ topLevel∗ := by
  rw [Document.succeeds_entries_iff,
    tokensAll_mem_kstar_iff (fun form member => (regular form member).closed)
      phrase_topLevel.closed]
  exact forall₂_congr fun form member => succeeds_entry?_iff (regular form member)

end Form

namespace Document

open Form Grammar

theorem phrase_root : Phrase (paren (word "wire" * topLevel∗)) :=
  phrase_paren (flat_word _) phrase_topLevel.phrases.kstar

theorem succeeds_checkEnd_iff {closer : Token} {behind : List Token} :
    (checkEnd closer behind).succeeds = true ↔ closer.kind ≠ .eof ∧ behind = [] := by
  unfold checkEnd
  split
  · rename_i ends
    exact iff_of_false (by simp [Attempt.note, Attempt.succeeds])
      fun inner => inner.1 (by simpa [Token.isEnd] using ends)
  · rename_i inner
    have kind : closer.kind ≠ .eof := by simpa [Token.isEnd] using inner
    cases behind with
    | nil => simp [kind]
    | cons t rest => simp [Attempt.note, Attempt.succeeds]

theorem rootForm_tokens {form : Form} (closed : form.ClosedList) (p : Position) :
    rootForm (form.tokens ++ [Token.eof p]) = (form, []) :=
  rootForm_of_closedList closed (Balance.beforeEnd_concat_eof closed.1.inner p)

private theorem succeeds_root_iff {opener name closer : Token} {items : List Form}
    (regular : (Form.list opener (.atom name :: items) closer).Regular)
    (symbol : name.isSymbol Schema.rootForm = true) :
    (do
      let found ← entries items
      checkEnd closer []
      return ofEntries found (← Attempt.place opener closer) : Attempt Document).succeeds = true ↔
      (Form.list opener (.atom name :: items) closer).tokens ∈ paren (word "wire" * topLevel∗) := by
  have isWord : name.kind = .symbol ∧ name.value = "wire" := by
    simpa [Token.isSymbol, Schema.rootForm] using symbol
  have closes : closer.kind ≠ .eof := by simp [(closed_list_iff.mp regular.closed).2.1]
  have proper : opener.start.isProper = true := regular.parts.opener
  rw [tokens_mem_paren_iff regular.closed, word, mem_one_mul,
    Attempt.succeeds_bind_of_forall (P := True),
    Form.succeeds_entries_iff fun form member => regular.item (List.mem_cons_of_mem _ member)]
  · simp [tokensAll, tokens, isWord]
  · intro found
    rw [Attempt.succeeds_bind_of_forall (P := True), succeeds_checkEnd_iff]
    · simp [closes]
    · intro _
      rw [Attempt.place_of_isProper proper]
      simp

theorem mem_document_iff {front : List Token} {p : Position} :
    front ++ [Token.eof p] ∈ Grammar.document ↔ front ∈ paren (word "wire" * topLevel∗) := by
  constructor
  · rintro ⟨front', member, _, ⟨eof, rfl, -⟩, same⟩
    rwa [← (List.append_inj' same rfl).1]
  · exact fun member => ⟨front, member, [Token.eof p], ⟨Token.eof p, rfl, rfl⟩, rfl⟩

/-- What is read without a fault is a root form, and the end of the source closes none of its lists.
-/
private theorem mem_root_of_succeeds {limit : Int} {front : List Token} {p : Position}
    (inner : ∀ t ∈ front, t.kind ≠ .eof) (readable : ∀ t ∈ front, t.Readable)
    (shallow : ¬Token.Exceeds limit (front ++ [Token.eof p]))
    (success : (ofTokens limit (front ++ [Token.eof p])).succeeds = true) :
    front ∈ paren (word "wire" * topLevel∗) := by
  have starts : Token.startsRoot (front ++ [Token.eof p]) = true := by
    by_contra other
    obtain ⟨cause, t, -, fails⟩ := ofTokens_fails inner (Or.inr (Bool.not_eq_true _ ▸ other))
    rw [fails] at success
    simp at success
  obtain ⟨opener, name, items, closer, behind, unclosed, -, same, symbol, shaped, tokens, bound⟩ :=
    ofTokens_of_startsRoot inner shallow starts
  rw [same] at success
  obtain ⟨found, _, ended⟩ := Attempt.succeeds_bind.mp success
  obtain ⟨_, checked, -⟩ := Attempt.succeeds_bind.mp ended
  obtain ⟨notEnd, rfl⟩ := succeeds_checkEnd_iff.mp (Attempt.succeeds_iff.mpr ⟨_, checked⟩)
  have whole : (Form.list opener (.atom name :: items) closer).tokens = front := by
    cases unclosed with
    | zero => simpa using tokens
    | succ n =>
        rw [List.replicate_succ', ← List.append_assoc, List.append_nil] at tokens
        have last : [closer] = [Token.eof p] := (List.append_inj' tokens rfl).2
        obtain rfl := List.singleton_inj.mp last
        exact absurd rfl notEnd
  subst whole
  exact (succeeds_root_iff ⟨⟨shaped, inner⟩, readable⟩ symbol).mp success

private theorem succeeds_of_mem_root {limit : Int} {front : List Token} {p : Position}
    (inner : ∀ t ∈ front, t.kind ≠ .eof) (readable : ∀ t ∈ front, t.Readable)
    (shallow : ¬Token.Exceeds limit (front ++ [Token.eof p]))
    (member : front ∈ paren (word "wire" * topLevel∗)) :
    (ofTokens limit (front ++ [Token.eof p])).succeeds = true := by
  -- A derivation is a single closed list, so that the reader finds no other root form.
  obtain ⟨form, closed, rfl⟩ := phrase_root front member
  have starts : Token.startsRoot (form.tokens ++ [Token.eof p]) = true := by
    obtain ⟨opener, _, back, closer, same, opens, ⟨name, rfl, symbol, value⟩, -, -⟩ :=
      mem_paren_mul_iff.mp member
    simp [same, Token.startsRoot, opens, Token.isSymbol, symbol, value, Schema.rootForm]
  obtain ⟨opener, name, items, closer, behind, -, root, read, symbol, -⟩ :=
    ofTokens_of_startsRoot inner shallow starts
  obtain ⟨rfl, rfl⟩ := Prod.mk.inj ((rootForm_tokens closed p).symm.trans root)
  rw [read]
  exact (succeeds_root_iff ⟨closed.1, readable⟩ symbol).mpr member

/-- A document of tokens is read without a fault exactly if the tokens derive from the grammar. -/
theorem succeeds_ofTokens_iff {limit : Int} {front : List Token} {p : Position}
    (inner : ∀ t ∈ front, t.kind ≠ .eof) (readable : ∀ t ∈ front, t.Readable)
    (shallow : ¬Token.Exceeds limit (front ++ [Token.eof p])) :
    (ofTokens limit (front ++ [Token.eof p])).succeeds = true ↔
      front ++ [Token.eof p] ∈ Grammar.document := by
  rw [mem_document_iff]
  exact ⟨mem_root_of_succeeds inner readable shallow, succeeds_of_mem_root inner readable shallow⟩

/-- Reading accepts exactly the grammar: the tokens of a source whose lists are not nested too
deeply are read without a fault if and only if they derive from it. -/
theorem ofTokens_accepts {limit : Int} {source : String} {tokens : List Token}
    (found : Token.ofSource source = .ok tokens) (shallow : ¬Token.Exceeds limit tokens) :
    (ofTokens limit tokens).succeeds = true ↔ tokens ∈ Grammar.document := by
  have readable : ∀ t ∈ tokens, t.Readable :=
    Token.sound_of_ofSource found fun _ _ _ _ => trivial
  obtain ⟨front, rfl, inner⟩ := Token.ofChars_eq_append_eof found
  exact succeeds_ofTokens_iff inner (fun t member => readable t (List.mem_append_left _ member))
    shallow

theorem ofTokens_accepts_screen : ∃ tokens,
    Token.ofSource "(wire (screen a :mobile (modal :id m) (repeat :count 2 (icon :to b))))" =
        .ok tokens ∧
      ¬Token.Exceeds 10 tokens ∧ (ofTokens 10 tokens).succeeds = true ∧
      tokens ∈ Grammar.document := by
  have found : Token.ofSource
      "(wire (screen a :mobile (modal :id m) (repeat :count 2 (icon :to b))))" =
      .ok [⟨.openParen, "(", ⟨1, 1⟩, ⟨1, 2⟩⟩, ⟨.symbol, "wire", ⟨1, 2⟩, ⟨1, 6⟩⟩,
        ⟨.openParen, "(", ⟨1, 7⟩, ⟨1, 8⟩⟩, ⟨.symbol, "screen", ⟨1, 8⟩, ⟨1, 14⟩⟩,
        ⟨.symbol, "a", ⟨1, 15⟩, ⟨1, 16⟩⟩, ⟨.keyword, "mobile", ⟨1, 17⟩, ⟨1, 24⟩⟩,
        ⟨.openParen, "(", ⟨1, 25⟩, ⟨1, 26⟩⟩, ⟨.symbol, "modal", ⟨1, 26⟩, ⟨1, 31⟩⟩,
        ⟨.keyword, "id", ⟨1, 32⟩, ⟨1, 35⟩⟩, ⟨.symbol, "m", ⟨1, 36⟩, ⟨1, 37⟩⟩,
        ⟨.closeParen, ")", ⟨1, 37⟩, ⟨1, 38⟩⟩, ⟨.openParen, "(", ⟨1, 39⟩, ⟨1, 40⟩⟩,
        ⟨.symbol, "repeat", ⟨1, 40⟩, ⟨1, 46⟩⟩, ⟨.keyword, "count", ⟨1, 47⟩, ⟨1, 53⟩⟩,
        ⟨.number, "2", ⟨1, 54⟩, ⟨1, 55⟩⟩, ⟨.openParen, "(", ⟨1, 56⟩, ⟨1, 57⟩⟩,
        ⟨.symbol, "icon", ⟨1, 57⟩, ⟨1, 61⟩⟩, ⟨.keyword, "to", ⟨1, 62⟩, ⟨1, 65⟩⟩,
        ⟨.symbol, "b", ⟨1, 66⟩, ⟨1, 67⟩⟩, ⟨.closeParen, ")", ⟨1, 67⟩, ⟨1, 68⟩⟩,
        ⟨.closeParen, ")", ⟨1, 68⟩, ⟨1, 69⟩⟩, ⟨.closeParen, ")", ⟨1, 69⟩, ⟨1, 70⟩⟩,
        ⟨.closeParen, ")", ⟨1, 70⟩, ⟨1, 71⟩⟩, Token.eof ⟨1, 71⟩] := by
    cbv
  refine ⟨_, found, Token.tooDeep?_eq_none.mp (by rfl), ?success, ?derives⟩
  case success => decide +kernel
  case derives =>
    have accepts (shallow : ¬Token.Exceeds 10 _) := ofTokens_accepts found shallow
    exact (accepts (Token.tooDeep?_eq_none.mp (by rfl))).mp (by decide +kernel)

end Document
end Wireframe
