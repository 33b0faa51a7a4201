import Wireframe.Proofs.Headed
import Wireframe.Proofs.Recovery

/-!
# Where forms stand

A form stands where its first token is reached, inside the forms open there.  In settled tokens
whose lists are headed, a form that may be read as a node is of no kind that belongs elsewhere, and
no list in it is inside an element without children.
-/

namespace Wireframe

open Balance

namespace Balance

theorem openForms_append (stack : List String) (front back : List (Token × String)) :
    openForms stack (front ++ back) = openForms (openForms stack front) back := by
  induction front generalizing stack with
  | nil => rfl
  | cons entry front ih =>
      obtain ⟨t, name⟩ := entry
      rw [List.cons_append]
      rcases paren_cases t with opens | closes | ⟨opens, closes⟩
      · rw [openForms_openParen opens, openForms_openParen opens, ih]
      · rw [openForms_closeParen closes, openForms_closeParen closes, ih]
      · rw [openForms_other opens closes, openForms_other opens closes, ih]

/-- Whether some tokens of all are left when those before, latest first, have been passed, and which
forms are open there. -/
structure Reached (all before : List Token) (stack : List String) (rest : List Token) : Prop where
  split : ∃ front, Token.named [] all = front ++ Token.named before rest ∧
    openForms [] front = stack ∧ front.map Prod.fst = before.reverse

variable {all before rest : List Token} {stack : List String} {t : Token}

theorem reached_all (all : List Token) : Reached all [] [] all :=
  ⟨[], rfl, rfl, rfl⟩

theorem Reached.next {stack' : List String} (reached : Reached all before stack (t :: rest))
    (step : openForms stack [(t, if t.kind = .openParen then Token.formName before rest else "")] =
      stack') : Reached all (t :: before) stack' rest := by
  obtain ⟨front, split, rfl, passed⟩ := reached
  rw [Token.named] at split
  refine ⟨_, split.trans (List.append_cons _ _ _), ?_, by simp [passed]⟩
  rw [openForms_append, step]

theorem Reached.openParen (reached : Reached all before stack (t :: rest))
    (opens : t.kind = .openParen) :
    Reached all (t :: before) (Token.formName before rest :: stack) rest :=
  reached.next (by simp [openForms, opens])

theorem Reached.closeParen (reached : Reached all before stack (t :: rest))
    (closes : t.kind = .closeParen) : Reached all (t :: before) stack.tail rest :=
  reached.next (by simp [openForms, closes])

theorem Reached.other (reached : Reached all before stack (t :: rest))
    (opens : t.kind ≠ .openParen) (closes : t.kind ≠ .closeParen) :
    Reached all (t :: before) stack rest :=
  reached.next (by rw [openForms_other opens closes]; rfl)

theorem Reached.tokens_eq (reached : Reached all before stack rest) :
    all = before.reverse ++ rest := by
  obtain ⟨front, split, -, passed⟩ := reached
  have tokens := congrArg (List.map Prod.fst) split
  rwa [Token.map_fst_named, List.map_append, passed, Token.map_fst_named] at tokens

/-- A list of settled tokens is placed among the forms open at it. -/
theorem Reached.placed (reached : Reached all before stack (t :: rest))
    (settled : Settled [] (Token.named [] all)) (opens : t.kind = .openParen) :
    Placed (Token.formName before rest) stack := by
  obtain ⟨front, split, rfl, -⟩ := reached
  rw [split, Token.named, if_pos opens] at settled
  exact ((settled_openParen opens).mp (settled_append settled).1).1

theorem Reached.named (reached : Reached all before stack (t :: rest)) {first : Token}
    {behind : List Token} (start : all = first :: behind) (headed : Headed [first] behind)
    (inner : stack ≠ []) (opens : t.kind = .openParen) (untitled : heading before ≠ .titled) :
    Token.formName before rest ≠ "" ∧ Token.formName before rest ≠ Schema.rootForm := by
  have split := reached.tokens_eq
  obtain ⟨front, -, rfl, passed⟩ := reached
  rcases List.eq_nil_or_concat before with rfl | ⟨before', u, rfl⟩
  · obtain rfl : front = [] := by simpa using passed
    exact absurd rfl inner
  · rw [List.concat_eq_append] at split untitled ⊢
    rw [start] at split
    simp only [List.reverse_append, List.reverse_cons, List.reverse_nil,
      List.nil_append, List.cons_append, List.cons.injEq] at split
    obtain ⟨rfl, split⟩ := split
    have here := headed_iff.mp headed before'.reverse t rest split opens
    rw [List.reverse_reverse] at here
    exact here untitled

end Balance

namespace Form

mutual

theorem reached_tokens {all rest : List Token} :
    ∀ (form : Form) {before : List Token} {stack : List String}, form.Closed →
      Reached all before stack (form.tokens ++ rest) →
      Reached all (form.tokens.reverse ++ before) stack rest
  | .atom t, before, stack, closed, reached => by
      obtain ⟨⟨notOpen, notClose⟩, -⟩ := closed_atom_iff.mp closed
      exact reached.other notOpen notClose
  | .list opener items closer, before, stack, closed, reached => by
      obtain ⟨opens, closes, inner⟩ := closed_list_iff.mp closed
      rw [tokens, List.cons_append, List.cons_append, List.append_assoc] at reached
      have inside := reached_tokensAll items inner (reached.openParen opens)
      have behind := inside.closeParen closes
      simpa [tokens] using behind

theorem reached_tokensAll {all rest : List Token} :
    ∀ (forms : List Form) {before : List Token} {stack : List String},
      (∀ form ∈ forms, form.Closed) → Reached all before stack (tokensAll forms ++ rest) →
      Reached all ((tokensAll forms).reverse ++ before) stack rest
  | [], _, _, _, reached => reached
  | form :: forms, before, stack, closed, reached => by
      rw [tokensAll, List.append_assoc] at reached
      have behind := reached_tokensAll forms
        (fun other later => closed other (List.mem_cons_of_mem form later))
        (reached_tokens form (closed form List.mem_cons_self) reached)
      simpa [tokensAll] using behind

end

variable {all before rest : List Token} {stack : List String} {opener closer : Token}
  {items : List Form}

theorem nameIn_of_head {t : Token} (untitled : heading before ≠ .titled) (symbol : t.kind = .symbol)
    (first : t ∈ (list opener items closer).parts.head.head?) :
    nameIn (heading before) items = t.value := by
  obtain ⟨rest, rfl⟩ := items_of_head first
  simp [nameIn, untitled, headName, symbol]

theorem reached_opener (closed : (list opener items closer).Closed)
    (reached : Reached all before stack ((list opener items closer).tokens ++ rest)) :
    Reached all before stack (opener :: (tokensAll items ++ closer :: rest)) ∧
      Token.formName before (tokensAll items ++ closer :: rest) =
        nameIn (heading before) items := by
  obtain ⟨opens, closes, inner⟩ := closed_list_iff.mp closed
  refine ⟨by simpa [tokens] using reached, formName_items items rfl closes ?_⟩
  exact fun opener' items' closer' member => (closed_list_iff.mp (inner _ member)).1

theorem reached_item {form : Form} {front back : List Form}
    (closed : (list opener items closer).Closed)
    (reached : Reached all before stack ((list opener items closer).tokens ++ rest))
    (split : items = front ++ form :: back) :
    ∃ before' rest', Reached all before' (nameIn (heading before) items :: stack)
        (form.tokens ++ rest') ∧ heading before' = front.foldl past .opened := by
  obtain ⟨opens, closes, inner⟩ := closed_list_iff.mp closed
  obtain ⟨here, name⟩ := reached_opener closed reached
  have inside := here.openParen opens
  rw [name] at inside
  have frontClosed : ∀ other ∈ front, other.Closed := by
    intro other member
    refine inner other ?_
    rw [split]
    exact List.mem_append_left _ member
  have tokens_eq : tokensAll items ++ closer :: rest =
      tokensAll front ++ (form.tokens ++ (tokensAll back ++ closer :: rest)) := by
    rw [split, tokensAll_append, tokensAll]
    simp
  rw [tokens_eq] at inside
  refine ⟨_, _, reached_tokensAll front frontClosed inside, ?_⟩
  rw [heading_tokensAll_of_closed frontClosed, heading_of_openParen opens]

/-- Whether tokens are settled and headed, and their symbols are not empty. -/
structure Orderly (all : List Token) : Prop where
  settled : Settled [] (Token.named [] all)
  headed : ∃ first behind, all = first :: behind ∧ Headed [first] behind
  symbols : ∀ t ∈ all, t.kind = .symbol → t.value ≠ ""

/-- Whether a form may be read as a node where it stands: it is no parameter list, not directly
inside a root form, and no overlay directly inside a screen. -/
structure Node (all : List Token) (form : Form) : Prop where
  closed : form.Closed
  stands : ∃ before parent outer rest, Reached all before (parent :: outer) (form.tokens ++ rest) ∧
    heading before ≠ .titled ∧ parent ≠ Schema.rootForm ∧
    (parent = Schema.screenForm → Parts.overlayKind? form = none)

private theorem Node.named (orderly : Orderly all) (node : Node all (list opener items closer)) :
    ∃ before parent outer rest,
      Reached all before (parent :: outer) ((list opener items closer).tokens ++ rest) ∧
      heading before ≠ .titled ∧ parent ≠ Schema.rootForm ∧
      (parent = Schema.screenForm → Parts.overlayKind? (list opener items closer) = none) ∧
      Placed (nameIn (heading before) items) (parent :: outer) ∧
      nameIn (heading before) items ≠ "" ∧ nameIn (heading before) items ≠ Schema.rootForm ∧
      nameIn (heading before) items ∉ Schema.topLevelForms := by
  obtain ⟨closed, before, parent, outer, rest, reached, untitled, notRoot, plain⟩ := node
  obtain ⟨here, name⟩ := reached_opener closed reached
  obtain ⟨first, behind, start, headed⟩ := orderly.headed
  have opens := (closed_list_iff.mp closed).1
  have placed := here.placed orderly.settled opens
  obtain ⟨named, other⟩ := here.named start headed (List.cons_ne_nil _ _) opens untitled
  rw [name] at placed named other
  refine ⟨before, parent, outer, rest, reached, untitled, notRoot, plain, placed, named, other,
    fun top => ?_⟩
  have place := placed.topLevel top
  exact notRoot (by simpa using place)

/-- The items of a list are nodes unless they belong to the head of a definition or to a screen. -/
theorem node_of_item {form : Form} {front back : List Form}
    (closed : (list opener items closer).Closed)
    (reached : Reached all before stack ((list opener items closer).tokens ++ rest))
    (split : items = front ++ form :: back) (untitled : front.foldl past .opened ≠ .titled)
    (inner : nameIn (heading before) items ≠ Schema.rootForm)
    (plain : nameIn (heading before) items = Schema.screenForm → Parts.overlayKind? form = none) :
    Node all form := by
  obtain ⟨before', rest', here, same⟩ := reached_item closed reached split
  refine ⟨(closed_list_iff.mp closed).2.2 form (by simp [split]), before', _, stack, rest',
    here, ?_, inner, plain⟩
  rwa [same]

/-- The head of a definition makes up the first items of a definition only. -/
theorem nameIn_of_titled {form : Form} {front back : List Form}
    (closed : (list opener items closer).Closed) (untitled : heading before ≠ .titled)
    (split : items = front ++ form :: back) (titled : front.foldl past .opened = .titled) :
    nameIn (heading before) items = Schema.defineForm ∧
      ∃ word name, front = [.atom word, .atom name] := by
  have inner : ∀ other ∈ front, other.Closed := by
    intro other member
    refine (closed_list_iff.mp closed).2.2 other ?_
    rw [split]
    exact List.mem_append_left _ member
  obtain ⟨word, name, rfl, isDefine⟩ := eq_of_foldl_past_titled inner titled
  obtain ⟨symbol, value⟩ : word.kind = .symbol ∧ word.value = Schema.defineForm := by
    simpa [Token.isSymbol] using isDefine
  refine ⟨?_, word, name, rfl⟩
  rw [split]
  simp [nameIn, untitled, headName, symbol, value]

/-- Whether a fault of some tokens is none of nesting, but for an overlay that no screen encloses by
the names of balanced tokens. -/
def Mended (balanced tokens : List Token) (f : Fault) : Prop :=
  match f.cause with
  | .misplacedOverlay name => ∃ front t back u,
      Token.named [] balanced = front ++ (t, name) :: back ∧ t.kind = .openParen ∧
      Schema.screenForm ∉ openForms [] front ∧ tokens[front.length]? = some u ∧
      f.position = u.start
  | .misplacedForm _ | .childrenOfLeaf _ | .unclosed _ => False
  | _ => True

theorem getElem?_of_named {t : Token} {name : String} {front back : List (Token × String)}
    (split : Token.named [] all = front ++ (t, name) :: back) : all[front.length]? = some t := by
  have tokens := congrArg (List.map Prod.fst) split
  rw [Token.map_fst_named, List.map_append] at tokens
  simp [tokens]

private theorem takesChildren_of_acceptsChildren {name : String}
    (accepts : Schema.acceptsChildren name = true) :
    (Schema.element name).takesChildren = true := by
  have structural : ∀ name ∈ Schema.structuralForms ++ Schema.overlayForms,
      (Schema.element name).takesChildren = true := by decide
  rcases Bool.or_eq_true_iff.mp accepts with isStructural | takes
  · exact structural name (by simpa [Schema.isStructural] using isStructural)
  · exact takes

private theorem overlayKind?_ne_none {t : Token} (symbol : t.kind = .symbol)
    (overlay : t.value ∈ Schema.overlayForms)
    (first : t ∈ (list opener items closer).parts.head.head?) :
    Parts.overlayKind? (list opener items closer) ≠ none := by
  have known : ∀ name ∈ Schema.overlayForms, OverlayKind.ofName? name ≠ none := by decide
  obtain ⟨rest, rfl⟩ := items_of_head first
  simpa [Parts.overlayKind?, symbol] using known t.value overlay

/-- A list in an element stands in one that takes children. -/
private theorem Node.takesChildren (orderly : Orderly all)
    (node : Node all (list opener items closer)) {t : Token}
    (first : t ∈ (list opener items closer).parts.head.head?) (symbol : t.kind = .symbol)
    {n : Nested} (member : n ∈ (list opener items closer).parts.nested) :
    (Schema.element t.value).takesChildren = true := by
  obtain ⟨before, parent, outer, rest, reached, untitled, -, -, -, named, -, notTop⟩ :=
    node.named orderly
  obtain ⟨isItem, -, opens⟩ := Parts.nested_shaped node.closed.shaped member
  obtain ⟨front, back, split⟩ := List.append_of_mem isItem
  obtain ⟨before', rest', inside, same⟩ := reached_item node.closed reached split
  have untitled' : heading before' ≠ .titled := by
    intro titled
    refine notTop ?_
    rw [(nameIn_of_titled node.closed untitled split (same ▸ titled)).1]
    decide
  obtain ⟨rest'', first'⟩ := n.form.tokens_eq_cons
  rw [first', List.cons_append] at inside
  obtain ⟨start, behind, all_eq, headed⟩ := orderly.headed
  have name := (inside.named all_eq headed (List.cons_ne_nil _ _) opens untitled').1
  have placed := inside.placed orderly.settled opens
  rw [nameIn_of_head untitled symbol first] at placed named
  exact takesChildren_of_acceptsChildren (placed.container name _ rfl named)

/-- In orderly tokens, nodes are read with no fault of nesting but that of overlays outside
screens. -/
theorem granted_node (orderly : Orderly all) : Granted (Mended all all) (Node all) := by
  constructor
  · intro opener items closer node
    obtain ⟨before, parent, outer, rest, reached, untitled, -, plain, placed, -, -, notTop⟩ :=
      node.named orderly
    refine ⟨fun t first symbol overlay => ?_, fun t first symbol top => ?_,
      fun t first symbol takesNone n member => ?_⟩
    · -- Where a screen is open, the overlay stands in it directly and is not read as a node.
      have name := nameIn_of_head untitled symbol first
      obtain ⟨here, formName⟩ := reached_opener node.closed reached
      obtain ⟨front, split, stack, -⟩ := here
      have opens := (closed_list_iff.mp node.closed).1
      rw [Token.named, if_pos opens, formName, name] at split
      rw [name] at placed
      refine ⟨front, opener, _, opener, split, opens, fun screen => ?_,
        getElem?_of_named split, rfl⟩
      rw [stack] at screen
      have inScreen : parent = Schema.screenForm := by simpa using placed.overlay overlay screen
      exact overlayKind?_ne_none symbol overlay first (plain inScreen)
    · exact absurd (nameIn_of_head untitled symbol first ▸ top) notTop
    · rw [node.takesChildren orderly first symbol member] at takesNone
      exact absurd takesNone (by simp)
  · intro opener items closer node form member
    obtain ⟨front, back, split⟩ := List.append_of_mem member
    obtain ⟨before, parent, outer, rest, reached, untitled, -, -, -, -, other, notTop⟩ :=
      node.named orderly
    refine node_of_item node.closed reached split (fun titled => notTop ?_) other
      fun isScreen => absurd ?_ notTop
    · rw [(nameIn_of_titled node.closed untitled split titled).1]
      decide
    · rw [isScreen]
      decide

/-- The forms nested in a list are nodes if the list is named neither for a root form, nor for a
definition, nor, unless they are no overlays, for a screen. -/
private theorem node_of_nested {t : Token} (closed : (list opener items closer).Closed)
    (reached : Reached all before stack ((list opener items closer).tokens ++ rest))
    (untitled : heading before ≠ .titled)
    (first : t ∈ (list opener items closer).parts.head.head?) (symbol : t.kind = .symbol)
    (notRoot : t.value ≠ Schema.rootForm) (notDefine : t.value ≠ Schema.defineForm) {n : Nested}
    (member : n ∈ (list opener items closer).parts.nested)
    (plain : t.value = Schema.screenForm → Parts.overlayKind? n.form = none) : Node all n.form := by
  obtain ⟨front, back, split⟩ := List.append_of_mem (Parts.nested_shaped closed.shaped member).1
  have name := nameIn_of_head untitled symbol first
  refine node_of_item closed reached split (fun titled => notDefine ?_) (name ▸ notRoot)
    (name ▸ plain)
  rw [← name]
  exact (nameIn_of_titled closed untitled split titled).1

private theorem node_of_component {t : Token} (closed : (list opener items closer).Closed)
    (reached : Reached all before stack ((list opener items closer).tokens ++ rest))
    (untitled : heading before ≠ .titled)
    (first : t ∈ (list opener items closer).parts.head.head?) (symbol : t.kind = .symbol)
    (isDefine : t.value = Schema.defineForm) {n : Nested}
    (later : n ∈ (list opener items closer).parts.nested.tail) : Node all n.form := by
  obtain ⟨behind, split, -⟩ := Parts.items_eq_parts opener items closer
  have name := nameIn_of_head untitled symbol first
  rw [isDefine] at name
  cases forms : (list opener items closer).parts.nested with
  | nil => simp [forms] at later
  | cons m nested =>
      rw [forms, List.tail_cons] at later
      obtain ⟨front, back, inNested⟩ := List.append_of_mem later
      have inside : m ∈ (list opener items closer).parts.nested := by simp [forms]
      rw [forms, inNested] at split
      have split' : items = ((list opener items closer).parts.head.map atom ++
          m.form :: front.map Nested.form) ++ n.form :: (back.map Nested.form ++ behind) :=
        split.trans (by simp)
      refine node_of_item closed reached split' (fun titled => ?_) ?_ ?_
      · obtain ⟨word, title, atoms⟩ := (nameIn_of_titled closed untitled split' titled).2
        have isAtom : m.form ∈ [atom word, atom title] := by
          rw [← atoms]
          simp
        obtain ⟨-, shaped, opens⟩ := Parts.nested_shaped closed.shaped inside
        obtain ⟨u, same⟩ : ∃ u, m.form = atom u := by
          have either : m.form = atom word ∨ m.form = atom title := by simpa using isAtom
          rcases either with same | same <;> exact ⟨_, same⟩
        rw [same] at shaped
        rw [Nested.opener, same] at opens
        exact shaped.1 opens
      · simp [name, Schema.defineForm, Schema.rootForm]
      · simp [name, Schema.defineForm, Schema.screenForm]

/-- The forms in a top-level form are nodes as far as they are read as such. -/
theorem holds_node {form : Form} (closed : form.Closed)
    (reached : Reached all before stack (form.tokens ++ rest))
    (untitled : heading before ≠ .titled) :
    Holds (Node all) form.parts := by
  cases form with
  | atom t =>
      constructor <;> simp [parts]
  | list opener items closer =>
      refine ⟨fun t first symbol isDefine n later =>
          node_of_component closed reached untitled first symbol isDefine later,
        fun t first symbol isLayout n member => ?_,
        fun t first symbol isScreen n member plain => ?_,
        fun t first symbol isScreen n member kind found m inner => ?_⟩
      · exact node_of_nested closed reached untitled first symbol
          (by simp [isLayout, Schema.rootForm])
          (by simp [isLayout, Schema.defineForm]) member (by simp [isLayout, Schema.screenForm])
      · exact node_of_nested closed reached untitled first symbol
          (by simp [isScreen, Schema.rootForm, Schema.screenForm])
          (by simp [isScreen, Schema.defineForm, Schema.screenForm]) member fun _ => plain
      · -- An overlay of a screen holds nodes, and it is itself reached as a form inside the screen.
        obtain ⟨isItem, shaped, -⟩ := Parts.nested_shaped closed.shaped member
        have closed' := (closed_list_iff.mp closed).2.2 n.form isItem
        obtain ⟨front, back, split⟩ := List.append_of_mem isItem
        obtain ⟨before', rest', inside, same⟩ := reached_item closed reached split
        have untitled' : heading before' ≠ .titled := by
          intro titled
          have name := (nameIn_of_titled closed untitled split (same ▸ titled)).1
          rw [nameIn_of_head untitled symbol first, isScreen] at name
          exact absurd name (by decide)
        obtain ⟨opener', name, rest, closer', isList, symbol', overlay⟩ :=
          Parts.overlayKind?_eq_some found
        rw [isList] at closed' inside inner
        have other : ∀ word ∈ Schema.overlayForms, word ≠ Schema.rootForm ∧
            word ≠ Schema.defineForm ∧ word ≠ Schema.screenForm := by decide
        obtain ⟨notRoot, notDefine, notScreen⟩ := other name.value overlay
        exact node_of_nested closed' inside untitled' (by rfl) symbol' notRoot notDefine inner
          fun isScreen => absurd isScreen notScreen

end Form
end Wireframe
