import Wireframe.Proofs.Enclosed
import Wireframe.Proofs.Tiling

/-!
# Landmarks

The nodes of a document that have a place in its source, each with the lists of nodes inside it.  A
node stands for a closed list of the source if its place is that of the list.  A chart of tokens
keeps account of their opening parentheses: no more nodes start at one than there are of it, and
after a reading without faults all of them but those of facts and parameters have a node.
-/

namespace Wireframe

/-- A node of a document that has a place in its source. -/
inductive Landmark where
  /-- A file to include. -/
  | inclusion (i : Include)
  /-- A component. -/
  | component (c : Component)
  /-- A layout. -/
  | layout (l : Layout)
  /-- A screen. -/
  | screen (s : Screen)
  /-- An overlay. -/
  | overlay (o : Overlay)
  /-- An element. -/
  | element (e : Element)
  /-- A repetition. -/
  | repetition (r : Repetition)

namespace Landmark

/-- The place of a node. -/
def location : Landmark → Option Location
  | inclusion i => i.location
  | component c => c.location
  | layout l => l.location
  | screen s => s.location
  | overlay o => o.location
  | element e => e.location
  | repetition r => r.location

/-- A node inside an element. -/
def ofChild : Child → Landmark
  | .element e => element e
  | .repetition r => repetition r

/-- The lists of nodes directly inside a node: its body, root or children, and the overlays of a
screen. -/
def lists : Landmark → List (List Landmark)
  | inclusion _ => []
  | component c => [[element c.body]]
  | layout l => [[element l.body]]
  | screen s => [[element s.root], s.overlays.map overlay]
  | overlay o => [o.children.map ofChild]
  | element e => [e.children.map ofChild]
  | repetition r => [[element r.body]]

/-- Whether a node is the container that reading puts around a repetition. -/
def isWrapper : Landmark → Bool
  | element e => e.type == Schema.repeatContainer && !e.isComponent
  | _ => false

/-- Where a node starts, unless it is a container around a repetition. -/
def start? (l : Landmark) : Option Position :=
  if l.isWrapper then none else l.location.map Location.start

end Landmark

mutual

/-- An element and all nodes inside it. -/
def Element.landmarks : Element → List Landmark
  | ⟨type, content, props, children, location, isComponent⟩ =>
    .element ⟨type, content, props, children, location, isComponent⟩ ::
      Child.landmarksAll children

/-- A repetition and all nodes inside it. -/
def Repetition.landmarks : Repetition → List Landmark
  | ⟨count, counter, body, location⟩ =>
    .repetition ⟨count, counter, body, location⟩ :: body.landmarks

/-- A node and all nodes inside it. -/
def Child.landmarks : Child → List Landmark
  | .element e => e.landmarks
  | .repetition r => r.landmarks

/-- Nodes and all nodes inside them. -/
def Child.landmarksAll : List Child → List Landmark
  | [] => []
  | child :: rest => child.landmarks ++ Child.landmarksAll rest

end

theorem Element.landmarks_eq (e : Element) :
    e.landmarks = .element e :: Child.landmarksAll e.children := by
  cases e
  rfl

theorem Repetition.landmarks_eq (r : Repetition) :
    r.landmarks = .repetition r :: r.body.landmarks := by
  cases r
  rfl

/-- An overlay and all nodes inside it. -/
def Overlay.landmarks (o : Overlay) : List Landmark :=
  .overlay o :: Child.landmarksAll o.children

namespace Landmark

/-- A node and all nodes inside it. -/
def tree : Landmark → List Landmark
  | inclusion i => [inclusion i]
  | component c => component c :: c.body.landmarks
  | layout l => layout l :: l.body.landmarks
  | screen s => screen s :: (s.root.landmarks ++ s.overlays.flatMap Overlay.landmarks)
  | overlay o => o.landmarks
  | element e => e.landmarks
  | repetition r => r.landmarks

theorem flatMap_tree_ofChild (children : List Child) :
    (children.map ofChild).flatMap tree = Child.landmarksAll children := by
  induction children with
  | nil => rfl
  | cons child rest ih =>
      rw [List.map_cons, List.flatMap_cons, ih, Child.landmarksAll]
      cases child <;> rfl

/-- All nodes inside a node are found by way of the nodes directly inside it. -/
theorem tree_eq (l : Landmark) : l.tree = l :: l.lists.flatten.flatMap tree := by
  cases l with
  | inclusion i => rfl
  | component c => simp [tree, lists]
  | layout l => simp [tree, lists]
  | screen s =>
      have overlays : (s.overlays.map overlay).flatMap tree =
          s.overlays.flatMap Overlay.landmarks := List.flatMap_map ..
      simp [tree, lists, overlays]
  | overlay o => simp [tree, lists, Overlay.landmarks, flatMap_tree_ofChild]
  | element e => simp [tree, lists, Element.landmarks_eq, flatMap_tree_ofChild]
  | repetition r => simp [tree, lists, Repetition.landmarks_eq]

end Landmark

namespace Document

/-- The lists of nodes directly inside a document. -/
def lists (d : Document) : List (List Landmark) :=
  [d.includes.map .inclusion, d.components.map .component, d.layouts.map .layout,
    d.screens.map .screen]

/-- All nodes of a document. -/
def landmarks (d : Document) : List Landmark :=
  d.lists.flatten.flatMap Landmark.tree

/-- Where the document and its nodes start, the containers around repetitions left out. -/
def starts (d : Document) : List Position :=
  d.location.toList.map Location.start ++ d.landmarks.filterMap Landmark.start?

end Document

/-- Where a place ends, which is known of every place in a source. -/
def Location.stop (l : Location) : Position :=
  ⟨l.endLine.getD 0, l.endColumn.getD 0⟩

namespace Landmark

/-- Whether a node starts behind the start of another place and ends before its end. -/
def Inside (l : Landmark) (outer : Option Location) : Prop :=
  ∃ a b, l.location = some a ∧ outer = some b ∧ b.start.Precedes a.start ∧ a.stop.Precedes b.stop

/-- Whether a node ends no later than another one starts. -/
def Before (l m : Landmark) : Prop :=
  ∃ a b, l.location = some a ∧ m.location = some b ∧ ¬b.start.Precedes a.stop

end Landmark

namespace Token

/-- The place from the start of the first token of a row to the end of the last one. -/
def span (row : List Token) : Option Location := do
  let first ← row.head?
  let last ← row.getLast?
  return ⟨first.start, some last.stop.line, some last.stop.column⟩

theorem span_tokens (opener : Token) (items : List Form) (closer : Token) :
    span (Form.list opener items closer).tokens =
      some ⟨opener.start, some closer.stop.line, some closer.stop.column⟩ := by
  have last : (Form.list opener items closer).tokens.getLast? = some closer := by
    rw [Form.tokens, List.getLast?_append]
    rfl
  rw [span, last]
  rfl

/-- Whether an opening parenthesis between tokens opens facts or a parameter list. -/
def opensNoNode (before behind : List Token) : Bool :=
  startsParams before.reverse || behind.head?.any (·.isSymbol "meta")

/-- Whether a token is an opening parenthesis of facts or of a parameter list. -/
def Nodeless (tokens : List Token) (t : Token) : Prop :=
  ∃ before behind, tokens = before ++ t :: behind ∧ opensNoNode before behind = true

theorem nodeless_of_define {tokens back : List Token} {opener word name t : Token}
    (inside : opener :: word :: name :: t :: back <:+: tokens) (opens : opener.kind = .openParen)
    (isDefine : word.isSymbol Schema.defineForm = true) (symbol : name.kind = .symbol) :
    Nodeless tokens t := by
  obtain ⟨before, behind, rfl⟩ := inside
  refine ⟨before ++ [opener, word, name], back ++ behind, by simp, ?_⟩
  simp [opensNoNode, startsParams, opens, isDefine, symbol]

theorem nodeless_of_meta {tokens back : List Token} {t word : Token}
    (inside : t :: word :: back <:+: tokens) (isMeta : word.isSymbol "meta" = true) :
    Nodeless tokens t := by
  obtain ⟨before, behind, rfl⟩ := inside
  refine ⟨before, word :: back ++ behind, by simp, ?_⟩
  simp [opensNoNode, isMeta]

/-- Whether a token is an opening parenthesis at a position. -/
def opensAt (p : Position) (t : Token) : Bool :=
  t.kind == .openParen && t.start == p

theorem countP_opensAt_list {opener closer : Token} (opens : opener.kind = .openParen)
    (ends : closer.kind ≠ .openParen) (items : List Form) (p : Position) :
    (Form.list opener items closer).tokens.countP (·.opensAt p) =
      (Form.tokensAll items).countP (·.opensAt p) + if opener.start = p then 1 else 0 := by
  simp [Form.tokens, List.countP_cons, opensAt, opens, ends]

end Token

namespace Form

/-- Whether a closed list among tokens stands for a node. -/
structure StandsAs (tokens : List Token) (form : Form) (l : Landmark) : Prop where
  closed : form.ClosedList
  inside : form.tokens <:+: tokens
  location : l.location = Token.span form.tokens

/-- Whether some of several forms stand, in order, for nodes. -/
def Underlie (tokens : List Token) (forms : List Form) (list : List Landmark) : Prop :=
  List.SublistForall₂ (fun l form => StandsAs tokens form l) list forms

section Underlie

variable {tokens : List Token} {forms items : List Form} {list : List Landmark}

theorem Underlie.mono (underlie : Underlie tokens forms list) (among : forms.Sublist items) :
    Underlie tokens items list := by
  obtain ⟨chosen, stand, inOrder⟩ := List.sublistForall₂_iff.mp underlie
  exact List.sublistForall₂_iff.mpr ⟨chosen, stand, inOrder.trans among⟩

theorem Underlie.exists_form (underlie : Underlie tokens forms list) :
    ∀ l ∈ list, ∃ form ∈ forms, form.StandsAs tokens l := by
  induction underlie with
  | nil => simp
  | cons here later ih =>
      intro m member
      rcases List.mem_cons.mp member with rfl | further
      · exact ⟨_, List.mem_cons_self, here⟩
      · obtain ⟨form, isForm, stands⟩ := ih m further
        exact ⟨form, List.mem_cons_of_mem _ isForm, stands⟩
  | cons_right later ih =>
      intro m member
      obtain ⟨form, isForm, stands⟩ := ih m member
      exact ⟨form, List.mem_cons_of_mem _ isForm, stands⟩

end Underlie

end Form

namespace Landmark

/-- Whether a list of some tokens stands for a node, and forms in the list for the nodes inside it;
a container around a repetition only has the place of the repetition. -/
inductive Anchored (tokens : List Token) (l : Landmark) : Prop where
  | list (opener : Token) (items : List Form) (closer : Token)
    (stands : (Form.list opener items closer).StandsAs tokens l) (own : l.isWrapper = false)
    (underlie : ∀ list ∈ l.lists, Form.Underlie tokens items list)
  | wrapper (form : Form) (r : Repetition) (stands : form.StandsAs tokens l)
    (shared : l.isWrapper = true) (only : l.lists = [[.repetition r]])
    (location : r.location = l.location)

end Landmark

/-- Whether nodes chart a row of tokens among others: they are anchored there, no more of them start
at an opening parenthesis than there are of it, and after a quiet reading each of these has a node
unless it opens none. -/
structure Charted (tokens row : List Token) (quiet : Prop) (nodes : List Landmark) : Prop where
  anchored : ∀ l ∈ nodes, l.Anchored tokens
  starts : ∀ p, nodes.countP (·.start? == some p) ≤ row.countP (·.opensAt p)
  complete : quiet → ∀ t ∈ row, t.kind = .openParen →
    Token.Nodeless tokens t ∨ ∃ l ∈ nodes, l.start? = some t.start

namespace Charted

variable {tokens row left right : List Token} {quiet quiet' : Prop} {nodes nodes' : List Landmark}
  {l : Landmark}

theorem none (covered : quiet → ∀ t ∈ row, t.kind = .openParen → Token.Nodeless tokens t) :
    Charted tokens row quiet [] where
  anchored := by simp
  starts := by simp
  complete := by
    intro isQuiet t member opens
    exact Or.inl (covered isQuiet t member opens)

theorem mono (charted : Charted tokens row quiet nodes) (weaker : quiet' → quiet) :
    Charted tokens row quiet' nodes where
  anchored := charted.anchored
  starts := charted.starts
  complete := charted.complete ∘ weaker

theorem perm (charted : Charted tokens row quiet nodes) (same : nodes.Perm nodes') :
    Charted tokens row quiet nodes' where
  anchored := by
    intro l member
    exact charted.anchored l (same.mem_iff.mpr member)
  starts := by
    intro p
    rw [← same.countP_eq]
    exact charted.starts p
  complete := by
    intro isQuiet t member opens
    rcases charted.complete isQuiet t member opens with nodeless | ⟨l, isNode, start⟩
    · exact Or.inl nodeless
    · exact Or.inr ⟨l, same.mem_iff.mp isNode, start⟩

theorem append (first : Charted tokens left quiet nodes)
    (second : Charted tokens right quiet nodes') :
    Charted tokens (left ++ right) quiet (nodes ++ nodes') where
  anchored := List.forall_mem_append.mpr ⟨first.anchored, second.anchored⟩
  starts := by
    intro p
    rw [List.countP_append, List.countP_append]
    exact Nat.add_le_add (first.starts p) (second.starts p)
  complete := by
    intro isQuiet t member opens
    rcases List.mem_append.mp member with inLeft | inRight
    · rcases first.complete isQuiet t inLeft opens with nodeless | ⟨l, isNode, start⟩
      · exact Or.inl nodeless
      · exact Or.inr ⟨l, List.mem_append_left _ isNode, start⟩
    · rcases second.complete isQuiet t inRight opens with nodeless | ⟨l, isNode, start⟩
      · exact Or.inl nodeless
      · exact Or.inr ⟨l, List.mem_append_right _ isNode, start⟩

/-- A list is charted by its node with the nodes that chart its items. -/
theorem list {opener closer : Token} {items : List Form}
    (charted : Charted tokens (Form.tokensAll items) quiet nodes) (anchored : l.Anchored tokens)
    (stands : (Form.list opener items closer).StandsAs tokens l) (own : l.isWrapper = false) :
    Charted tokens (Form.list opener items closer).tokens quiet (l :: nodes) := by
  obtain ⟨opens, closes, -⟩ := Form.closed_list_iff.mp stands.closed.1
  have start : l.start? = some opener.start := by
    rw [Landmark.start?, own, stands.location, Token.span_tokens]
    rfl
  refine ⟨List.forall_mem_cons.mpr ⟨anchored, charted.anchored⟩, fun p => ?_, ?_⟩
  · have inner := charted.starts p
    rw [Token.countP_opensAt_list opens (by simp [closes]), List.countP_cons, start]
    simp only [Option.some_beq_some, beq_iff_eq]
    omega
  · intro isQuiet t member isOpen
    have cases : t = opener ∨ t ∈ Form.tokensAll items ∨ t = closer := by
      simpa [Form.tokens] using member
    rcases cases with rfl | inItems | rfl
    · exact Or.inr ⟨l, List.mem_cons_self, start⟩
    · rcases charted.complete isQuiet t inItems isOpen with nodeless | ⟨m, isNode, start⟩
      · exact Or.inl nodeless
      · exact Or.inr ⟨m, List.mem_cons_of_mem l isNode, start⟩
    · exact absurd (isOpen.symm.trans closes) (by decide)

/-- A container around a repetition does not change what the nodes chart. -/
theorem wrapper (charted : Charted tokens row quiet nodes) (anchored : l.Anchored tokens)
    (shared : l.isWrapper = true) : Charted tokens row quiet (l :: nodes) where
  anchored := List.forall_mem_cons.mpr ⟨anchored, charted.anchored⟩
  starts := by
    intro p
    have silent : l.start? = Option.none := by simp [Landmark.start?, shared]
    rw [List.countP_cons, silent]
    exact charted.starts p
  complete := by
    intro isQuiet t member opens
    rcases charted.complete isQuiet t member opens with nodeless | ⟨m, isNode, start⟩
    · exact Or.inl nodeless
    · exact Or.inr ⟨m, List.mem_cons_of_mem l isNode, start⟩

theorem atoms {head : List Token} (plain : ∀ t ∈ head, t.kind ≠ .openParen) :
    Charted tokens head quiet [] :=
  none fun _ t member opens => absurd opens (plain t member)

end Charted

/-- Whether a form stands for a node that charts its tokens with all nodes inside it. -/
structure Form.Yields (tokens : List Token) (form : Form) (quiet : Prop) (l : Landmark) :
    Prop where
  stands : form.StandsAs tokens l
  charted : Charted tokens form.tokens quiet l.tree

/-- Whether forms underlie lists of nodes that chart their tokens with all nodes inside them. -/
structure Surveyed (tokens : List Token) (forms : List Form) (quiet : Prop)
    (lists : List (List Landmark)) : Prop where
  underlie : ∀ list ∈ lists, Form.Underlie tokens forms list
  charted : Charted tokens (Form.tokensAll forms) quiet (lists.flatten.flatMap Landmark.tree)

theorem Form.Yields.mono {tokens : List Token} {form : Form} {quiet quiet' : Prop} {l : Landmark}
    (yields : form.Yields tokens quiet l) (weaker : quiet' → quiet) :
    form.Yields tokens quiet' l :=
  ⟨yields.stands, yields.charted.mono weaker⟩

namespace Surveyed

variable {tokens : List Token} {form : Form} {forms : List Form} {quiet quiet' : Prop}
  {list : List Landmark} {lists right : List (List Landmark)} {l : Landmark}

theorem mono (surveyed : Surveyed tokens forms quiet lists) (weaker : quiet' → quiet) :
    Surveyed tokens forms quiet' lists :=
  ⟨surveyed.underlie, surveyed.charted.mono weaker⟩

/-- Where forms stand for no nodes, a quiet reading has left out no list among them. -/
theorem none (empty : lists.flatten = []) (covered : quiet → ∀ t ∈ Form.tokensAll forms,
    t.kind = .openParen → Token.Nodeless tokens t) : Surveyed tokens forms quiet lists where
  underlie := by
    intro list member
    rw [List.flatten_eq_nil_iff.mp empty list member]
    exact List.SublistForall₂.nil
  charted := by
    rw [empty]
    exact Charted.none covered

theorem nil (empty : lists.flatten = []) : Surveyed tokens [] quiet lists :=
  none empty (by simp [Form.tokensAll])

/-- A list of no nodes may be put before the others. -/
theorem empty (surveyed : Surveyed tokens forms quiet lists) :
    Surveyed tokens forms quiet ([] :: lists) where
  underlie := List.forall_mem_cons.mpr ⟨List.SublistForall₂.nil, surveyed.underlie⟩
  charted := surveyed.charted

/-- A form that stands for no node is passed over. -/
theorem skip (here : Charted tokens form.tokens quiet [])
    (later : Surveyed tokens forms quiet lists) : Surveyed tokens (form :: forms) quiet lists where
  underlie := by
    intro list member
    exact (later.underlie list member).mono (List.sublist_cons_self form forms)
  charted := here.append later.charted

/-- A form that stands for a node puts it first in one of the lists. -/
theorem cons (left : List (List Landmark)) (here : form.Yields tokens quiet l)
    (later : Surveyed tokens forms quiet (left ++ list :: right)) :
    Surveyed tokens (form :: forms) quiet (left ++ (l :: list) :: right) where
  underlie := by
    intro other member
    have behind := List.sublist_cons_self form forms
    rcases List.mem_append.mp member with before | after
    · exact (later.underlie other (List.mem_append_left _ before)).mono behind
    · rcases List.mem_cons.mp after with rfl | after
      · exact (later.underlie list (by simp)).cons here.stands
      · exact (later.underlie other (by simp [after])).mono behind
  charted := by
    refine (here.charted.append later.charted).perm ?_
    simp only [List.flatten_append, List.flatten_cons, List.flatMap_append, List.cons_append,
      List.flatMap_cons]
    exact List.perm_append_comm_assoc _ _ _

theorem single (here : form.Yields tokens quiet l) : Surveyed tokens [form] quiet [[l]] :=
  cons [] here (nil rfl)

/-- A list whose nested forms are surveyed stands for the node with their nodes inside. -/
theorem yields {opener closer : Token} {head : List Token}
    (surveyed : Surveyed tokens forms quiet l.lists) (plain : ∀ t ∈ head, t.kind ≠ .openParen)
    (stands : (Form.list opener (head.map .atom ++ forms) closer).StandsAs tokens l)
    (own : l.isWrapper = false) :
    (Form.list opener (head.map .atom ++ forms) closer).Yields tokens quiet l where
  stands := stands
  charted := by
    have items : Charted tokens (Form.tokensAll (head.map .atom ++ forms)) quiet
        (l.lists.flatten.flatMap Landmark.tree) := by
      rw [Form.tokensAll_append, Form.tokensAll_atoms]
      exact (Charted.atoms plain).append surveyed.charted
    have anchored : l.Anchored tokens := by
      apply Landmark.Anchored.list opener _ closer stands own
      intro list member
      exact (surveyed.underlie list member).mono (List.sublist_append_right _ forms)
    rw [Landmark.tree_eq]
    exact items.list anchored stands own

end Surveyed
end Wireframe
