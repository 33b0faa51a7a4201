import Wireframe.Proofs.Landmark
import Wireframe.Proofs.Locality

/-!
# Charts of what is read

Every node that is read stands for the list it is read from, whatever faults are noted on the way,
and the nodes inside it stand for forms nested in that list.  Reading without faults leaves out no
list but facts and parameters.
-/

namespace Wireframe

namespace Attempt

variable {α β : Type} {x : Attempt α}

/-- A compound attempt that reads a value does so part by part; it succeeds only if its parts do. -/
theorem of_bind_value {f : α → Attempt β} {b : β} (read : (x >>= f).outcome = .value b) :
    ∃ a, x.outcome = .value a ∧ (f a).outcome = .value b ∧
      ((x >>= f).succeeds = true → x.succeeds = true ∧ (f a).succeeds = true) := by
  obtain ⟨a, here, later⟩ := outcome_bind_eq_value.mp read
  refine ⟨a, here, later, fun quiet => ?_⟩
  obtain ⟨a', same, quiet⟩ := succeeds_bind.mp quiet
  rw [same] at here ⊢
  obtain rfl := Outcome.value.inj here
  exact ⟨rfl, quiet⟩

/-- Recovering goes on with what was read, if anything, and succeeds only if something was. -/
theorem of_recover_value {a : Option α} (read : x.recover.outcome = .value a) :
    x.value? = a ∧ (x.recover.succeeds = true → x.succeeds = true) := by
  obtain ⟨noted, outcome⟩ := x
  cases outcome with
  | value b =>
      obtain rfl := Outcome.value.inj read
      exact ⟨rfl, id⟩
  | fault f =>
      obtain rfl := Outcome.value.inj read
      exact ⟨rfl, by simp [recover, succeeds]⟩
  | refused r => cases read

theorem expect_of_value {wanted : TokenKind} {t u : Token}
    (read : (expect wanted t).outcome = .value u) : expect wanted t = pure u :=
  eq_pure_of_value (noted_expect wanted t) read

theorem location_of_place {opener closer : Token} {location : Location}
    (read : (place opener closer).outcome = .value location) :
    location = ⟨opener.start, some closer.stop.line, some closer.stop.column⟩ := by
  unfold place at read
  split at read
  · exact (Outcome.value.inj read).symm
  · cases read

end Attempt

namespace Form

variable {front : List Token} {opener closer : Token} {items : List Form}

/-- Whether a form stands among tokens, behind which the end of the source may stand for closing
parentheses that are missing. -/
def Among (front : List Token) (form : Form) : Prop :=
  form.Shaped ∧ ∃ ends, (∀ t ∈ ends, t.kind = .eof) ∧ form.tokens <:+: front ++ ends

theorem Among.item (among : (list opener items closer).Among front) {form : Form}
    (member : form ∈ items) : form.Among front := by
  obtain ⟨shaped, ends, isEnd, inside⟩ := among
  have within := (tokens_infix_tokensAll member).trans (tokensAll_infix_tokens opener items closer)
  exact ⟨shapedAll_iff.mp shaped.2.2 form member, ends, isEnd, within.trans inside⟩

/-- A list that a parenthesis closes stands before the end of the source, as do all forms in it. -/
theorem Among.closed (inner : ∀ t ∈ front, t.kind ≠ .eof)
    (among : (list opener items closer).Among front) (closes : closer.kind = .closeParen) :
    (list opener items closer).ClosedList ∧ (list opener items closer).tokens <:+: front := by
  obtain ⟨shaped, ends, isEnd, inside⟩ := among
  have notEnd : closer ∉ ends := fun member => by simp [isEnd closer member] at closes
  have within := Token.infix_of_infix_append notEnd inside
  exact ⟨⟨⟨shaped, fun t member => inner t (within.mem member)⟩, shaped.1⟩, within⟩

end Form

/-! ## Nested forms -/

/-- Whether a form stands for the node that is read of it, if any. -/
def Form.Reads {α : Type} (front : List Token) (form : Form) (x : Attempt α) (node : α → Landmark) :
    Prop :=
  ∀ a, x.outcome = .value a → form.Yields front (x.succeeds = true) (node a)

theorem Form.Reads.map {α β : Type} {front : List Token} {form : Form} {x : Attempt α} (f : α → β)
    (node : β → Landmark) (reads : form.Reads front x fun a => node (f a)) :
    form.Reads front (do return f (← x)) node := by
  intro b read
  obtain ⟨a, value, same, success⟩ := Attempt.of_bind_value read
  obtain rfl := Outcome.value.inj same
  exact (reads a value).mono fun quiet => (success quiet).1

/-- Whether a nested form stands for the node that is read of it, if any. -/
def Nested.Reads (front : List Token) (n : Nested) : Prop :=
  n.form.Reads front n.child .ofChild

section Nested

variable {front : List Token} {nested : List Nested} {cs : List Child}

/-- A form from which reading recovers adds its node, if any, to those of the forms behind it. -/
theorem Surveyed.recover {α : Type} {form : Form} {forms : List Form} {x : Attempt α}
    {node : α → Landmark} {a : Option α} {quiet : Prop} {right : List (List Landmark)}
    {list : List Landmark} (left : List (List Landmark)) (here : form.Reads front x node)
    (read : x.recover.outcome = .value a) (success : quiet → x.recover.succeeds = true)
    (later : Surveyed front forms quiet (left ++ list :: right)) :
    Surveyed front (form :: forms) quiet (left ++ (a.toList.map node ++ list) :: right) := by
  obtain ⟨value, whole⟩ := Attempt.of_recover_value read
  cases a with
  | none =>
      refine later.skip (Charted.none fun quiet => ?_)
      have failed := whole (success quiet)
      simp [Attempt.succeeds, value] at failed
  | some b =>
      have yields := here b (Attempt.value?_eq_some.mp value)
      exact later.cons left (yields.mono (whole ∘ success))

theorem surveyed_readNested (reads : ∀ n ∈ nested, n.Reads front)
    (read : (readNested nested).outcome = .value cs) :
    Surveyed front (nested.map Nested.form) ((readNested nested).succeeds = true)
      [cs.map .ofChild] := by
  induction nested generalizing cs with
  | nil =>
      obtain rfl := Outcome.value.inj read
      exact Surveyed.nil rfl
  | cons n rest ih =>
      obtain ⟨here, later⟩ := List.forall_mem_cons.mp reads
      obtain ⟨child, recovered, behind, success⟩ := Attempt.of_bind_value read
      obtain ⟨others, nodes, same, success'⟩ := Attempt.of_bind_value behind
      obtain rfl := Outcome.value.inj same
      have surveyed := (ih later nodes).mono fun quiet => (success' (success quiet).2).1
      rw [List.map_append]
      exact surveyed.recover [] here recovered fun quiet => (success quiet).1

theorem surveyed_children (reads : ∀ n ∈ nested, n.Reads front) {schema : ElementSchema}
    (read : (Parts.children schema nested).outcome = .value cs) :
    Surveyed front (nested.map Nested.form) ((Parts.children schema nested).succeeds = true)
      [cs.map .ofChild] := by
  cases nested with
  | nil =>
      obtain rfl := Outcome.value.inj read
      exact Surveyed.nil rfl
  | cons n rest =>
      rw [Parts.children] at read ⊢
      split at read
      · rename_i takes
        rw [if_pos takes]
        exact surveyed_readNested reads read
      · rename_i takesNone
        obtain ⟨-, -, behind, -⟩ := Attempt.of_bind_value read
        obtain ⟨-, -, same, -⟩ := Attempt.of_bind_value behind
        obtain rfl := Outcome.value.inj same
        refine Surveyed.none rfl fun success => ?_
        rw [if_neg takesNone] at success
        simp [Attempt.succeeds] at success

/-- A repetition where an element is expected shares its place with the container around it. -/
theorem Nested.Reads.toElement {n : Nested} (reads : n.Reads front) :
    n.form.Reads front n.child fun c => .element c.toElement := by
  intro c read
  have yields := reads c read
  cases c with
  | element e => exact yields
  | repetition r =>
      have stands : n.form.StandsAs front (.element (Child.repetition r).toElement) :=
        ⟨yields.stands.closed, yields.stands.inside, yields.stands.location⟩
      refine ⟨stands, ?_⟩
      rw [Landmark.tree_eq]
      have anchored := Landmark.Anchored.wrapper n.form r stands rfl rfl rfl
      refine Charted.wrapper ?_ anchored rfl
      simpa [Landmark.lists, Child.toElement, Landmark.ofChild] using yields.charted

end Nested

namespace Parts

section

variable {front : List Token} {opener closer : Token} {items : List Form} {l : Landmark}
  {quiet : Prop} (inner : ∀ t ∈ front, t.kind ≠ .eof)
  (among : (Form.list opener items closer).Among front)

include inner among

/-- A list that is read to its end stands for the node that has its place. -/
theorem yields_of_next {t : Token} {location : Location}
    (ends : (Attempt.expect .closeParen (Form.list opener items closer).parts.next).outcome =
      .value t)
    (placed : (Attempt.place opener t).outcome = .value location)
    (located : l.location = some location) (own : l.isWrapper = false)
    (surveyed : Surveyed front ((Form.list opener items closer).parts.nested.map Nested.form) quiet
      l.lists) : (Form.list opener items closer).Yields front quiet l := by
  obtain ⟨kind, rfl⟩ := Attempt.expect_eq_pure_iff.mp (Attempt.expect_of_value ends)
  have closes := closes_of_next among.1 kind
  obtain ⟨closed, inside⟩ := among.closed inner closes.closer_kind
  have stands : (Form.list opener items closer).StandsAs front l := by
    refine ⟨closed, inside, ?_⟩
    rw [located, Attempt.location_of_place placed, closes.next, Token.span_tokens]
  have plain : ∀ t ∈ (Form.list opener items closer).parts.head, t.kind ≠ .openParen :=
    fun t member => (head_kind among.1 member).1
  generalize (Form.list opener items closer).parts = p at closes surveyed plain
  obtain ⟨-, -, rfl, -⟩ := closes
  exact surveyed.yields plain stands own

end

theorem element_of_value {p : Parts} {left : List Token} {e : Element} {rest : List Nested}
    (read : (p.element left).outcome = .value (e, rest)) :
    left = [] ∧ ∃ n c, p.nested = n :: rest ∧ n.child.outcome = .value c ∧ c.toElement = e ∧
      ((p.element left).succeeds = true → n.child.succeeds = true) := by
  cases left with
  | cons t left => cases read
  | nil =>
      refine ⟨rfl, ?_⟩
      cases forms : p.nested with
      | nil =>
          simp only [element, upcoming, forms] at read
          cases read
      | cons n nested =>
          simp only [element, upcoming, forms] at read ⊢
          obtain ⟨c, child, taken, success⟩ := Attempt.of_bind_value read
          obtain ⟨rfl, rfl⟩ : c.toElement = e ∧ nested = rest := by simpa using taken
          exact ⟨n, c, rfl, child, rfl, fun quiet => (success quiet).1⟩

theorem closeBody_of_value {p : Parts} {form : String} {nested : List Nested} {t : Token}
    (read : (p.closeBody form nested).outcome = .value t) :
    nested = [] ∧ (Attempt.expect .closeParen p.next).outcome = .value t := by
  cases nested with
  | nil => exact ⟨rfl, read⟩
  | cons n rest => cases read

theorem component_of_value {p : Parts} {left : List Token} {c : Component}
    (read : (p.toComponent left).outcome = .value c) :
    p.symbol left = pure (c.name, []) ∧ ∃ n m child t location, p.nested = [n, m] ∧
      m.child.outcome = .value child ∧ child.toElement = c.body ∧
      (Attempt.expect .closeParen p.next).outcome = .value t ∧
      (Attempt.place p.opener t).outcome = .value location ∧ c.location = some location ∧
      ((p.toComponent left).succeeds = true →
        (params n.form).succeeds = true ∧ m.child.succeeds = true) := by
  unfold toComponent at read ⊢
  obtain ⟨⟨name, left'⟩, named, behind, success⟩ := Attempt.of_bind_value read
  have named := Attempt.eq_pure_of_value (noted_symbol _ _) named
  cases left' with
  | cons t left' => cases behind
  | nil =>
      cases nested : p.nested with
      | nil =>
          simp only [upcoming, nested] at behind
          cases behind
      | cons n rest =>
          simp only [upcoming, nested] at behind success ⊢
          obtain ⟨names, -, behind, success'⟩ := Attempt.of_bind_value behind
          obtain ⟨⟨body, rest'⟩, element, behind, success''⟩ := Attempt.of_bind_value behind
          obtain ⟨t, ends, behind, -⟩ := Attempt.of_bind_value behind
          obtain ⟨location, placed, same, -⟩ := Attempt.of_bind_value behind
          obtain rfl := Outcome.value.inj same
          obtain ⟨-, m, child, second, node, rfl, whole⟩ := element_of_value element
          obtain ⟨rfl, ends⟩ := closeBody_of_value ends
          obtain rfl : rest = [m] := second
          refine ⟨named, n, m, child, t, location, rfl, node, rfl, ends, placed, rfl, ?_⟩
          intro quiet
          obtain ⟨parameters, later⟩ := success' (success quiet).2
          exact ⟨parameters, whole (success'' later).1⟩

theorem isWrapper_of_builtin (name : String) (content : Option Content) (props : Table PropValue)
    (children : List Child) (location : Option Location) :
    (Landmark.element ⟨name, content, props, children, location,
      !(Schema.element name).isBuiltin⟩).isWrapper = false := by
  have unknown : (Schema.element Schema.repeatContainer).isBuiltin = false := by decide
  by_cases same : name = Schema.repeatContainer
  · simp [Landmark.isWrapper, same, unknown]
  · simp [Landmark.isWrapper, same]

section

variable {front : List Token} {opener closer : Token} {items : List Form}
  (inner : ∀ t ∈ front, t.kind ≠ .eof) (among : (Form.list opener items closer).Among front)

include among

theorem eq_nil_of_closing {left : List Token} {t : Token}
    (atoms : ∀ t ∈ left, t ∈ (Form.list opener items closer).parts.head)
    (ends : (Attempt.expect .closeParen
      ((Form.list opener items closer).parts.closing left)).outcome = .value t) : left = [] :=
  (closes_of_closing among.1 atoms (Attempt.expect_of_value ends)).1

include inner

variable (reads : ∀ n ∈ (Form.list opener items closer).parts.nested, n.Reads front)

include reads

theorem reads_toElement (name : String) {left : List Token}
    (atoms : ∀ t ∈ left, t ∈ (Form.list opener items closer).parts.head) :
    (Form.list opener items closer).Reads front
      ((Form.list opener items closer).parts.toElement name left) .element := by
  intro e read
  obtain ⟨⟨props, left'⟩, clauses, behind, success⟩ := Attempt.of_bind_value read
  obtain ⟨cs, nodes, behind, success'⟩ := Attempt.of_bind_value behind
  obtain ⟨t, ends, behind, -⟩ := Attempt.of_bind_value behind
  obtain ⟨location, placed, same, -⟩ := Attempt.of_bind_value behind
  obtain rfl := Outcome.value.inj same
  obtain rfl := eq_nil_of_closing among
    (fun t member => atoms t (mem_of_content (mem_of_readClauses clauses t member))) ends
  apply yields_of_next inner among ends placed rfl (isWrapper_of_builtin ..)
  exact (surveyed_children reads nodes).mono fun quiet => (success' (success quiet).2).1

/-- A list with one element inside it stands for the node that has the element for its body. -/
theorem yields_of_body {form : String} {left : List Token} {body : Element} {rest : List Nested}
    {t : Token} {location : Location} {l : Landmark} {quiet : Prop}
    (element : ((Form.list opener items closer).parts.element left).outcome = .value (body, rest))
    (ends : ((Form.list opener items closer).parts.closeBody form rest).outcome = .value t)
    (placed : (Attempt.place opener t).outcome = .value location)
    (located : l.location = some location) (own : l.isWrapper = false)
    (only : l.lists = [[.element body]])
    (success : quiet → ((Form.list opener items closer).parts.element left).succeeds = true) :
    (Form.list opener items closer).Yields front quiet l := by
  obtain ⟨-, n, c, nested, child, rfl, whole⟩ := element_of_value element
  obtain ⟨rfl, ends⟩ := closeBody_of_value ends
  apply yields_of_next inner among ends placed located own
  rw [nested] at reads
  have yields := (reads n List.mem_cons_self).toElement c child
  rw [only, nested]
  exact Surveyed.single (yields.mono (whole ∘ success))

theorem reads_toRepetition (left : List Token) :
    (Form.list opener items closer).Reads front
      ((Form.list opener items closer).parts.toRepetition left) .repetition := by
  intro r read
  obtain ⟨⟨options, left'⟩, -, behind, success⟩ := Attempt.of_bind_value read
  obtain ⟨⟨body, rest⟩, element, behind, success'⟩ := Attempt.of_bind_value behind
  obtain ⟨t, ends, behind, -⟩ := Attempt.of_bind_value behind
  obtain ⟨location, placed, same, -⟩ := Attempt.of_bind_value behind
  obtain rfl := Outcome.value.inj same
  exact yields_of_body inner among reads element ends placed rfl rfl rfl
    fun quiet => (success' (success quiet).2).1

theorem reads_toChild :
    (Form.list opener items closer).Reads front (Form.list opener items closer).parts.toChild
      .ofChild := by
  intro c read
  obtain ⟨⟨name, left⟩, named, behind, success⟩ := Attempt.of_bind_value read
  obtain ⟨t, head, -, -⟩ :=
    symbol_eq_pure among.1 (Attempt.eq_pure_of_value (noted_symbol _ _) named)
  have atoms : ∀ u ∈ left, u ∈ (Form.list opener items closer).parts.head := by
    intro u member
    rw [head]
    exact List.mem_cons_of_mem t member
  simp only at behind success
  split at behind
  · rename_i isRepeat
    rw [if_pos isRepeat] at success
    have repetition := reads_toRepetition inner among reads left
    have yields := Form.Reads.map .repetition .ofChild repetition c behind
    exact yields.mono fun quiet => (success quiet).2
  · rename_i notRepeat
    rw [if_neg notRepeat] at success
    split at behind
    · cases behind
    · rename_i notOverlay
      rw [if_neg notOverlay] at success
      split at behind
      · cases behind
      · rename_i notTop
        rw [if_neg notTop] at success
        have element := reads_toElement inner among reads name atoms
        have yields := Form.Reads.map .element .ofChild element c behind
        exact yields.mono fun quiet => (success quiet).2

end

end Parts

namespace Form

variable {front : List Token}

theorem nested_reads {opener closer : Token} {items : List Form}
    (among : (Form.list opener items closer).Among front)
    (reads : ∀ form ∈ items, form.Among front → form.Reads front form.child .ofChild) :
    ∀ n ∈ (Form.list opener items closer).parts.nested, n.Reads front := by
  intro n member
  obtain ⟨-, -, -, -, children⟩ := Parts.items_eq_parts opener items closer
  have inside := (Parts.nested_shaped among.1 member).1
  rw [Nested.Reads, children n member]
  exact reads n.form inside (among.item inside)

mutual

theorem reads_child (inner : ∀ t ∈ front, t.kind ≠ .eof) :
    ∀ form : Form, form.Among front → form.Reads front form.child .ofChild
  | .atom _, _ => by
      intro c read
      cases read
  | .list _ items _, among =>
      Parts.reads_toChild inner among (nested_reads among (reads_children inner items))

theorem reads_children (inner : ∀ t ∈ front, t.kind ≠ .eof) :
    ∀ (items : List Form), ∀ form ∈ items, form.Among front →
      form.Reads front form.child .ofChild
  | item :: rest, form, member, among => by
      rcases List.mem_cons.mp member with same | later
      · rw [same] at among ⊢
        exact reads_child inner item among
      · exact reads_children inner rest form later among

end

theorem reads_nested (inner : ∀ t ∈ front, t.kind ≠ .eof) {opener closer : Token}
    {items : List Form} (among : (Form.list opener items closer).Among front) :
    ∀ n ∈ (Form.list opener items closer).parts.nested, n.Reads front :=
  nested_reads among (reads_children inner items)

end Form

/-! ## Top-level forms -/

namespace Parts

variable {front : List Token} {opener closer : Token} {items : List Form}
  (inner : ∀ t ∈ front, t.kind ≠ .eof)

include inner

theorem reads_toOverlay {kind : OverlayKind}
    (among : (Form.list opener items closer).Among front) :
    (Form.list opener items closer).Reads front
      ((Form.list opener items closer).parts.toOverlay kind) .overlay := by
  intro o read
  obtain ⟨⟨options, left⟩, clauses, behind, success⟩ := Attempt.of_bind_value read
  obtain ⟨cs, nodes, behind, success'⟩ := Attempt.of_bind_value behind
  obtain ⟨t, ends, finish, -⟩ := Attempt.of_bind_value behind
  obtain rfl := eq_nil_of_closing among
    (fun t member => List.mem_of_mem_tail (mem_of_readClauses clauses t member)) ends
  obtain ⟨location, placed, located, rfl⟩ : ∃ location,
      (Attempt.place opener t).outcome = .value location ∧ o.location = some location ∧
        o.children = cs := by
    simp only at finish
    split at finish
    · obtain ⟨-, -, finish, -⟩ := Attempt.of_bind_value finish
      obtain ⟨location, placed, same, -⟩ := Attempt.of_bind_value finish
      obtain rfl := Outcome.value.inj same
      exact ⟨location, placed, rfl, rfl⟩
    · obtain ⟨location, placed, same, -⟩ := Attempt.of_bind_value finish
      obtain rfl := Outcome.value.inj same
      exact ⟨location, placed, rfl, rfl⟩
  apply yields_of_next (l := .overlay o) inner among ends placed located rfl
  have surveyed := surveyed_readNested (Form.reads_nested inner among) nodes
  exact surveyed.mono fun quiet => (success' (success quiet).2).1

theorem reads_overlayKind {n : Nested} (among : n.form.Among front) {kind : OverlayKind}
    (found : overlayKind? n.form = some kind) :
    n.form.Reads front (n.form.parts.toOverlay kind) .overlay := by
  obtain ⟨opener, name, rest, closer, same, -⟩ := overlayKind?_eq_some found
  rw [same] at among ⊢
  exact reads_toOverlay inner among

section Screen

variable {nested : List Nested} {screen : String} {overlays : List Overlay} {root : Option Element}
  (among : ∀ n ∈ nested, n.form.Among front)

include among

theorem surveyed_screenForms_some {e : Element}
    (read : (screenForms screen (some e) nested).outcome = .value (root, overlays)) :
    root = some e ∧ Surveyed front (nested.map Nested.form)
      ((screenForms screen (some e) nested).succeeds = true) [overlays.map .overlay] := by
  induction nested generalizing root overlays with
  | nil =>
      obtain ⟨rfl, rfl⟩ : some e = root ∧ [] = overlays := by simpa [screenForms] using read
      exact ⟨rfl, Surveyed.nil rfl⟩
  | cons n rest ih =>
      obtain ⟨here, later⟩ := List.forall_mem_cons.mp among
      rw [screenForms.eq_def] at read ⊢
      simp only at read ⊢
      split at read
      · rename_i kind found
        obtain ⟨overlay, recovered, behind, success⟩ := Attempt.of_bind_value read
        obtain ⟨⟨root', others⟩, nodes, same, success'⟩ := Attempt.of_bind_value behind
        obtain ⟨rfl, rfl⟩ : root' = root ∧ overlay.toList ++ others = overlays := by
          simpa using same
        obtain ⟨isRoot, surveyed⟩ := ih later nodes
        refine ⟨isRoot, ?_⟩
        rw [List.map_append]
        exact (surveyed.mono fun quiet => (success' (success quiet).2).1).recover []
          (reads_overlayKind inner here found) recovered fun quiet => (success quiet).1
      · obtain ⟨-, -, behind, success⟩ := Attempt.of_bind_value read
        obtain ⟨isRoot, surveyed⟩ := ih later behind
        refine ⟨isRoot, Surveyed.skip (Charted.none fun quiet => ?_)
          (surveyed.mono fun quiet => (success quiet).2)⟩
        exact absurd (success quiet).1 (by simp [Attempt.note, Attempt.succeeds])

theorem surveyed_screenForms (reads : ∀ n ∈ nested, n.Reads front)
    (read : (screenForms screen none nested).outcome = .value (root, overlays)) :
    Surveyed front (nested.map Nested.form) ((screenForms screen none nested).succeeds = true)
      [root.toList.map .element, overlays.map .overlay] := by
  induction nested generalizing root overlays with
  | nil =>
      obtain ⟨rfl, rfl⟩ : none = root ∧ [] = overlays := by simpa [screenForms] using read
      exact Surveyed.nil rfl
  | cons n rest ih =>
      obtain ⟨here, later⟩ := List.forall_mem_cons.mp among
      obtain ⟨readsHere, readsLater⟩ := List.forall_mem_cons.mp reads
      rw [screenForms.eq_def] at read ⊢
      simp only at read ⊢
      split at read
      · rename_i kind found
        obtain ⟨overlay, recovered, behind, success⟩ := Attempt.of_bind_value read
        obtain ⟨⟨root', others⟩, nodes, same, success'⟩ := Attempt.of_bind_value behind
        obtain ⟨rfl, rfl⟩ : root' = root ∧ overlay.toList ++ others = overlays := by
          simpa using same
        have surveyed := ih later readsLater nodes
        rw [List.map_append]
        exact (surveyed.mono fun quiet => (success' (success quiet).2).1).recover
          [root'.toList.map .element] (reads_overlayKind inner here found) recovered
          fun quiet => (success quiet).1
      · obtain ⟨child, recovered, behind, success⟩ := Attempt.of_bind_value read
        have first := readsHere.toElement
        cases child with
        | none =>
            have surveyed := ih later readsLater behind
            exact (surveyed.mono fun quiet => (success quiet).2).recover [] first recovered
              fun quiet => (success quiet).1
        | some c =>
            obtain ⟨rfl, surveyed⟩ := surveyed_screenForms_some inner later behind
            exact (surveyed.empty.mono fun quiet => (success quiet).2).recover [] first recovered
              fun quiet => (success quiet).1

end Screen

omit inner in
theorem nodeless_of_params {opener word name : Token} {form : Form} {back : List Token}
    (inside : opener :: word :: name :: (form.tokens ++ back) <:+: front)
    (opens : opener.kind = .openParen) (isDefine : word.isSymbol Schema.defineForm = true)
    (symbol : name.kind = .symbol) (shaped : form.Shaped) {names : List String}
    (read : params form = pure names) :
    ∀ t ∈ form.tokens, t.kind = .openParen → Token.Nodeless front t := by
  intro t member isOpen
  obtain ⟨first, items, last, rfl, -, closes, atoms⟩ := params_eq_pure shaped read
  have cases : t = first ∨ t ∈ Form.tokensAll items ∨ t = last := by
    simpa [Form.tokens] using member
  rcases cases with rfl | inItems | rfl
  · exact Token.nodeless_of_define inside opens isDefine symbol
  · rw [Form.tokensAll_eq_flatMap] at inItems
    obtain ⟨item, isItem, inItem⟩ := List.mem_flatMap.mp inItems
    obtain ⟨u, rfl, isSymbol⟩ := atoms item isItem
    obtain rfl : t = u := by simpa [Form.tokens] using inItem
    exact absurd (isOpen.symm.trans isSymbol) (by decide)
  · exact absurd (isOpen.symm.trans closes) (by decide)

variable (among : (Form.list opener items closer).Among front)

include among

theorem reads_toInclude {left : List Token}
    (atoms : ∀ t ∈ left, t ∈ (Form.list opener items closer).parts.head) :
    (Form.list opener items closer).Reads front
      ((Form.list opener items closer).parts.toInclude left) .inclusion := by
  intro i read
  rw [toInclude] at read ⊢
  simp only at read
  split at read
  · cases read
  · obtain ⟨t, ends, finish, -⟩ := Attempt.of_bind_value read
    obtain ⟨location, placed, same, -⟩ := Attempt.of_bind_value finish
    obtain rfl := Outcome.value.inj same
    obtain ⟨left', none, -⟩ := closes_of_current among.1
      (fun t member => atoms t (List.mem_of_mem_tail member)) (Attempt.expect_of_value ends)
    rw [left', current, afterHead, none] at ends
    apply yields_of_next inner among ends placed rfl rfl
    rw [none]
    exact Surveyed.nil rfl

theorem reads_toLayout (left : List Token) :
    (Form.list opener items closer).Reads front
      ((Form.list opener items closer).parts.toLayout left) .layout := by
  intro l read
  obtain ⟨⟨name, left'⟩, -, behind, success⟩ := Attempt.of_bind_value read
  obtain ⟨⟨body, rest⟩, element, behind, success'⟩ := Attempt.of_bind_value behind
  obtain ⟨t, ends, behind, -⟩ := Attempt.of_bind_value behind
  obtain ⟨location, placed, same, -⟩ := Attempt.of_bind_value behind
  obtain rfl := Outcome.value.inj same
  exact yields_of_body inner among (Form.reads_nested inner among) element ends placed rfl rfl rfl
    fun quiet => (success' (success quiet).2).1

theorem reads_toScreen {left : List Token}
    (atoms : ∀ t ∈ left, t ∈ (Form.list opener items closer).parts.head) :
    (Form.list opener items closer).Reads front
      ((Form.list opener items closer).parts.toScreen left) .screen := by
  intro s read
  obtain ⟨⟨id, left'⟩, named, behind, success⟩ := Attempt.of_bind_value read
  obtain ⟨⟨options, left''⟩, clauses, behind, success'⟩ := Attempt.of_bind_value behind
  obtain ⟨⟨root, overlays⟩, forms, behind, success''⟩ := Attempt.of_bind_value behind
  obtain ⟨t, ends, finish, -⟩ := Attempt.of_bind_value behind
  obtain ⟨u, rfl, -⟩ :=
    symbol_eq_pure among.1 (Attempt.eq_pure_of_value (noted_symbol _ _) named)
  obtain rfl := eq_nil_of_closing among (fun t member =>
    atoms t (List.mem_cons_of_mem u (mem_of_title (mem_of_readClauses clauses t member)))) ends
  have surveyed := surveyed_screenForms inner
    (fun n member => among.item (nested_shaped among.1 member).1) (Form.reads_nested inner among)
    forms
  cases root with
  | none => cases finish
  | some root =>
      obtain ⟨location, placed, same, -⟩ := Attempt.of_bind_value finish
      obtain rfl := Outcome.value.inj same
      apply yields_of_next inner among ends placed rfl rfl
      exact surveyed.mono fun quiet => (success'' (success' (success quiet).2).2).1

theorem reads_toComponent {word : Token} {left : List Token}
    (led : Led opener items closer word left) (isDefine : word.value = Schema.defineForm) :
    (Form.list opener items closer).Reads front
      ((Form.list opener items closer).parts.toComponent left) .component := by
  intro c read
  obtain ⟨named, n, m, child, t, location, nested, node, body, ends, placed, located, success⟩ :=
    component_of_value read
  obtain ⟨name, rfl, symbol, -⟩ := symbol_eq_pure among.1 named
  have closes := closes_of_next among.1
    (Attempt.expect_eq_pure_iff.mp (Attempt.expect_of_value ends)).1
  have inside := (among.closed inner closes.closer_kind).2
  have isSymbol : word.isSymbol Schema.defineForm = true := by
    simp [Token.isSymbol, led.symbol, isDefine]
  have reads := Form.reads_nested inner among
  have shaped := (nested_shaped among.1 (n := n) (by simp [nested])).2.1
  have row : (Form.list opener items closer).tokens =
      opener :: word :: name :: (n.form.tokens ++ (m.form.tokens ++ [closer])) := by
    have whole := closes.items_eq
    rw [led.head, nested] at whole
    rw [whole]
    simp [Form.tokens, Form.tokensAll]
  apply yields_of_next (l := .component c) inner among ends placed located rfl
  rw [nested] at reads ⊢
  have yields := (reads m (by simp)).toElement child node
  simp only [body] at yields
  apply Surveyed.skip
  · refine Charted.none fun quiet => ?_
    obtain ⟨names, parameters⟩ := Attempt.succeeds_iff.mp (success quiet).1
    exact nodeless_of_params (row ▸ inside) among.1.1 isSymbol symbol shaped parameters
  · exact Surveyed.single (yields.mono fun quiet => (success quiet).2)

theorem nodeless_of_facts {word : Token} {left : List Token}
    (led : Led opener items closer word left) (isMeta : word.value = "meta") {facts : Table Scalar}
    (read : (Form.list opener items closer).parts.toFacts left = pure facts) :
    ∀ t ∈ (Form.list opener items closer).tokens, t.kind = .openParen →
      Token.Nodeless front t := by
  obtain ⟨⟨facts', left'⟩, clauses, behind⟩ := Attempt.bind_eq_pure_iff.mp read
  obtain ⟨t, ends, -⟩ := Attempt.bind_eq_pure_iff.mp behind
  obtain ⟨-, none, closes⟩ := closes_of_current among.1
    (fun t member => led.mem (mem_of_readClauses (congrArg _ clauses) t member)) ends
  have inside := (among.closed inner closes.closer_kind).2
  have row : (Form.list opener items closer).tokens = opener :: word :: (left ++ [closer]) := by
    have whole := closes.items_eq
    rw [led.head, none] at whole
    rw [whole]
    simp [Form.tokens, Form.tokensAll, Form.tokensAll_atoms]
  rw [row] at inside ⊢
  intro t member isOpen
  have cases : t = opener ∨ t = word ∨ t ∈ left ∨ t = closer := by simpa using member
  rcases cases with rfl | rfl | inHead | rfl
  · exact Token.nodeless_of_meta inside (by simp [Token.isSymbol, led.symbol, isMeta])
  · exact absurd (isOpen.symm.trans led.symbol) (by decide)
  · exact absurd isOpen (head_kind among.1 (led.mem inHead)).1
  · exact absurd (isOpen.symm.trans closes.closer_kind) (by decide)

end Parts

/-- The node that an entry adds to a document. -/
def Entry.landmark? : Entry → Option Landmark
  | inclusion i => some (.inclusion i)
  | facts _ => none
  | component c => some (.component c)
  | layout l => some (.layout l)
  | screen s => some (.screen s)

namespace Form

variable {front : List Token} {form : Form} (inner : ∀ t ∈ front, t.kind ≠ .eof)
  (among : form.Among front)

include inner among

open Parts

omit inner among in
private theorem Reads.entry {α : Type} {x : Attempt α} {f : α → Entry} {node : α → Landmark}
    (reads : form.Reads front x node) (same : ∀ a, (f a).landmark? = some (node a)) {entry : Entry}
    {l : Landmark} (read : (do return some (f (← x)) : Attempt (Option Entry)).outcome =
      .value (some entry)) (isNode : entry.landmark? = some l) :
    form.Yields front ((do return some (f (← x)) : Attempt (Option Entry)).succeeds = true) l := by
  obtain ⟨a, value, isEntry, success⟩ := Attempt.of_bind_value read
  obtain rfl := Option.some.inj (Outcome.value.inj isEntry)
  obtain rfl := Option.some.inj ((same a).symm.trans isNode)
  exact (reads a value).mono fun quiet => (success quiet).1

theorem yields_entry? {entry : Entry} {l : Landmark}
    (read : form.entry?.outcome = .value (some entry)) (isNode : entry.landmark? = some l) :
    form.Yields front (form.entry?.succeeds = true) l := by
  cases form with
  | atom t => cases read
  | list opener items closer =>
      obtain ⟨⟨word, left⟩, named, behind, success⟩ := Attempt.of_bind_value read
      obtain ⟨name, head, kind, value⟩ :=
        symbol_eq_pure among.1 (Attempt.eq_pure_of_value (noted_symbol _ _) named)
      have led : Led opener items closer name left := ⟨among.1, head, kind⟩
      have atoms : ∀ t ∈ left, t ∈ (list opener items closer).parts.head :=
        fun t member => led.mem member
      refine Yields.mono ?_ fun quiet => (success quiet).2
      simp only at behind ⊢
      split at behind
      · exact (reads_toInclude inner among atoms).entry (fun _ => rfl) behind isNode
      · obtain ⟨facts, -, same, -⟩ := Attempt.of_bind_value behind
        obtain rfl := Option.some.inj (Outcome.value.inj same)
        cases isNode
      · exact (reads_toComponent inner among led value).entry (fun _ => rfl) behind isNode
      · exact (reads_toLayout inner among left).entry (fun _ => rfl) behind isNode
      · exact (reads_toScreen inner among atoms).entry (fun _ => rfl) behind isNode
      · obtain ⟨-, -, same, -⟩ := Attempt.of_bind_value behind
        cases same

/-- A top-level form that adds no node holds facts, unless something is wrong with it. -/
theorem charted_entry? (silent : ∀ entry, form.entry?.outcome = .value (some entry) →
    entry.landmark? = none) : Charted front form.tokens (form.entry?.succeeds = true) [] := by
  refine Charted.none fun quiet => ?_
  obtain ⟨entry, read⟩ := Attempt.succeeds_iff.mp quiet
  have only (e : Entry) (same : some e = entry) : e.landmark? = none :=
    silent e (by rw [read, same]; rfl)
  cases form with
  | atom t => exact absurd read (Attempt.fail_ne_pure _ _ _)
  | list opener items closer =>
      obtain ⟨⟨word, left⟩, named, behind⟩ := Attempt.bind_eq_pure_iff.mp read
      obtain ⟨name, head, kind, value⟩ := symbol_eq_pure among.1 named
      have led : Led opener items closer name left := ⟨among.1, head, kind⟩
      simp only at behind
      split at behind
      · obtain ⟨i, -, same⟩ := Attempt.bind_eq_pure_iff.mp behind
        cases only _ (Attempt.pure_inj.mp same)
      · obtain ⟨facts, stated, -⟩ := Attempt.bind_eq_pure_iff.mp behind
        exact nodeless_of_facts inner among led value stated
      · obtain ⟨c, -, same⟩ := Attempt.bind_eq_pure_iff.mp behind
        cases only _ (Attempt.pure_inj.mp same)
      · obtain ⟨l, -, same⟩ := Attempt.bind_eq_pure_iff.mp behind
        cases only _ (Attempt.pure_inj.mp same)
      · obtain ⟨s, -, same⟩ := Attempt.bind_eq_pure_iff.mp behind
        cases only _ (Attempt.pure_inj.mp same)
      · exact absurd behind (Attempt.note_bind_ne_pure _ _ _ _)

end Form

namespace Document

variable {front : List Token} {forms : List Form} (inner : ∀ t ∈ front, t.kind ≠ .eof)

include inner

/-- The forms directly inside a root form stand for the nodes of the document. -/
theorem surveyed_entries (among : ∀ form ∈ forms, form.Among front) (location : Location) :
    Surveyed front forms (∀ form ∈ forms, form.entry?.succeeds = true)
      (ofEntries (forms.flatMap (·.added.toList)) location).lists := by
  induction forms with
  | nil => exact Surveyed.nil rfl
  | cons form rest ih =>
      obtain ⟨here, later⟩ := List.forall_mem_cons.mp among
      have surveyed := (ih later).mono
        fun (quiet : ∀ other ∈ form :: rest, other.entry?.succeeds = true) =>
          (List.forall_mem_cons.mp quiet).2
      have first : (∀ other ∈ form :: rest, other.entry?.succeeds = true) →
          form.entry?.succeeds = true := fun quiet => quiet form List.mem_cons_self
      rw [List.flatMap_cons]
      cases read : form.added with
      | none =>
          refine surveyed.skip ((Form.charted_entry? inner here fun entry value => ?_).mono first)
          rw [Form.added, Attempt.value?_eq_some.mpr value] at read
          cases read
      | some entry =>
          have value := Attempt.value?_eq_some.mp (Option.join_eq_some_iff.mp read)
          have yields {l : Landmark} (isNode : entry.landmark? = some l) :=
            (Form.yields_entry? inner here value isNode).mono first
          cases entry with
          | facts stated =>
              refine surveyed.skip
                ((Form.charted_entry? inner here fun entry value' => ?_).mono first)
              rw [value] at value'
              obtain rfl := Option.some.inj (Outcome.value.inj value')
              rfl
          | inclusion i => exact surveyed.cons [] (yields rfl)
          | component c => exact surveyed.cons [_] (yields rfl)
          | layout l => exact surveyed.cons [_, _] (yields rfl)
          | screen s => exact surveyed.cons [_, _, _] (yields rfl)

end Document
end Wireframe
