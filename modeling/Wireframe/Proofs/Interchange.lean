import Mathlib.Data.List.Forall2
import Wireframe.Reading.Document

/-!
# Forms that stand for each other

Two forms that are read as the same, whatever they are read as, may stand for each other in every
list, and so may lists that are still open.  Tokens read into open lists that may stand for each
other give forms that do.
-/

namespace Wireframe

open List (Forall₂)

namespace Form

/-- Whether two forms are read as the same: as a node, a parameter list, an overlay of a screen, a
form inside the root form and the root form. -/
structure SameReadings (f g : Form) : Prop where
  first : f.first = g.first
  child : f.child = g.child
  params : Parts.params f = Parts.params g
  overlayKind : Parts.overlayKind? f = Parts.overlayKind? g
  overlay : ∀ kind, Parts.overlayKind? f = some kind →
    f.parts.toOverlay kind = g.parts.toOverlay kind
  entry : f.entry? = g.entry?
  document : ∀ behind, Document.ofForm behind f = Document.ofForm behind g

theorem SameReadings.refl (f : Form) : f.SameReadings f :=
  ⟨rfl, rfl, rfl, rfl, fun _ _ => rfl, rfl, fun _ => rfl⟩

theorem SameReadings.trans {f g h : Form} (one : f.SameReadings g) (two : g.SameReadings h) :
    f.SameReadings h where
  first := one.first.trans two.first
  child := one.child.trans two.child
  params := one.params.trans two.params
  overlayKind := one.overlayKind.trans two.overlayKind
  overlay := fun kind same =>
    (one.overlay kind same).trans (two.overlay kind (one.overlayKind ▸ same))
  entry := one.entry.trans two.entry
  document := fun behind => (one.document behind).trans (two.document behind)

/-- Two forms may stand for each other if they are one token, or lists that are read as the same. -/
inductive Interchange : Form → Form → Prop where
  | atom (t : Token) : Interchange (.atom t) (.atom t)
  | list {opener opener' closer closer' : Token} {items items' : List Form}
      (same : (Form.list opener items closer).SameReadings (.list opener' items' closer')) :
      Interchange (.list opener items closer) (.list opener' items' closer')

theorem Interchange.refl (f : Form) : f.Interchange f := by
  cases f with
  | atom t => exact .atom t
  | list opener items closer => exact .list (.refl _)

theorem Interchange.sameReadings {f g : Form} (same : f.Interchange g) : f.SameReadings g := by
  cases same with
  | atom t => exact .refl _
  | list same => exact same

end Form

/-- Two nested forms may stand for each other if they are read as the same. -/
structure Nested.Interchange (n m : Nested) : Prop where
  form : n.form.SameReadings m.form
  child : n.child = m.child

/-- Two items may stand for each other if they are one token or such nested forms. -/
inductive Item.Interchange : Item → Item → Prop where
  | atom (t : Token) : Item.Interchange (.atom t) (.atom t)
  | nested {n m : Nested} (same : n.Interchange m) : Item.Interchange (.nested n) (.nested m)

/-- The parts of two lists may stand for each other if they differ in their nested forms only, one
by one. -/
structure Parts.Interchange (p q : Parts) : Prop where
  opener : p.opener = q.opener
  head : p.head = q.head
  nested : Forall₂ Nested.Interchange p.nested q.nested
  next : p.next = q.next

theorem Nested.Interchange.opener {n m : Nested} (same : n.Interchange m) : n.opener = m.opener :=
  same.form.first

theorem Item.Interchange.first {i j : Item} (same : i.Interchange j) : i.first = j.first := by
  cases same with
  | atom t => rfl
  | nested same => exact same.opener

theorem Form.Interchange.item {f g : Form} (same : f.Interchange g) :
    (Item.ofForm f f.child).Interchange (Item.ofForm g g.child) := by
  cases same with
  | atom t => exact .atom t
  | list same => exact .nested ⟨same, same.child⟩

theorem Form.interchange_readItems {items items' : List Form}
    (same : Forall₂ Form.Interchange items items') :
    Forall₂ Item.Interchange (readItems items) (readItems items') := by
  induction same with
  | nil => exact .nil
  | cons head tail ih => exact .cons head.item ih

private theorem head?_map_eq {α : Type} {R : α → α → Prop} {as bs : List α} {f : α → Token}
    (same : Forall₂ R as bs) (first : ∀ a b, R a b → f a = f b) :
    as.head?.map f = bs.head?.map f := by
  cases same with
  | nil => rfl
  | cons head tail => exact congrArg some (first _ _ head)

namespace Parts

theorem interchange_splitAtoms {is js : List Item} (same : Forall₂ Item.Interchange is js) :
    (splitAtoms is).1 = (splitAtoms js).1 ∧
      Forall₂ Item.Interchange (splitAtoms is).2 (splitAtoms js).2 := by
  induction same with
  | nil => exact ⟨rfl, .nil⟩
  | cons head tail ih =>
      cases head with
      | atom t => exact ⟨congrArg (t :: ·) ih.1, ih.2⟩
      | nested same => exact ⟨rfl, .cons (.nested same) tail⟩

theorem interchange_splitNested {is js : List Item} (same : Forall₂ Item.Interchange is js) :
    Forall₂ Nested.Interchange (splitNested is).1 (splitNested js).1 ∧
      Forall₂ Item.Interchange (splitNested is).2 (splitNested js).2 := by
  induction same with
  | nil => exact ⟨.nil, .nil⟩
  | cons head tail ih =>
      cases head with
      | atom t => exact ⟨.nil, .cons (.atom t) tail⟩
      | nested same => exact ⟨.cons same ih.1, ih.2⟩

theorem interchange_ofItems (opener : Token) {is js : List Item}
    (same : Forall₂ Item.Interchange is js) (closer : Token) :
    (ofItems opener is closer).Interchange (ofItems opener js closer) := by
  obtain ⟨atoms, behind⟩ := interchange_splitAtoms same
  obtain ⟨nested, behind⟩ := interchange_splitNested behind
  refine ⟨rfl, atoms, nested, ?_⟩
  exact congrArg (·.getD closer) (head?_map_eq behind fun _ _ => Item.Interchange.first)

theorem readNested_congr {ns ms : List Nested} (same : Forall₂ Nested.Interchange ns ms) :
    readNested ns = readNested ms := by
  induction same with
  | nil => rfl
  | cons head tail ih => rw [readNested, readNested, head.child, ih]

theorem children_congr (schema : ElementSchema) {ns ms : List Nested}
    (same : Forall₂ Nested.Interchange ns ms) : children schema ns = children schema ms := by
  have nodes := readNested_congr same
  cases same with
  | nil => rfl
  | cons head tail => rw [children, children, head.opener, nodes]

theorem screenForms_congr (screen : String) (root : Option Element) {ns ms : List Nested}
    (same : Forall₂ Nested.Interchange ns ms) :
    screenForms screen root ns = screenForms screen root ms := by
  induction same generalizing root with
  | nil => rfl
  | @cons n m ns ms head tail ih =>
      rw [screenForms.eq_def, screenForms.eq_def screen root (m :: ms)]
      simp only [← head.form.overlayKind]
      split
      · rename_i kind isOverlay
        rw [head.form.overlay kind isOverlay, ih]
      · cases root with
        | none => simp only [head.child, ih]
        | some root => simp only [head.opener, ih]

namespace Interchange

variable {p q : Parts} (same : p.Interchange q)
include same

theorem afterHead : p.afterHead = q.afterHead := by
  rw [Parts.afterHead, Parts.afterHead, same.next,
    head?_map_eq same.nested fun _ _ => Nested.Interchange.opener]

theorem current (left : List Token) : p.current left = q.current left :=
  congrArg left.head?.getD same.afterHead

theorem closing (left : List Token) : p.closing left = q.closing left :=
  congrArg left.head?.getD same.next

theorem symbol (left : List Token) : p.symbol left = q.symbol left := by
  rw [Parts.symbol, Parts.symbol, same.current]

theorem upcoming (left : List Token) :
    Forall₂ Nested.Interchange (p.upcoming left) (q.upcoming left) := by
  cases left with
  | nil => exact same.nested
  | cons t left => exact .nil

/-- What is read behind the body of a list does not depend on which of the forms stands there. -/
theorem element_bind {α : Type} (left : List Token) {k k' : Element × List Nested → Attempt α}
    (later : ∀ e ns ms, Forall₂ Nested.Interchange ns ms → k (e, ns) = k' (e, ms)) :
    p.element left >>= k = q.element left >>= k' := by
  have forms := same.upcoming left
  rw [Parts.element, Parts.element]
  generalize p.upcoming left = ns, q.upcoming left = ms at forms
  cases forms with
  | nil => rw [same.closing]; rfl
  | @cons n m ns ms head tail =>
      simp only [bind_assoc, pure_bind, head.child, later _ ns ms tail]

theorem closeBody (form : String) {ns ms : List Nested} (rest : Forall₂ Nested.Interchange ns ms) :
    p.closeBody form ns = q.closeBody form ms := by
  cases rest with
  | nil => rw [Parts.closeBody, Parts.closeBody, same.next]
  | cons head tail => rw [Parts.closeBody, Parts.closeBody, head.opener]

theorem toElement (name : String) (left : List Token) :
    p.toElement name left = q.toElement name left := by
  have nodes (left : List Token) := children_congr (Schema.element name) (same.upcoming left)
  simp only [Parts.toElement, same.afterHead, same.opener, same.closing, nodes]

theorem toRepetition (left : List Token) : p.toRepetition left = q.toRepetition left := by
  simp only [Parts.toRepetition, same.afterHead, same.opener]
  refine bind_congr fun found => same.element_bind found.2 fun e ns ms rest => ?_
  simp only [same.closeBody Schema.repeatForm rest]

theorem toChild : p.toChild = q.toChild := by
  simp only [Parts.toChild, same.head, same.symbol, same.current, same.opener, same.toElement,
    same.toRepetition]

theorem toOverlay (kind : OverlayKind) : p.toOverlay kind = q.toOverlay kind := by
  have nodes (left : List Token) := readNested_congr (same.upcoming left)
  simp only [Parts.toOverlay, same.afterHead, same.head, same.opener, same.closing, nodes]

theorem toInclude (left : List Token) : p.toInclude left = q.toInclude left := by
  simp only [Parts.toInclude, same.current, same.opener]

theorem toFacts (left : List Token) : p.toFacts left = q.toFacts left := by
  simp only [Parts.toFacts, same.afterHead, same.current]

theorem toLayout (left : List Token) : p.toLayout left = q.toLayout left := by
  simp only [Parts.toLayout, same.symbol, same.opener]
  refine bind_congr fun found => same.element_bind found.2 fun e ns ms rest => ?_
  simp only [same.closeBody "layout" rest]

theorem toComponent (left : List Token) : p.toComponent left = q.toComponent left := by
  simp only [Parts.toComponent, same.symbol, same.opener]
  refine bind_congr fun found => ?_
  have forms := same.upcoming found.2
  simp only [same.closing]
  generalize p.upcoming found.2 = ns, q.upcoming found.2 = ms at forms
  cases forms with
  | nil => rfl
  | @cons n m ns ms head tail =>
      have behind : Parts.Interchange { p with nested := ns } { q with nested := ms } :=
        ⟨same.opener, same.head, tail, same.next⟩
      simp only [head.form.params]
      refine bind_congr fun params => behind.element_bind [] fun e ns ms rest => ?_
      simp only [same.closeBody Schema.defineForm rest]

theorem toScreen (left : List Token) : p.toScreen left = q.toScreen left := by
  have forms (screen : String) (left : List Token) :=
    screenForms_congr screen none (same.upcoming left)
  simp only [Parts.toScreen, same.symbol, same.afterHead, same.opener, same.closing, forms]

theorem toEntry? : p.toEntry? = q.toEntry? := by
  simp only [Parts.toEntry?, same.head, same.symbol, same.opener, same.toInclude, same.toFacts,
    same.toComponent, same.toLayout, same.toScreen]

end Interchange

theorem names_congr (closer : Token) {is js : List Item} (same : Forall₂ Item.Interchange is js) :
    names closer is = names closer js := by
  induction same with
  | nil => rfl
  | cons head tail ih => rw [names, names, head.first, ih]

end Parts

namespace Document

theorem entries_congr {forms forms' : List Form} (same : Forall₂ Form.Interchange forms forms') :
    entries forms = entries forms' := by
  induction same with
  | nil => rfl
  | cons head tail ih => rw [entries, entries, head.sameReadings.entry, ih]

/-- What is read behind the name of a root form depends on the forms behind the name only. -/
theorem rootItems_bind {α : Type} (closer : Token) {items items' : List Form}
    {k k' : List Form → Attempt α}
    (first : items.head?.map Form.first = items'.head?.map Form.first)
    (later : k items.tail = k' items'.tail) :
    rootItems closer items >>= k = rootItems closer items' >>= k' := by
  simp only [rootItems, bind_assoc, first]
  refine bind_congr fun name => ?_
  split
  · rfl
  · simpa using later

theorem ofForm_list_congr (behind : List Token) (opener : Token) {items items' : List Form}
    (same : Forall₂ Form.Interchange items items') (closer : Token) :
    ofForm behind (.list opener items closer) = ofForm behind (.list opener items' closer) := by
  cases same with
  | nil => rfl
  | cons head tail =>
      refine rootItems_bind closer (congrArg some head.sameReadings.first) ?_
      rw [List.tail_cons, List.tail_cons, entries_congr tail]

end Document

namespace Form

/-- Lists of forms that may stand for each other may stand for each other. -/
theorem SameReadings.list (opener : Token) {items items' : List Form}
    (same : Forall₂ Form.Interchange items items') (closer : Token) :
    (Form.list opener items closer).SameReadings (.list opener items' closer) := by
  have nodes := interchange_readItems same
  have parts := Parts.interchange_ofItems opener nodes closer
  have overlayKind : Parts.overlayKind? (.list opener items closer) =
      Parts.overlayKind? (.list opener items' closer) := by
    cases same with
    | nil => rfl
    | cons head tail =>
        cases head with
        | atom t => rfl
        | list same => rfl
  refine ⟨rfl, parts.toChild, Parts.names_congr closer nodes, overlayKind,
    fun kind _ => parts.toOverlay kind, parts.toEntry?, fun behind => ?_⟩
  exact Document.ofForm_list_congr behind opener same closer

end Form

namespace OpenList

/-- Two open lists may stand for each other if they are read as the same with whatever forms that
may stand for each other are added to them. -/
def Interchange (l m : OpenList) : Prop :=
  ∀ more more', Forall₂ Form.Interchange more more' → ∀ closer,
    (Form.list l.opener (l.items.reverse ++ more) closer).SameReadings
      (.list m.opener (m.items.reverse ++ more') closer)

variable {l m : OpenList}

theorem Interchange.refl (l : OpenList) : l.Interchange l := by
  intro more more' same closer
  have kept : Forall₂ Form.Interchange l.items.reverse l.items.reverse :=
    List.forall₂_same.mpr fun f _ => .refl f
  exact .list l.opener (List.rel_append kept same) closer

theorem Interchange.add (same : l.Interchange m) {f g : Form} (item : f.Interchange g) :
    (l.add f).Interchange (m.add g) := by
  intro more more' later closer
  have added := same (f :: more) (g :: more') (.cons item later) closer
  simpa [OpenList.add] using added

theorem Interchange.close (same : l.Interchange m) (t : Token) :
    (l.close t).Interchange (m.close t) := by
  have closed := same [] [] .nil t
  rw [List.append_nil, List.append_nil] at closed
  exact .list closed

theorem Interchange.closeAll (eof : Token) {outer outer' : List OpenList}
    (around : Forall₂ Interchange outer outer') (same : l.Interchange m) :
    (OpenList.closeAll eof l outer).Interchange (OpenList.closeAll eof m outer') := by
  induction around generalizing l m with
  | nil => exact same.close eof
  | cons head tail ih => exact ih (head.add (same.close eof))

/-- The same tokens read into open lists that may stand for each other give forms that may. -/
theorem Interchange.read (eof : Token) (tokens : List Token) {outer outer' : List OpenList}
    (around : Forall₂ Interchange outer outer') (same : l.Interchange m) :
    (OpenList.read eof l outer tokens).1.Interchange (OpenList.read eof m outer' tokens).1 ∧
      (OpenList.read eof l outer tokens).2 = (OpenList.read eof m outer' tokens).2 := by
  induction tokens generalizing l m outer outer' with
  | nil => exact ⟨same.closeAll eof around, rfl⟩
  | cons t rest ih =>
      rw [OpenList.read.eq_def, OpenList.read.eq_def eof m outer' (t :: rest)]
      simp only
      cases t.kind with
      | openParen => exact ih (.cons same around) (.refl _)
      | closeParen =>
          cases around with
          | nil => exact ⟨same.close t, rfl⟩
          | cons parent around => exact ih around (parent.add (same.close t))
      | _ => exact ih around (same.add (.atom t))

end OpenList
end Wireframe
