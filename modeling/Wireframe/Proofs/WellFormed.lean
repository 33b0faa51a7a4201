import Wireframe.Proofs.Nodewise

/-!
# Well-formed documents

What reading puts into a document is well-formed, whatever faults are noted on the way.  Elements
have the names, content and children that their schemas allow, and go only where something can be; a
repetition that stands for an element has a container of its own; overlays have ids, and screens the
viewports that there are.  That bodies and roots are elements is said by their types.
-/

namespace Wireframe

/-- Whether a value is a truth value or a number, to which nothing can go. -/
def PropValue.isFlagOrNumber : PropValue → Bool
  | scalar (.flag _) | scalar (.number _) => true
  | _ => false

/-- Whether no property that is known to be for navigation holds a truth value or a number. -/
def Table.Navigates (known : Table PropDef) (props : Table PropValue) : Prop :=
  ∀ key definition value, known.find? key = some definition → definition.type = .navigation →
    props.find? key = some value → value.isFlagOrNumber = false

/-- Whether an element is the container that reading puts around a repetition. -/
structure Element.IsContainer (e : Element) : Prop where
  type : e.type = Schema.repeatContainer
  isComponent : e.isComponent = false
  content : e.content = none
  props : e.props = Table.empty
  only : ∃ r, e.children = [.repetition r]

/-- Whether an element may stand in a document. -/
structure Element.WellFormed (e : Element) : Prop where
  notRepeat : e.type ≠ Schema.repeatForm
  notOverlay : e.type ∉ Schema.overlayForms
  notTopLevel : e.type ∉ Schema.topLevelForms
  /-- A registered element that takes no children has none. -/
  childless : Schema.isBuiltin e.type = true → (Schema.element e.type).takesChildren = false →
    e.children = []
  /-- A registered element that takes no content has none. -/
  contentless : Schema.isBuiltin e.type = true → (Schema.element e.type).takesContent = false →
    e.content = none
  /-- Exactly the names that are not registered are those of components, unless the element is a
  container put around a repetition. -/
  component : e.isComponent = !Schema.isBuiltin e.type ∨ e.IsContainer
  navigates : (Schema.element e.type).props.Navigates e.props

/-- Whether an overlay may stand in a document. -/
structure Overlay.WellFormed (o : Overlay) : Prop where
  named : o.id ≠ ""
  kind : o.kind.name ∈ Schema.overlayForms
  /-- The id is not a property. -/
  apart : o.props.find? "id" = none

/-- Whether a node may stand in a document. -/
def Landmark.WellFormed : Landmark → Prop
  | element e => e.WellFormed
  | overlay o => o.WellFormed
  | screen s => ∀ viewport, s.viewport = some viewport → viewport ∈ Schema.viewports
  | _ => True

/-- Whether nodes may stand in a document with all nodes inside them. -/
def Landmark.AllWellFormed (nodes : List Landmark) : Prop :=
  ∀ l ∈ nodes, l.WellFormed

namespace PropValue

theorem ensures_targetOfToken (t : Token) :
    (targetOfToken t).Ensures fun value => value.isFlagOrNumber = false := by
  unfold targetOfToken
  split
  · exact .pure rfl
  · exact .pure rfl
  · refine .pure ?_
    unfold targetOfKeyword
    split <;> rfl
  · refine .pure ?_
    unfold targetOfText
    split
    · rfl
    · split <;> rfl
  · exact .pure rfl
  · exact .fail

theorem ensures_read (definition : Option PropDef) (next : Token) :
    (read definition next).Ensures fun found =>
      ∀ d ∈ definition, d.type = .navigation → found.1.isFlagOrNumber = false := by
  unfold read
  split
  · refine (ensures_targetOfToken next).bind fun value target => .pure ?_
    exact fun _ _ _ => target
  · rename_i other
    intro found _ d isDefinition navigates
    obtain ⟨type, default⟩ := d
    obtain rfl : type = .navigation := navigates
    exact absurd isDefinition (other default)

end PropValue

theorem Table.Navigates.empty {known : Table PropDef} : known.Navigates Table.empty := by
  simp [Table.Navigates]

theorem ensures_readProperty (known : Table PropDef) {props : Table PropValue}
    (navigates : known.Navigates props) (key next : Token) :
    (readProperty known props key next).Ensures fun found =>
      ∀ r ∈ found, known.Navigates r.1 := by
  refine (PropValue.ensures_read _ next).bind fun ⟨value, used⟩ target => .pure ?_
  intro r same name definition other known isNavigation held
  obtain rfl := Option.some.inj same
  rw [Table.find?_insert] at held
  split at held
  · rename_i here
    obtain rfl := Option.some.inj held
    exact target definition (here ▸ known) isNavigation
  · exact navigates name definition other known isNavigation held

theorem Element.wellFormed_wrapper (r : Repetition) :
    (Child.repetition r).toElement.WellFormed := by
  have unknown : Schema.isBuiltin Schema.repeatContainer = false := by decide
  have container : (Child.repetition r).toElement.IsContainer :=
    ⟨rfl, rfl, rfl, rfl, r, rfl⟩
  refine ⟨?_, ?_, ?_, ?_, ?_, .inr container, ?_⟩
  · exact (by decide : Schema.repeatContainer ≠ Schema.repeatForm)
  · exact (by decide : Schema.repeatContainer ∉ Schema.overlayForms)
  · exact (by decide : Schema.repeatContainer ∉ Schema.topLevelForms)
  · exact fun builtin => absurd (unknown.symm.trans builtin) (by decide)
  · exact fun _ _ => rfl
  · exact .empty

namespace Parts

variable {p : Parts}

theorem content_eq_none {schema : ElementSchema} (takesNone : schema.takesContent = false)
    (left : List Token) : (content schema left).1 = none := by
  cases left with
  | nil => rfl
  | cons t rest => simp [content, takesNone]

theorem ensures_childless (schema : ElementSchema) (nested : List Nested) :
    (children schema nested).Ensures fun cs => schema.takesChildren = false → cs = [] := by
  cases nested with
  | nil => exact .pure (by simp)
  | cons n rest =>
      rw [children]
      split
      · rename_i takes
        exact fun cs _ none => absurd (takes.symm.trans none) (by decide)
      · exact .after fun _ => .after fun _ => .pure (by simp)

/-- An element is well-formed if its name may be that of an element. -/
theorem wellFormed_toElement {name : String} (notRepeat : name ≠ Schema.repeatForm)
    (notOverlay : name ∉ Schema.overlayForms) (notTopLevel : name ∉ Schema.topLevelForms)
    (left : List Token) : (p.toElement name left).Ensures Element.WellFormed := by
  refine (ensures_readClauses (S := fun _ => True) (I := (Schema.element name).props.Navigates)
    (fun props key next _ _ navigates => ensures_readProperty _ navigates key next)
    (by simp) trivial .empty).bind fun ⟨props, left'⟩ ⟨navigates, _⟩ => ?_
  refine (ensures_childless _ (p.upcoming left')).bind fun children childless => ?_
  refine .after fun closer => .after fun location => .pure ?_
  refine ⟨notRepeat, notOverlay, notTopLevel, fun _ => childless, ?_, .inl ?_, navigates⟩
  · exact fun _ takesNone => content_eq_none takesNone left
  · exact congrArg Bool.not (Schema.isBuiltin_element name)

theorem fallbackId_ne_empty (kind : OverlayKind) (p : Position) : fallbackId kind p ≠ "" := by
  intro same
  have letters := congrArg String.toList same
  have dash : toString "-" ≠ "" := by decide
  cases kind <;> simp [fallbackId, OverlayKind.name, dash] at letters

theorem ensures_overlayOption {s : OverlayOptions} (apart : s.props.find? "id" = none)
    (key next : Token) :
    (overlayOption s key next).Ensures fun found =>
      ∀ r ∈ found, r.1.props.find? "id" = none := by
  unfold overlayOption
  split
  · split
    · exact .pure (by simpa using apart)
    · exact .after fun _ => .pure (by simpa using apart)
  · rename_i other
    refine .after fun ⟨value, used⟩ => .pure ?_
    simp [Table.find?_insert, Ne.symm other, apart]

theorem wellFormed_toOverlay (kind : OverlayKind) :
    (p.toOverlay kind).Ensures Overlay.WellFormed := by
  have isKind : kind.name ∈ Schema.overlayForms := by
    cases kind <;> decide
  refine (ensures_readClauses (S := fun _ => True) (I := fun s => s.props.find? "id" = none)
    (fun _ key next _ _ apart => ensures_overlayOption apart key next) (by simp) trivial rfl).bind
      fun ⟨options, left⟩ ⟨apart, _⟩ => .after fun children => .after fun closer => ?_
  simp only
  split
  · exact .after fun _ => .after fun location => .pure
      (Overlay.WellFormed.mk (fallbackId_ne_empty kind p.opener.start) isKind apart)
  · rename_i named
    exact .after fun location => .pure (Overlay.WellFormed.mk named isKind apart)

theorem ensures_screenOption {s : ScreenOptions}
    (known : ∀ viewport, s.viewport = some viewport → viewport ∈ Schema.viewports)
    (key next : Token) :
    (screenOption s key next).Ensures fun found =>
      ∀ r ∈ found, ∀ viewport, r.1.viewport = some viewport → viewport ∈ Schema.viewports := by
  unfold screenOption
  split
  · rename_i isViewport
    refine .pure fun r same viewport held => ?_
    obtain rfl := Option.some.inj same
    obtain rfl := Option.some.inj held
    exact List.contains_iff_mem.mp isViewport
  · split
    · exact .after fun _ => .pure (by simpa using known)
    · exact .after fun _ => .pure (by simpa using known)

theorem wellFormed_toScreen (left : List Token) :
    (p.toScreen left).Ensures fun s => (Landmark.screen s).WellFormed := by
  refine .after fun ⟨id, left'⟩ => ?_
  refine (ensures_readClauses (S := fun _ => True)
    (I := fun s => ∀ viewport, s.viewport = some viewport → viewport ∈ Schema.viewports)
    (fun _ key next _ _ known => ensures_screenOption known key next)
    (by simp) trivial (by simp)).bind fun ⟨options, left''⟩ ⟨known, _⟩ => ?_
  refine .after fun ⟨root, overlays⟩ => .after fun closer => ?_
  cases root with
  | none => exact .fail
  | some root => exact .after fun location => .pure known

end Parts

theorem nodewise_wellFormed : Nodewise (fun _ => True) Landmark.WellFormed (fun _ => True) where
  element := fun _ _ notRepeat notOverlay notTopLevel =>
    Parts.wellFormed_toElement notRepeat notOverlay notTopLevel _
  repetition := fun _ _ _ _ => trivial
  wrapper := Element.wellFormed_wrapper
  overlay := fun kind _ => Parts.wellFormed_toOverlay kind
  inclusion := fun _ _ _ _ => trivial
  component := fun _ _ _ _ => trivial
  layout := fun _ _ _ _ => trivial
  screen := fun _ _ => Parts.wellFormed_toScreen _
  facts := fun _ _ _ _ _ _ => trivial

namespace Document

theorem ensures_ofForm (behind : List Token) (form : Form) :
    (ofForm behind form).Ensures fun d => Landmark.AllWellFormed d.landmarks :=
  (nodewise_wellFormed.ensures_ofForm behind fun _ _ => trivial).mono fun _ all => all.nodes

/-- Every node of the document of a source is well-formed, whatever is wrong with the source. -/
theorem ofSource_wellFormed {limit : Int} {source : String} {d : Document}
    (read : (ofSource limit source).outcome = .value d) : ∀ l ∈ d.landmarks, l.WellFormed := by
  unfold ofSource at read
  split at read
  · rw [ofTokens] at read
    split at read
    · cases read
    · exact ensures_ofForm _ _ d read
  · cases read

/-- The nested form of the leaf and the missing id are faults; the document is well-formed. -/
theorem ofSource_wellFormed_leaf : ∃ d,
    (ofSource 9 "(wire (screen s :mobile (repeat (image :to b (x))) (modal :open)))").outcome =
        .value d ∧
      d.overlays.map Overlay.id = ["modal-1-52"] ∧ d.landmarks.length = 5 ∧
      ∀ l ∈ d.landmarks, l.WellFormed := by
  have found : Token.ofSource
      "(wire (screen s :mobile (repeat (image :to b (x))) (modal :open)))" =
      .ok [⟨.openParen, "(", ⟨1, 1⟩, ⟨1, 2⟩⟩, ⟨.symbol, "wire", ⟨1, 2⟩, ⟨1, 6⟩⟩,
        ⟨.openParen, "(", ⟨1, 7⟩, ⟨1, 8⟩⟩, ⟨.symbol, "screen", ⟨1, 8⟩, ⟨1, 14⟩⟩,
        ⟨.symbol, "s", ⟨1, 15⟩, ⟨1, 16⟩⟩, ⟨.keyword, "mobile", ⟨1, 17⟩, ⟨1, 24⟩⟩,
        ⟨.openParen, "(", ⟨1, 25⟩, ⟨1, 26⟩⟩, ⟨.symbol, "repeat", ⟨1, 26⟩, ⟨1, 32⟩⟩,
        ⟨.openParen, "(", ⟨1, 33⟩, ⟨1, 34⟩⟩, ⟨.symbol, "image", ⟨1, 34⟩, ⟨1, 39⟩⟩,
        ⟨.keyword, "to", ⟨1, 40⟩, ⟨1, 43⟩⟩, ⟨.symbol, "b", ⟨1, 44⟩, ⟨1, 45⟩⟩,
        ⟨.openParen, "(", ⟨1, 46⟩, ⟨1, 47⟩⟩, ⟨.symbol, "x", ⟨1, 47⟩, ⟨1, 48⟩⟩,
        ⟨.closeParen, ")", ⟨1, 48⟩, ⟨1, 49⟩⟩, ⟨.closeParen, ")", ⟨1, 49⟩, ⟨1, 50⟩⟩,
        ⟨.closeParen, ")", ⟨1, 50⟩, ⟨1, 51⟩⟩, ⟨.openParen, "(", ⟨1, 52⟩, ⟨1, 53⟩⟩,
        ⟨.symbol, "modal", ⟨1, 53⟩, ⟨1, 58⟩⟩, ⟨.keyword, "open", ⟨1, 59⟩, ⟨1, 64⟩⟩,
        ⟨.closeParen, ")", ⟨1, 64⟩, ⟨1, 65⟩⟩, ⟨.closeParen, ")", ⟨1, 65⟩, ⟨1, 66⟩⟩,
        ⟨.closeParen, ")", ⟨1, 66⟩, ⟨1, 67⟩⟩, Token.eof ⟨1, 67⟩] := by
    cbv
  have described : (ofSource 9
      "(wire (screen s :mobile (repeat (image :to b (x))) (modal :open)))").value?.map
        (fun d => (d.overlays.map Overlay.id, d.landmarks.length)) = some (["modal-1-52"], 5) := by
    rw [ofSource, found]
    decide +kernel
  obtain ⟨d, value, same⟩ := Option.map_eq_some_iff.mp described
  obtain ⟨ids, count⟩ := Prod.mk.inj same
  have read := Attempt.value?_eq_some.mp value
  exact ⟨d, read, ids, count, ofSource_wellFormed read⟩

end Document
end Wireframe
