import Wireframe.Schema.Forms
import Wireframe.Schema.Props

/-!
# The element registry

The elements that are built in, and what is known of a form by its name.  A name that is not
registered is taken for a component of the author's, which may hold anything.
-/

namespace Wireframe

namespace ElementSchema

/-- A registered element that takes nested forms but no content. -/
def box (name : String) (category : Category) (description : String) (isBlock : Bool)
    (props : List PropEntry) : ElementSchema :=
  ⟨name, category, description, false, true, Table.ofList props, isBlock, true⟩

/-- A registered element that takes content but no nested forms. -/
def leaf (name : String) (category : Category) (description : String)
    (props : List PropEntry) : ElementSchema :=
  ⟨name, category, description, true, false, Table.ofList props, false, true⟩

/-- A registered element that takes content and nested forms. -/
def titled (name : String) (category : Category) (description : String) (isBlock : Bool)
    (props : List PropEntry) : ElementSchema :=
  ⟨name, category, description, true, true, Table.ofList props, isBlock, true⟩

/-- A registered element that takes neither content nor nested forms. -/
def mark (name : String) (category : Category) (description : String)
    (props : List PropEntry) : ElementSchema :=
  ⟨name, category, description, false, false, Table.ofList props, false, true⟩

/-- What is known of a name that is not registered. -/
def unregistered (name : String) : ElementSchema :=
  ⟨name, .unknown, "User component or unregistered element", true, true, Table.empty, true, false⟩

end ElementSchema

namespace Schema

open PropEntry PropGroup ElementSchema

/-- The containers. -/
def containers : List ElementSchema :=
  [box "box" .container "Generic layout container" true
     (container ++ variant ++ navigation ++ ["cols", "rows"].map number),
   box "card" .container "Elevated container with visual separation" true
     (container ++ variant ++ navigation),
   titled "section" .container "Titled region of a page" true (container ++ [string "title"]),
   box "header" .container "Page or section header bar" true container,
   box "footer" .container "Page or section footer bar" true container,
   box "nav" .container "Navigation region" true container,
   box "form" .container "Form wrapping inputs and a submit action" true
     (container ++ navigation),
   box "list" .container "Vertical list of items" true container,
   box "scroll" .container "Scrollable viewport" true container,
   box "group" .container "Visual grouping of related elements" true container]

/-- The elements that show content. -/
def contents : List ElementSchema :=
  [leaf "text" .content "Text label or paragraph" (content ++ variant ++ textAlign),
   leaf "icon" .content "Named icon glyph" (content ++ variant ++ [symbol "name", number "size"]),
   leaf "image" .content "Image placeholder"
     (size ++ dimension ++ navigation ++ ["src", "alt"].map string),
   leaf "avatar" .content "User avatar"
     (size ++ emphasis ++ dimension ++ navigation ++
       [string "src", string "name", number "size", flag "active"]),
   leaf "badge" .content "Small status or count indicator"
     (variant ++ size ++ position ++ dimension ++ [any "value"]),
   mark "divider" .content "Horizontal or vertical separator"
     (dimension ++ ["row", "col"].map flag)]

/-- The elements that react to the pointer and those that take input. -/
def controls : List ElementSchema :=
  [titled "button" .interactive "Clickable button" false (interactive ++ textAlign ++ [any "icon"]),
   titled "dropdown" .interactive "Trigger label with a menu of child items" false
     (spacing ++ dimension ++ variant ++ ["disabled", "open"].map flag),
   leaf "input" .input "Form field (text, checkbox, select, ...)"
     (size ++ dimension ++
       [("type", ⟨.symbol, some (.text "text")⟩), string "placeholder", any "value",
        string "options", flag "disabled", flag "error", flag "checked", number "min",
        number "max", number "step", number "rows"]),
   leaf "datepicker" .input "Date selection field"
     (size ++ dimension ++
       [string "value", string "placeholder", flag "disabled", flag "error"])]

/-- The elements that show data. -/
def data : List ElementSchema :=
  [titled "metric" .data "Key figure with label and trend" false
     (size ++ variant ++ dimension ++
       [any "value", string "label", any "change", symbol "trend"]),
   leaf "progress" .data "Progress bar" (size ++ variant ++ dimension ++ ["value", "max"].map any),
   titled "chart" .data "Chart placeholder" false
     (size ++ spacing ++ dimension ++ [symbol "type"]),
   box "skeleton" .data "Loading placeholder" false (container ++ ["circle", "text"].map flag)]

/-- The elements for moving about. -/
def navigators : List ElementSchema :=
  [box "tabs" .navigation "Tab strip" true container,
   titled "tab" .navigation "Single tab with optional panel content" true
     (size ++ dimension ++ navigation ++ ["active", "disabled"].map flag),
   box "breadcrumb" .navigation "Breadcrumb trail" false container,
   leaf "crumb" .navigation "Single breadcrumb entry" (size ++ navigation ++ [flag "active"])]

/-- The remaining elements. -/
def utilities : List ElementSchema :=
  [titled "tooltip" .utility "Hover hint wrapping its target" false dimension,
   titled "toast" .utility "Transient notification" false (variant ++ dimension),
   titled "empty" .utility "Empty state message" false dimension,
   mark "slot" .utility "Layout placeholder where screen content is substituted" []]

/-- The registered elements in order. -/
def registry : List ElementSchema :=
  containers ++ contents ++ controls ++ data ++ navigators ++ utilities

/-- The schema of an element name. -/
def element (name : String) : ElementSchema :=
  (registry.find? (·.name == name)).getD (unregistered name)

/-- Whether a name is registered. -/
def isBuiltin (name : String) : Bool :=
  registry.any (·.name == name)

/-- Whether a form holds nested forms without being an element. -/
def isStructural (name : String) : Bool :=
  structuralForms.contains name || overlayForms.contains name

/-- Whether a form of this name may hold nested forms. -/
def acceptsChildren (name : String) : Bool :=
  isStructural name || (element name).takesChildren

/-- Whether a form of this name lays out each nested form on a line of its own. -/
def isBlockForm (name : String) : Bool :=
  isStructural name || (element name).isBlock

/-- The properties of overlays. -/
def overlayProps : Table PropDef :=
  Table.ofList
    (spacing ++ dimension ++
      [string "id", string "title", symbol "position", flag "top", flag "bottom", flag "left",
       flag "right", flag "open"])

theorem element_name (name : String) : (element name).name = name := by
  unfold element
  cases found : registry.find? (·.name == name) with
  | none => rfl
  | some schema =>
    have same := List.find?_some found
    simpa using same

theorem isBuiltin_element (name : String) : (element name).isBuiltin = isBuiltin name := by
  unfold element isBuiltin
  cases found : registry.find? (·.name == name) with
  | none =>
    rw [List.find?_eq_none] at found
    simp only [Option.getD_none, ElementSchema.unregistered]
    symm
    simpa using found
  | some schema =>
    have builtin : ∀ schema ∈ registry, schema.isBuiltin = true := by decide
    simp only [Option.getD_some, builtin schema (List.mem_of_find?_eq_some found)]
    symm
    rw [List.any_eq_true]
    have same := List.find?_some found
    exact ⟨schema, List.mem_of_find?_eq_some found, same⟩

end Schema
end Wireframe
