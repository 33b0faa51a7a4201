import Wireframe.Schema.Basic

/-!
# Property groups

Properties that several elements share, in groups.  A table of properties joins groups in order.
-/

namespace Wireframe

/-- A property with its definition. -/
abbrev PropEntry := String × PropDef

namespace PropEntry

/-- A flag: the bare form is true. -/
def flag (name : String) : PropEntry := (name, ⟨.boolean, some (.flag true)⟩)

/-- A number without a bare form of its own. -/
def number (name : String) : PropEntry := (name, ⟨.number, none⟩)

/-- A number whose bare form is zero. -/
def zeroNumber (name : String) : PropEntry := (name, ⟨.number, some (.number (.integer 0))⟩)

/-- A text. -/
def string (name : String) : PropEntry := (name, ⟨.string, none⟩)

/-- A symbol. -/
def symbol (name : String) : PropEntry := (name, ⟨.symbol, none⟩)

/-- A value of any kind. -/
def any (name : String) : PropEntry := (name, ⟨.any, none⟩)

/-- A navigation target. -/
def target (name : String) : PropEntry := (name, ⟨.navigation, none⟩)

end PropEntry

namespace PropGroup

open PropEntry

/-- Flow of the children. -/
def layout : List PropEntry := ["row", "col", "grid", "wrap"].map flag

/-- Alignment of the children. -/
def align : List PropEntry := ["center", "start", "end", "between", "around", "stretch"].map flag

/-- Size within the parent. -/
def size : List PropEntry := ["full", "fit", "fill"].map flag

/-- Space between and around children. -/
def spacing : List PropEntry := ["gap", "padding"].map zeroNumber

/-- Width and height. -/
def dimension : List PropEntry := ["width", "height"].map any

/-- Placement outside the flow. -/
def position : List PropEntry :=
  ["sticky", "fixed", "absolute", "relative"].map flag ++
    ["top", "left", "right", "bottom"].map number

/-- Visual variants. -/
def variant : List PropEntry :=
  ["primary", "secondary", "ghost", "danger", "success", "warning", "info"].map flag

/-- Degrees of emphasis. -/
def emphasis : List PropEntry := ["high", "medium", "low"].map flag

/-- Where a click leads. -/
def navigation : List PropEntry := [target "to"]

/-- Properties of all containers. -/
def container : List PropEntry := layout ++ align ++ size ++ spacing ++ dimension ++ position

/-- Properties of text-like content. -/
def content : List PropEntry := emphasis ++ size ++ dimension ++ navigation

/-- Properties of elements that react to the pointer. -/
def interactive : List PropEntry :=
  variant ++ size ++ dimension ++ navigation ++ ["disabled", "loading", "active"].map flag

/-- Alignment of a text. -/
def textAlign : List PropEntry := ["start", "center", "end"].map flag

end PropGroup
end Wireframe
