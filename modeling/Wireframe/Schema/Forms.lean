/-!
# Forms

The names that have a place of their own in a document, and the words that have a meaning of their
own inside forms.
-/

namespace Wireframe
namespace Schema

/-- The form that encloses a document. -/
def rootForm : String := "wire"

/-- The form of a page. -/
def screenForm : String := "screen"

/-- The form that defines a component. -/
def defineForm : String := "define"

/-- The form that repeats an element. -/
def repeatForm : String := "repeat"

/-- The element that stands for a repetition where a single element is expected. -/
def repeatContainer : String := "repeat-container"

/-- Forms that may stand only directly inside the root form. -/
def topLevelForms : List String := ["screen", "define", "layout", "meta", "include"]

/-- Forms that may stand only directly inside a screen. -/
def overlayForms : List String := ["modal", "drawer", "popover"]

/-- Forms that accept nested forms without being elements. -/
def structuralForms : List String := ["wire", "screen", "define", "layout", "repeat", "meta"]

/-- The viewports of a screen. -/
def viewports : List String := ["mobile", "tablet", "desktop"]

/-- The keywords that name a navigation action. -/
def actions : List String := ["close", "back", "submit"]

/-- The flags that have a meaning on some element. -/
def validFlags : List String :=
  ["row", "col", "grid", "wrap",
   "start", "center", "end", "between", "around", "stretch",
   "high", "medium", "low",
   "primary", "secondary", "ghost", "danger", "success", "warning", "info",
   "disabled", "loading", "active", "checked", "open", "error",
   "full", "fit", "fill",
   "sticky", "fixed", "absolute", "relative", "top", "bottom", "left", "right",
   "mobile", "tablet", "desktop",
   "circle", "text"]

/-- Properties that are often written bare without being flags. -/
def knownProps : List String :=
  ["to", "icon", "src", "alt", "placeholder", "value", "type", "id", "name", "title", "label"]

/-- The starts by which a text is known as a URL. -/
def urlProtocols : List String :=
  ["http://", "https://", "ftp://", "ftps://", "mailto:", "tel:", "file://", "data:", "//"]

end Schema
end Wireframe
