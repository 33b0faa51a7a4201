/-!
# Shapes of records

What other tools need to know of the records that documents and exported schemas are made of: their
fields, which of them must be given, and the records that these mention.
-/

namespace Wireframe

/-- A field of a record. -/
structure FieldShape where
  /-- The name of the field. -/
  name : String
  /-- Whether the field must be given. -/
  isRequired : Bool
  /-- The records that a value of the field can hold. -/
  mentions : List String
  deriving DecidableEq, Repr

/-- A record with its fields. -/
structure RecordShape where
  /-- The name of the record. -/
  title : String
  /-- The fields, in order. -/
  fields : List FieldShape
  deriving DecidableEq, Repr

namespace RecordShape

/-- A field that must be given. -/
def required (name : String) (mentions : List String) : FieldShape := ⟨name, true, mentions⟩

/-- A field that may be left out. -/
def optional (name : String) (mentions : List String) : FieldShape := ⟨name, false, mentions⟩

/-- The place of a node. -/
def location : FieldShape := optional "loc" ["SourceLocation"]

/-- The properties of a node. -/
def props : FieldShape :=
  optional "props" ["ParamRef", "ScreenRef", "OverlayRef", "ActionRef", "UrlRef"]

/-- The children of a node. -/
def children : FieldShape := optional "children" ["ElementNode", "RepeatNode"]

/-- The records of documents. -/
def documents : List RecordShape :=
  [⟨"SourceLocation",
     [required "line" [], required "column" [], optional "end_line" [], optional "end_column" []]⟩,
   ⟨"ParamRef", [optional "kind" [], required "name" []]⟩,
   ⟨"ScreenRef", [optional "kind" [], required "id" []]⟩,
   ⟨"OverlayRef", [optional "kind" [], required "id" []]⟩,
   ⟨"ActionRef", [optional "kind" [], required "action" []]⟩,
   ⟨"UrlRef", [optional "kind" [], required "url" []]⟩,
   ⟨"ElementNode",
     [required "type" [], optional "content" ["ParamRef"], props, children, location,
      optional "is_component" []]⟩,
   ⟨"RepeatNode",
     [optional "type" [], required "count" ["ParamRef"], optional "variable" [],
      required "body" ["ElementNode"], location]⟩,
   ⟨"ComponentDef",
     [required "name" [], optional "params" [], required "body" ["ElementNode"], location]⟩,
   ⟨"LayoutNode", [required "name" [], required "body" ["ElementNode"], location]⟩,
   ⟨"OverlayNode", [required "type" [], required "id" [], props, children, location]⟩,
   ⟨"ScreenNode",
     [required "id" [], optional "name" [], optional "viewport" [], optional "layout" [],
      required "root" ["ElementNode"], optional "overlays" ["OverlayNode"], location]⟩,
   ⟨"IncludeNode", [required "path" [], location]⟩,
   ⟨"Document",
     [optional "meta" [], optional "includes" ["IncludeNode"],
      optional "components" ["ComponentDef"], optional "layouts" ["LayoutNode"],
      optional "screens" ["ScreenNode"], location]⟩]

/-- The records of exported schemas. -/
def schemas : List RecordShape :=
  [⟨"PropSchema", [required "type" [], optional "default" []]⟩,
   ⟨"ElementSchemaExport",
     [required "type" [], optional "content" [], optional "children" [],
      optional "props" ["PropSchema"]]⟩,
   ⟨"OverlaySchemaExport", [optional "props" ["PropSchema"]]⟩,
   ⟨"SchemaExport",
     [optional "version" [], optional "elements" ["ElementSchemaExport"],
      optional "overlays" ["OverlaySchemaExport"]]⟩]

/-- The records that a record mentions directly. -/
def mentions (s : RecordShape) : List String :=
  s.fields.flatMap FieldShape.mentions

/-- The records that can be reached from some records in a number of steps. -/
def reachable (all : List RecordShape) : Nat → List String → List String
  | 0, names => names
  | steps + 1, names =>
    let found := (all.filter fun s => names.contains s.title).flatMap mentions
    reachable all steps (names ++ found.filter (!names.contains ·))

/-- The records that a record can be made of, itself left out. -/
def parts (all : List RecordShape) (title : String) : List RecordShape :=
  let names := reachable all all.length [title]
  all.filter fun s => names.contains s.title && s.title != title

end RecordShape
end Wireframe
