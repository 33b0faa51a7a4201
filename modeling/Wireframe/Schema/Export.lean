import Wireframe.Schema.Registry

/-!
# Exported schemas

The registry as a text in JSON for other tools, in one line or with one item a line.  A property
without a default leaves it out.
-/

namespace Wireframe
namespace Schema

/-- A value of an exported text. -/
inductive Exported where
  /-- A scalar. -/
  | scalar (value : Scalar)
  /-- Values by key, in order. -/
  | object (entries : List (String × Exported))

namespace Exported

/-- A text in double quotes. -/
def quote (s : String) : List Char :=
  '"' :: s.toList.flatMap (fun c => if c = '"' ∨ c = '\\' then ['\\', c] else [c]) ++ ['"']

/-- A scalar. -/
def renderScalar : Scalar → List Char
  | .flag value => (if value then "true" else "false").toList
  | .number value => value.format.toList
  | .text value => quote value

/-- A line break with the margin of a level, nothing in one line. -/
def lineBreak (pretty : Bool) (level : Nat) : List Char :=
  if pretty then '\n' :: List.replicate (2 * level) ' ' else []

/-- What stands between a key and its value. -/
def colon (pretty : Bool) : List Char :=
  if pretty then [':', ' '] else [':']

mutual

/-- A value at a level of nesting. -/
def render (pretty : Bool) (level : Nat) : Exported → List Char
  | scalar value => renderScalar value
  | object entries =>
    match entries with
    | [] => ['{', '}']
    | _ :: _ =>
      '{' :: renderEntries pretty (level + 1) entries ++ lineBreak pretty level ++ ['}']

/-- The entries of an object at a level of nesting. -/
def renderEntries (pretty : Bool) (level : Nat) : List (String × Exported) → List Char
  | [] => []
  | (key, value) :: rest =>
    lineBreak pretty level ++ quote key ++ colon pretty ++ render pretty level value ++
      (if rest.isEmpty then [] else [',']) ++ renderEntries pretty level rest

end

/-- A definition of a property. -/
def ofProp (definition : PropDef) : Exported :=
  .object <| ("type", .scalar (.text definition.type.name)) ::
    (definition.default.map fun value => ("default", Exported.scalar value)).toList

/-- Definitions of properties. -/
def ofProps (props : Table PropDef) : Exported :=
  .object (props.entries.map fun (key, definition) => (key, ofProp definition))

/-- The schema of an element. -/
def ofElement (schema : ElementSchema) : Exported :=
  .object
    [("type", .scalar (.text schema.name)),
     ("content", .scalar (.flag schema.takesContent)),
     ("children", .scalar (.flag schema.takesChildren)),
     ("props", ofProps schema.props)]

/-- All schemas. -/
def ofRegistry : Exported :=
  .object
    [("version", .scalar (.text "2.0")),
     ("elements", .object (registry.map fun schema => (schema.name, ofElement schema))),
     ("overlays", .object [("props", ofProps overlayProps)])]

end Exported

/-- All schemas as a text. -/
def exportText (pretty : Bool) : String :=
  String.ofList (Exported.ofRegistry.render pretty 0)

end Schema
end Wireframe
