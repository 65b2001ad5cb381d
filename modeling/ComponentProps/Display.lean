import ComponentProps.Props
import ComponentProps.Text.Spacing

/-!
# Showing props

Markdown for a hover over a component, and an object type on one line.
-/

namespace ComponentProps

open Text

namespace PropRecord

/-- The name of a prop, marked if the prop may be left out, and its type. -/
def signature (r : PropRecord) : Text :=
  r.name ++ (if r.required then [] else ['?']) ++ ": ".toList ++ normalizeType r.type

/-- The line of a prop in a tag: `bind:name?: type = default`. -/
def line (r : PropRecord) : Text :=
  (if r.bindable then "bind:".toList else []) ++ r.signature ++
    match r.default with
    | some value => " = ".toList ++ normalizeType value
    | none => []

/-- The line of a prop in the list of documented props. -/
def docLine? (r : PropRecord) : Option Text :=
  r.doc.map fun doc =>
    "- `".toList ++ r.name ++ "`: ".toList ++ (doc.map fun c => if c = '\n' then ' ' else c) ++
      ['\n']

end PropRecord

namespace PropSheet

/-- The tag of a component with a line for each prop. -/
def tag (component : Text) (s : PropSheet) : Text :=
  '<' :: component ++
    if s.props.isEmpty then " />".toList
    else '\n' :: s.props.flatMap (fun r => "  ".toList ++ r.line ++ ['\n']) ++ "/>".toList

/-- Markdown that shows the props of a component, their documentation and its outside types. -/
def markdown (component : Text) (s : PropSheet) : Text :=
  let docs := s.props.filterMap PropRecord.docLine?
  let parents := s.inherits.map fun p => '\x60' :: p ++ ['\x60']
  "```svelte\n".toList ++ s.tag component ++ "\n```\n".toList ++
    (if docs.isEmpty then [] else "\n---\n\n".toList ++ docs.flatten) ++
    if parents.isEmpty then []
    else "\n**Extends:** ".toList ++ ", ".toList.intercalate parents ++ ['\n']

/-- The props as an object type on one line, joined with the outside types. -/
def signature (s : PropSheet) : Text :=
  (if s.props.isEmpty then ['{', '}']
    else ['{', ' '] ++ "; ".toList.intercalate (s.props.map PropRecord.signature) ++ [' ', '}']) ++
    s.inherits.flatMap fun p => " & ".toList ++ p

end PropSheet

end ComponentProps
