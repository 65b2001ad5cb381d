import ComponentProps.OrderedMap
import ComponentProps.Text.Identifier
import ComponentProps.Text.Lines
import ComponentProps.Text.Spacing
import ComponentProps.Code.Region

/-!
# Bindings

The items of a destructuring pattern. An item binds a name, may rename it locally and may give it a
default value; a rest item binds nothing. The scanner reads one character at a time, and its state
at the end of a text tells whether the text leaves something open.
-/

namespace ComponentProps

open Text

/-- A name of a destructuring pattern with its default value. -/
structure Binding where
  name : Text
  default : Option Text
  deriving DecidableEq, Repr

namespace Binding

/-- The brackets that are open within an item, each kind counted for itself. -/
structure Depths where
  round : Nat := 0
  square : Nat := 0
  curly : Nat := 0
  deriving DecidableEq, Repr

namespace Depths

def isTop (d : Depths) : Bool := d.round == 0 && d.square == 0 && d.curly == 0

/-- The open brackets after the code character `c`. -/
def track (d : Depths) (c : Char) : Depths :=
  if c == '(' then { d with round := d.round + 1 }
  else if c == ')' then { d with round := d.round - 1 }
  else if c == '[' then { d with square := d.square + 1 }
  else if c == ']' then { d with square := d.square - 1 }
  else if c == '{' then { d with curly := d.curly + 1 }
  else if c == '}' then { d with curly := d.curly - 1 }
  else d

end Depths

/-- The part of an item that is being read. -/
inductive Mode
  | name
  | quotedName (quote : Char)
  /-- The local name, or the pattern in its place. -/
  | «alias»
  /-- A rest item. -/
  | rest
  | value
  deriving DecidableEq, Repr

/-- The state of the scanner. Texts stand nearest character first. -/
structure Scan where
  mode : Mode := .name
  region : Region := .code
  depths : Depths := {}
  name : Text := []
  value : Text := []
  bindings : OrderedMap Text (Option Text) := .empty
  deriving DecidableEq, Repr

namespace Scan

/-- The default value that a captured text stands for. -/
def default? (normalize : Bool) (raw : Text) : Option Text :=
  let value := dedent raw
  match (if normalize then collapse value else value) with
  | [] => none
  | c :: rest => some (c :: rest)

/-- Take up the item that is complete, and begin the next. -/
def complete (normalize : Bool) (s : Scan) : Scan :=
  { bindings :=
      if s.mode = .rest || s.name.isEmpty then s.bindings
      else s.bindings.insert s.name.reverse (default? normalize s.value.reverse) }

def stepNameCode (normalize : Bool) (s : Scan) (c : Char) (rest : Text) : Scan :=
  if isQuote c && s.name.isEmpty then { s with mode := .quotedName c }
  else if c == '.' && s.name.isEmpty && "..".toList.isPrefixOf rest then { s with mode := .rest }
  else if isIdentChar c then { s with name := c :: s.name }
  else if c == ':' && !s.name.isEmpty then { s with mode := .alias }
  else if c == '=' && !s.name.isEmpty then { s with mode := .value }
  else if c == ',' then s.complete normalize
  else s

/-- In a name only comments are inert: a quote begins a quoted name or means nothing. -/
def stepName (normalize : Bool) (s : Scan) (behind : Text) (c : Char) (rest : Text) : Scan :=
  if s.region = .code then
    match Region.comment? c rest with
    | some region => { s with region := region }
    | none => s.stepNameCode normalize c rest
  else { s with region := (s.region.read behind c rest).2 }

def stepQuotedName (s : Scan) (quote : Char) (behind : Text) (c : Char) : Scan :=
  if c == quote && !isEscaped behind then { s with mode := .name }
  else { s with name := c :: s.name }

def stepAlias (normalize : Bool) (s : Scan) (behind : Text) (c : Char) (rest : Text) : Scan :=
  match s.region.read behind c rest with
  | (.code, region) =>
    let s := { s with region := region }
    if c == '=' && s.depths.isTop then { s with mode := .value }
    else if c == ',' && s.depths.isTop then s.complete normalize
    else { s with depths := s.depths.track c }
  | (_, region) => { s with region := region }

def stepRest (normalize : Bool) (s : Scan) (behind : Text) (c : Char) (rest : Text) : Scan :=
  match s.region.read behind c rest with
  | (.code, region) =>
    let s := { s with region := region }
    if c == ',' && s.depths.isTop then s.complete normalize
    else { s with depths := s.depths.track c }
  | (_, region) => { s with region := region }

/-- In a value, comments are kept within brackets and dropped outside them. -/
def stepValue (normalize : Bool) (s : Scan) (behind : Text) (c : Char) (rest : Text) : Scan :=
  match s.region.read behind c rest with
  | (.code, region) =>
    let s := { s with region := region }
    if c == ',' && s.depths.isTop then s.complete normalize
    else { s with depths := s.depths.track c, value := c :: s.value }
  | (.literal, region) => { s with region := region, value := c :: s.value }
  | (.comment, region) =>
    if s.depths.isTop then { s with region := region }
    else { s with region := region, value := c :: s.value }

/-- Read `c`, which stands between `behind` (nearest first) and `rest`. -/
def step (normalize : Bool) (s : Scan) (behind : Text) (c : Char) (rest : Text) : Scan :=
  match s.mode with
  | .name => s.stepName normalize behind c rest
  | .quotedName quote => s.stepQuotedName quote behind c
  | .alias => s.stepAlias normalize behind c rest
  | .rest => s.stepRest normalize behind c rest
  | .value => s.stepValue normalize behind c rest

/-- The state after a text that follows `behind`. -/
def run (normalize : Bool) (s : Scan) (behind : Text) : Text → Scan
  | [] => s
  | c :: rest => run normalize (s.step normalize behind c rest) (c :: behind) rest

end Scan

/-- The names bound by a pattern, given without its curly brackets, with their default values. A
name that occurs twice keeps its first place and takes its last default. -/
def scan (normalize : Bool) (pattern : Text) : OrderedMap Text (Option Text) :=
  ((Scan.run normalize {} [] pattern).complete normalize).bindings

/-- The bindings of a pattern in order. -/
def ofPattern (normalize : Bool) (pattern : Text) : List Binding :=
  (scan normalize pattern).entries.map fun e => ⟨e.1, e.2⟩

end Binding

end ComponentProps
