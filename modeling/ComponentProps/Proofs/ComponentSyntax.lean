import ComponentProps.Props
import ComponentProps.Script
import ComponentProps.Proofs.MemberScan
import ComponentProps.Proofs.PatternSyntax
import ComponentProps.Proofs.Words

/-!
# Components as trees

A component declares types and receives its props in one statement. This module gives such
components as trees, says how they are written, one statement on a line within a script element, and
says on the tree what props a component has: the properties that the annotation of the statement
leads to, parents first and each type once, and then the names that only its pattern binds.
-/

namespace ComponentProps

open Text

namespace Component

/-! ### Syntax -/

/-- The words that no identifier of a component is. -/
def reservedWords : List Text :=
  ["let".toList, "const".toList, "var".toList, "type".toList, "interface".toList,
    "extends".toList, "readonly".toList]

def interfaceWord : Identifier := ⟨"interface".toList, by decide⟩

def typeWord : Identifier := ⟨"type".toList, by decide⟩

def extendsWord : Identifier := ⟨"extends".toList, by decide⟩

def letWord : Identifier := ⟨"let".toList, by decide⟩

/-- The call that hands over the props. -/
def propsCall : Identifier := ⟨"$props".toList, by decide⟩

/-- The call that marks a default value as bindable. -/
def bindableCall : Identifier := ⟨"$bindable".toList, by decide⟩

/-- An identifier that is free to be used as a name. -/
structure Name where
  identifier : Identifier
  free : identifier.text ∉ reservedWords

def Name.text (n : Name) : Text := n.identifier.text

/-- A property of a declared type. -/
structure Property where
  key : Name
  optional : Bool
  type : TypeExpr
  free : ∀ n ∈ type.names, n ∉ reservedWords

def Property.declared (p : Property) : Member.Declared :=
  ⟨p.key.identifier, false, p.optional, p.type⟩

/-- The properties of a body, each with a semicolon. -/
def printProperties (ps : List Property) : Text :=
  ps.flatMap fun p => p.declared.print ++ [';', ' ']

def printBody (ps : List Property) : Text := '{' :: (' ' :: printProperties ps ++ ['}'])

/-- The names behind the first one of a list. -/
def printMore (separator : Text) (names : List Name) : Text :=
  names.flatMap fun n => separator ++ n.text

/-- Names with an operator behind each of them. -/
def printEach (names : List Name) : Text := names.flatMap fun n => n.text ++ [' ', '&', ' ']

/-- A declaration of a type. -/
inductive Declaration
  | interface (name : Name) (parents : List Name) (properties : List Property)
  /-- An alias of an intersection that ends with a body. -/
  | body (name : Name) (parents : List Name) (properties : List Property)
  /-- An alias of an intersection of other types. -/
  | reference (name first : Name) (more : List Name)

namespace Declaration

def name : Declaration → Name
  | interface name _ _ => name
  | body name _ _ => name
  | reference name _ _ => name

def parents : Declaration → List Name
  | interface _ parents _ => parents
  | body _ parents _ => parents
  | reference _ first more => first :: more

def properties : Declaration → List Property
  | interface _ _ properties => properties
  | body _ _ properties => properties
  | reference _ _ _ => []

def printExtends : List Name → Text
  | [] => []
  | first :: more =>
    ' ' :: (extendsWord.text ++ ' ' :: (first.text ++ printMore [',', ' '] more))

def printInterface (name : Name) (parents : List Name) (properties : List Property) : Text :=
  interfaceWord.text ++ ' ' ::
    (name.text ++ (printExtends parents ++ ' ' :: printBody properties))

/-- An alias, given its right side. -/
def printAlias (name : Name) (side : Text) : Text :=
  typeWord.text ++ ' ' :: (name.text ++ ' ' :: '=' :: ' ' :: (side ++ [';']))

def print : Declaration → Text
  | interface name parents properties => printInterface name parents properties
  | body name parents properties => printAlias name (printEach parents ++ printBody properties)
  | reference name first more => printAlias name (first.text ++ printMore [' ', '&', ' '] more)

end Declaration

/-- A default value on one line. It may be given as bindable. -/
structure Default where
  value : Text
  bindable : Bool
  valid : IsValue value
  oneLine : '\n' ∉ value
  unmarked : ¬ bindableCall.text <+: value
  free : ∀ w ∈ Region.code.words [] value, w ≠ typeWord.text ∧ w ≠ interfaceWord.text

def Default.print (d : Default) : Text :=
  if d.bindable then bindableCall.text ++ '(' :: (d.value ++ [')']) else d.value

/-- An item of the pattern that the props are received in. -/
inductive Item
  | rest (name : Name)
  | prop (name : Name) (renamed : Option Name) (default : Option Default)

namespace Item

def printRenamed : Option Name → Text
  | none => []
  | some name => ':' :: ' ' :: name.text

def printDefault : Option Default → Text
  | none => []
  | some default => ' ' :: '=' :: ' ' :: default.print

def print : Item → Text
  | rest name => '.' :: '.' :: '.' :: name.text
  | prop name renamed default => name.text ++ (printRenamed renamed ++ printDefault default)

/-- The prop that an item binds, with its default value. -/
def binding? : Item → Option (Text × Option Default)
  | rest _ => none
  | prop name _ default => some (name.text, default)

end Item

/-- The statement that receives the props. -/
structure Receiver where
  items : List Item
  first : Name
  more : List Name

namespace Receiver

def pattern (r : Receiver) : Text :=
  ' ' :: ([',', ' '].intercalate (r.items.map Item.print) ++ [' '])

def annotation (r : Receiver) : Text := r.first.text ++ printMore [' ', '&', ' '] r.more

/-- The types that the annotation names. -/
def types (r : Receiver) : List Text := (r.first :: r.more).map Name.text

def print (r : Receiver) : Text :=
  letWord.text ++ ' ' :: ('{' :: (r.pattern ++ '}' :: ':' :: ' ' :: (r.annotation ++
    ' ' :: '=' :: ' ' :: (propsCall.text ++ ['(', ')', ';']))))

end Receiver

end Component

open Component

/-- A component with its declarations before and behind the statement that receives the props. -/
structure Component where
  before : List Declaration
  receiver : Receiver
  behind : List Declaration

namespace Component

def declarations (c : Component) : List Declaration := c.before ++ c.behind

def statements (c : Component) : List Text :=
  c.before.map Declaration.print ++ c.receiver.print :: c.behind.map Declaration.print

/-- The content of the script element. -/
def script (c : Component) : Text := '\n' :: c.statements.flatMap fun t => t ++ ['\n']

/-- The tag that begins the script element. -/
def startTag : Text := "<script lang=\"ts\">".toList

def endTag : Text := "</script>".toList

def print (c : Component) : Text := startTag ++ (c.script ++ endTag)

/-- Nothing in the script looks like the end of the element. -/
def IsEnclosed (c : Component) : Prop :=
  ∀ t ∈ c.script.tails, Script.startsTag Script.closeTag t = false

instance (c : Component) : Decidable c.IsEnclosed :=
  inferInstanceAs (Decidable (∀ t ∈ c.script.tails, _))

/-! ### The props of a component -/

def IsDeclared (ds : List Declaration) (name : Text) : Prop := ∃ d ∈ ds, d.name.text = name

instance (ds : List Declaration) (name : Text) : Decidable (IsDeclared ds name) :=
  inferInstanceAs (Decidable (∃ d ∈ ds, _))

/-- The parents of a type in all its declarations, each once. -/
def parentsOf (ds : List Declaration) (name : Text) : List Text :=
  ((ds.filter fun d => d.name.text = name).flatMap fun d => d.parents.map Name.text).eraseDups

/-- The properties of a type in all its declarations. -/
def propertiesOf (ds : List Declaration) (name : Text) : List Property :=
  (ds.filter fun d => d.name.text = name).flatMap Declaration.properties

/-- What has been gathered from the types met so far. -/
structure Gathering where
  /-- The declared types met. -/
  visited : List Text := []
  properties : List Property := []
  /-- The types met that are not declared. -/
  outside : List Text := []

/-- Gathering from a list of types: a type that is not declared is noted once, and a declared one
gives its parents' properties and then its own when it is met for the first time. -/
inductive Gathers (ds : List Declaration) : Gathering → List Text → Gathering → Prop
  | nil (g : Gathering) : Gathers ds g [] g
  | outside {g g' : Gathering} {name : Text} {names : List Text} (h : ¬ IsDeclared ds name)
      (tail : Gathers ds
        { g with outside := if name ∈ g.outside then g.outside else g.outside ++ [name] }
        names g') :
      Gathers ds g (name :: names) g'
  | again {g g' : Gathering} {name : Text} {names : List Text} (h : IsDeclared ds name)
      (met : name ∈ g.visited) (tail : Gathers ds g names g') : Gathers ds g (name :: names) g'
  | enter {g g₁ g' : Gathering} {name : Text} {names : List Text} (h : IsDeclared ds name)
      (new : name ∉ g.visited)
      (parents : Gathers ds { g with visited := name :: g.visited } (parentsOf ds name) g₁)
      (tail : Gathers ds { g₁ with properties := g₁.properties ++ propertiesOf ds name } names g') :
      Gathers ds g (name :: names) g'

/-- The last property of a name. -/
def property? (ps : List Property) (name : Text) : Option Property :=
  ps.reverse.find? fun p => p.key.text = name

/-- The props that a pattern binds, with repeats. -/
def bindings (items : List Item) : List (Text × Option Default) := items.filterMap Item.binding?

/-- The default value that the last item of a name gives it. -/
def default? (items : List Item) (name : Text) : Option Default :=
  ((bindings items).reverse.find? fun b => b.1 = name).bind Prod.snd

/-- The record of a prop. Where no property of the name is known, neither is its type. -/
def record (ps : List Property) (items : List Item) (name : Text) : PropRecord where
  name := name
  type := ((property? ps name).map fun p => p.type.print).getD unknownType
  required := (property? ps name).any fun p => !p.optional
  bindable := (default? items name).any Default.bindable
  default := (default? items name).map Default.value
  doc := none

/-- The names of the properties and then those that the pattern binds, with repeats. -/
def propNames (ps : List Property) (items : List Item) : List Text :=
  (ps.map fun p => p.key.text) ++ (bindings items).map Prod.fst

/-- The props of the gathered properties and the pattern, in the order of first occurrence. -/
def sheet (g : Gathering) (items : List Item) : PropSheet where
  props := (propNames g.properties items).eraseDups.map (record g.properties items)
  inherits := g.outside

/-- The component has these props. -/
def Yields (c : Component) (s : PropSheet) : Prop :=
  ∃ g, Gathers c.declarations {} c.receiver.types g ∧ s = sheet g c.receiver.items

end Component

end ComponentProps
