import ComponentProps.Binding
import ComponentProps.Proofs.Identifiers
import ComponentProps.Proofs.Layout
import Mathlib.Data.List.Infix

/-!
# Destructuring patterns as trees

The items of a destructuring pattern and how they are written. A default value is any text that
keeps to itself: its literals are closed, each kind of bracket is balanced, and outside brackets it
has neither commas nor comments. Names and values carry the proof that they are what they should be.
-/

namespace ComponentProps

open Text

/-- The brackets of an expression. Each kind is balanced for itself. -/
def bracketKinds : List (Char × Char) := [('(', ')'), ('[', ']'), ('{', '}')]

/-- Behind these characters no bracket is open, and none was closed that was not open. -/
def AtTop (read : List (Char × Role)) : Prop :=
  ∀ kind ∈ bracketKinds, depthAfter? kind.1 kind.2 0 read = some 0

instance (read : List (Char × Role)) : Decidable (AtTop read) :=
  inferInstanceAs (Decidable (∀ kind ∈ bracketKinds, _))

/-- A text whose literals and comments end in it and whose brackets are balanced. -/
structure IsBalanced (t : Text) : Prop where
  closed : Region.code.after [] t = .code
  balanced : AtTop (Region.code.roles [] t)

/-- A text that can stand as a default value. -/
structure IsValue (t : Text) : Prop extends IsBalanced t where
  nonempty : t ≠ []
  trimmed : trim t = t
  commas : ∀ front ∈ (Region.code.roles [] t).inits,
    front.getLast? = some (',', .code) → ¬ AtTop front
  comments : ∀ front ∈ (Region.code.roles [] t).inits,
    front.getLast?.map Prod.snd = some .comment → ¬ AtTop front

namespace Binding

/-- A default value as it is written. -/
structure Value where
  text : Text
  valid : IsValue text

/-- What a prop is bound to in place of its own name. -/
inductive Target
  | name (n : Identifier)
  /-- A pattern in curly brackets. -/
  | object (inner : Text) (valid : IsBalanced inner)
  /-- A pattern in square brackets. -/
  | array (inner : Text) (valid : IsBalanced inner)

/-- An item of a destructuring pattern. -/
inductive Item
  | rest (name : Identifier)
  | bind (name : Identifier) (target : Option Target) (default : Option Value)

def Target.print : Target → Text
  | .name n => n.text
  | .object inner _ => '{' :: (inner ++ ['}'])
  | .array inner _ => '[' :: (inner ++ [']'])

namespace Item

def printTarget : Option Target → Text
  | none => []
  | some target => ':' :: ' ' :: target.print

def printDefault : Option Value → Text
  | none => []
  | some value => ' ' :: '=' :: ' ' :: value.text

def print : Item → Text
  | .rest name => '.' :: '.' :: '.' :: name.text
  | .bind name target default => name.text ++ (printTarget target ++ printDefault default)

/-- The items of a pattern with commas between them. -/
def printAll (items : List Item) : Text := [',', ' '].intercalate (items.map print)

/-- The name that an item binds, with its default value. A rest item binds none. -/
def entry? : Item → Option (Text × Option Text)
  | .rest _ => none
  | .bind name _ default => some (name.text, default.map fun value => dedent value.text)

/-- The names bound by a list of items, with repeats. -/
def names (items : List Item) : List Text := (items.filterMap entry?).map Prod.fst

/-- The default value that the last item of a name gives it. -/
def lastDefault (items : List Item) (name : Text) : Option Text :=
  ((items.filterMap entry?).reverse.find? fun e => e.1 = name).bind Prod.snd

end Item

end Binding

end ComponentProps
