import ComponentProps.Code.Split
import ComponentProps.Code.Walk
import ComponentProps.Member.Scan

/-!
# Local types

The `interface` and `type` declarations of the scripts of a component, each with its own members and
the types that it extends or is composed of.
-/

namespace ComponentProps

open Text

/-- Add `x` at the end unless it is there. -/
def addNew (xs : List Text) (x : Text) : List Text := if xs.contains x then xs else xs ++ [x]

/-- The members and parents of a declared type. -/
structure TypeDefinition where
  members : OrderedMap Text Member := .empty
  /-- Types extended, intersected or united with, without repeats. -/
  parents : List Text := []
  deriving DecidableEq, Repr

namespace TypeDefinition

/-- Join another declaration of the same type. Its members count, its new parents come last. -/
def merge (d other : TypeDefinition) : TypeDefinition :=
  ⟨d.members.extend other.members, other.parents.foldl addNew d.parents⟩

end TypeDefinition

/-- A declaration: the name declared and what it means. -/
structure TypeDeclaration where
  name : Text
  definition : TypeDefinition
  deriving DecidableEq, Repr

namespace TypeDeclaration

/-- The name declared, with its type parameters passed over. -/
def readName? (c : Cursor) : Option (Text × Cursor) :=
  match c.skipTrivia.readIdent? with
  | none => none
  | some (name, c) =>
    let c := c.skipTrivia
    if c.current? = some '<' then some (name, (c.readGroup '<' '>').2.skipTrivia)
    else some (name, c)

/-- The parents named by an `extends` clause, if there is one, and the place after it. -/
def readExtends (c : Cursor) : List Text × Cursor :=
  if c.atWord "extends".toList then
    let (clause, place) :=
      (c.advanceBy "extends".length).capture fun _ c => c.current? == some '{'
    ((topLevelParts [','] clause).foldl addNew [], place)
  else ([], c)

/-- Read an interface after its keyword. -/
def readInterface? (style : Member.Style) (c : Cursor) : Option (TypeDeclaration × Cursor) := do
  let (name, c) ← readName? c
  let (parents, c) := readExtends c
  if c.current? = some '{' then
    let (body, c) := c.readGroup '{' '}'
    return (⟨name, ⟨Member.scan style body, parents⟩⟩, c)
  else none

/-- A curly bracket opens the body of an alias at the start of its right side or after `&`. `taken`
is the text before it, nearest first. -/
def opensBody (taken : Text) : Bool :=
  match trimStart taken with
  | [] => true
  | c :: _ => c == '&'

/-- Whether an expression, given nearest character first, is to be continued. -/
def isOpenEnded (taken : Text) : Bool :=
  match trimStart taken with
  | [] => true
  | '>' :: rest => rest.head? == some '='
  | c :: _ => c == '&' || c == '|' || c == '=' || c == ',' || c == ':' || c == '?' || c == '.'

/-- A line feed ends an alias unless the expression goes on before or after it. -/
def endsAtLine (taken : Text) (c : Cursor) : Bool :=
  !isOpenEnded taken &&
    !(firstVisible? c.ahead).any fun n => n == '&' || n == '|' || n == '.' || n == '?' || n == ':'

/-- Where the right side of an alias ends, or its body begins. -/
def endsAliasHead (taken : Text) (c : Cursor) : Bool :=
  match c.ahead with
  | ';' :: _ => true
  | '{' :: _ => opensBody taken
  | '\n' :: _ => endsAtLine taken c
  | _ => false

/-- Where the part of an alias after its body ends. -/
def endsAliasTail (taken : Text) (c : Cursor) : Bool :=
  match c.ahead with
  | ';' :: _ => true
  | '\n' :: _ => endsAtLine taken c
  | _ => false

/-- The parts joined to a body by an operator after it, and the place after them. -/
def readAliasTail (c : Cursor) : List Text × Cursor :=
  let c := c.skipTrivia
  if c.current? = some '&' || c.current? = some '|' then
    let (tail, place) := c.advance.capture endsAliasTail
    (topLevelParts ['&', '|'] tail, place)
  else ([], c)

/-- The right side of an alias: its members, its parts other than the body, and the place after. -/
def readAliasSide (style : Member.Style) (c : Cursor) : TypeDefinition × Cursor :=
  let (head, c) := c.skipTrivia.capture endsAliasHead
  let parts := topLevelParts ['&', '|'] head
  if c.current? = some '{' then
    let (body, c) := c.readGroup '{' '}'
    let (more, c) := readAliasTail c
    (⟨Member.scan style body, (parts ++ more).foldl addNew []⟩, c)
  else (⟨.empty, parts.foldl addNew []⟩, c)

/-- Read a type alias after its keyword. -/
def readAlias? (style : Member.Style) (c : Cursor) : Option (TypeDeclaration × Cursor) := do
  let (name, c) ← readName? c
  if c.current? = some '=' && c.peek? 1 ≠ some '=' then
    let (definition, c) := readAliasSide style c.advance
    return (⟨name, definition⟩, c)
  else none

/-- Read the declaration that a word begins. -/
def read? (style : Member.Style) (word : Cursor.Word) : Option (TypeDeclaration × Cursor) :=
  if word.text = "interface".toList then readInterface? style word.stop
  else if word.text = "type".toList then readAlias? style word.stop
  else none

/-! ### Reading moves on -/

theorem length_readIdent?_le {c : Cursor} {p : Text × Cursor} (h : c.readIdent? = some p) :
    p.2.ahead.length ≤ c.ahead.length := by
  unfold Cursor.readIdent? at h
  split at h
  · contradiction
  · split at h
    · injection h with h
      subst h
      exact Cursor.length_advanceBy_le _ _
    · contradiction

theorem length_readName?_le {c : Cursor} {p : Text × Cursor} (h : readName? c = some p) :
    p.2.ahead.length ≤ c.ahead.length := by
  unfold readName? at h
  split at h
  · contradiction
  rename_i name c' hi
  have h1 := length_readIdent?_le hi
  have h2 := Cursor.length_skipTrivia_le c
  have h3 := Cursor.length_skipTrivia_le c'
  dsimp only at h h1
  split at h
  · have h4 := Cursor.length_readGroup_le c'.skipTrivia '<' '>'
    have h5 := Cursor.length_skipTrivia_le (c'.skipTrivia.readGroup '<' '>').2
    injection h with h
    subst h
    dsimp only
    omega
  · injection h with h
    subst h
    dsimp only
    omega

theorem length_readExtends_le (c : Cursor) : (readExtends c).2.ahead.length ≤ c.ahead.length := by
  unfold readExtends
  split
  · exact Nat.le_trans (Cursor.length_capture_le _ _) (Cursor.length_advanceBy_le _ _)
  · exact Nat.le_refl _

theorem length_readInterface?_le {style : Member.Style} {c : Cursor}
    {p : TypeDeclaration × Cursor} (h : readInterface? style c = some p) :
    p.2.ahead.length ≤ c.ahead.length := by
  unfold readInterface? at h
  obtain ⟨⟨name, c'⟩, hn, h⟩ := Option.bind_eq_some_iff.mp h
  have h1 := length_readName?_le hn
  have h2 := length_readExtends_le c'
  dsimp only at h h1
  split at h
  · injection h with h
    subst h
    exact Nat.le_trans (Cursor.length_readGroup_le _ _ _) (Nat.le_trans h2 h1)
  · contradiction

theorem length_readAliasTail_le (c : Cursor) :
    (readAliasTail c).2.ahead.length ≤ c.ahead.length := by
  unfold readAliasTail
  dsimp only
  split
  · exact Nat.le_trans (Cursor.length_capture_le _ _)
      (Nat.le_trans (Cursor.length_advance_le _) (Cursor.length_skipTrivia_le _))
  · exact Cursor.length_skipTrivia_le _

theorem length_readAliasSide_le (style : Member.Style) (c : Cursor) :
    (readAliasSide style c).2.ahead.length ≤ c.ahead.length := by
  have h1 := Cursor.length_skipTrivia_le c
  have h2 := Cursor.length_capture_le c.skipTrivia endsAliasHead
  unfold readAliasSide
  dsimp only
  split
  · exact Nat.le_trans (length_readAliasTail_le _)
      (Nat.le_trans (Cursor.length_readGroup_le _ _ _) (Nat.le_trans h2 h1))
  · exact Nat.le_trans h2 h1

theorem length_readAlias?_le {style : Member.Style} {c : Cursor}
    {p : TypeDeclaration × Cursor} (h : readAlias? style c = some p) :
    p.2.ahead.length ≤ c.ahead.length := by
  unfold readAlias? at h
  obtain ⟨⟨name, c'⟩, hn, h⟩ := Option.bind_eq_some_iff.mp h
  have h1 := length_readName?_le hn
  dsimp only at h h1
  split at h
  · injection h with h
    subst h
    exact Nat.le_trans (length_readAliasSide_le _ _)
      (Nat.le_trans (Cursor.length_advance_le _) h1)
  · contradiction

theorem length_read?_le {style : Member.Style} {word : Cursor.Word}
    {p : TypeDeclaration × Cursor} (h : read? style word = some p) :
    p.2.ahead.length ≤ word.stop.ahead.length := by
  unfold read? at h
  split at h
  · exact length_readInterface?_le h
  · split at h
    · exact length_readAlias?_le h
    · contradiction

/-- The declarations at or after the cursor, in source order. A keyword that begins none is passed
over. -/
def allFrom (style : Member.Style) (c : Cursor) : List TypeDeclaration :=
  match _ : c.nextWord? with
  | none => []
  | some word =>
    match _ : read? style word with
    | some (declaration, place) => declaration :: allFrom style place
    | none => allFrom style word.stop
termination_by c.ahead.length
decreasing_by
  · exact Nat.lt_of_le_of_lt (length_read?_le (by assumption))
      (Cursor.length_stop_nextWord? (by assumption))
  · exact Cursor.length_stop_nextWord? (by assumption)

/-- The declarations of a script in source order. -/
def all (style : Member.Style) (script : Text) : List TypeDeclaration :=
  allFrom style (Cursor.ofText script)

end TypeDeclaration

/-- The types declared in the scripts of a component, in the order of their first declarations. -/
abbrev TypeTable := OrderedMap Text TypeDefinition

namespace TypeTable

/-- Enter a declaration. Declarations of one name are merged. -/
def declare (table : TypeTable) (d : TypeDeclaration) : TypeTable :=
  table.insert d.name (((table.get? d.name).getD {}).merge d.definition)

/-- The types declared in a list of scripts. -/
def ofScripts (style : Member.Style) (scripts : List Text) : TypeTable :=
  (scripts.flatMap (TypeDeclaration.all style)).foldl declare .empty

end TypeTable

end ComponentProps
