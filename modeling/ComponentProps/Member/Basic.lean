import ComponentProps.Text.Lines
import ComponentProps.Text.Spacing
import ComponentProps.Code.Region
import ComponentProps.Code.Nesting

/-!
# Members

A member is one `name?: type` of an object type or interface body. This module says what a member
is and which member a name and a captured type text make.
-/

namespace ComponentProps

open Text

/-- One property of a type body. -/
structure Member where
  name : Text
  /-- The type as written, without common indentation. -/
  type : Text
  optional : Bool
  /-- The prose of the doc comment before the member. -/
  doc : Option Text
  deriving DecidableEq, Repr

namespace Member

def required (m : Member) : Bool := !m.optional

/-- Which texts of a member are brought to normal form. -/
structure Style where
  normalizeTypes : Bool := false
  normalizeDocs : Bool := false
  deriving DecidableEq, Repr

/-- The parameter list of a method signature with the bracket that closes it, and what follows. -/
def splitParametersFrom? (quote : OpenQuote) (depth : Nat) (behind : Text) :
    Text → Option (Text × Text)
  | [] => none
  | c :: rest =>
    let keep (depth' : Nat) : Option (Text × Text) :=
      (splitParametersFrom? (quote.next behind c) depth' (c :: behind) rest).map
        fun p => (c :: p.1, p.2)
    if quote.covers behind c then keep depth
    else if c = '(' then keep (depth + 1)
    else if c = ')' then
      if depth ≤ 1 then some ([c], rest) else keep (depth - 1)
    else keep depth

/-- The function type of a method signature: `<T>(a: T): R` becomes `<T>(a: T) => R`. A method
without a result type gives `any`. -/
def functionType (signature : Text) : Text :=
  match splitParametersFrom? none 0 [] signature with
  | none => signature
  | some (parameters, rest) =>
    match trim rest with
    | [] => parameters ++ " => any".toList
    | ':' :: result => parameters ++ " => ".toList ++ trim result
    | _ => signature

/-- A type text without the operator that may lead a list of alternatives. -/
def withoutLeadingOperator (t : Text) : Text :=
  match dedent t with
  | [] => []
  | c :: rest => if c == '|' || c == '&' then dedent rest else c :: rest

/-- The type text shown for a captured one. -/
def typeText (style : Style) (method : Bool) (raw : Text) : Text :=
  let plain := withoutLeadingOperator raw
  let type := if method then functionType plain else plain
  if style.normalizeTypes then normalizeType type else type

/-- Whether a name stands for an index, call or construct signature. -/
def isSignatureName : Text → Bool
  | [] => false
  | c :: _ => c == '[' || c == '(' || c == '<'

/-- The prose of a doc comment, if it has any. -/
def docText? (style : Style) (raw : Text) : Option Text :=
  let prose := docProse raw
  match (if style.normalizeDocs then collapseProse prose else prose) with
  | [] => none
  | c :: rest => some (c :: rest)

/-- The member made of a name and a captured type. Signatures and empty types give none. -/
def make? (style : Style) (name : Text) (optional method : Bool) (doc : Option Text)
    (raw : Text) : Option Member :=
  if name.isEmpty || isSignatureName name then none
  else
    match typeText style method raw with
    | [] => none
    | c :: rest => some ⟨name, c :: rest, optional, doc⟩

end Member

end ComponentProps
