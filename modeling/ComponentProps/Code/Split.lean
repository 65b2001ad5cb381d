import ComponentProps.Text.Lines
import ComponentProps.Code.Region
import ComponentProps.Code.Nesting

/-!
# Splitting type expressions

A type expression is cut at separators that stand in code outside all brackets.
-/

namespace ComponentProps.Text

/-- The pieces of a text between its separators. With the separators they make up the text. -/
def piecesFrom (separators : List Char) (region : Region) (nesting : Nesting) (behind : Text) :
    Text → List Text
  | [] => [[]]
  | c :: rest =>
    match region.read behind c rest with
    | (.code, region') =>
      match Bracket.of? behind c with
      | some b => consFirst c (piecesFrom separators region' (nesting.track b) (c :: behind) rest)
      | none =>
        if nesting.isTop && separators.contains c then
          [] :: piecesFrom separators region' nesting (c :: behind) rest
        else consFirst c (piecesFrom separators region' nesting (c :: behind) rest)
    | (_, region') => consFirst c (piecesFrom separators region' nesting (c :: behind) rest)

theorem piecesFrom_ne_nil (separators : List Char) (region : Region) (nesting : Nesting)
    (behind t : Text) : piecesFrom separators region nesting behind t ≠ [] := by
  cases t with
  | nil => simp [piecesFrom]
  | cons c rest =>
    unfold piecesFrom
    repeat' split
    all_goals first
      | exact consFirst_ne_nil _ _
      | simp

/-- The pieces of a text hold its characters but for the separators between them. -/
theorem totalLength_piecesFrom (separators : List Char) (region : Region) (nesting : Nesting)
    (behind t : Text) :
    totalLength (piecesFrom separators region nesting behind t) = t.length + 1 := by
  induction t generalizing region nesting behind with
  | nil => rfl
  | cons c rest ih =>
    have kept : ∀ region nesting,
        totalLength (consFirst c (piecesFrom separators region nesting (c :: behind) rest)) =
          (c :: rest).length + 1 := by
      intro region nesting
      rw [totalLength_consFirst _ _ (piecesFrom_ne_nil _ _ _ _ _), ih, List.length_cons]
    unfold piecesFrom
    repeat' split
    · exact kept _ _
    · simp only [totalLength, ih, List.length_nil, List.length_cons]
      omega
    · exact kept _ _
    · exact kept _ _

def pieces (separators : List Char) (t : Text) : List Text :=
  piecesFrom separators .code .top [] t

/-- The parts of a text between separators outside brackets, literals and comments. Parts are
trimmed, and blank ones are left out. -/
def topLevelParts (separators : List Char) (t : Text) : List Text :=
  (pieces separators t).filterMap trimmed?

/-- A type reference without its type arguments. -/
def withoutArguments (reference : Text) : Text :=
  if reference.contains '<' then trimEnd (reference.takeWhile (· != '<')) else trim reference

end ComponentProps.Text
