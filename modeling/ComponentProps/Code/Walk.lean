import ComponentProps.Text.Cursor
import ComponentProps.Text.Identifier
import ComponentProps.Code.Region
import ComponentProps.Code.Nesting

/-!
# Moving over code

Moves of a cursor that see only code: over literals and comments, to the next word, over a bracketed
group, and over text up to a place outside all brackets.
-/

namespace ComponentProps.Cursor

open Text

/-! ### Inert text -/

def skipInertFrom (region : Region) (behind : Text) : Text → Cursor
  | [] => ⟨behind, []⟩
  | c :: rest =>
    match region.read behind c rest with
    | (.code, _) => ⟨behind, c :: rest⟩
    | (_, region') => skipInertFrom region' (c :: behind) rest

/-- Go to the first code character at or after the cursor. -/
def skipInert (c : Cursor) : Cursor := skipInertFrom .code c.behind c.ahead

def skipTriviaFrom (region : Region) (behind : Text) : Text → Cursor
  | [] => ⟨behind, []⟩
  | c :: rest =>
    match region.read behind c rest with
    | (.comment, region') => skipTriviaFrom region' (c :: behind) rest
    | (.code, region') =>
      if isWhite c then skipTriviaFrom region' (c :: behind) rest else ⟨behind, c :: rest⟩
    | (.literal, _) => ⟨behind, c :: rest⟩

/-- Go past white space and comments. -/
def skipTrivia (c : Cursor) : Cursor := skipTriviaFrom .code c.behind c.ahead

/-! ### Words -/

/-- Whether a word that starts behind `behind` stands alone: it is neither the tail of a longer
identifier nor a member of something. -/
def standsAlone (behind : Text) : Bool :=
  match behind with
  | [] => true
  | p :: _ => !(isIdentChar p || p == '.')

def atWordStart (c : Cursor) : Bool :=
  match c.ahead with
  | [] => false
  | x :: _ => isIdentStart x && standsAlone c.behind

/-- Whether `word` stands at the cursor and no identifier character follows it. -/
def atWord (c : Cursor) (word : Text) : Bool :=
  match after? word c.ahead with
  | none => false
  | some [] => true
  | some (x :: _) => !isIdentChar x

/-- The identifier at the cursor and the place after it. -/
def readIdent? (c : Cursor) : Option (Text × Cursor) :=
  match c.ahead with
  | [] => none
  | x :: _ =>
    if isIdentStart x then
      some (leadingWord c.ahead, c.advanceBy (leadingWord c.ahead).length)
    else none

/-- A word of code, with the places before and after it. -/
structure Word where
  text : Text
  start : Cursor
  stop : Cursor
  deriving DecidableEq, Repr

def nextWordFrom? (region : Region) (behind : Text) : Text → Option Word
  | [] => none
  | c :: rest =>
    match region.read behind c rest with
    | (.code, region') =>
      if isIdentStart c && standsAlone behind then
        let here : Cursor := ⟨behind, c :: rest⟩
        let word := leadingWord (c :: rest)
        some ⟨word, here, here.advanceBy word.length⟩
      else nextWordFrom? region' (c :: behind) rest
    | (_, region') => nextWordFrom? region' (c :: behind) rest

/-- The next word of code that stands alone, at or after the cursor. -/
def nextWord? (c : Cursor) : Option Word := nextWordFrom? .code c.behind c.ahead

theorem length_stop_nextWordFrom? {region : Region} {behind ahead : Text} {w : Word}
    (h : nextWordFrom? region behind ahead = some w) :
    w.stop.ahead.length < ahead.length := by
  induction ahead generalizing region behind with
  | nil => simp [nextWordFrom?] at h
  | cons c rest ih =>
    rw [nextWordFrom?] at h
    split at h
    · split at h
      · rename_i hc
        simp only [Bool.and_eq_true] at hc
        injection h with h
        subst h
        simp only [length_ahead_advanceBy, leadingWord_cons (isIdentChar_of_isIdentStart hc.1),
          List.length_cons]
        omega
      · exact Nat.lt_succ_of_lt (ih h)
    · exact Nat.lt_succ_of_lt (ih h)

/-- A word is not empty, so a search that goes on behind it gets nearer to the end. -/
theorem length_stop_nextWord? {c : Cursor} {w : Word} (h : c.nextWord? = some w) :
    w.stop.ahead.length < c.ahead.length :=
  length_stop_nextWordFrom? h

/-! ### Groups -/

/-- Whether the code character `c` closes a group that ends in `close`. -/
def closesGroup (close : Char) (behind : Text) (c : Char) : Bool :=
  c == close && !(close == '>' && behind.head? == some '=')

/-- The text up to the bracket that closes a group, and the place after that bracket. -/
def groupFrom (opening close : Char) (region : Region) (depth : Nat) (behind : Text) :
    Text → Text × Cursor
  | [] => ([], ⟨behind, []⟩)
  | c :: rest =>
    let keep (region' : Region) (depth' : Nat) : Text × Cursor :=
      let (inner, stop) := groupFrom opening close region' depth' (c :: behind) rest
      (c :: inner, stop)
    match region.read behind c rest with
    | (.code, region') =>
      if c == opening then keep region' (depth + 1)
      else if closesGroup close behind c then
        if depth ≤ 1 then ([], ⟨c :: behind, rest⟩) else keep region' (depth - 1)
      else keep region' depth
    | (_, region') => keep region' depth

/-- Read a bracketed group with the cursor on its opening bracket: the text between the brackets and
the place after them. A group that is not closed runs to the end. -/
def readGroup (c : Cursor) (opening close : Char) : Text × Cursor :=
  let (group, stop) := groupFrom opening close .code 0 c.behind c.ahead
  (group.drop 1, stop)

/-! ### Captures -/

/-- The text up to the first code character outside all brackets that `stop` accepts, or that closes
a bracket opened before the capture. `taken` is the text captured so far, nearest first. -/
def captureFrom (stop : Text → Cursor → Bool) (region : Region) (nesting : Nesting)
    (taken behind : Text) : Text → Text × Cursor
  | [] => ([], ⟨behind, []⟩)
  | c :: rest =>
    let keep (region' : Region) (nesting' : Nesting) : Text × Cursor :=
      let (more, place) := captureFrom stop region' nesting' (c :: taken) (c :: behind) rest
      (c :: more, place)
    match region.read behind c rest with
    | (.code, region') =>
      if nesting.isTop && stop taken ⟨behind, c :: rest⟩ then ([], ⟨behind, c :: rest⟩)
      else if nesting.depth == 0 && Bracket.of? behind c == some .closing then
        ([], ⟨behind, c :: rest⟩)
      else keep region' (nesting.trackChar behind c)
    | (_, region') => keep region' nesting

/-- Capture text up to a code character outside all brackets. `stop` sees the text captured so far,
nearest first, and the place of the character. -/
def capture (c : Cursor) (stop : Text → Cursor → Bool) : Text × Cursor :=
  captureFrom stop .code .top [] c.behind c.ahead

/-! ### Nothing is gained by moving -/

theorem length_skipTriviaFrom_le (region : Region) (behind ahead : Text) :
    (skipTriviaFrom region behind ahead).ahead.length ≤ ahead.length := by
  induction ahead generalizing region behind with
  | nil => simp [skipTriviaFrom]
  | cons c rest ih =>
    rw [skipTriviaFrom]
    split
    · exact Nat.le_succ_of_le (ih _ _)
    · split
      · exact Nat.le_succ_of_le (ih _ _)
      · exact Nat.le_refl _
    · exact Nat.le_refl _

theorem length_skipTrivia_le (c : Cursor) : c.skipTrivia.ahead.length ≤ c.ahead.length :=
  length_skipTriviaFrom_le _ _ _

theorem length_groupFrom_le (opening close : Char) (region : Region) (depth : Nat)
    (behind ahead : Text) :
    (groupFrom opening close region depth behind ahead).2.ahead.length ≤ ahead.length := by
  induction ahead generalizing region depth behind with
  | nil => simp [groupFrom]
  | cons c rest ih =>
    rw [groupFrom]
    split
    · split
      · exact Nat.le_succ_of_le (ih _ _ _)
      · split
        · split
          · exact Nat.le_succ _
          · exact Nat.le_succ_of_le (ih _ _ _)
        · exact Nat.le_succ_of_le (ih _ _ _)
    · exact Nat.le_succ_of_le (ih _ _ _)

theorem length_readGroup_le (c : Cursor) (opening close : Char) :
    (c.readGroup opening close).2.ahead.length ≤ c.ahead.length :=
  length_groupFrom_le _ _ _ _ _ _

theorem length_captureFrom_le (stop : Text → Cursor → Bool) (region : Region) (nesting : Nesting)
    (taken behind ahead : Text) :
    (captureFrom stop region nesting taken behind ahead).2.ahead.length ≤ ahead.length := by
  induction ahead generalizing region nesting taken behind with
  | nil => simp [captureFrom]
  | cons c rest ih =>
    rw [captureFrom]
    split
    · split
      · exact Nat.le_refl _
      · split
        · exact Nat.le_refl _
        · exact Nat.le_succ_of_le (ih _ _ _ _)
    · exact Nat.le_succ_of_le (ih _ _ _ _)

theorem length_capture_le (c : Cursor) (stop : Text → Cursor → Bool) :
    (c.capture stop).2.ahead.length ≤ c.ahead.length :=
  length_captureFrom_le _ _ _ _ _ _

theorem length_advance_le (c : Cursor) : c.advance.ahead.length ≤ c.ahead.length := by
  unfold advance
  split
  · exact Nat.le_refl _
  · rename_i h
    simp [h]

theorem length_advanceBy_le (c : Cursor) (n : Nat) :
    (c.advanceBy n).ahead.length ≤ c.ahead.length := by
  rw [length_ahead_advanceBy]
  exact Nat.sub_le _ _

end ComponentProps.Cursor
