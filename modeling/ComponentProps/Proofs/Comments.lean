import ComponentProps.Proofs.Operands

/-!
# Comments

A comment is read as a whole, whatever stands beside it. A capture and a split at separators copy it
as they copy operands, and a move over trivia leaves it behind. What a line comment has of its own
is the line feed at its end, which is code: a capture may stop there.
-/

namespace ComponentProps

open Text

/-- A comment as it is written. The line feed belongs to a line comment. -/
inductive Comment
  | block (inner : Text) (valid : ¬ ['*', '/'] <:+: inner)
  | line (content : Text) (valid : '\n' ∉ content)

namespace Comment

def text : Comment → Text
  | .block inner _ => '/' :: '*' :: (inner ++ ['*', '/'])
  | .line content _ => '/' :: '/' :: (content ++ ['\n'])

/-- The characters of a comment that are inert. -/
def inert : Comment → Text
  | .block inner _ => '/' :: '*' :: (inner ++ ['*', '/'])
  | .line content _ => '/' :: '/' :: content

/-- The white space that ends a comment. -/
def feed : Comment → Text
  | .block .. => []
  | .line .. => ['\n']

/-- The region behind the inert characters. -/
def region : Comment → Region
  | .block .. => .code
  | .line .. => .lineComment

theorem text_eq (c : Comment) : c.text = c.inert ++ c.feed := by
  cases c <;> simp [text, inert, feed]

end Comment

/-- A text without the sign that closes a block comment does not close one. -/
theorem not_closes {c : Char} {t rest : Text} (h : ¬ ['*', '/'] <:+: c :: t)
    (hr : rest.head? ≠ some '/') :
    (c == '*' && (t ++ rest).head? == some '/') = false ∧ ¬ ['*', '/'] <:+: t := by
  constructor
  · rw [Bool.eq_false_iff]
    intro hclose
    simp only [Bool.and_eq_true, beq_iff_eq] at hclose
    obtain ⟨rfl, hhead⟩ := hclose
    cases t with
    | nil => exact hr hhead
    | cons d t =>
        obtain rfl : d = '/' := by simpa using hhead
        exact h ⟨[], t, rfl⟩
  · exact fun ht => h (ht.trans (List.suffix_cons c t).isInfix)

/-! ### Reading -/

namespace Region

/-- Reading a text from a region meets inert characters of comments only, whatever stands beside the
text. -/
inductive Passes : Region → Text → Region → Prop
  | nil (region : Region) : Passes region [] region
  | cons {region next last : Region} {c : Char} {t : Text}
      (hread : ∀ behind rest, region.read behind c (t ++ rest) = (.comment, next))
      (ht : Passes next t last) : Passes region (c :: t) last

theorem passes_block {inner : Text} (h : ¬ ['*', '/'] <:+: inner) :
    Passes .blockComment (inner ++ ['*', '/']) .code := by
  induction inner with
  | nil => exact .cons (fun _ _ => rfl) (.cons (fun _ _ => rfl) (.nil _))
  | cons c inner ih =>
      have hopen : ∀ rest, (c == '*' && (inner ++ ['*', '/'] ++ rest).head? == some '/') = false := by
        intro rest
        rw [List.append_assoc]
        exact (not_closes h (by simp)).1
      refine .cons (fun behind rest => ?_) (ih (not_closes h endsSlash_nil.1).2)
      exact Prod.ext rfl (if_neg (Bool.eq_false_iff.mp (hopen rest)))

theorem passes_line {content : Text} (h : '\n' ∉ content) :
    Passes .lineComment content .lineComment := by
  induction content with
  | nil => exact .nil _
  | cons c content ih =>
      rw [List.mem_cons, not_or] at h
      refine .cons (fun behind rest => ?_) (ih h.2)
      simp only [read, if_neg (Ne.symm h.1)]

theorem passes_comment (c : Comment) : Passes .code c.inert c.region := by
  cases c with
  | block inner valid =>
      exact .cons (fun _ _ => rfl) (.cons (fun _ _ => rfl) (passes_block valid))
  | line content valid =>
      exact .cons (fun _ _ => rfl) (.cons (fun _ _ => rfl) (passes_line valid))

end Region

/-! ### Walks over comments -/

namespace Cursor

variable {region last : Region} {t : Text}

theorem captureFrom_passes (h : region.Passes t last) (stop : Text → Cursor → Bool)
    (nesting : Nesting) (taken behind rest : Text) :
    captureFrom stop region nesting taken behind (t ++ rest) =
      inFront t (captureFrom stop last nesting (t.reverse ++ taken) (t.reverse ++ behind) rest) := by
  induction h generalizing taken behind with
  | nil => rfl
  | cons hread _ ih =>
      rw [List.cons_append, captureFrom_inert (hread _ _) (by decide), ih, ← inFront_append]
      simp

theorem skipTriviaFrom_passes (h : region.Passes t last) (behind rest : Text) :
    skipTriviaFrom region behind (t ++ rest) = skipTriviaFrom last (t.reverse ++ behind) rest := by
  induction h generalizing behind with
  | nil => rfl
  | cons hread _ ih =>
      rw [List.cons_append, skipTriviaFrom, hread]
      dsimp only
      rw [ih]
      simp

/-- A capture passes over a comment if it does not stop at the line feed of a line comment. -/
theorem captureFrom_comment (c : Comment) {stop : Text → Cursor → Bool} {taken behind rest : Text}
    (hline : c.feed ≠ [] → ∀ taken behind, stop taken ⟨behind, '\n' :: rest⟩ = false) :
    captureFrom stop .code .top taken behind (c.text ++ rest) =
      inFront c.text (captureFrom stop .code .top (c.text.reverse ++ taken)
        (c.text.reverse ++ behind) rest) := by
  rw [c.text_eq, List.append_assoc, captureFrom_passes (Region.passes_comment c)]
  cases c with
  | block inner valid => simp [Comment.feed, Comment.region]
  | line content valid =>
      have hread : ∀ behind, Region.lineComment.read behind '\n' rest = (.code, .code) :=
        fun _ => rfl
      rw [Comment.feed, Comment.region, List.singleton_append,
        captureFrom_code (hread _) (fun _ => hline (List.cons_ne_nil _ _) _ _) (by simp [Bracket.of?]),
        ← inFront_append]
      simp [Nesting.trackChar, Bracket.of?]

theorem skipTrivia_blank {g : Text} (hg : isBlank g = true) (behind rest : Text) :
    skipTrivia ⟨behind, g ++ rest⟩ = skipTrivia ⟨g.reverse ++ behind, rest⟩ := by
  induction g generalizing behind with
  | nil => rfl
  | cons c g ih =>
      have hwhite : isWhite c = true := List.all_eq_true.mp hg c List.mem_cons_self
      have hblank : isBlank g = true := by
        rw [isBlank, List.all_cons, Bool.and_eq_true] at hg
        exact hg.2
      have hstep : skipTrivia ⟨behind, c :: (g ++ rest)⟩ = skipTrivia ⟨c :: behind, g ++ rest⟩ := by
        simp only [skipTrivia, skipTriviaFrom, Region.read_plain (isFlat_of_isWhite hwhite).1,
          hwhite, if_true]
      rw [List.cons_append, hstep, ih hblank]
      simp

theorem skipTrivia_comment (c : Comment) (behind rest : Text) :
    skipTrivia ⟨behind, c.text ++ rest⟩ = skipTrivia ⟨c.text.reverse ++ behind, rest⟩ := by
  rw [skipTrivia, c.text_eq, List.append_assoc, skipTriviaFrom_passes (Region.passes_comment c)]
  cases c with
  | block inner valid => simp [Comment.feed, Comment.region, skipTrivia]
  | line content valid =>
      have hread : ∀ behind, Region.lineComment.read behind '\n' rest = (.code, .code) :=
        fun _ => rfl
      have hwhite : isWhite '\n' = true := by decide
      rw [Comment.feed, Comment.region, List.singleton_append, skipTriviaFrom, hread]
      simp [hwhite, skipTrivia]

end Cursor

namespace Text

theorem piecesFrom_passes {region last : Region} {t : Text} (h : region.Passes t last)
    (separators : List Char) (nesting : Nesting) (behind rest : Text) :
    piecesFrom separators region nesting behind (t ++ rest) =
      inFirst t (piecesFrom separators last nesting (t.reverse ++ behind) rest) := by
  induction h generalizing behind with
  | nil => rfl
  | @cons _ _ last c t hread _ ih =>
      have hsplit : inFirst (c :: t) (piecesFrom separators last nesting ((c :: t).reverse ++ behind)
          rest) = consFirst c (inFirst t (piecesFrom separators last nesting
            (t.reverse ++ c :: behind) rest)) := by
        rw [inFirst, List.foldr_cons, ← inFirst]
        simp
      rw [List.cons_append, piecesFrom, hread, hsplit]
      exact congrArg (consFirst c) (ih (c :: behind))

theorem isUncut_comment {separators : List Char} (hsep : ∀ c ∈ separators, IsSeparator c)
    (c : Comment) : IsUncut separators c.text := by
  intro behind rest
  rw [c.text_eq, List.append_assoc, piecesFrom_passes (Region.passes_comment c), inFirst_append]
  cases c with
  | block inner valid => simp [Comment.feed, Comment.region, inFirst]
  | line content valid =>
      have hread : ∀ behind, Region.lineComment.read behind '\n' rest = (.code, .code) :=
        fun _ => rfl
      have hno : '\n' ∉ separators := fun hmem => absurd (hsep _ hmem).2.2 (by decide)
      have hbracket : ∀ behind, Bracket.of? behind '\n' = none := fun _ => rfl
      rw [Comment.feed, Comment.region, List.singleton_append, piecesFrom, hread]
      dsimp only
      rw [hbracket]
      simp [hno, inFirst]

end Text

end ComponentProps
