import ComponentProps.Proofs.AliasReading

/-!
# Searches

A script is searched for its declarations and for its intake statement. Both searches go from word to
word and pass over a word that nothing fit for a statement follows. Signs, white space and comments
are therefore passed over, and so are operands, if nothing that is found within their brackets reaches
beyond them.
-/

namespace ComponentProps

open Text Cursor

namespace Text

theorem isSign_of_isWhite {c : Char} (h : isWhite c = true) : IsSign c := by
  refine ⟨(isFlat_of_isWhite h).1, ?_, ne_of_kind h (by decide), ne_of_kind h (by decide),
    ne_of_kind h (by decide)⟩
  rw [Bool.eq_false_iff]
  intro hident
  rw [not_isWhite_of_isIdentChar hident] at h
  contradiction

/-- No identifier goes on with the text. -/
def EndsWord (t : Text) : Prop := ∀ c, t.head? = some c → isIdentChar c = false

theorem SignFirst.endsWord {t : Text} (h : SignFirst t) : EndsWord t := fun c hc => (h c hc).2.1

theorem EndsWord.blank_append {g t : Text} (ht : EndsWord t) (hg : isBlank g = true) :
    EndsWord (g ++ t) := by
  cases g with
  | nil => exact ht
  | cons c g =>
      intro d hd
      obtain rfl : c = d := by simpa using hd
      exact (isSign_of_isWhite (List.all_eq_true.mp hg c (by simp))).2.1

end Text

namespace Cursor

theorem standsAlone_sign {c : Char} (hc : IsSign c) (behind : Text) :
    standsAlone (c :: behind) = true := (signFirst_cons behind hc).standsAlone

theorem standsAlone_blank {g behind : Text} (hg : isBlank g = true)
    (hb : standsAlone behind = true) : standsAlone (g ++ behind) = true := by
  cases g with
  | nil => exact hb
  | cons c g => exact standsAlone_sign (isSign_of_isWhite (List.all_eq_true.mp hg c (by simp))) _

theorem nextWord?_sign {c : Char} (hc : IsSign c) (behind rest : Text) :
    nextWord? ⟨behind, c :: rest⟩ = nextWord? ⟨c :: behind, rest⟩ := by
  simp [nextWord?, nextWordFrom?, Region.read_plain hc.1, hc.not_isIdentStart]

variable {behind rest : Text}

theorem leadingWord_of_endsWord (n : Identifier) (hr : EndsWord rest) :
    leadingWord (n.text ++ rest) = n.text := by
  have hstop : rest.takeWhile isIdentChar = [] := by
    cases rest with
    | nil => rfl
    | cons d rest => simp [hr d rfl]
  have hself : n.text.takeWhile isIdentChar = n.text :=
    List.takeWhile_eq_self_iff.mpr fun d hd => n.isIdentChar_of_mem hd
  rw [leadingWord, List.takeWhile_append, hself, if_pos rfl, hstop, List.append_nil]

theorem nextWord?_identifier (n : Identifier) (hb : standsAlone behind = true)
    (hr : EndsWord rest) :
    nextWord? ⟨behind, n.text ++ rest⟩ =
      some ⟨n.text, ⟨behind, n.text ++ rest⟩, ⟨n.text.reverse ++ behind, rest⟩⟩ := by
  obtain ⟨c, more, htext, hstart, -⟩ := n.exists_cons
  have hplain := n.isPlain_of_mem (c := c) (by simp [htext])
  have hfirst : nextWord? ⟨behind, n.text ++ rest⟩ =
      some ⟨leadingWord (n.text ++ rest), ⟨behind, n.text ++ rest⟩,
        advanceBy ⟨behind, n.text ++ rest⟩ (leadingWord (n.text ++ rest)).length⟩ := by
    simp [nextWord?, nextWordFrom?, htext, Region.read_plain hplain, hstart, hb]
  rw [hfirst, leadingWord_of_endsWord n hr, advanceBy_length]

theorem readIdent?_of_endsWord (n : Identifier) (hr : EndsWord rest) :
    readIdent? ⟨behind, n.text ++ rest⟩ = some (n.text, ⟨n.text.reverse ++ behind, rest⟩) := by
  obtain ⟨c, more, htext, hstart, -⟩ := n.exists_cons
  have hread : readIdent? ⟨behind, n.text ++ rest⟩ =
      some (leadingWord (n.text ++ rest), advanceBy ⟨behind, n.text ++ rest⟩
        (leadingWord (n.text ++ rest)).length) := by
    simp [readIdent?, htext, hstart]
  rw [hread, leadingWord_of_endsWord n hr, advanceBy_length]

end Cursor

/-! ### Trivia -/

/-- White space and comments. -/
structure Trivia where
  comments : List (Gap × Comment)
  last : Gap

namespace Trivia

def text (t : Trivia) : Text :=
  t.comments.flatMap (fun x => x.1.text ++ x.2.text) ++ t.last.text

theorem skipTrivia_append (t : Trivia) (behind rest : Text) :
    skipTrivia ⟨behind, t.text ++ rest⟩ = skipTrivia ⟨t.text.reverse ++ behind, rest⟩ := by
  obtain ⟨comments, last⟩ := t
  induction comments generalizing behind with
  | nil => exact skipTrivia_blank last.blank behind rest
  | cons x comments ih =>
      have hsplit : (Trivia.mk (x :: comments) last).text =
          x.1.text ++ (x.2.text ++ (Trivia.mk comments last).text) := by
        simp [text]
      rw [hsplit, List.append_assoc, List.append_assoc, skipTrivia_blank x.1.blank,
        skipTrivia_comment, ih]
      simp

/-- No identifier goes on with a comment. -/
theorem endsWord_comment (c : Comment) (rest : Text) : EndsWord (c.text ++ rest) := by
  have hslash : isIdentChar '/' = false := by decide
  intro d hd
  cases c with
  | block inner valid | line content valid =>
      obtain rfl : '/' = d := by simpa [Comment.text] using hd
      exact hslash

theorem endsWord_append (t : Trivia) {rest : Text} (hr : t.text = [] → EndsWord rest) :
    EndsWord (t.text ++ rest) := by
  obtain ⟨comments, last⟩ := t
  cases comments with
  | nil =>
      cases hlast : last.text with
      | nil => simpa [text, hlast] using hr (by simp [text, hlast])
      | cons c more =>
          have hwhite := List.all_eq_true.mp last.blank c (by simp [hlast])
          intro d hd
          obtain rfl : c = d := by simpa [text, hlast] using hd
          exact (isSign_of_isWhite hwhite).2.1
  | cons x comments =>
      have hsplit : (Trivia.mk (x :: comments) last).text ++ rest =
          x.1.text ++ (x.2.text ++ ((Trivia.mk comments last).text ++ rest)) := by
        simp [text]
      rw [hsplit]
      exact (endsWord_comment x.2 _).blank_append x.1.blank

/-- An identifier behind a comment stands alone. -/
theorem standsAlone_comment (c : Comment) (behind : Text) :
    standsAlone (c.text.reverse ++ behind) = true := by
  cases c with
  | block inner valid =>
      have hlast : (Comment.block inner valid).text.reverse ++ behind =
          '/' :: ('*' :: (inner.reverse ++ '*' :: '/' :: behind)) := by
        simp [Comment.text]
      rw [hlast]
      rfl
  | line content valid =>
      have hlast : (Comment.line content valid).text.reverse ++ behind =
          '\n' :: (content.reverse ++ '/' :: '/' :: behind) := by
        simp [Comment.text]
      rw [hlast]
      rfl

theorem standsAlone_append (t : Trivia) {behind : Text}
    (hb : t.text = [] → standsAlone behind = true) :
    standsAlone (t.text.reverse ++ behind) = true := by
  obtain ⟨comments, last⟩ := t
  have hblank := isBlank_reverse last.blank
  induction comments using List.reverseRecOn with
  | nil =>
      cases hlast : last.text with
      | nil => simpa [text, hlast] using hb (by simp [text, hlast])
      | cons c more =>
          have hne : last.text.reverse ≠ [] := by simp [hlast]
          obtain ⟨d, front, hreverse⟩ := List.exists_cons_of_ne_nil hne
          have hwhite := List.all_eq_true.mp hblank d (by simp [hreverse])
          have htext : (Trivia.mk [] last).text.reverse ++ behind = d :: (front ++ behind) := by
            simp [text, hreverse]
          rw [htext]
          exact standsAlone_sign (isSign_of_isWhite hwhite) _
  | append_singleton comments x _ =>
      have htext : (Trivia.mk (comments ++ [x]) last).text.reverse ++ behind =
          last.text.reverse ++ (x.2.text.reverse ++ (x.1.text.reverse ++
            ((comments.flatMap fun x => x.1.text ++ x.2.text).reverse ++ behind))) := by
        simp [text]
      rw [htext]
      exact standsAlone_blank hblank (standsAlone_comment x.2 _)

end Trivia

/-- No identifier goes on behind an operand with white space or a comment. -/
theorem NotedLink.endsWord_pad {separators : List Char} (x : NotedLink separators) {rest : Text}
    (hr : EndsWord rest) : EndsWord (x.pad ++ rest) := by
  cases hcomment : x.comment with
  | none => exact hr.blank_append (isBlank_pad hcomment)
  | some c =>
      have hpad : x.pad ++ rest = x.before.text ++ (c.text ++ (x.gap.text ++ rest)) := by
        simp [pad, hcomment]
      rw [hpad]
      exact (Trivia.endsWord_comment c _).blank_append x.before.blank

/-- A search from word to word. It passes over a word unless a character that `begins` accepts
follows it. -/
structure IsSearch {α : Type} (begins : Char → Bool) (search : Cursor → α) : Prop where
  next : ∀ {c c' : Cursor}, c.nextWord? = c'.nextWord? → search c = search c'
  beside : ∀ {b b' : Text} {c c' : Cursor}, LooksAlike b b' → Beside b b' c c' →
    search c = search c'
  word : ∀ {c : Cursor} {w : Word}, c.nextWord? = some w →
    (∀ x, w.stop.skipTrivia.current? = some x → begins x = false) → search c = search w.stop

/-- What a search finds in a text does not reach beyond it: what follows the text counts only by what
is found there. -/
def IsSealed {α : Type} (search : Cursor → α) (t : Text) : Prop :=
  ∀ behind rest rest', SignFirst behind → SignFirst rest → SignFirst rest' →
    search ⟨t.reverse ++ behind, rest⟩ = search ⟨t.reverse ++ behind, rest'⟩ →
      search ⟨behind, t ++ rest⟩ = search ⟨behind, t ++ rest'⟩

/-- Nothing found within the brackets of an operand reaches beyond them. -/
def Operand.IsSealed {α : Type} (search : Cursor → α) : Operand → Prop
  | .name _ => True
  | .applied _ arguments _ _ => ComponentProps.IsSealed search arguments
  | .body inner _ => ComponentProps.IsSealed search inner

namespace IsSearch

variable {α : Type} {begins : Char → Bool} {search : Cursor → α} (h : IsSearch begins search)

include h

theorem trivia {c c' : Cursor} (hc : c.skipTrivia = c'.skipTrivia) : search c = search c' :=
  h.next (by rw [← nextWord?_skipTrivia c, hc, nextWord?_skipTrivia])

theorem passTrivia (t : Trivia) (behind rest : Text) :
    search ⟨behind, t.text ++ rest⟩ = search ⟨t.text.reverse ++ behind, rest⟩ :=
  h.trivia (t.skipTrivia_append behind rest)

theorem gap (g : Gap) (behind rest : Text) :
    search ⟨behind, g.text ++ rest⟩ = search ⟨g.text.reverse ++ behind, rest⟩ :=
  h.trivia (skipTrivia_blank g.blank behind rest)

theorem pad {separators : List Char} (x : NotedLink separators) (behind rest : Text) :
    search ⟨behind, x.pad ++ rest⟩ = search ⟨x.pad.reverse ++ behind, rest⟩ :=
  h.trivia (x.skipTrivia_pad behind rest)

theorem sign {c : Char} (hc : IsSign c) (behind rest : Text) :
    search ⟨behind, c :: rest⟩ = search ⟨c :: behind, rest⟩ :=
  h.next (nextWord?_sign hc behind rest)

theorem identifier (n : Identifier) {behind rest : Text} (hb : standsAlone behind = true)
    (hr : EndsWord rest)
    (hnext : ∀ x, (skipTrivia ⟨n.text.reverse ++ behind, rest⟩).current? = some x →
      begins x = false) :
    search ⟨behind, n.text ++ rest⟩ = search ⟨n.text.reverse ++ behind, rest⟩ :=
  h.word (nextWord?_identifier n hb hr) hnext

/-- A group is passed over if what stands in it keeps to itself. -/
theorem group {opening close : Char} (hopen : IsSign opening) (hclose : IsSign close) {t : Text}
    (ht : IsSealed search t) {behind rest rest' : Text}
    (hrest : search ⟨close :: (t.reverse ++ opening :: behind), rest⟩ =
      search ⟨close :: (t.reverse ++ opening :: behind), rest'⟩) :
    search ⟨behind, opening :: (t ++ close :: rest)⟩ =
      search ⟨behind, opening :: (t ++ close :: rest')⟩ := by
  rw [h.sign hopen, h.sign hopen]
  refine ht _ _ _ (signFirst_cons _ hopen) (signFirst_cons _ hclose) (signFirst_cons _ hclose) ?_
  rw [h.sign hclose, h.sign hclose, hrest]

/-- What a search finds in an operand and behind it depends only on what it finds behind it. -/
theorem operand (hangle : begins '<' = false) {p : Operand} (hp : p.IsSealed search)
    {behind rest rest' : Text} (hb : standsAlone behind = true) (hr : EndsWord rest)
    (hr' : EndsWord rest')
    (hnext : ∀ b x, (skipTrivia ⟨b, rest⟩).current? = some x → begins x = false)
    (hnext' : ∀ b x, (skipTrivia ⟨b, rest'⟩).current? = some x → begins x = false)
    (hrest : search ⟨p.print.reverse ++ behind, rest⟩ =
      search ⟨p.print.reverse ++ behind, rest'⟩) :
    search ⟨behind, p.print ++ rest⟩ = search ⟨behind, p.print ++ rest'⟩ := by
  cases p with
  | name n =>
      rw [Operand.print] at hrest ⊢
      rw [h.identifier n hb hr (hnext _), h.identifier n hb hr' (hnext' _), hrest]
  | applied n arguments valid last =>
      have hsign : IsSign '<' := by decide
      have hskip : ∀ b t x, (skipTrivia ⟨b, '<' :: t⟩).current? = some x → begins x = false := by
        intro b t x hx
        rw [skipTrivia_visible (by decide)] at hx
        obtain rfl : '<' = x := by simpa [current?] using hx
        exact hangle
      have hprint : ∀ t, (Operand.applied n arguments valid last).print ++ t =
          n.text ++ '<' :: (arguments ++ '>' :: t) := by
        intro t
        simp [Operand.print]
      have hbehind : (Operand.applied n arguments valid last).print.reverse ++ behind =
          '>' :: (arguments.reverse ++ '<' :: (n.text.reverse ++ behind)) := by
        simp [Operand.print]
      rw [hbehind] at hrest
      rw [hprint, hprint, h.identifier n hb (signFirst_cons _ hsign).endsWord (hskip _ _),
        h.identifier n hb (signFirst_cons _ hsign).endsWord (hskip _ _)]
      exact h.group hsign (by decide) hp hrest
  | body inner valid =>
      have hprint : ∀ t, (Operand.body inner valid).print ++ t = '{' :: (inner ++ '}' :: t) := by
        intro t
        simp [Operand.print]
      have hbehind : (Operand.body inner valid).print.reverse ++ behind =
          '}' :: (inner.reverse ++ '{' :: behind) := by
        simp [Operand.print]
      rw [hbehind] at hrest
      rw [hprint, hprint]
      exact h.group (by decide) (by decide) hp hrest

end IsSearch

/-! ### The searches of a script -/

/-- The search for declarations. -/
theorem isSearch_allFrom (style : Member.Style) :
    IsSearch isIdentStart (TypeDeclaration.allFrom style) where
  next := fun hnext => by
    rw [TypeDeclaration.allFrom_nextWord, hnext, ← TypeDeclaration.allFrom_nextWord]
  beside := fun halike hc => TypeDeclaration.allFrom_beside halike style hc
  word := by
    intro c w hword hnext
    have hident : w.stop.skipTrivia.readIdent? = none := by
      rw [readIdent?]
      split
      · rfl
      · rename_i x rest hahead
        rw [hnext x (by rw [current?, hahead]; rfl)]
        rfl
    have hname : TypeDeclaration.readName? w.stop = none := by
      rw [TypeDeclaration.readName?, hident]
    have hread : TypeDeclaration.read? style w = none := by
      simp only [TypeDeclaration.read?, TypeDeclaration.readInterface?, TypeDeclaration.readAlias?,
        hname, Option.bind_eq_bind, Option.bind_none, ite_self]
    rw [TypeDeclaration.allFrom_nextWord, hword]
    dsimp only
    rw [hread]

namespace Intake

/-- What an intake statement says, wherever it stands. -/
def content (intake : Intake) : Text × Option Text := (intake.pattern, intake.ascription)

/-- What the first intake statement at or after the cursor says. -/
def contentFrom? (call : Text) (c : Cursor) : Option (Text × Option Text) :=
  (findFrom? call c).map content

end Intake

/-- The search for the intake statement. -/
theorem isSearch_contentFrom? (call : Text) :
    IsSearch (· == '{') (Intake.contentFrom? call) where
  next := fun hnext => by
    rw [Intake.contentFrom?, Intake.findFrom?_nextWord, hnext, ← Intake.findFrom?_nextWord,
      Intake.contentFrom?]
  beside := by
    intro b b' c c' halike hc
    have hfound := Intake.findFrom?_beside halike call hc
    simp only [Intake.contentFrom?]
    generalize Intake.findFrom? call c = found at hfound ⊢
    generalize Intake.findFrom? call c' = found' at hfound ⊢
    cases hfound with
    | none => rfl
    | some hsame => simp [Intake.content, hsame.1, hsame.2.1]
  word := by
    intro c w hword hnext
    have hpattern : Intake.readPattern? w.stop = none := by
      have hcurly : w.stop.skipTrivia.current? ≠ some '{' :=
        fun hcurrent => absurd (hnext '{' hcurrent) (by decide)
      simp only [Intake.readPattern?, hcurly, if_false]
    have hread : Intake.read? call w.stop = none := by
      rw [Intake.read?, hpattern]
      rfl
    rw [Intake.contentFrom?, Intake.findFrom?_nextWord, hword]
    dsimp only
    rw [hread, ite_self, Intake.contentFrom?]

end ComponentProps
