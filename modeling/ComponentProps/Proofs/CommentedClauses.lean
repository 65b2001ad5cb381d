import ComponentProps.Proofs.CommentedParts
import ComponentProps.Proofs.Spots
import Mathlib.Data.List.Forall2

/-!
# Comments in annotations and clauses

An expression of types stands in the annotation of a destructuring assignment, in the `extends`
clause of an interface or on the right side of an alias. A comment behind one of its operands is kept
in the text of that operand. Where the operand is told by its beginning alone, as a body and a name
with type arguments are, the comment makes no difference to the props of a component. Everywhere else
the text with the comment is taken for a type that is not declared.
-/

namespace ComponentProps

open Text Cursor

/-! ### Operators -/

/-- A sign behind which a word begins neither a name nor a pattern. -/
structure IsOperator (c : Char) : Prop where
  sign : IsSign c ∧ isWhite c = false
  noName : isIdentStart c = false
  noPattern : (c == '{') = false

namespace IsOperator

theorem ne_escape {c : Char} (h : IsOperator c) : c ≠ '\\' := h.sign.1.2.2.2.1

variable {separators : List Char} (h : ∀ c ∈ separators, IsOperator c)

include h

theorem all_noName : ∀ c ∈ separators, (IsSign c ∧ isWhite c = false) ∧ isIdentStart c = false :=
  fun c hc => ⟨(h c hc).sign, (h c hc).noName⟩

theorem all_noPattern : ∀ c ∈ separators, (IsSign c ∧ isWhite c = false) ∧ (c == '{') = false :=
  fun c hc => ⟨(h c hc).sign, (h c hc).noPattern⟩

end IsOperator

theorem isOperator_typeOperators : ∀ c ∈ typeOperators, IsOperator c := by
  rw [typeOperators, List.forall_mem_cons, List.forall_mem_singleton]
  exact ⟨⟨by decide, by decide, by decide⟩, ⟨by decide, by decide, by decide⟩⟩

theorem isOperator_aliasSigns : ∀ c ∈ aliasSigns, IsOperator c := by
  rw [aliasSigns, List.forall_mem_cons, List.forall_mem_singleton]
  exact ⟨⟨by decide, by decide, by decide⟩, ⟨by decide, by decide, by decide⟩⟩

theorem isOperator_comma : ∀ c ∈ [','], IsOperator c := by
  rw [List.forall_mem_singleton]
  exact ⟨by decide, by decide, by decide⟩

/-! ### Searches over the heads of statements -/

/-- An identifier is not passed over as white space or a comment. -/
theorem Identifier.isIdentChar_current? (n : Identifier) {behind t : Text} {c : Char}
    (h : (skipTrivia ⟨behind, n.text ++ t⟩).current? = some c) : isIdentChar c = true := by
  obtain ⟨first, more, htext, hstart, -⟩ := n.exists_cons
  have hident := isIdentChar_of_isIdentStart hstart
  rw [htext, List.cons_append, skipTrivia_visible
    ⟨isPlain_of_isIdentChar hident, not_isWhite_of_isIdentChar hident⟩] at h
  obtain rfl : first = c := by simpa [current?] using h
  exact hident

/-- The beginning of a destructuring assignment, up to the colon before its annotation. -/
structure AnnotationHead where
  keyword : Identifier
  isKeyword : keyword.text ∈ Intake.keywords
  gap : Trivia
  pattern : Text
  enclosed : IsEnclosed pattern
  after : Trivia

namespace AnnotationHead

def afterKeyword (head : AnnotationHead) : Text :=
  head.gap.text ++ '{' :: (head.pattern ++ '}' :: (head.after.text ++ [':']))

def text (head : AnnotationHead) : Text := head.keyword.text ++ head.afterKeyword

theorem afterKeyword_append (head : AnnotationHead) (t : Text) : head.afterKeyword ++ t =
    head.gap.text ++ '{' :: (head.pattern ++ '}' :: (head.after.text ++ ':' :: t)) := by
  simp [afterKeyword]

theorem endsWord_afterKeyword (head : AnnotationHead) (t : Text) :
    EndsWord (head.afterKeyword ++ t) := by
  rw [afterKeyword_append]
  exact head.gap.endsWord_append fun _ => (signFirst_cons _ (by decide)).endsWord

end AnnotationHead

/-- The beginning of an interface, up to the keyword of its `extends` clause. -/
structure ClauseHead where
  gap : Trivia
  name : Identifier
  after : Trivia
  apart : gap.text ≠ [] ∧ after.text ≠ []
  valid : name.text ∉ declarationWords

namespace ClauseHead

def afterKeyword (head : ClauseHead) : Text :=
  head.gap.text ++ (head.name.text ++ (head.after.text ++ Component.extendsWord.text))

def text (head : ClauseHead) : Text := Component.interfaceWord.text ++ head.afterKeyword

theorem afterKeyword_append (head : ClauseHead) (t : Text) : head.afterKeyword ++ t =
    head.gap.text ++ (head.name.text ++ (head.after.text ++ (Component.extendsWord.text ++ t))) := by
  simp [afterKeyword]

theorem reverse_afterKeyword (head : ClauseHead) (behind : Text) :
    head.afterKeyword.reverse ++ behind = Component.extendsWord.text.reverse ++
      (head.after.text.reverse ++ (head.name.text.reverse ++ (head.gap.text.reverse ++ behind))) := by
  simp [afterKeyword]

theorem endsWord_afterKeyword (head : ClauseHead) (t : Text) : EndsWord (head.afterKeyword ++ t) := by
  rw [afterKeyword_append]
  exact head.gap.endsWord_append fun hnil => absurd hnil head.apart.1

/-- The name and the keyword of the clause stand alone, whatever stands before them. -/
theorem standsAlone_behind (head : ClauseHead) (behind behind' : Text) :
    standsAlone (head.gap.text.reverse ++ behind) = true ∧
      standsAlone (head.after.text.reverse ++ behind') = true :=
  ⟨head.gap.standsAlone_append fun hnil => absurd hnil head.apart.1,
    head.after.standsAlone_append fun hnil => absurd hnil head.apart.2⟩

end ClauseHead

namespace IsSearch

variable {α : Type} {begins : Char → Bool} {search : Cursor → α} (h : IsSearch begins search)

include h

/-- A pattern in curly brackets with its colon is passed over. -/
theorem afterKeyword (head : AnnotationHead) (hpattern : IsSealed search head.pattern)
    {behind t t' : Text} (hrest : ∀ b, search ⟨':' :: b, t⟩ = search ⟨':' :: b, t'⟩) :
    search ⟨behind, head.afterKeyword ++ t⟩ = search ⟨behind, head.afterKeyword ++ t'⟩ := by
  have hcolon : IsSign ':' := by decide
  rw [head.afterKeyword_append, head.afterKeyword_append, h.passTrivia, h.passTrivia]
  refine h.group (by decide) (by decide) hpattern ?_
  rw [h.passTrivia, h.passTrivia, h.sign hcolon, h.sign hcolon, hrest]

/-- An identifier and the white space and comments behind it are passed over, unless what follows
begins a statement. -/
theorem identifierTrivia (n : Identifier) (gap : Trivia) {behind t : Text}
    (hb : standsAlone behind = true) (hends : gap.text = [] → EndsWord t)
    (hnext : ∀ b c, (skipTrivia ⟨b, t⟩).current? = some c → begins c = false) :
    search ⟨behind, n.text ++ (gap.text ++ t)⟩ =
      search ⟨gap.text.reverse ++ (n.text.reverse ++ behind), t⟩ := by
  rw [h.identifier n hb (gap.endsWord_append hends) fun c hc => ?_, h.passTrivia]
  rw [gap.skipTrivia_append] at hc
  exact hnext _ c hc

end IsSearch

/-! ### Annotations -/

theorem isBlank_none : isBlank [] = true := rfl

/-- No white space. -/
def Gap.none : Gap := ⟨[], isBlank_none⟩

@[simp] theorem Gap.text_none : Gap.none.text = [] := rfl

namespace Spot

variable {separators : List Char}

/-- The expression without the white space before it. -/
def flush (s : Spot separators) : Spot separators := { s with lead := .none }

theorem print_eq_flush (s : Spot separators) : s.print = s.lead.text ++ s.flush.print := rfl

/-- An expression begins with the first character of an operand. -/
theorem exists_first (s : Spot separators) (t : Text) :
    ∃ c more, s.flush.print ++ t = c :: more ∧ (IsPlain c ∧ isWhite c = false) ∧
      ((∃ x ∈ s.links, x.operand.isBody = true) ∧ c = '{' ∨ isIdentChar c = true) := by
  obtain ⟨x, hx, u, hprint⟩ : ∃ x ∈ s.links, ∃ u, s.flush.print ++ t = x.operand.print ++ u := by
    cases hfront : s.front with
    | nil =>
        refine ⟨s.link, by simp [links], s.link.pad ++ s.link.sign :: (s.link.after.text ++ t), ?_⟩
        simp [flush, print, links, hfront, NotedLink.printAll, NotedLink.print]
    | cons x front =>
        refine ⟨x, by simp [links, hfront], x.pad ++ x.sign :: (x.after.text ++
          (NotedLink.printAll (front ++ [s.link]) ++ t)), ?_⟩
        simp [flush, print, links, hfront, NotedLink.printAll, NotedLink.print]
  obtain ⟨c, more, hcons, hplain, hwhite, hkind⟩ := x.operand.exists_first
  refine ⟨c, more ++ u, by rw [hprint, hcons, List.cons_append], ⟨hplain, hwhite⟩, ?_⟩
  rcases hkind with ⟨hbody, rfl⟩ | hident
  · exact Or.inl ⟨⟨x, hx, hbody⟩, rfl⟩
  · exact Or.inr hident

theorem signFirst_print (s : Spot separators) (hlead : s.lead.text ≠ []) (t : Text) :
    SignFirst (s.print ++ t) := by
  obtain ⟨c, more, hcons⟩ := List.exists_cons_of_ne_nil hlead
  have hwhite := List.all_eq_true.mp s.lead.blank c (by simp [hcons])
  rw [print_eq_flush, hcons]
  exact signFirst_cons _ (isSign_of_isWhite hwhite)

/-- Without bodies an expression begins with an identifier. -/
theorem isIdentChar_current? (s : Spot separators) (hs : ∀ x ∈ s.links, x.operand.isBody = false)
    {behind t : Text} {c : Char} (h : (skipTrivia ⟨behind, s.print ++ t⟩).current? = some c) :
    isIdentChar c = true := by
  obtain ⟨d, more, hcons, hvisible, hkind⟩ := s.exists_first t
  rw [print_eq_flush, List.append_assoc, skipTrivia_blank s.lead.blank, hcons,
    skipTrivia_visible hvisible] at h
  obtain rfl : d = c := by simpa [current?] using h
  rcases hkind with ⟨⟨x, hx, hbody⟩, -⟩ | hident
  · exact absurd hbody (by simp [hs x hx])
  · exact hident

theorem isBody_plain (s : Spot separators) (hs : ∀ x ∈ s.links, x.operand.isBody = false) :
    ∀ x ∈ s.plain.links, x.operand.isBody = false := by
  intro x hx
  rw [plain_links, List.mem_append, List.mem_singleton] at hx
  rcases hx with hx | rfl
  · exact hs x (List.mem_append_left _ hx)
  · exact hs s.link (by simp [links])

/-- A search that begins behind a word finds the same with the comment and without it, if white space
follows the word. -/
theorem search_apart {α : Type} {begins : Char → Bool} {search : Cursor → α}
    (h : IsSearch begins search) (hangle : begins '<' = false)
    (hsigns : ∀ c ∈ separators, (IsSign c ∧ isWhite c = false) ∧ begins c = false)
    {s : Spot separators} (hlead : s.lead.text ≠ [])
    (hlinks : ∀ x ∈ s.links, x.operand.IsSealed search) (behind rest : Text) :
    search ⟨behind, s.print ++ rest⟩ = search ⟨behind, s.plain.print ++ rest⟩ := by
  obtain ⟨c, more, hcons⟩ := List.exists_cons_of_ne_nil (List.reverse_ne_nil_iff.mpr hlead)
  have hwhite := List.all_eq_true.mp (isBlank_reverse s.lead.blank) c (by simp [hcons])
  have halone : standsAlone (s.lead.text.reverse ++ behind) = true := by
    rw [hcons]
    exact standsAlone_sign (isSign_of_isWhite hwhite) _
  have hprint : s.plain.print = s.lead.text ++ s.flush.plain.print := rfl
  rw [print_eq_flush, hprint, List.append_assoc, List.append_assoc, h.gap, h.gap]
  exact search_plain (s := s.flush) h hangle hsigns hlinks halone rest

theorem trimmed?_print (s : Spot separators) (t : Text) :
    trimmed? (s.print ++ t) = some (trimEnd (s.flush.print ++ t)) := by
  obtain ⟨c, more, hcons, ⟨-, hwhite⟩, -⟩ := s.exists_first t
  rw [print_eq_flush, List.append_assoc, trimmed?_blank_append s.lead.blank, hcons, trimmed?, trim,
    trimStart, List.dropWhile_cons_of_neg (by simp [hwhite]), trimEnd_cons hwhite]

section

variable (hsep : ∀ c ∈ separators, IsSeparator c) {s : Spot separators} (hsign : s.link.sign ≠ '\\')
  (t : Text)

include hsep hsign

theorem topLevelParts_plain : topLevelParts separators (s.plain.print ++ t) =
    s.front.map NotedLink.part ++
      s.link.operand.print :: partsFrom separators [s.link.sign] (s.link.after.text ++ t) := by
  have hplain : topLevelParts separators (s.plain.print ++ t) = _ :=
    topLevelParts_print hsep s.plain hsign t
  rwa [part_plain] at hplain

/-- The parts of the expression with the comment and of that without it are resolved alike if the
operand before the comment is. -/
theorem forall₂_topLevelParts {style : Member.Style} {table : TypeTable}
    (hlink : Alike style table s.link.part s.link.operand.print) :
    List.Forall₂ (Alike style table) (topLevelParts separators (s.print ++ t))
      (topLevelParts separators (s.plain.print ++ t)) := by
  have hsame : ∀ ps, List.Forall₂ (Alike style table) ps ps :=
    fun ps => List.forall₂_same.mpr fun part _ => .same part
  rw [topLevelParts_print hsep s hsign, topLevelParts_plain hsep hsign]
  exact List.rel_append (hsame _) (.cons hlink (hsame _))

/-- The parts are the same once the one with the comment is replaced. -/
theorem map_replace_topLevelParts :
    (topLevelParts separators (s.print ++ t)).map (replace s.link.part s.link.operand.print) =
      (topLevelParts separators (s.plain.print ++ t)).map
        (replace s.link.part s.link.operand.print) := by
  rw [topLevelParts_print hsep s hsign, topLevelParts_plain hsep hsign, List.map_append,
    List.map_append, List.map_cons, List.map_cons, replace_self, replace_target]

end

end Spot

/-- Two annotations whose parts are resolved alike. -/
def AnnotationsAlike (style : Member.Style) (table : TypeTable) : Option Text → Option Text → Prop :=
  Option.Rel fun t t' => List.Forall₂ (Alike style table) (topLevelParts typeOperators t)
    (topLevelParts typeOperators t')

theorem annotationsAlike_refl (style : Member.Style) (table : TypeTable) (a : Option Text) :
    AnnotationsAlike style table a a := by
  cases a with
  | none => exact .none
  | some t => exact .some (List.forall₂_same.mpr fun part _ => .same part)

namespace Intake

theorem isSeparator_typeOperators : ∀ c ∈ typeOperators, IsSeparator c ∧ c ∉ delimiters := by
  rw [typeOperators, List.forall_mem_cons, List.forall_mem_singleton]
  exact ⟨by decide, by decide⟩

theorem endsAscription_plain (taken behind : Text) (c : Char) (rest : Text)
    (hc : c ∉ delimiters) : endsAscription taken ⟨behind, c :: rest⟩ = false := by
  simp only [delimiters, List.mem_cons, List.not_mem_nil, or_false, not_or] at hc
  simp [endsAscription, hc]

theorem isCaptured_endsAscription (s : Spot typeOperators) : s.IsCaptured endsAscription :=
  Spot.isCaptured_of_lines isSeparator_typeOperators endsAscription_plain (fun _ _ _ => rfl)
    fun _ _ _ _ _ _ => rfl

/-- The text behind a pattern and its colon, nearest first. -/
def behindColon (head : AnnotationHead) (behind : Text) : Text :=
  ':' :: (head.after.text.reverse ++ '}' :: (head.pattern.reverse ++ '{' ::
    (head.gap.text.reverse ++ behind)))

/-- A statement with an annotation says what its pattern and its annotation are, if a call follows. -/
theorem read?_assignment (call : Text) (head : AnnotationHead) (behind t : Text) :
    read? call ⟨behind, head.afterKeyword ++ t⟩ =
      (readCall? call (capture ⟨behindColon head behind, t⟩ endsAscription).2).map fun p =>
        (head.pattern, (trimmed? (capture ⟨behindColon head behind, t⟩ endsAscription).1).or p.1,
          p.2) := by
  have hpattern : readPattern? ⟨behind, head.afterKeyword ++ t⟩ = some (head.pattern, ⟨'}' ::
      (head.pattern.reverse ++ '{' :: (head.gap.text.reverse ++ behind)),
        head.after.text ++ ':' :: t⟩) := by
    rw [head.afterKeyword_append, readPattern?, head.gap.skipTrivia_append,
      skipTrivia_visible (by decide), readGroup_balanced (by decide) (by decide) (by decide)
        head.enclosed.closed head.enclosed.curly]
    rfl
  have hascription : ∀ b, readAscription ⟨b, head.after.text ++ ':' :: t⟩ =
      (trimmed? (capture ⟨':' :: (head.after.text.reverse ++ b), t⟩ endsAscription).1,
        (capture ⟨':' :: (head.after.text.reverse ++ b), t⟩ endsAscription).2) := by
    intro b
    rw [readAscription, head.after.skipTrivia_append, skipTrivia_visible (by decide)]
    rfl
  rw [read?_eq, hpattern, Option.bind_some, hascription]
  rfl

theorem contentFrom?_keyword {call : Text} {keyword : Identifier} (hkeyword : keyword.text ∈ keywords)
    {behind t : Text} (hb : standsAlone behind = true) (ht : EndsWord t) :
    contentFrom? call ⟨behind, keyword.text ++ t⟩ =
      ((read? call ⟨keyword.text.reverse ++ behind, t⟩).map fun p => (p.1, p.2.1)).or
        (contentFrom? call ⟨keyword.text.reverse ++ behind, t⟩) := by
  rw [contentFrom?, findFrom?_nextWord, nextWord?_identifier keyword hb ht]
  dsimp only
  rw [if_pos hkeyword]
  cases read? call ⟨keyword.text.reverse ++ behind, t⟩ <;> rfl

/-- A statement says the same with the comment and without it, up to parts of its annotation that
are resolved alike. -/
theorem contentFrom?_assignment {style : Member.Style} {table : TypeTable} {call : Text}
    (head : AnnotationHead) (hpattern : IsSealed (contentFrom? call) head.pattern)
    {s : Spot typeOperators} (hs : ∀ x ∈ s.links, x.operand.IsSealed (contentFrom? call))
    (halike : Alike style table s.link.part s.link.operand.print) {behind : Text}
    (hb : standsAlone behind = true) (rest : Text) :
    Option.Rel (fun x y => x.1 = y.1 ∧ AnnotationsAlike style table x.2 y.2)
      (contentFrom? call ⟨behind, head.text ++ (s.print ++ rest)⟩)
      (contentFrom? call ⟨behind, head.text ++ (s.plain.print ++ rest)⟩) := by
  have hsearch := isSearch_contentFrom? call
  have hsign : s.link.sign ≠ '\\' := (isOperator_typeOperators _ s.link.valid).ne_escape
  obtain ⟨more, place, place', hcapture, hplain, hplace⟩ := Spot.exists_capture
    (fun _ _ _ _ _ _ _ _ => rfl) hsign (isCaptured_endsAscription s)
    (isCaptured_endsAscription s.plain) (behindColon head (head.keyword.text.reverse ++ behind)) rest
  have hcall := readCall?_beside (looksAlike_cons hsign _ _) call hplace
  have hlater : contentFrom? call ⟨head.keyword.text.reverse ++ behind,
      head.afterKeyword ++ (s.print ++ rest)⟩ = contentFrom? call
        ⟨head.keyword.text.reverse ++ behind, head.afterKeyword ++ (s.plain.print ++ rest)⟩ := by
    refine hsearch.afterKeyword head hpattern fun b => ?_
    exact Spot.search_plain hsearch (by decide) (IsOperator.all_noPattern isOperator_typeOperators) hs
      (standsAlone_sign (by decide) b) rest
  rw [AnnotationHead.text, List.append_assoc, List.append_assoc,
    contentFrom?_keyword head.isKeyword hb (head.endsWord_afterKeyword _),
    contentFrom?_keyword head.isKeyword hb (head.endsWord_afterKeyword _),
    read?_assignment, read?_assignment, hcapture, hplain, hlater]
  generalize readCall? call place = r at hcall ⊢
  generalize readCall? call place' = r' at hcall ⊢
  cases hcall with
  | none =>
      cases contentFrom? call ⟨head.keyword.text.reverse ++ behind,
          head.afterKeyword ++ (s.plain.print ++ rest)⟩ with
      | none => exact .none
      | some x => exact .some ⟨rfl, annotationsAlike_refl style table x.2⟩
  | some _ =>
      have hsep : ∀ c ∈ typeOperators, IsSeparator c :=
        fun c hc => (isSeparator_typeOperators c hc).1
      refine .some ⟨rfl, ?_⟩
      dsimp only
      rw [Spot.trimmed?_print, Spot.trimmed?_print]
      refine .some ?_
      rw [topLevelParts_trimEnd hsep, topLevelParts_trimEnd hsep]
      exact Spot.forall₂_topLevelParts (s := s.flush) hsep hsign more halike

end Intake

/-! ### Clauses -/

namespace TypeDeclaration

variable {style : Member.Style}

/-- A search goes on behind the declaration that a word begins, or behind the word. -/
theorem allFrom_word (n : Identifier) {behind t : Text} (hb : standsAlone behind = true)
    (ht : EndsWord t) :
    allFrom style ⟨behind, n.text ++ t⟩ =
      (read? style ⟨n.text, ⟨behind, n.text ++ t⟩, ⟨n.text.reverse ++ behind, t⟩⟩).elim
        (allFrom style ⟨n.text.reverse ++ behind, t⟩) fun p => p.1 :: allFrom style p.2 := by
  rw [allFrom_nextWord, nextWord?_identifier n hb ht]
  dsimp only
  cases read? style ⟨n.text, ⟨behind, n.text ++ t⟩, ⟨n.text.reverse ++ behind, t⟩⟩ <;> rfl

theorem allFrom_other {n : Identifier} (hn : n.text ∉ declarationWords) {behind t : Text}
    (hb : standsAlone behind = true) (ht : EndsWord t) :
    allFrom style ⟨behind, n.text ++ t⟩ = allFrom style ⟨n.text.reverse ++ behind, t⟩ := by
  rw [allFrom_word n hb ht, read?_of_not_mem hn]
  rfl

/-- The declarations found beside an annotation are the same with the comment and without it. -/
theorem allFrom_assignment (head : AnnotationHead) (hpattern : IsSealed (allFrom style) head.pattern)
    {s : Spot typeOperators} (hs : ∀ x ∈ s.links, x.operand.IsSealed (allFrom style))
    {behind : Text} (hb : standsAlone behind = true) (rest : Text) :
    allFrom style ⟨behind, head.text ++ (s.print ++ rest)⟩ =
      allFrom style ⟨behind, head.text ++ (s.plain.print ++ rest)⟩ := by
  have hsearch := isSearch_allFrom style
  have hother : head.keyword.text ∉ declarationWords := by
    have hapart : ∀ w ∈ Intake.keywords, w ∉ declarationWords := by decide
    exact hapart _ head.isKeyword
  rw [AnnotationHead.text, List.append_assoc, List.append_assoc,
    allFrom_other hother hb (head.endsWord_afterKeyword _),
    allFrom_other hother hb (head.endsWord_afterKeyword _)]
  refine hsearch.afterKeyword head hpattern fun b => ?_
  exact Spot.search_plain hsearch (by decide) (IsOperator.all_noName isOperator_typeOperators) hs
    (standsAlone_sign (by decide) b) rest

/-- A declared name is read up to what stands behind it. -/
theorem readName?_trivia (gap after : Trivia) (name : Identifier) {c : Char}
    (hc : (IsPlain c ∧ isWhite c = false) ∧ c ≠ '<')
    (hends : after.text = [] → isIdentChar c = false) (behind t : Text) :
    readName? ⟨behind, gap.text ++ (name.text ++ (after.text ++ c :: t))⟩ =
      some (name.text, ⟨after.text.reverse ++ (name.text.reverse ++ (gap.text.reverse ++ behind)),
        c :: t⟩) := by
  have hword : EndsWord (after.text ++ c :: t) := by
    refine after.endsWord_append fun hnil d hd => ?_
    obtain rfl : c = d := by simpa using hd
    exact hends hnil
  obtain ⟨first, more, htext, hstart, -⟩ := name.exists_cons
  have hident := isIdentChar_of_isIdentStart hstart
  have hfirst : IsPlain first ∧ isWhite first = false :=
    ⟨isPlain_of_isIdentChar hident, not_isWhite_of_isIdentChar hident⟩
  have hskip : ∀ b, skipTrivia ⟨b, name.text ++ (after.text ++ c :: t)⟩ =
      ⟨b, name.text ++ (after.text ++ c :: t)⟩ := by
    intro b
    rw [htext, List.cons_append, skipTrivia_visible hfirst]
  rw [readName?, gap.skipTrivia_append, hskip, readIdent?_of_endsWord name hword]
  dsimp only
  rw [after.skipTrivia_append, skipTrivia_visible hc.1, if_neg (by simpa [current?] using hc.2)]

end TypeDeclaration

namespace TypeDefinition

/-- Parents that a replacement makes the same. -/
theorem replaceParent_of_map_eq {p q : Text} {xs ys : List Text}
    (h : xs.map (replace p q) = ys.map (replace p q)) (members : OrderedMap Text Member) :
    (TypeDefinition.mk members (xs.foldl addNew [])).replaceParent p q =
      (TypeDefinition.mk members (ys.foldl addNew [])).replaceParent p q := by
  simp only [replaceParent, TypeDefinition.mk.injEq, true_and]
  rw [eraseDups_map_foldl_addNew, eraseDups_map_foldl_addNew, List.nil_append, List.nil_append, h]

end TypeDefinition

namespace TypeDeclaration

variable {style : Member.Style}

/-- An `extends` clause ends at the body. -/
def endsClause (_ : Text) (c : Cursor) : Bool := c.current? == some '{'

theorem isSeparator_comma : ∀ c ∈ [','], IsSeparator c ∧ c ∉ delimiters := by
  rw [List.forall_mem_singleton]
  decide

theorem isCaptured_endsClause {s : Spot [',']} (hs : ∀ x ∈ s.links, x.operand.isBody = false) :
    s.IsCaptured endsClause := by
  refine Spot.isCaptured_of_lines isSeparator_comma (fun _ _ c _ hc => ?_) (fun _ _ _ => rfl)
    fun x hx hbody => absurd hbody (by simp [hs x hx])
  simp only [delimiters, List.mem_cons, List.not_mem_nil, or_false, not_or] at hc
  simp [endsClause, current?, hc]

/-- What an interface declares, given the place behind the keyword of its clause. It has to have a
body. -/
def clauseAt? (style : Member.Style) (name : Text) (c : Cursor) :
    Option (TypeDeclaration × Cursor) :=
  let (clause, place) := c.capture endsClause
  if place.current? = some '{' then
    let (body, stop) := place.readGroup '{' '}'
    some (⟨name, ⟨Member.scan style body, (topLevelParts [','] clause).foldl addNew []⟩⟩, stop)
  else none

theorem readInterface?_clause (head : ClauseHead) {t : Text} (ht : SignFirst t) (behind : Text) :
    readInterface? style ⟨behind, head.afterKeyword ++ t⟩ =
      clauseAt? style head.name.text ⟨head.afterKeyword.reverse ++ behind, t⟩ := by
  have hname : readName? ⟨behind, head.afterKeyword ++ t⟩ = some (head.name.text,
      ⟨head.after.text.reverse ++ (head.name.text.reverse ++ (head.gap.text.reverse ++ behind)),
        Component.extendsWord.text ++ t⟩) := by
    rw [head.afterKeyword_append]
    exact readName?_trivia head.gap head.after head.name (by decide)
      (fun hnil => absurd hnil head.apart.2) behind _
  have hextends : ∀ b, readExtends ⟨b, Component.extendsWord.text ++ t⟩ =
      ((topLevelParts [','] (capture ⟨Component.extendsWord.text.reverse ++ b, t⟩ endsClause).1).foldl
        addNew [], (capture ⟨Component.extendsWord.text.reverse ++ b, t⟩ endsClause).2) := by
    intro b
    have hword : atWord ⟨b, Component.extendsWord.text ++ t⟩ "extends".toList = true :=
      atWord_identifier Component.extendsWord ht
    have hplace : advanceBy ⟨b, Component.extendsWord.text ++ t⟩ "extends".length =
        ⟨Component.extendsWord.text.reverse ++ b, t⟩ :=
      advanceBy_length b Component.extendsWord.text t
    rw [readExtends, if_pos hword, hplace]
    rfl
  rw [readInterface?, hname, head.reverse_afterKeyword]
  simp only [Option.bind_eq_bind, Option.bind_some, hextends]
  rfl

/-- An interface declares the same with the comment and without it, up to the parent with the
comment. -/
theorem clauseAt?_plain (style : Member.Style) {s : Spot [',']}
    (hs : ∀ x ∈ s.links, x.operand.isBody = false) (name behind rest : Text) :
    ∃ b b', LooksAlike b b' ∧ Option.Rel (fun x y =>
        x.1.replaceParent s.link.part s.link.operand.print =
          y.1.replaceParent s.link.part s.link.operand.print ∧ Beside b b' x.2 y.2)
      (clauseAt? style name ⟨behind, s.print ++ rest⟩)
      (clauseAt? style name ⟨behind, s.plain.print ++ rest⟩) := by
  have hsign : s.link.sign ≠ '\\' := (isOperator_comma _ s.link.valid).ne_escape
  obtain ⟨more, place, place', hcapture, hcapture', hplace⟩ := Spot.exists_capture
    (fun _ _ _ _ _ _ _ _ => rfl) hsign (isCaptured_endsClause hs)
    (isCaptured_endsClause (s.isBody_plain hs)) behind rest
  have halike := looksAlike_cons hsign (s.beforeSign.reverse ++ behind)
    (s.plain.beforeSign.reverse ++ behind)
  obtain ⟨hbody, hstop⟩ := hplace.readGroup halike '{' '}'
  refine ⟨_, _, halike, ?_⟩
  simp only [clauseAt?, hcapture, hcapture', hplace.current?, hbody]
  split
  · refine .some ⟨?_, hstop⟩
    have hparts := Spot.map_replace_topLevelParts (fun c hc => (isSeparator_comma c hc).1) hsign more
    rw [replaceParent, replaceParent, TypeDefinition.replaceParent_of_map_eq hparts]
  · exact .none

/-- A search goes on behind the interface that a clause belongs to. Without a body there is none, and
the search goes on behind the keyword of the clause. -/
theorem allFrom_clauseHead (head : ClauseHead) {behind t : Text} (hb : standsAlone behind = true)
    (ht : SignFirst t) :
    allFrom style ⟨behind, head.text ++ t⟩ =
      (clauseAt? style head.name.text ⟨head.text.reverse ++ behind, t⟩).elim
        (allFrom style ⟨head.text.reverse ++ behind, t⟩) fun p => p.1 :: allFrom style p.2 := by
  have hsearch := isSearch_allFrom style
  have hlater : ∀ b, allFrom style ⟨b, head.afterKeyword ++ t⟩ =
      allFrom style ⟨head.afterKeyword.reverse ++ b, t⟩ := by
    intro b
    obtain ⟨hname, hextends⟩ := head.standsAlone_behind b
      (head.name.text.reverse ++ (head.gap.text.reverse ++ b))
    rw [head.afterKeyword_append, head.reverse_afterKeyword, hsearch.passTrivia,
      allFrom_other head.valid hname (head.after.endsWord_append fun hnil =>
        absurd hnil head.apart.2), hsearch.passTrivia,
      allFrom_other (by decide) hextends ht.endsWord]
  have hreverse : head.text.reverse ++ behind =
      head.afterKeyword.reverse ++ (Component.interfaceWord.text.reverse ++ behind) := by
    simp [ClauseHead.text]
  rw [ClauseHead.text, List.append_assoc, allFrom_word _ hb (head.endsWord_afterKeyword t),
    ← ClauseHead.text, hreverse, ← readInterface?_clause head ht, hlater]
  exact congrArg (fun p => Option.elim p _ _) (read?_interface _ _)

/-- The declarations found are the same with the comment and without it, up to the parent with the
comment. -/
theorem allFrom_clause (head : ClauseHead) {s : Spot [',']} (hlead : s.lead.text ≠ [])
    (hbody : ∀ x ∈ s.links, x.operand.isBody = false)
    (hs : ∀ x ∈ s.links, x.operand.IsSealed (allFrom style)) {behind : Text}
    (hb : standsAlone behind = true) (rest : Text) :
    (allFrom style ⟨behind, head.text ++ (s.print ++ rest)⟩).map
        (·.replaceParent s.link.part s.link.operand.print) =
      (allFrom style ⟨behind, head.text ++ (s.plain.print ++ rest)⟩).map
        (·.replaceParent s.link.part s.link.operand.print) := by
  obtain ⟨b, b', halike, hclause⟩ := clauseAt?_plain style hbody head.name.text
    (head.text.reverse ++ behind) rest
  rw [allFrom_clauseHead head hb (s.signFirst_print hlead rest),
    allFrom_clauseHead head hb (s.plain.signFirst_print hlead rest)]
  generalize clauseAt? style head.name.text ⟨head.text.reverse ++ behind, s.print ++ rest⟩ = found
    at hclause ⊢
  generalize clauseAt? style head.name.text ⟨head.text.reverse ++ behind, s.plain.print ++ rest⟩ =
    found' at hclause ⊢
  cases hclause with
  | none =>
      simp only [Option.elim_none]
      rw [Spot.search_apart (isSearch_allFrom style) (by decide)
        (IsOperator.all_noName isOperator_comma) hlead hs]
  | some hsame =>
      simp only [Option.elim_some, List.map_cons]
      rw [hsame.1, allFrom_beside halike style hsame.2]

end TypeDeclaration

namespace Intake

/-- The statement that hands over the props is the same with the comment and without it. -/
theorem contentFrom?_clause {call : Text} (head : ClauseHead) {s : Spot [',']}
    (hlead : s.lead.text ≠ []) (hbody : ∀ x ∈ s.links, x.operand.isBody = false)
    (hs : ∀ x ∈ s.links, x.operand.IsSealed (contentFrom? call)) {behind : Text}
    (hb : standsAlone behind = true) (rest : Text) :
    contentFrom? call ⟨behind, head.text ++ (s.print ++ rest)⟩ =
      contentFrom? call ⟨behind, head.text ++ (s.plain.print ++ rest)⟩ := by
  have hsearch := isSearch_contentFrom? call
  have hident : ∀ c, isIdentChar c = true → (c == '{') = false :=
    fun c hc => beq_eq_false_iff_ne.mpr (ne_of_kind hc rfl)
  have hhead : ∀ t : Spot [','], t.lead.text ≠ [] → (∀ x ∈ t.links, x.operand.isBody = false) →
      contentFrom? call ⟨behind, head.text ++ (t.print ++ rest)⟩ =
        contentFrom? call ⟨head.text.reverse ++ behind, t.print ++ rest⟩ := by
    intro t hlead hbody
    obtain ⟨hname, hextends⟩ := head.standsAlone_behind (Component.interfaceWord.text.reverse ++ behind)
      (head.name.text.reverse ++ (head.gap.text.reverse ++
        (Component.interfaceWord.text.reverse ++ behind)))
    rw [ClauseHead.text, List.append_assoc, head.afterKeyword_append,
      hsearch.identifierTrivia _ head.gap hb (fun hnil => absurd hnil head.apart.1)
        fun b c hc => hident c (head.name.isIdentChar_current? hc),
      hsearch.identifierTrivia _ head.after hname (fun hnil => absurd hnil head.apart.2)
        fun b c hc => hident c (Component.extendsWord.isIdentChar_current? hc),
      hsearch.identifier _ hextends (t.signFirst_print hlead rest).endsWord
        fun c hc => hident c (t.isIdentChar_current? hbody hc)]
    simp [ClauseHead.afterKeyword]
  rw [hhead s hlead hbody, hhead s.plain hlead (s.isBody_plain hbody),
    Spot.search_apart hsearch (by decide) (IsOperator.all_noPattern isOperator_comma) hlead hs]

end Intake

end ComponentProps
