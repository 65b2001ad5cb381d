import ComponentProps.Proofs.Searches

/-!
# Where trivia and groups end

What a move over trivia and the reader of a group leave behind them is told in full here. Trivia
ends at the first character that is neither white space nor the start of a comment. A group ends at
the bracket that matches its first one or, if there is none, with the text.
-/

namespace ComponentProps

open Text

/-! ### Trivia and what ends it -/

/-- A comment that is not ended and takes in the rest of the text. -/
inductive OpenComment
  | block (inner : Text) (valid : ¬ ['*', '/'] <:+: inner)
  | line (content : Text) (valid : '\n' ∉ content)

def OpenComment.text : OpenComment → Text
  | .block inner _ => '/' :: '*' :: inner
  | .line content _ => '/' :: '/' :: content

theorem Comment.length_text_pos (c : Comment) : 0 < c.text.length := by
  cases c <;> simp [Comment.text]

namespace Text

/-- The text is not there or begins with a character that is neither white space nor the start of a
comment. -/
def BeginsVisibly (t : Text) : Prop :=
  ∀ c rest, t = c :: rest → isWhite c = false ∧ Region.comment? c rest = none

/-- White space and comments up to the end of a text. The last comment need not be ended. -/
inductive IsTrailing : Text → Prop
  | closed (w : Trivia) : IsTrailing w.text
  | opened (w : Trivia) (c : OpenComment) : IsTrailing (w.text ++ c.text)

theorem eq_append_of_after? {start t rest : Text} (h : after? start t = some rest) :
    t = start ++ rest := by
  unfold after? at h
  split at h
  · rename_i hstart
    rw [← Option.some.inj h]
    exact (List.prefix_iff_eq_append.mp (List.isPrefixOf_iff_prefix.mp hstart)).symm
  · contradiction

/-- The first sign that closes a block comment. -/
theorem exists_first_close {t : Text} (h : ['*', '/'] <:+: t) :
    ∃ inner rest, t = inner ++ '*' :: '/' :: rest ∧ ¬ ['*', '/'] <:+: inner := by
  induction t with
  | nil => simp at h
  | cons c t ih =>
      by_cases hhere : ['*', '/'] <+: c :: t
      · obtain ⟨rest, hrest⟩ := hhere
        exact ⟨[], rest, by simpa using hrest.symm, by simp⟩
      · obtain ⟨inner, rest, rfl, hinner⟩ := ih ((List.infix_cons_iff.mp h).resolve_left hhere)
        refine ⟨c :: inner, rest, rfl, fun hinside => ?_⟩
        rcases List.infix_cons_iff.mp hinside with ⟨more, hmore⟩ | hlater
        · exact hhere ⟨more ++ '*' :: '/' :: rest, by rw [← List.append_assoc, hmore]; rfl⟩
        · exact hinner hlater

theorem isBlank_nil : isBlank [] = true := rfl

end Text

namespace Trivia

def empty : Trivia := ⟨[], ⟨[], Text.isBlank_nil⟩⟩

/-- Trivia with a character of white space before it. -/
theorem exists_white_cons {c : Char} (hc : isWhite c = true) (w : Trivia) :
    ∃ w' : Trivia, w'.text = c :: w.text := by
  obtain ⟨comments, last⟩ := w
  have hblank : ∀ g : Gap, isBlank (c :: g.text) = true := fun g => by
    simpa [isBlank, hc] using g.blank
  cases comments with
  | nil => exact ⟨⟨[], ⟨c :: last.text, hblank last⟩⟩, by simp [text]⟩
  | cons x comments =>
      exact ⟨⟨(⟨c :: x.1.text, hblank x.1⟩, x.2) :: comments, last⟩, by simp [text]⟩

/-- Trivia with a comment before it. -/
theorem exists_comment_append (c : Comment) (w : Trivia) :
    ∃ w' : Trivia, w'.text = c.text ++ w.text :=
  ⟨⟨(⟨[], rfl⟩, c) :: w.comments, w.last⟩, by simp [text]⟩

end Trivia

namespace Region

/-- A slash that opens a comment opens one that is ended or goes on to the end of the text. -/
theorem exists_comment_of_comment? {c : Char} {rest : Text} {region : Region}
    (h : comment? c rest = some region) :
    (∃ (comment : Comment) (more : Text), c :: rest = comment.text ++ more) ∨
      ∃ comment : OpenComment, c :: rest = comment.text := by
  unfold comment? at h
  split at h
  · rename_i hc
    subst hc
    split at h
    · rename_i hline
      obtain ⟨t, rfl⟩ := List.head?_eq_some_iff.mp hline
      by_cases hfeed : '\n' ∈ t
      · obtain ⟨content, more, rfl, hcontent⟩ := List.eq_append_cons_of_mem hfeed
        exact Or.inl ⟨.line content hcontent, more, by simp [Comment.text]⟩
      · exact Or.inr ⟨.line t hfeed, rfl⟩
    · rename_i hblock
      obtain ⟨t, rfl⟩ := List.head?_eq_some_iff.mp hblock
      by_cases hclose : ['*', '/'] <:+: t
      · obtain ⟨inner, more, rfl, hinner⟩ := exists_first_close hclose
        exact Or.inl ⟨.block inner hinner, more, by simp [Comment.text]⟩
      · exact Or.inr ⟨.block t hclose, rfl⟩
    · contradiction
  · contradiction

end Region

namespace Cursor

theorem skipTriviaFrom_openBlock {t : Text} (h : ¬ ['*', '/'] <:+: t) (behind : Text) :
    skipTriviaFrom .blockComment behind t = ⟨t.reverse ++ behind, []⟩ := by
  induction t generalizing behind with
  | nil => rfl
  | cons c t ih =>
      have hends : ([] : Text).head? ≠ some '/' := by simp
      obtain ⟨hopen, hrest⟩ := not_closes h hends
      rw [List.append_nil] at hopen
      simp [skipTriviaFrom, Region.read, hopen, ih hrest]

/-- A comment that is not ended is passed up to the end. -/
theorem skipTrivia_openComment (c : OpenComment) (behind : Text) :
    skipTrivia ⟨behind, c.text⟩ = ⟨c.text.reverse ++ behind, []⟩ := by
  cases c with
  | block inner valid =>
      have hopen : skipTrivia ⟨behind, '/' :: '*' :: inner⟩ =
          skipTriviaFrom .blockComment ('*' :: '/' :: behind) inner := rfl
      rw [OpenComment.text, hopen, skipTriviaFrom_openBlock valid]
      simp
  | line content valid =>
      have hpass := skipTriviaFrom_passes (Region.passes_comment (.line content valid)) behind []
      rw [List.append_nil] at hpass
      exact hpass

/-- A move over trivia stops where the text begins visibly. -/
theorem skipTrivia_of_beginsVisibly {t : Text} (ht : BeginsVisibly t) (behind : Text) :
    skipTrivia ⟨behind, t⟩ = ⟨behind, t⟩ := by
  cases t with
  | nil => rfl
  | cons c rest =>
      obtain ⟨hvisible, hcomment⟩ := ht c rest rfl
      by_cases hquote : isQuote c = true ∧ Text.isEscaped behind = false
      · simp [skipTrivia, skipTriviaFrom, Region.read, hquote]
      · simp [skipTrivia, skipTriviaFrom, Region.read, hquote, hcomment, hvisible]

/-- Where a move over trivia stops: at the first visible character or at the end of the text, to
which it comes within a comment if the text does not end in trivia. -/
inductive PassesTrivia (behind : Text) : Text → Cursor → Prop
  | visible (w : Trivia) {rest : Text} (h : BeginsVisibly rest) :
      PassesTrivia behind (w.text ++ rest) ⟨w.text.reverse ++ behind, rest⟩
  | comment (w : Trivia) (c : OpenComment) :
      PassesTrivia behind (w.text ++ c.text) ⟨(w.text ++ c.text).reverse ++ behind, []⟩

/-- What can stand before all trivia can be passed before it. -/
theorem PassesTrivia.append {front behind t : Text} {stop : Cursor}
    (hfront : ∀ w : Trivia, ∃ w' : Trivia, w'.text = front ++ w.text)
    (h : PassesTrivia (front.reverse ++ behind) t stop) :
    PassesTrivia behind (front ++ t) stop := by
  cases h with
  | @visible w rest hrest =>
      obtain ⟨w', hw'⟩ := hfront w
      have hmove : PassesTrivia behind _ _ := .visible w' hrest
      rw [hw'] at hmove
      simpa using hmove
  | comment w c =>
      obtain ⟨w', hw'⟩ := hfront w
      have hmove : PassesTrivia behind _ _ := .comment w' c
      rw [hw'] at hmove
      simpa using hmove

theorem passesTrivia_skipTrivia (behind ahead : Text) :
    PassesTrivia behind ahead (skipTrivia ⟨behind, ahead⟩) := by
  induction hn : ahead.length using Nat.strong_induction_on generalizing behind ahead with
  | _ n ih =>
      cases ahead with
      | nil =>
          have hnone : BeginsVisibly [] := by simp [BeginsVisibly]
          exact .visible .empty hnone
      | cons c rest =>
          rw [List.length_cons] at hn
          by_cases hwhite : isWhite c = true
          · have hskip : skipTrivia ⟨behind, c :: rest⟩ = skipTrivia ⟨c :: behind, rest⟩ :=
              skipTrivia_blank (g := [c]) (by simp [isBlank, hwhite]) behind rest
            rw [hskip]
            have hrest : PassesTrivia ([c].reverse ++ behind) rest _ :=
              ih rest.length (by omega) (c :: behind) rest rfl
            exact hrest.append (Trivia.exists_white_cons hwhite)
          · cases hcomment : Region.comment? c rest with
            | none =>
                have hvisible : BeginsVisibly (c :: rest) := by
                  rintro d more hcons
                  obtain ⟨rfl, rfl⟩ := List.cons.inj hcons
                  exact ⟨by simpa using hwhite, hcomment⟩
                rw [skipTrivia_of_beginsVisibly hvisible]
                exact .visible .empty hvisible
            | some region =>
                obtain ⟨comment, more, hsplit⟩ | ⟨comment, hopen⟩ :=
                  Region.exists_comment_of_comment? hcomment
                · have hshorter : more.length < n := by
                    have hlength := congrArg List.length hsplit
                    have hnonempty := comment.length_text_pos
                    rw [List.length_cons, List.length_append] at hlength
                    omega
                  rw [hsplit, skipTrivia_comment]
                  exact .append (Trivia.exists_comment_append comment)
                    (ih more.length hshorter _ more rfl)
                · rw [hopen, skipTrivia_openComment]
                  exact .comment .empty comment

theorem isTrailing_of_skipTrivia_atEnd {behind ahead : Text}
    (h : (skipTrivia ⟨behind, ahead⟩).atEnd = true) : IsTrailing ahead := by
  have hpass := passesTrivia_skipTrivia behind ahead
  generalize skipTrivia ⟨behind, ahead⟩ = stop at h hpass
  cases hpass with
  | @visible w rest _ =>
      obtain rfl : rest = [] := List.isEmpty_iff.mp h
      rw [List.append_nil]
      exact .closed w
  | comment w c => exact .opened w c

theorem skipTrivia_atEnd_of_isTrailing {ahead : Text} (h : IsTrailing ahead) (behind : Text) :
    (skipTrivia ⟨behind, ahead⟩).atEnd = true := by
  cases h with
  | closed w =>
      have hskip := w.skipTrivia_append behind []
      rw [List.append_nil] at hskip
      rw [hskip]
      rfl
  | opened w c =>
      rw [w.skipTrivia_append, skipTrivia_openComment]
      rfl

end Cursor

/-! ### Groups and what ends them -/

/-- The text between two brackets that match: its literals and comments end in it, and it closes
the brackets of this kind that it opens and no other. -/
structure IsGroup (opening close : Char) (g : Text) : Prop where
  closed : Region.code.after [] g = .code
  nested : depthAfter? opening close 0 (Region.code.roles [] g) = some 0

instance (opening close : Char) (g : Text) : Decidable (IsGroup opening close g) :=
  decidable_of_iff (_ ∧ _) ⟨fun ⟨hclosed, hnested⟩ => ⟨hclosed, hnested⟩, fun h => ⟨h.1, h.2⟩⟩

/-- A text in which a bracket opened before it is never closed. -/
def IsOpenGroup (opening close : Char) (g : Text) : Prop :=
  (depthAfter? opening close 0 (Region.code.roles [] g)).isSome = true

namespace Cursor

/-- A group is read up to the bracket that matches its first one, or to the end if none does. -/
theorem readGroup_cases {opening close : Char} (hopen : IsSign opening) (hclose : IsSign close)
    (hne : opening ≠ close ∧ close ≠ '>') (hfeed : close ≠ '\n') (behind ahead : Text) :
    (∃ g rest, ahead = g ++ close :: rest ∧ IsGroup opening close g ∧
        readGroup ⟨behind, opening :: ahead⟩ opening close =
          (g, ⟨close :: (g.reverse ++ opening :: behind), rest⟩)) ∨
      IsOpenGroup opening close ahead ∧
        readGroup ⟨behind, opening :: ahead⟩ opening close =
          (ahead, ⟨ahead.reverse ++ opening :: behind, []⟩) := by
  have hfirst : (opening :: behind).head? ≠ some '\\' := (signFirst_cons behind hopen).not_escape
  have hroles : ∀ t, Region.code.roles (opening :: behind) t = Region.code.roles [] t :=
    Region.roles_behind hfirst .code []
  cases hlevel :
      GroupSign.level? 0 (GroupSign.all opening close .code (opening :: behind) ahead) with
  | none =>
      obtain ⟨g, rest, rfl, hclosed, hnested, -⟩ := exists_closer hclose hfeed hlevel
      rw [level?_signs hne.2, hroles] at hnested
      have halone : Region.code.after [] g = .code :=
        (Region.after_behind hfirst .code [] g).symm.trans hclosed
      exact .inl ⟨g, rest, rfl, ⟨halone, hnested⟩,
        readGroup_balanced hopen hclose hne halone hnested⟩
  | some final =>
      have hall := groupFrom_signs endsSlash_nil hlevel
      rw [List.append_nil, Nat.zero_add] at hall
      rw [level?_signs hne.2, hroles] at hlevel
      refine .inr ⟨?_, ?_⟩
      · rw [IsOpenGroup, hlevel]
        rfl
      · rw [readGroup_cons hopen, hall]
        simp [inFront, groupFrom]

end Cursor

end ComponentProps
