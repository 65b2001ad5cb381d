import ComponentProps.Proofs.LikeParts
import ComponentProps.Proofs.Links
import ComponentProps.Proofs.MemberComposition

/-!
# Parts with a comment

A comment behind an operand becomes part of its text. A name with type arguments is told by the text
before its arguments, so it names the same local type. A body is told by its opening bracket, so its
closing bracket and the comment are scanned with it: the bracket ends the member being read, and no
member begins in the comment. A plain name is told by its whole text, which names no local type any
more.
-/

namespace ComponentProps

open Text

namespace Member

variable {style : Style}

namespace Scan

theorem run_blockComment {inner : Text} (h : ¬ ['*', '/'] <:+: inner) (behind rest : Text)
    (pending : Option Text) (members : OrderedMap Text Member) :
    run style ⟨⟨behind, inner ++ '*' :: '/' :: rest⟩, .blockComment, pending, members⟩ =
      run style ⟨⟨'/' :: '*' :: (inner.reverse ++ behind), rest⟩, .seeking, pending, members⟩ := by
  induction inner generalizing behind with
  | nil => exact run_step (by simp)
  | cons c inner ih =>
      obtain ⟨hopen, hinner⟩ := not_closes h (show ('*' :: '/' :: rest).head? ≠ some '/' by simp)
      have hstep : step style ⟨⟨behind, c :: (inner ++ '*' :: '/' :: rest)⟩, .blockComment, pending,
          members⟩ = ⟨⟨c :: behind, inner ++ '*' :: '/' :: rest⟩, .blockComment, pending, members⟩ := by
        simp only [step, stepBlockComment, hopen]
        rfl
      rw [List.cons_append, run_step (by simp), hstep, ih hinner]
      simp

theorem run_lineComment {content : Text} (h : '\n' ∉ content) (behind : Text)
    (pending : Option Text) (members : OrderedMap Text Member) :
    run style ⟨⟨behind, content⟩, .lineComment, pending, members⟩ =
      ⟨⟨content.reverse ++ behind, []⟩, .lineComment, pending, members⟩ := by
  induction content generalizing behind with
  | nil => exact run_end rfl
  | cons c content ih =>
      rw [List.mem_cons, not_or] at h
      have hstep : step style ⟨⟨behind, c :: content⟩, .lineComment, pending, members⟩ =
          ⟨⟨c :: behind, content⟩, .lineComment, pending, members⟩ := by
        simp only [step, if_neg (Ne.symm h.1)]
        rfl
      rw [run_step (by simp), hstep, ih h.2]
      simp

/-- No member begins in the text. -/
def IsVoid (style : Style) (t : Text) : Prop :=
  ∀ behind pending members,
    (run style ⟨⟨behind, t⟩, .seeking, pending, members⟩).finish style = members

theorem IsVoid.gap {t g : Text} (ht : IsVoid style t) (hg : isBlank g = true) :
    IsVoid style (g ++ t) := by
  intro behind pending members
  rw [run_gap hg]
  exact ht _ _ _

theorem isVoid_line {content : Text} (h : '\n' ∉ content) :
    IsVoid style ('/' :: '/' :: content) := by
  intro behind pending members
  have hstep : step style ⟨⟨behind, '/' :: '/' :: content⟩, .seeking, pending, members⟩ =
      ⟨⟨'/' :: '/' :: behind, content⟩, .lineComment, pending, members⟩ := rfl
  rw [run_step (by simp), hstep, run_lineComment h]
  rfl

theorem isVoid_block {inner : Text} (h : ¬ ['*', '/'] <:+: inner) :
    IsVoid style ('/' :: '*' :: (inner ++ ['*', '/'])) := by
  intro behind pending members
  by_cases hdoc : ∃ more, inner = '*' :: more
  · -- The comment is read as a doc comment, for which no member follows.
    obtain ⟨more, rfl⟩ := hdoc
    obtain ⟨hthird, hmore⟩ := not_closes h (show ['*', '/'].head? ≠ some '/' by simp)
    have hopen : step style ⟨⟨behind, '/' :: '*' :: '*' :: (more ++ ['*', '/'])⟩, .seeking, pending,
        members⟩ = ⟨⟨'*' :: '*' :: '/' :: behind, more ++ ['*', '/']⟩, .docComment [], pending,
          members⟩ := by
      have hwhite : isWhite '/' = false := by decide
      simp only [step, stepSeeking, hwhite]
      rw [if_neg (by decide), if_pos]
      · rfl
      · simpa [List.head?_eq_getElem?] using hthird
    have hclose : ∀ behind raw, step style ⟨⟨behind, ['*', '/']⟩, .docComment raw, pending,
        members⟩ = ⟨⟨'/' :: '*' :: behind, []⟩, .seeking, docText? style raw.reverse, members⟩ :=
      fun _ _ => rfl
    rw [List.cons_append, run_step (by simp), hopen, run_comment hmore (by simp),
      run_step (by simp), hclose, run_end rfl]
    rfl
  · have hopen : step style ⟨⟨behind, '/' :: '*' :: (inner ++ ['*', '/'])⟩, .seeking, pending,
        members⟩ = ⟨⟨'*' :: '/' :: behind, inner ++ ['*', '/']⟩, .blockComment, pending,
          members⟩ := by
      have hwhite : isWhite '/' = false := by decide
      cases inner with
      | nil => rfl
      | cons c inner =>
          have hc : c ≠ '*' := fun heq => hdoc ⟨inner, by rw [heq]⟩
          simp only [step, stepSeeking, hwhite]
          rw [if_neg (by decide), if_neg, if_pos (by simp)]
          · rfl
          · simp [List.isPrefixOf, Ne.symm hc]
    rw [run_step (by simp), hopen, run_blockComment h, run_end rfl]
    rfl

/-- A bracket that closes nothing ends the member being read. -/
theorem run_bracket (style : Style) {s : Scan} (h : s.IsClosed) (t : Text) :
    ∃ pending, run style ⟨⟨s.cursor.behind, '}' :: t⟩, s.mode, s.pending, s.members⟩ =
      run style ⟨⟨'}' :: s.cursor.behind, t⟩, .seeking, pending, s.finish style⟩ := by
  obtain ⟨⟨behind, ahead⟩, mode, pending, members⟩ := s
  have hseeking : ∀ pending members, run style ⟨⟨behind, '}' :: t⟩, .seeking, pending, members⟩ =
      run style ⟨⟨'}' :: behind, t⟩, .seeking, pending, members⟩ := fun _ _ => run_step (by simp)
  have htype : ∀ d : Draft, d.region = .code → d.nesting.depth = 0 →
      step style ⟨⟨behind, '}' :: t⟩, .type d, pending, members⟩ =
        ⟨⟨behind, '}' :: t⟩, .seeking, none,
          finish style ⟨⟨behind, ahead⟩, .type d, pending, members⟩⟩ := by
    intro d hcode hdepth
    have hnext : nextStarts ⟨⟨behind, '}' :: t⟩, .type d, pending, members⟩ d = false := by
      have hstarts : startsMember ('}' :: t) = false := startsMember_sign (by decide) (by decide) t
      simp [nextStarts, hstarts]
    have hread : d.region.read behind '}' t = (.code, .code) := by
      rw [hcode]
      exact Region.read_plain (by decide) behind t
    have hbracket : Bracket.of? behind '}' = some .closing := rfl
    have hdraft : { d with region := .code } = d := by rw [← hcode]
    simp only [step, stepType, hnext, hread, hdraft, stepTypeCode, hbracket, hdepth]
    rfl
  cases mode with
  | seeking => exact ⟨pending, hseeking pending members⟩
  | name name ended =>
      have hgiven : step style ⟨⟨behind, '}' :: t⟩, .name name ended, pending, members⟩ =
          ⟨⟨behind, '}' :: t⟩, .seeking, none, members⟩ := rfl
      exact ⟨none, by rw [run_step (by simp), hgiven, hseeking]; rfl⟩
  | afterMark name =>
      have hgiven : step style ⟨⟨behind, '}' :: t⟩, .afterMark name, pending, members⟩ =
          ⟨⟨behind, '}' :: t⟩, .seeking, none, members⟩ := rfl
      exact ⟨none, by rw [run_step (by simp), hgiven, hseeking]; rfl⟩
  | afterColon name optional =>
      have hbegin : step style ⟨⟨behind, '}' :: t⟩, .afterColon name optional, pending, members⟩ =
          ⟨⟨behind, '}' :: t⟩, .type ⟨name, optional, false, [], .code, .top, 0⟩, pending,
            members⟩ := rfl
      have hnone : finish style ⟨⟨behind, ahead⟩, .type ⟨name, optional, false, [], .code, .top, 0⟩,
          pending, members⟩ = members := by
        simp [finish, complete, make?_nil]
      exact ⟨none, by
        rw [run_step (by simp), hbegin, run_step (by simp), htype _ rfl rfl, hnone, hseeking]; rfl⟩
  | type d => exact ⟨none, by rw [run_step (by simp), htype d h.1 h.2, hseeking]⟩
  | lineComment | blockComment | docComment _ | quotedName _ _ | signature _ _ _ _ => exact h.elim

end Scan

/-- A closing bracket and a comment behind a body that leaves nothing open add no members. -/
theorem scan_bracket {a t : Text} (h : (Scan.run style (Scan.start a)).IsClosed)
    (ht : Scan.IsVoid style t) : scan style (a ++ '}' :: t) = scan style a := by
  obtain ⟨front, hmembers, hrun⟩ := Scan.run_place_of_isClosed style Scan.head?_nil_ne
    (isTail_bracket t) (Scan.start a) nofun (Or.inr h)
  have hfirst : Scan.run style (Scan.start (a ++ '}' :: t)) =
      Scan.run style ⟨⟨(Scan.run style (Scan.start a)).cursor.behind, '}' :: t⟩,
        (Scan.run style (Scan.start a)).mode, (Scan.run style (Scan.start a)).pending,
        (Scan.run style (Scan.start a)).members⟩ := by
    have hcontext := hrun .empty
    rw [List.append_nil, List.append_nil] at hcontext
    rw [hmembers]
    exact hcontext
  obtain ⟨pending, hbracket⟩ := Scan.run_bracket style h t
  rw [scan, hfirst, hbracket]
  exact ht _ _ _

end Member

/-! ### Comments in parts -/

namespace Comment

/-- A comment as it is kept at the end of a part. -/
def kept : Comment → Text
  | .block inner _ => '/' :: '*' :: (inner ++ ['*', '/'])
  | .line content _ => '/' :: '/' :: trimEnd content

theorem trimEnd_text (c : Comment) : trimEnd c.text = c.kept := by
  cases c with
  | block inner valid =>
      have hlast : (Comment.block inner valid).text = ('/' :: '*' :: (inner ++ ['*'])) ++ ['/'] := by
        simp [text]
      have hslash : trimEnd ['/'] = ['/'] := by decide
      rw [hlast, trimEnd_append, hslash, if_neg (by simp)]
      simp [kept]
  | line content valid =>
      have hslash : isWhite '/' = false := by decide
      rw [text, trimEnd_cons hslash, trimEnd_cons hslash, trimEnd_append_blank content rfl, kept]

theorem isVoid_kept (style : Member.Style) (c : Comment) : Member.Scan.IsVoid style c.kept := by
  cases c with
  | block inner valid => exact Member.Scan.isVoid_block valid
  | line content valid =>
      refine Member.Scan.isVoid_line fun hmem => valid ?_
      exact (List.rdropWhile_prefix isWhite (l := content)).subset hmem

/-- A comment that ends in a bracket is a line comment, and may be cut there. -/
theorem isVoid_of_kept (style : Member.Style) {c : Comment} {t : Text} {d : Char}
    (hd : d ≠ '/') (h : c.kept = t ++ [d]) : Member.Scan.IsVoid style t := by
  cases c with
  | block inner valid =>
      have hlast := congrArg List.getLast? h
      simp [kept, List.getLast?_cons, List.getLast?_append] at hlast
      exact absurd hlast.symm hd
  | line content valid =>
      have hfeed : '\n' ∉ (Comment.line content valid).kept := by
        have hslash : '\n' ≠ '/' := by decide
        simp only [kept, List.mem_cons, not_or]
        exact ⟨hslash, hslash, fun hmem =>
          valid ((List.rdropWhile_prefix isWhite (l := content)).subset hmem)⟩
      rcases t with _ | ⟨a, _ | ⟨b, content'⟩⟩
      · simp [kept] at h
      · simp only [kept, List.cons_append, List.nil_append, List.cons.injEq] at h
        exact absurd h.2.1.symm hd
      · rw [h] at hfeed
        simp only [kept, List.cons_append, List.cons.injEq] at h
        obtain ⟨rfl, rfl, -⟩ := h
        exact Member.Scan.isVoid_line fun hmem => hfeed (by simp [hmem])

end Comment

namespace NotedLink

variable {separators : List Char} {x : NotedLink separators} {c : Comment}

theorem trimEnd_pad (h : x.comment = some c) : trimEnd x.pad = x.before.text ++ c.kept := by
  have hpad : x.pad = (x.before.text ++ c.text) ++ x.gap.text := by simp [pad, h]
  have hne : c.kept ≠ [] := by cases c <;> simp [Comment.kept]
  rw [hpad, trimEnd_append_blank _ x.gap.blank, trimEnd_append, c.trimEnd_text, if_neg hne]

end NotedLink

/-- An operand that is resolved alike with a comment behind it: a local type with type arguments, or
a body that leaves nothing open. -/
inductive Operand.IsKept (style : Member.Style) (table : TypeTable) : Operand → Prop
  | applied {n : Identifier} {arguments : Text} {valid : IsEnclosed arguments}
      {last : arguments.getLast? ≠ some '='} (h : n.text ∈ table.keys) :
      IsKept style table (.applied n arguments valid last)
  | body {inner : Text} {valid : IsEnclosed inner}
      (h : (Member.Scan.run style (Member.Scan.start inner)).IsClosed) :
      IsKept style table (.body inner valid)

/-- A part that begins with an identifier is a reference. -/
theorem Identifier.isReference (n : Identifier) (t : Text) : IsReference (n.text ++ t) := by
  obtain ⟨c, more, htext, hstart, -⟩ := n.exists_cons
  have hc := isIdentChar_of_isIdentStart hstart
  have hbody : c ≠ '{' := ne_of_kind hc rfl
  have hgroup : c ≠ '(' := ne_of_kind hc rfl
  refine ⟨?_, fun inner heq => ?_⟩
  · rw [htext]
    simpa using hbody
  · rw [htext] at heq
    exact hgroup (List.cons.inj heq).1

/-- Type arguments, and what follows them, do not tell local types apart. -/
theorem localName?_applied {table : TypeTable} {n : Identifier} (h : n.text ∈ table.keys)
    (t : Text) : localName? table (n.text ++ '<' :: t) = some n.text := by
  have hof := TypePart.of_reference (n.isReference ('<' :: t))
  have hstop : (n.text ++ '<' :: t).takeWhile (· != '<') = n.text := by
    rw [List.takeWhile_append_of_pos fun d hd => ?_]
    · simp
    · exact bne_iff_ne.mpr (ne_of_kind (n.isIdentChar_of_mem hd) rfl)
  have hname : withoutArguments (n.text ++ '<' :: t) = n.text := by
    have hlast : trim n.text = n.text := (Operand.name n).trim_print
    rw [withoutArguments, if_pos (by simp), hstop, ← hlast, trimEnd_trim]
  rw [localName?_of_reference hof, hname, if_pos h]

/-- A closing bracket and a comment behind a body leave it a body with the same members. -/
theorem exists_of_body (style : Member.Style) {inner : Text}
    (h : (Member.Scan.run style (Member.Scan.start inner)).IsClosed) {g : Text}
    (hg : isBlank g = true) (c : Comment) :
    ∃ b, TypePart.of ('{' :: (inner ++ '}' :: (g ++ c.kept))) = .body b ∧
      Member.scan style b = Member.scan style inner := by
  by_cases hlast : c.kept.getLast? = some '}'
  · obtain ⟨t, ht⟩ := List.getLast?_eq_some_iff.mp hlast
    refine ⟨inner ++ '}' :: (g ++ t), ?_, ?_⟩
    · rw [← TypePart.of_body, ht]
      simp
    · exact Member.scan_bracket h ((Comment.isVoid_of_kept style (by decide) ht).gap hg)
  · refine ⟨inner ++ '}' :: (g ++ c.kept), TypePart.of_openBody ?_, ?_⟩
    · have hne : c.kept ≠ [] := by cases c <;> simp [Comment.kept]
      rw [List.getLast?_append_of_ne_nil _ (by simp), List.getLast?_cons_of_ne_nil (by simp [hne]),
        List.getLast?_append_of_ne_nil _ hne]
      exact hlast
    · exact Member.scan_bracket h ((c.isVoid_kept style).gap hg)

/-- A comment behind an operand that is kept does not change how the operand is resolved. -/
theorem Operand.IsKept.alike {style : Member.Style} {table : TypeTable} {separators : List Char}
    {x : NotedLink separators} (h : x.operand.IsKept style table) :
    Alike style table x.part x.operand.print := by
  cases hcomment : x.comment with
  | none =>
      rw [NotedLink.part_of_comment_none hcomment]
      exact .same _
  | some c =>
      rw [NotedLink.part, NotedLink.trimEnd_pad hcomment]
      generalize x.operand = operand at h
      cases h with
      | @applied n arguments valid last hkey =>
          have hpart : localName? table ((Operand.applied n arguments valid last).print ++
              (x.before.text ++ c.kept)) = some n.text := by
            rw [Operand.print, List.append_assoc]
            exact localName?_applied hkey _
          exact .name hpart (localName?_applied hkey _)
      | @body inner valid hclosed =>
          obtain ⟨b, hof, hscan⟩ := exists_of_body style hclosed x.before.blank c
          refine .body (b := b) (c := inner) ?_ (TypePart.of_body inner) hscan
          rw [← hof, Operand.print]
          simp

end ComponentProps
