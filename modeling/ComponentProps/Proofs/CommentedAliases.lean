import ComponentProps.Proofs.CommentedClauses

/-!
# Comments in aliases

The right side of an alias is captured up to its own body and again behind it. A comment behind an
operand is captured with the operand, and it is passed over behind the own body. The captures go on at
the sign behind the comment, so what they take and the place where they stop stay the same.
-/

namespace ComponentProps

open Text Cursor

/-- The beginning of an alias, up to its equals sign. -/
structure AliasHead where
  gap : Trivia
  name : Identifier
  after : Trivia
  apart : gap.text ≠ []

namespace AliasHead

def afterKeyword (head : AliasHead) : Text :=
  head.gap.text ++ (head.name.text ++ (head.after.text ++ ['=']))

def text (head : AliasHead) : Text := Component.typeWord.text ++ head.afterKeyword

theorem afterKeyword_append (head : AliasHead) (t : Text) : head.afterKeyword ++ t =
    head.gap.text ++ (head.name.text ++ (head.after.text ++ '=' :: t)) := by
  simp [afterKeyword]

theorem reverse_afterKeyword (head : AliasHead) (behind : Text) :
    head.afterKeyword.reverse ++ behind = '=' :: (head.after.text.reverse ++
      (head.name.text.reverse ++ (head.gap.text.reverse ++ behind))) := by
  simp [afterKeyword]

theorem endsWord_afterKeyword (head : AliasHead) (t : Text) : EndsWord (head.afterKeyword ++ t) := by
  rw [afterKeyword_append]
  exact head.gap.endsWord_append fun hnil => absurd hnil head.apart

end AliasHead

/-- The right side of an alias does not begin with another equals sign. -/
theorem Spot.head?_print_ne {separators : List Char} (s : Spot separators) (t : Text) :
    (s.print ++ t).head? ≠ some '=' := by
  obtain ⟨c, more, hcons, -, hkind⟩ := s.exists_first t
  have hc : c ≠ '=' := by
    rcases hkind with ⟨-, rfl⟩ | hident
    · decide
    · exact ne_of_kind hident rfl
  rw [print_eq_flush, List.append_assoc, hcons]
  cases hlead : s.lead.text with
  | nil => simpa using hc
  | cons d lead =>
      have hwhite := List.all_eq_true.mp s.lead.blank d (by simp [hlead])
      simpa using ne_of_kind hwhite (by decide : isWhite '=' = false)

theorem Spot.isTied_plain {separators : List Char} (s : Spot separators)
    (hs : ∀ x ∈ s.links, x.IsTied) : ∀ x ∈ s.plain.links, x.IsTied := by
  rw [links, List.forall_mem_append] at hs
  rw [plain_links, List.forall_mem_append, List.forall_mem_singleton]
  exact ⟨hs.1, fun hcomment => absurd rfl hcomment⟩

namespace TypeDeclaration

variable (style : Member.Style)

theorem sign_ne_escape (x : NotedLink aliasSigns) : x.sign ≠ '\\' :=
  (isOperator_aliasSigns _ x.valid).ne_escape

/-- The right side of an alias is captured from its first operand on. -/
theorem skipTrivia_spot (s : Spot aliasSigns) (behind rest : Text) :
    skipTrivia ⟨behind, s.print ++ rest⟩ = ⟨s.lead.text.reverse ++ behind, s.flush.print ++ rest⟩ := by
  obtain ⟨c, more, hcons, hvisible, -⟩ := s.exists_first rest
  rw [Spot.print_eq_flush, List.append_assoc, skipTrivia_blank s.lead.blank, hcons,
    skipTrivia_visible hvisible]

theorem map_replace_parts (s : Spot aliasSigns) (more : Text) :
    (topLevelParts ['&', '|'] (s.print ++ more)).map (replace s.link.part s.link.operand.print) =
      (topLevelParts ['&', '|'] (s.plain.print ++ more)).map
        (replace s.link.part s.link.operand.print) :=
  Spot.map_replace_topLevelParts (fun c hc => (isSeparator_aliasSigns c hc).1)
    (sign_ne_escape s.link) more

/-- What is read with the comment and without it is the same, up to the parent with the comment. -/
structure ReadsAlike (link : NotedLink aliasSigns) (x y : TypeDefinition × Cursor) : Prop where
  definition : x.1.replaceParent link.part link.operand.print =
    y.1.replaceParent link.part link.operand.print
  place : ∃ b b', LooksAlike b b' ∧ Beside b b' x.2 y.2

/-- There is no own body before the sign. The first capture takes the comment. -/
theorem readAliasSide_plain_open {s : Spot aliasSigns} (htied : ∀ x ∈ s.links, x.IsTied)
    (hnone : ∀ x ∈ Link.operands none (s.links.map (·.toLink)), Operand.isOwn x = false)
    (behind rest : Text) :
    ReadsAlike s.link (readAliasSide style ⟨behind, s.print ++ rest⟩)
      (readAliasSide style ⟨behind, s.plain.print ++ rest⟩) := by
  have hlinks : s.plain.links.map (·.toLink) = s.links.map (·.toLink) := by
    simp [Spot.links, Spot.plain]
  have hcaptured : s.flush.IsCaptured endsAliasHead := capture_head htied hnone
  have hcaptured' : s.flush.plain.IsCaptured endsAliasHead :=
    capture_head (s.isTied_plain htied) (hlinks ▸ hnone)
  obtain ⟨more, place, place', hcapture, hcapture', hplace⟩ := Spot.exists_capture
    isLocal_endsAliasHead (sign_ne_escape s.flush.link) hcaptured hcaptured'
    (s.lead.text.reverse ++ behind) rest
  have halike := looksAlike_cons (sign_ne_escape s.link)
    (s.flush.beforeSign.reverse ++ (s.lead.text.reverse ++ behind))
    (s.flush.plain.beforeSign.reverse ++ (s.lead.text.reverse ++ behind))
  obtain ⟨hbody, hbehind⟩ := hplace.readGroup halike '{' '}'
  obtain ⟨htail, hend⟩ := readAliasTail_beside halike hbehind
  have hparts := map_replace_parts s.flush more
  have hskip : skipTrivia ⟨behind, s.plain.print ++ rest⟩ =
      ⟨s.lead.text.reverse ++ behind, s.flush.plain.print ++ rest⟩ :=
    skipTrivia_spot s.plain behind rest
  simp only [readAliasSide, skipTrivia_spot, hskip, hcapture, hcapture', hplace.current?, hbody]
  split
  · refine ⟨TypeDefinition.replaceParent_of_map_eq ?_ _, _, _, halike, hend⟩
    rw [List.map_append, List.map_append, htail]
    exact congrArg (· ++ _) hparts
  · exact ⟨TypeDefinition.replaceParent_of_map_eq hparts _, _, _, halike, hplace⟩

/-- Behind the own body the right side goes on at the next sign. -/
theorem exists_readAliasSide_own {front : List (NotedLink aliasSigns)}
    (htied : ∀ x ∈ front, x.IsTied)
    (hfront : ∀ x ∈ Link.operands none (front.map (·.toLink)), Operand.isOwn x = false)
    {p : Operand} (hown : Operand.isOwn (Link.lastSign none (front.map (·.toLink)), p) = true)
    (lead : Gap) (behind : Text) :
    ∃ members b, ∀ (x : NotedLink aliasSigns) (t : Text),
      readAliasSide style ⟨behind, lead.text ++ (NotedLink.printAll front ++ (p.print ++
          (x.pad ++ x.sign :: t)))⟩ =
        (⟨members, (front.map NotedLink.part ++ topLevelParts ['&', '|']
            (capture ⟨x.sign :: (x.pad.reverse ++ b), t⟩ endsAliasTail).1).foldl addNew []⟩,
          (capture ⟨x.sign :: (x.pad.reverse ++ b), t⟩ endsAliasTail).2) := by
  cases p with
  | name n => exact absurd hown (by simp [Operand.isOwn, Operand.isBody])
  | applied n arguments valid last => exact absurd hown (by simp [Operand.isOwn, Operand.isBody])
  | body inner valid =>
      refine ⟨Member.scan style inner, '}' :: (inner.reverse ++ '{' ::
        ((NotedLink.printAll front).reverse ++ (lead.text.reverse ++ behind))), fun x t => ?_⟩
      rw [readAliasSide_own style lead htied hfront hown, readAliasTail_sign,
        show ([] : List Text) = ([] : List Text).eraseDups from rfl, foldl_addNew, List.nil_append]

/-- The own body is the operand before the comment. The comment is passed over on the way to the
sign. -/
theorem readAliasSide_plain_own {s : Spot aliasSigns} (htied : ∀ x ∈ s.front, x.IsTied)
    (hfront : ∀ x ∈ Link.operands none (s.front.map (·.toLink)), Operand.isOwn x = false)
    (hown : Operand.isOwn (Link.lastSign none (s.front.map (·.toLink)), s.link.operand) = true)
    (behind rest : Text) :
    ReadsAlike s.link (readAliasSide style ⟨behind, s.print ++ rest⟩)
      (readAliasSide style ⟨behind, s.plain.print ++ rest⟩) := by
  obtain ⟨members, b, hread⟩ := exists_readAliasSide_own style htied hfront hown s.lead behind
  have hprint : s.print ++ rest = s.lead.text ++ (NotedLink.printAll s.front ++
      (s.link.operand.print ++ (s.link.pad ++ s.link.sign :: (s.link.after.text ++ rest)))) := by
    simp [Spot.print_eq, Spot.beforeSign]
  have hplain : s.plain.print ++ rest = s.lead.text ++ (NotedLink.printAll s.front ++
      (s.link.operand.print ++ (s.plain.link.pad ++ s.plain.link.sign ::
        (s.link.after.text ++ rest)))) := by
    simp [Spot.print_eq, Spot.beforeSign, Spot.plain]
  have halike := looksAlike_cons (sign_ne_escape s.link) (s.link.pad.reverse ++ b)
    (s.plain.link.pad.reverse ++ b)
  obtain ⟨htaken, hplace⟩ := (beside_start _ _ (s.link.after.text ++ rest)).capture halike
    endsAliasTail fun _ _ _ _ => rfl
  rw [hprint, hplain, hread, hread]
  refine ⟨?_, _, _, halike, hplace⟩
  rw [htaken]
  rfl

theorem isCaptured_endsAliasTail {s : Spot aliasSigns} (htied : ∀ x ∈ s.links, x.IsTied) :
    s.IsCaptured endsAliasTail := by
  intro behind rest
  rw [Spot.print, List.append_assoc, capture_tail s.lead.blank htied]
  simp

/-- The own body stands before the operand with the comment. The last capture takes the comment. -/
theorem readAliasSide_plain_tail {front : List (NotedLink aliasSigns)} {x : NotedLink aliasSigns}
    {s : Spot aliasSigns} (htied : ∀ y ∈ front ++ s.links, y.IsTied)
    (hfront : ∀ y ∈ Link.operands none (front.map (·.toLink)), Operand.isOwn y = false)
    (hown : Operand.isOwn (Link.lastSign none (front.map (·.toLink)), x.operand) = true)
    (lead : Gap) (behind rest : Text) :
    ReadsAlike s.link
      (readAliasSide style ⟨behind, lead.text ++ (NotedLink.printAll front ++ (x.operand.print ++
        (x.pad ++ x.sign :: (s.print ++ rest))))⟩)
      (readAliasSide style ⟨behind, lead.text ++ (NotedLink.printAll front ++ (x.operand.print ++
        (x.pad ++ x.sign :: (s.plain.print ++ rest))))⟩) := by
  rw [List.forall_mem_append] at htied
  obtain ⟨members, b, hread⟩ := exists_readAliasSide_own style htied.1 hfront hown lead behind
  obtain ⟨more, place, place', hcapture, hcapture', hplace⟩ := Spot.exists_capture
    isLocal_endsAliasTail (sign_ne_escape s.link) (isCaptured_endsAliasTail htied.2)
    (isCaptured_endsAliasTail (s.isTied_plain htied.2)) (x.sign :: (x.pad.reverse ++ b)) rest
  rw [hread, hread, hcapture, hcapture']
  refine ⟨TypeDefinition.replaceParent_of_map_eq ?_ _, _, _,
    looksAlike_cons (sign_ne_escape s.link) _ _, hplace⟩
  rw [List.map_append, List.map_append, map_replace_parts]

/-- The right side of an alias is read alike with the comment and without it. -/
theorem readAliasSide_plain {s : Spot aliasSigns} (htied : ∀ x ∈ s.links, x.IsTied)
    (behind rest : Text) :
    ReadsAlike s.link (readAliasSide style ⟨behind, s.print ++ rest⟩)
      (readAliasSide style ⟨behind, s.plain.print ++ rest⟩) := by
  rcases Link.split_own none (s.links.map (·.toLink)) with hnone | ⟨_, _, _, hlinks, hfront, hown⟩
  · exact readAliasSide_plain_open style htied hnone behind rest
  · obtain ⟨front, more, hsplit, rfl, hmore⟩ := List.map_eq_append_iff.mp hlinks
    obtain ⟨x, back, rfl, rfl, rfl⟩ := List.map_eq_cons_iff.mp hmore
    -- Either nothing follows the own body, or the operand with the comment comes last behind it.
    rcases List.eq_nil_or_concat back with rfl | ⟨back, last, rfl⟩
    · obtain ⟨rfl, hlast⟩ := List.append_inj' hsplit rfl
      obtain rfl : s.link = x := by simpa using hlast
      exact readAliasSide_plain_own style (fun y hy => htied y (List.mem_append_left _ hy)) hfront hown
        behind rest
    · rw [List.concat_eq_append, ← List.cons_append, ← List.append_assoc] at hsplit
      obtain ⟨hinit, hlast⟩ := List.append_inj' hsplit rfl
      obtain rfl : s.link = last := by simpa using hlast
      have hprint : ∀ y : NotedLink aliasSigns, (Spot.mk s.lead s.front y).print ++ rest =
          s.lead.text ++ (NotedLink.printAll front ++ (x.operand.print ++ (x.pad ++ x.sign ::
            ((Spot.mk x.after back y).print ++ rest)))) := by
        intro y
        simp [Spot.print, Spot.links, NotedLink.printAll, NotedLink.print, hinit]
      have htail : ∀ y ∈ front ++ (Spot.mk x.after back s.link).links, y.IsTied := by
        intro y hy
        refine htied y ?_
        rw [Spot.links, hinit]
        simp only [Spot.links, List.mem_append, List.mem_cons] at hy ⊢
        tauto
      have hread := readAliasSide_plain_tail style htail hfront hown s.lead behind rest
      rw [← hprint] at hread
      exact (hprint s.plain.link) ▸ hread

/-- An alias is read behind its equals sign. -/
theorem readAlias?_spot (head : AliasHead) (s : Spot aliasSigns) (behind rest : Text) :
    readAlias? style ⟨behind, head.afterKeyword ++ (s.print ++ rest)⟩ =
      some (⟨head.name.text, (readAliasSide style ⟨head.afterKeyword.reverse ++ behind,
          s.print ++ rest⟩).1⟩,
        (readAliasSide style ⟨head.afterKeyword.reverse ++ behind, s.print ++ rest⟩).2) := by
  have hpeek : ∀ b, peek? ⟨b, '=' :: (s.print ++ rest)⟩ 1 ≠ some '=' := by
    intro b
    simpa [peek?, List.head?_eq_getElem?] using s.head?_print_ne rest
  rw [readAlias?, head.afterKeyword_append, readName?_trivia head.gap head.after head.name (by decide)
    (fun _ => by decide), head.reverse_afterKeyword]
  simp only [Option.bind_eq_bind, Option.bind_some, current?, List.head?_cons, advance]
  rw [if_pos (by simpa using hpeek _)]
  rfl

/-- The declarations found are the same with the comment and without it, up to the parent with the
comment. -/
theorem allFrom_alias (head : AliasHead) {s : Spot aliasSigns} (htied : ∀ x ∈ s.links, x.IsTied)
    {behind : Text} (hb : standsAlone behind = true) (rest : Text) :
    (allFrom style ⟨behind, head.text ++ (s.print ++ rest)⟩).map
        (·.replaceParent s.link.part s.link.operand.print) =
      (allFrom style ⟨behind, head.text ++ (s.plain.print ++ rest)⟩).map
        (·.replaceParent s.link.part s.link.operand.print) := by
  have hword : ∀ t : Spot aliasSigns, allFrom style ⟨behind, head.text ++ (t.print ++ rest)⟩ =
      ⟨head.name.text, (readAliasSide style ⟨head.afterKeyword.reverse ++
          (Component.typeWord.text.reverse ++ behind), t.print ++ rest⟩).1⟩ ::
        allFrom style (readAliasSide style ⟨head.afterKeyword.reverse ++
          (Component.typeWord.text.reverse ++ behind), t.print ++ rest⟩).2 := by
    intro t
    rw [AliasHead.text, List.append_assoc, allFrom_word _ hb (head.endsWord_afterKeyword _)]
    exact congrArg (fun p => Option.elim p _ _)
      ((read?_type _ _).trans (readAlias?_spot style head t _ rest))
  obtain ⟨hdefinition, b, b', halike, hplace⟩ := readAliasSide_plain style htied
    (head.afterKeyword.reverse ++ (Component.typeWord.text.reverse ++ behind)) rest
  rw [hword, hword, List.map_cons, List.map_cons, allFrom_beside halike style hplace, replaceParent,
    replaceParent, hdefinition]

end TypeDeclaration

namespace Intake

/-- The statement that hands over the props is the same with the comment and without it. -/
theorem contentFrom?_alias {call : Text} (head : AliasHead) {s : Spot aliasSigns}
    (hs : ∀ x ∈ s.links, x.operand.IsSealed (contentFrom? call)) {behind : Text}
    (hb : standsAlone behind = true) (rest : Text) :
    contentFrom? call ⟨behind, head.text ++ (s.print ++ rest)⟩ =
      contentFrom? call ⟨behind, head.text ++ (s.plain.print ++ rest)⟩ := by
  have hsearch := isSearch_contentFrom? call
  have hequals : IsSign '=' := by decide
  have hhead : ∀ t, contentFrom? call ⟨behind, head.text ++ t⟩ =
      contentFrom? call ⟨head.afterKeyword.reverse ++
        (Component.typeWord.text.reverse ++ behind), t⟩ := by
    intro t
    have hname : standsAlone (head.gap.text.reverse ++ (Component.typeWord.text.reverse ++ behind)) =
        true := head.gap.standsAlone_append fun hnil => absurd hnil head.apart
    have hnext : ∀ b c, (skipTrivia ⟨b, '=' :: t⟩).current? = some c → (c == '{') = false := by
      intro b c hc
      rw [skipTrivia_visible (by decide)] at hc
      obtain rfl : '=' = c := by simpa [current?] using hc
      decide
    rw [AliasHead.text, List.append_assoc, head.afterKeyword_append,
      hsearch.identifierTrivia _ head.gap hb (fun hnil => absurd hnil head.apart)
        fun b c hc => beq_eq_false_iff_ne.mpr (ne_of_kind (head.name.isIdentChar_current? hc) rfl),
      hsearch.identifierTrivia _ head.after hname
        (fun _ => (signFirst_cons _ hequals).endsWord) hnext, hsearch.sign hequals,
      head.reverse_afterKeyword]
  have halone : standsAlone (head.afterKeyword.reverse ++ (Component.typeWord.text.reverse ++ behind)) =
      true := by
    rw [head.reverse_afterKeyword]
    exact standsAlone_sign hequals _
  rw [hhead, hhead, Spot.search_plain hsearch (by decide)
    (IsOperator.all_noPattern isOperator_aliasSigns) hs halone]

end Intake

end ComponentProps
