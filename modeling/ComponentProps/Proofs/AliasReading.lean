import ComponentProps.Proofs.Gathering
import ComponentProps.Proofs.Links
import ComponentProps.Proofs.MemberComposition

/-!
# Reading aliases

The right side of an alias is a chain of names, names with type arguments and bodies, joined by `&`
and `|`. Its own members are those of the first body that stands at its start or behind `&`; the
other operands are its parents. Three captures find them: one up to the own body, one over that body
and one behind it. None of them depends on the white space beside the operators.
-/

namespace ComponentProps

open Text

/-! ### The next word behind trivia -/

namespace Cursor

/-- A search for words starts as well behind white space and comments. -/
theorem nextWordFrom?_skipTriviaFrom {region : Region} (hregion : ∀ quote, region ≠ .literal quote)
    (behind ahead : Text) :
    (skipTriviaFrom region behind ahead).nextWord? = nextWordFrom? region behind ahead := by
  induction ahead generalizing region behind with
  | nil => rfl
  | cons c rest ih =>
      have hspace : isWhite c = true → isIdentStart c = false := by
        intro hwhite
        rw [Bool.eq_false_iff]
        intro hstart
        rw [not_isWhite_of_isIdentChar (isIdentChar_of_isIdentStart hstart)] at hwhite
        contradiction
      have hcomment : ∀ {region' : Region}, region.read behind c rest = (.comment, region') →
          ∀ quote, region' ≠ .literal quote := by
        intro region' hread quote
        rintro rfl
        cases region <;> simp only [Region.read, Region.comment?] at hread
        · split at hread
          · simp at hread
          · split at hread
            · rename_i hsome
              repeat' split at hsome
              all_goals simp_all
            · simp at hread
        · simp at hread
        · split at hread <;> simp at hread
        · simp at hread
        · split at hread <;> simp at hread
        · simp at hread
      obtain ⟨role, region', hread⟩ : ∃ role region', region.read behind c rest = (role, region') :=
        ⟨_, _, rfl⟩
      cases role with
      | comment =>
          simp only [skipTriviaFrom, nextWordFrom?, hread]
          exact ih (hcomment hread) (c :: behind)
      | literal =>
          have hcode : region = .code := by
            cases region <;> simp only [Region.read] at hread
            · rfl
            · exact absurd rfl (hregion _)
            · split at hread <;> simp at hread
            all_goals simp at hread
          subst hcode
          simp only [skipTriviaFrom, hread]
          rfl
      | code =>
          obtain rfl := Region.read_code hread
          by_cases hwhite : isWhite c = true
          · simp only [skipTriviaFrom, nextWordFrom?, hread, hwhite, hspace hwhite,
              Bool.false_and, Bool.false_eq_true, if_true, if_false]
            exact ih (by simp) (c :: behind)
          · have hcode : region = .code := by
              cases region <;> simp only [Region.read] at hread
              · rfl
              · simp at hread
              · split at hread
                · rename_i hfeed
                  subst hfeed
                  exact absurd (by decide) hwhite
                · simp at hread
              all_goals simp at hread
            subst hcode
            simp only [skipTriviaFrom, hread, hwhite]
            rfl

theorem nextWord?_skipTrivia (c : Cursor) : c.skipTrivia.nextWord? = c.nextWord? :=
  nextWordFrom?_skipTriviaFrom (by simp) c.behind c.ahead

end Cursor

theorem TypeDeclaration.allFrom_skipTrivia (style : Member.Style) (c : Cursor) :
    allFrom style c.skipTrivia = allFrom style c := by
  rw [allFrom_nextWord, Cursor.nextWord?_skipTrivia, ← allFrom_nextWord]

/-! ### Aliases as they are written -/

/-- The operators between the operands of an alias. -/
def aliasSigns : List Char := ['&', '|']

/-- The characters that go on with an alias on the next line. -/
def continuations : List Char := ['&', '|', '.', '?', ':']

/-- A type alias as it is written. -/
structure Alias where
  name : Identifier
  lead : Gap
  links : List (Link aliasSigns)
  last : Operand

namespace Operand

/-- Whether an operand is a body that begins an alias or follows `&`. -/
def isOwn (x : Option Char × Operand) : Bool := x.2.isBody && x.1.all (· == '&')

/-- What an alias with these operands declares. The members of its first own body are its members,
and its other operands are its parents. -/
def definition (style : Member.Style) (xs : List (Option Char × Operand)) : TypeDefinition where
  members :=
    match xs.find? isOwn with
    | some (_, .body inner _) => Member.scan style inner
    | _ => .empty
  parents := ((xs.eraseP isOwn).map fun x => x.2.print).eraseDups

end Operand

namespace Alias

/-- The text behind the equals sign. -/
def side (a : Alias) : Text := a.lead.text ++ (Link.printAll a.links ++ a.last.print)

def print (a : Alias) : Text :=
  Component.typeWord.text ++ ' ' :: (a.name.text ++ ' ' :: '=' :: a.side)

/-- The operands in their order, each with the sign before it. -/
def operands (a : Alias) : List (Option Char × Operand) :=
  Link.operands none a.links ++ [(Link.lastSign none a.links, a.last)]

/-- Whether the last operand holds the members. -/
def EndsInBody (a : Alias) : Prop :=
  (∀ x ∈ Link.operands none a.links, Operand.isOwn x = false) ∧
    Operand.isOwn (Link.lastSign none a.links, a.last) = true

/-- The text behind an alias ends it, and `rest` is left. A line feed ends it if the next visible
character does not go on with it; behind the members, comments are passed over to find an operator. -/
inductive Ends (a : Alias) : Text → Text → Prop
  | semicolon (rest : Text) : Ends a (';' :: rest) rest
  | text : Ends a [] []
  | line (rest : Text) (hnext : ∀ c ∈ continuations, firstVisible? rest ≠ some c)
      (hbody : a.EndsInBody → ∀ c ∈ aliasSigns,
        (Cursor.ofText rest).skipTrivia.current? ≠ some c) : Ends a ('\n' :: rest) rest

end Alias

namespace Link

variable {separators : List Char}

theorem map_operands (sign : Option Char) (links : List (Link separators)) :
    (operands sign links).map (fun x => x.2.print) = links.map (·.operand.print) := by
  induction links generalizing sign with
  | nil => rfl
  | cons link links ih => rw [operands, List.map_cons, ih, List.map_cons]

/-- Some links have no own body, or they are split at the first one. -/
theorem split_own (sign : Option Char) (links : List (Link separators)) :
    (∀ x ∈ operands sign links, Operand.isOwn x = false) ∨
      ∃ front link back, links = front ++ link :: back ∧
        (∀ x ∈ operands sign front, Operand.isOwn x = false) ∧
        Operand.isOwn (lastSign sign front, link.operand) = true := by
  induction links generalizing sign with
  | nil => exact Or.inl (by simp [operands])
  | cons link links ih =>
      cases hown : Operand.isOwn (sign, link.operand) with
      | true => exact Or.inr ⟨[], link, links, rfl, by simp [operands], hown⟩
      | false =>
          rcases ih (some link.sign) with hnone | ⟨front, next, back, rfl, hfront, hnext⟩
          · refine Or.inl ?_
            rw [operands, List.forall_mem_cons]
            exact ⟨hown, hnone⟩
          · refine Or.inr ⟨link :: front, next, back, rfl, ?_, hnext⟩
            rw [operands, List.forall_mem_cons]
            exact ⟨hown, hfront⟩

end Link

/-! ### Where the captures stop -/

namespace TypeDeclaration

theorem firstVisible?_eq (t : Text) : firstVisible? t = (trimStart t).head? := by
  induction t with
  | nil => rfl
  | cons c t ih =>
      cases hc : isWhite c with
      | true => simpa [firstVisible?, trimStart, hc] using ih
      | false => simp [firstVisible?, trimStart, hc]

theorem opensBody_eq (taken : Text) : opensBody taken = (firstVisible? taken).all (· == '&') := by
  rw [firstVisible?_eq, opensBody]
  cases trimStart taken <;> rfl

theorem isOpenEnded_of_sign {taken : Text} {sign : Char} (hsign : sign ∈ aliasSigns)
    (h : firstVisible? taken = some sign) : isOpenEnded taken = true := by
  rw [firstVisible?_eq] at h
  obtain ⟨more, hmore⟩ := List.head?_eq_some_iff.mp h
  rw [isOpenEnded, hmore]
  simp only [aliasSigns, List.mem_cons, List.not_mem_nil, or_false] at hsign
  rcases hsign with rfl | rfl <;> rfl

theorem endsAtLine_of_sign {taken behind rest : Text} {sign : Char} (hsign : sign ∈ aliasSigns)
    (h : firstVisible? taken = some sign ∨ firstVisible? rest = some sign) :
    endsAtLine taken ⟨behind, '\n' :: rest⟩ = false := by
  have hfeed : firstVisible? ('\n' :: rest) = firstVisible? rest :=
    firstVisible?_blank (g := ['\n']) rfl rest
  rcases h with htaken | hrest
  · rw [endsAtLine, isOpenEnded_of_sign hsign htaken]
    rfl
  · rw [endsAtLine, hfeed, hrest]
    simp only [aliasSigns, List.mem_cons, List.not_mem_nil, or_false] at hsign
    rcases hsign with rfl | rfl <;> simp

/-- Behind an operand the right side may end. -/
theorem isOpenEnded_operand (p : Operand) (taken : Text) :
    isOpenEnded (p.print.reverse ++ taken) = false := by
  obtain ⟨front, c, hprint, hwhite, hlast⟩ := p.exists_last
  have hstart : trimStart (p.print.reverse ++ taken) = c :: (front.reverse ++ taken) := by
    simp [hprint, trimStart, hwhite]
  rw [isOpenEnded, hstart]
  rcases hlast with hident | rfl | ⟨rfl, harrow⟩
  · have h1 : c ∉ ['>', '&', '|', '=', ',', ':', '?', '.'] := not_mem_of_kind hident rfl
    simp only [List.mem_cons, List.not_mem_nil, or_false, not_or] at h1
    simp [h1]
  · rfl
  · obtain ⟨d, hd, hne⟩ := harrow
    have hhead : (front.reverse ++ taken).head? = some d := by
      rw [List.head?_append, List.head?_reverse, hd, Option.some_or]
    simp [hhead, hne]

theorem endsAliasHead_isPassedBy : NotedLink.IsPassedBy aliasSigns endsAliasHead where
  plain := by
    intro taken behind c rest hc
    simp only [delimiters, List.mem_cons, List.not_mem_nil, or_false, not_or] at hc
    simp [endsAliasHead, hc]
  line := fun _ _ _ _ hsign h => endsAtLine_of_sign hsign h

theorem endsAliasTail_isPassedBy : NotedLink.IsPassedBy aliasSigns endsAliasTail where
  plain := by
    intro taken behind c rest hc
    simp only [delimiters, List.mem_cons, List.not_mem_nil, or_false, not_or] at hc
    simp [endsAliasTail, hc]
  line := fun _ _ _ _ hsign h => endsAtLine_of_sign hsign h

/-! ### Reading the right side -/

open Cursor

theorem isSeparator_aliasSigns : ∀ c ∈ aliasSigns, IsSeparator c ∧ c ∉ delimiters := by
  rw [aliasSigns, List.forall_mem_cons, List.forall_mem_singleton]
  exact ⟨by decide, by decide⟩

/-- A body that is not the own one does not stop the first capture. -/
theorem endsAliasHead_other {x : Option Char × Operand} (hx : Operand.isOwn x = false)
    (hbody : x.2.isBody = true) {taken : Text} (htaken : firstVisible? taken = x.1)
    (behind rest : Text) : endsAliasHead taken ⟨behind, '{' :: rest⟩ = false := by
  rw [Operand.isOwn, hbody, Bool.true_and] at hx
  exact (opensBody_eq taken).trans (htaken ▸ hx)

theorem endsAliasHead_own {x : Option Char × Operand} (hx : Operand.isOwn x = true) {taken : Text}
    (htaken : firstVisible? taken = x.1) (behind rest : Text) :
    endsAliasHead taken ⟨behind, '{' :: rest⟩ = true := by
  rw [Operand.isOwn, Bool.and_eq_true] at hx
  exact (opensBody_eq taken).trans (htaken ▸ hx.2)

/-- Behind an operand the captures of an alias stop where it ends. -/
theorem capture_ends (stop : Text → Cursor → Bool)
    (hsemicolon : ∀ taken behind rest, stop taken ⟨behind, ';' :: rest⟩ = true)
    (hline : ∀ taken behind rest,
      stop taken ⟨behind, '\n' :: rest⟩ = endsAtLine taken ⟨behind, '\n' :: rest⟩)
    {a : Alias} {tail rest : Text} (h : a.Ends tail rest) (p : Operand) (taken behind : Text) :
    captureFrom stop .code .top (p.print.reverse ++ taken) behind tail = ([], ⟨behind, tail⟩) := by
  cases h with
  | text => rfl
  | semicolon => exact captureFrom_stop (by decide) (hsemicolon _ _ _)
  | line _ hnext _ =>
      refine captureFrom_stop (by decide) ?_
      have hfeed : firstVisible? ('\n' :: rest) = firstVisible? rest :=
        firstVisible?_blank (g := ['\n']) rfl rest
      rw [hline, endsAtLine, isOpenEnded_operand, hfeed]
      cases hfirst : firstVisible? rest with
      | none => rfl
      | some c =>
          have hc : c ∉ continuations := fun hmem => hnext c hmem hfirst
          simp only [continuations, List.mem_cons, List.not_mem_nil, or_false, not_or] at hc
          simp [hc]

/-- What is left behind an alias is searched as if it stood alone. -/
theorem allFrom_ends (style : Member.Style) {a : Alias} {tail rest : Text} (h : a.Ends tail rest)
    (behind : Text) : allFrom style ⟨behind, tail⟩ = all style rest := by
  have halone : ∀ {c : Char}, IsSign c → c ≠ '=' →
      allFrom style ⟨behind, c :: rest⟩ = all style rest := by
    intro c hc hne
    rw [allFrom_sign hc]
    exact allFrom_beside (looksAlike_sign hc hne behind) style (beside_start _ [] rest)
  cases h with
  | text => rw [allFrom_nextWord, all, ofText, allFrom_nextWord]; rfl
  | semicolon => exact halone (by decide) (by decide)
  | line => exact halone (by decide) (by decide)

/-- An expression begins with a visible character. -/
theorem exists_first_side (links : List (NotedLink aliasSigns)) (p : Operand) (t : Text) :
    ∃ c more, NotedLink.printAll links ++ (p.print ++ t) = c :: more ∧
      (IsPlain c ∧ isWhite c = false) ∧ c ≠ '=' := by
  have hoperand : ∀ (q : Operand) (u : Text), ∃ c more, q.print ++ u = c :: more ∧
      (IsPlain c ∧ isWhite c = false) ∧ c ≠ '=' := by
    intro q u
    obtain ⟨c, more, hprint, hplain, hwhite, hkind⟩ := q.exists_first
    refine ⟨c, more ++ u, by rw [hprint, List.cons_append], ⟨hplain, hwhite⟩, ?_⟩
    rcases hkind with ⟨-, rfl⟩ | hident
    · decide
    · exact ne_of_kind hident rfl
  cases links with
  | nil => exact hoperand p t
  | cons x links =>
      rw [NotedLink.printAll_cons_append]
      exact hoperand x.operand _

theorem skipTrivia_side (lead : Gap) (links : List (NotedLink aliasSigns)) (p : Operand)
    (behind t : Text) :
    skipTrivia ⟨behind, lead.text ++ (NotedLink.printAll links ++ (p.print ++ t))⟩ =
      ⟨lead.text.reverse ++ behind, NotedLink.printAll links ++ (p.print ++ t)⟩ := by
  obtain ⟨c, more, hcons, hvisible, -⟩ := exists_first_side links p t
  rw [skipTrivia_blank lead.blank, hcons, skipTrivia_visible hvisible]

/-- The first capture passes over links without an own body. -/
theorem capture_head {links : List (NotedLink aliasSigns)} (htied : ∀ x ∈ links, x.IsTied)
    (hnone : ∀ x ∈ Link.operands none (links.map (·.toLink)), Operand.isOwn x = false)
    (behind t : Text) :
    capture ⟨behind, NotedLink.printAll links ++ t⟩ endsAliasHead =
      inFront (NotedLink.printAll links) (captureFrom endsAliasHead .code .top
        ((NotedLink.printAll links).reverse ++ []) ((NotedLink.printAll links).reverse ++ behind) t) :=
  NotedLink.capture_printAll isSeparator_aliasSigns endsAliasHead_isPassedBy
    (fun x hx => (htied x hx).isJoined endsAliasHead) (rfl : firstVisible? [] = none)
    (fun x hx hbody _ behind rest htaken =>
      endsAliasHead_other (hnone x hx) hbody htaken behind rest) t

/-- The right side of an alias is read up to its own body, and the rest behind that body. -/
theorem readAliasSide_own (style : Member.Style) (lead : Gap) {front : List (NotedLink aliasSigns)}
    (htied : ∀ x ∈ front, x.IsTied)
    (hfront : ∀ x ∈ Link.operands none (front.map (·.toLink)), Operand.isOwn x = false)
    {inner : Text} {valid : IsEnclosed inner}
    (hown : Operand.isOwn (Link.lastSign none (front.map (·.toLink)), .body inner valid) = true)
    (behind more : Text) :
    readAliasSide style ⟨behind, lead.text ++ (NotedLink.printAll front ++
        ((Operand.body inner valid).print ++ more))⟩ =
      (⟨Member.scan style inner, (front.map NotedLink.part ++ (readAliasTail ⟨'}' ::
          (inner.reverse ++ '{' :: ((NotedLink.printAll front).reverse ++
            (lead.text.reverse ++ behind))), more⟩).1).eraseDups⟩,
        (readAliasTail ⟨'}' :: (inner.reverse ++ '{' :: ((NotedLink.printAll front).reverse ++
            (lead.text.reverse ++ behind))), more⟩).2) := by
  have htaken : firstVisible? ((NotedLink.printAll front).reverse ++ []) =
      Link.lastSign none (front.map (·.toLink)) :=
    NotedLink.firstVisible?_reverse_printAll (fun c hc => (isSeparator_aliasSigns c hc).1) front rfl
  have hcapture : capture ⟨lead.text.reverse ++ behind, NotedLink.printAll front ++
      ('{' :: (inner ++ '}' :: more))⟩ endsAliasHead =
        (NotedLink.printAll front, ⟨(NotedLink.printAll front).reverse ++
          (lead.text.reverse ++ behind), '{' :: (inner ++ '}' :: more)⟩) := by
    rw [capture_head htied hfront,
      captureFrom_stop (by decide) (endsAliasHead_own hown htaken _ _), inFront, List.append_nil]
  have hparts : topLevelParts ['&', '|'] (NotedLink.printAll front) = front.map NotedLink.part := by
    have hall := NotedLink.topLevelParts_printAll (fun c hc => (isSeparator_aliasSigns c hc).1) front
      (g := []) rfl (t := []) fun _ _ => rfl
    rw [List.nil_append, List.append_nil] at hall
    exact hall.trans (List.append_nil _)
  have hgroup : ∀ b, readGroup ⟨b, '{' :: (inner ++ '}' :: more)⟩ '{' '}' =
      (inner, ⟨'}' :: (inner.reverse ++ '{' :: b), more⟩) := fun b =>
    readGroup_balanced (by decide) (by decide) (by decide) valid.closed valid.curly
  have hskip := skipTrivia_side lead front (.body inner valid) behind more
  have hprint : (Operand.body inner valid).print ++ more = '{' :: (inner ++ '}' :: more) := by
    simp [Operand.print]
  rw [hprint] at hskip ⊢
  rw [readAliasSide, hskip, hcapture]
  dsimp only
  rw [hparts, hgroup]
  simp only [current?, List.head?_cons, if_true]
  rw [show ([] : List Text) = ([] : List Text).eraseDups from rfl, foldl_addNew, List.nil_append]

/-- Before its first operand an alias is not ended by a line feed. -/
theorem isOpenEnded_blank {g : Text} (hg : isBlank g = true) : isOpenEnded g = true := by
  have hstart : trimStart g = [] := List.dropWhile_eq_nil_iff.mpr (List.all_eq_true.mp hg)
  rw [isOpenEnded, hstart]

/-- The last capture begins behind an operator and passes over links. -/
theorem capture_tail {g : Text} (hg : isBlank g = true) {links : List (NotedLink aliasSigns)}
    (htied : ∀ x ∈ links, x.IsTied) (behind t : Text) :
    capture ⟨behind, g ++ (NotedLink.printAll links ++ t)⟩ endsAliasTail =
      inFront (g ++ NotedLink.printAll links) (captureFrom endsAliasTail .code .top
        ((NotedLink.printAll links).reverse ++ (g.reverse ++ []))
        ((NotedLink.printAll links).reverse ++ (g.reverse ++ behind)) t) := by
  have hgap : ∀ front more, g = front ++ '\n' :: more → ∀ behind,
      endsAliasTail (front.reverse ++ []) ⟨behind, '\n' :: (more ++ (NotedLink.printAll links ++ t))⟩ =
        false := by
    intro front more hsplit behind
    rw [hsplit] at hg
    have hopen := isOpenEnded_blank (isBlank_reverse (isBlank_of_append hg).1)
    rw [List.append_nil]
    simp [endsAliasTail, endsAtLine, hopen]
  have hempty : firstVisible? (g.reverse ++ []) = none :=
    (firstVisible?_blank (isBlank_reverse hg) []).trans rfl
  rw [capture, captureFrom_blank endsAliasTail_isPassedBy.plain hg hgap,
    NotedLink.capture_printAll isSeparator_aliasSigns endsAliasTail_isPassedBy
      (fun y hy => (htied y hy).isJoined endsAliasTail) hempty (fun _ _ _ _ _ _ _ => rfl),
    ← inFront_append]

/-- Behind the own body an operator is looked for over white space and comments. -/
theorem readAliasTail_sign (x : NotedLink aliasSigns) (behind t : Text) :
    readAliasTail ⟨behind, x.pad ++ x.sign :: t⟩ =
      (topLevelParts ['&', '|'] (capture ⟨x.sign :: (x.pad.reverse ++ behind), t⟩ endsAliasTail).1,
        (capture ⟨x.sign :: (x.pad.reverse ++ behind), t⟩ endsAliasTail).2) := by
  have hvisible : IsPlain x.sign ∧ isWhite x.sign = false := by
    have hsep := (isSeparator_aliasSigns _ x.valid).1
    exact ⟨hsep.1.1, hsep.2.2⟩
  have hsign : x.sign = '&' ∨ x.sign = '|' := by simpa [aliasSigns] using x.valid
  rw [readAliasTail, NotedLink.skipTrivia_pad, skipTrivia_visible hvisible]
  simp only [current?, List.head?_cons, advance]
  rcases hsign with hsign | hsign <;> simp [hsign]

/-- The operands behind the own body are read up to the end of the alias. -/
theorem readAliasTail_print {a : Alias} {tail rest : Text} (h : a.Ends tail rest)
    (x : NotedLink aliasSigns) {back : List (NotedLink aliasSigns)} (htied : ∀ y ∈ back, y.IsTied)
    (p : Operand) (behind : Text) :
    ∃ b, readAliasTail ⟨behind, x.pad ++ x.sign :: (x.after.text ++
        (NotedLink.printAll back ++ (p.print ++ tail)))⟩ =
      (back.map NotedLink.part ++ [p.print], ⟨b, tail⟩) := by
  have hparts : topLevelParts ['&', '|'] (x.after.text ++ (NotedLink.printAll back ++ p.print)) =
      back.map NotedLink.part ++ [p.print] := by
    have hall := NotedLink.topLevelParts_printAll (fun c hc => (isSeparator_aliasSigns c hc).1) back
      x.after.blank (isUncut_operand (fun c hc => (isSeparator_aliasSigns c hc).1) p)
    rw [trimmed?_of_trim p.trim_print p.print_ne_nil] at hall
    exact hall
  refine ⟨p.print.reverse ++ ((NotedLink.printAll back).reverse ++ (x.after.text.reverse ++
    x.sign :: (x.pad.reverse ++ behind))), ?_⟩
  rw [readAliasTail_sign, capture_tail x.after.blank htied,
    captureFrom_operand endsAliasTail_isPassedBy.plain p fun _ _ => rfl,
    capture_ends endsAliasTail (fun _ _ _ => rfl) (fun _ _ _ => rfl) h, ← hparts]
  simp [inFront]

/-- Behind an own body that is the last operand nothing more is read. -/
theorem readAliasTail_ends {a : Alias} {tail rest : Text} (h : a.Ends tail rest)
    (hbody : a.EndsInBody) (behind : Text) :
    readAliasTail ⟨behind, tail⟩ = ([], skipTrivia ⟨behind, tail⟩) := by
  have hnone : ∀ c ∈ aliasSigns, (skipTrivia ⟨behind, tail⟩).current? ≠ some c := by
    intro c hc
    cases h with
    | text => simp [skipTrivia, skipTriviaFrom, current?]
    | semicolon =>
        rw [skipTrivia_visible (by decide)]
        rintro hsemicolon
        obtain rfl : ';' = c := by simpa [current?] using hsemicolon
        exact absurd hc (by decide)
    | line _ _ hnext =>
        have hsame := (beside_start ('\n' :: behind) [] rest).skipTrivia (looksAlike_line behind)
        rw [show '\n' :: rest = ['\n'] ++ rest from rfl, skipTrivia_blank rfl]
        exact fun hcurrent => hnext hbody c hc (hsame.current?.symm.trans hcurrent)
  have hand := hnone '&' (by decide)
  have hor := hnone '|' (by decide)
  simp [readAliasTail, hand, hor]

end TypeDeclaration

/-! ### Aliases are read back -/

namespace Alias

open Cursor TypeDeclaration

variable (style : Member.Style) (a : Alias)

theorem definition_of_own {xs ys : List (Option Char × Operand)} {sign : Option Char} {inner : Text}
    {valid : IsEnclosed inner} (hsplit : a.operands = xs ++ (sign, .body inner valid) :: ys)
    (hxs : ∀ x ∈ xs, Operand.isOwn x = false)
    (hown : Operand.isOwn (sign, .body inner valid) = true) :
    Operand.definition style a.operands =
      ⟨Member.scan style inner, ((xs ++ ys).map fun x => x.2.print).eraseDups⟩ := by
  have hbefore : xs.find? Operand.isOwn = none := by
    rw [List.find?_eq_none]
    intro x hx
    rw [hxs x hx]
    decide
  have hfind : a.operands.find? Operand.isOwn = some (sign, .body inner valid) := by
    rw [hsplit, List.find?_append, hbefore, Option.none_or, List.find?_cons_of_pos hown]
  have herase : a.operands.eraseP Operand.isOwn = xs ++ ys := by
    rw [hsplit, List.eraseP_append_right _ fun x hx => by simp [hxs x hx],
      List.eraseP_cons_of_pos hown]
  rw [Operand.definition, hfind, herase]

theorem definition_of_not_own (hnone : ∀ x ∈ a.operands, Operand.isOwn x = false) :
    Operand.definition style a.operands = ⟨.empty, (a.operands.map fun x => x.2.print).eraseDups⟩ := by
  have hfind : a.operands.find? Operand.isOwn = none := by
    rw [List.find?_eq_none]
    intro x hx
    rw [hnone x hx]
    decide
  have herase : a.operands.eraseP Operand.isOwn = a.operands :=
    List.eraseP_of_forall_not fun x hx => by simp [hnone x hx]
  rw [Operand.definition, hfind, herase]

theorem map_operands : (a.operands.map fun x => x.2.print) =
    a.links.map (·.operand.print) ++ [a.last.print] := by
  rw [operands, List.map_append, Link.map_operands]
  rfl

variable {tail rest : Text} (h : a.Ends tail rest)

include h

/-- The own body is an operand with others behind it. -/
theorem readAliasSide_within {front back : List (Link aliasSigns)} {link : Link aliasSigns}
    (hlinks : a.links = front ++ link :: back)
    (hfront : ∀ x ∈ Link.operands none front, Operand.isOwn x = false)
    (hown : Operand.isOwn (Link.lastSign none front, link.operand) = true) (behind : Text) :
    ∃ place, readAliasSide style ⟨behind, a.side ++ tail⟩ = (Operand.definition style a.operands, place) ∧
      allFrom style place = all style rest := by
  cases hoperand : link.operand with
  | name n => exact absurd hown (by simp [hoperand, Operand.isOwn, Operand.isBody])
  | applied n arguments valid last =>
      exact absurd hown (by simp [hoperand, Operand.isOwn, Operand.isBody])
  | body inner valid =>
      rw [hoperand] at hown
      have hprint : a.side ++ tail = a.lead.text ++ (NotedLink.printAll (front.map Link.noted) ++
          ((Operand.body inner valid).print ++ (link.noted.pad ++ link.noted.sign ::
            (link.noted.after.text ++ (NotedLink.printAll (back.map Link.noted) ++
              (a.last.print ++ tail)))))) := by
        rw [NotedLink.printAll_noted, NotedLink.printAll_noted, NotedLink.pad_noted]
        simp [side, hlinks, Link.printAll, Link.print, Link.noted, hoperand]
      have hoperands : a.operands = Link.operands none front ++
          (Link.lastSign none front, .body inner valid) :: (Link.operands (some link.sign) back ++
            [(Link.lastSign none a.links, a.last)]) := by
        rw [operands, hlinks, Link.operands_append, Link.operands, hoperand]
        simp
      rw [definition_of_own style a hoperands hfront hown]
      rw [← NotedLink.map_toLink_noted front] at hfront hown
      obtain ⟨b, htail⟩ := readAliasTail_print h link.noted (NotedLink.isTied_noted back) a.last
        ('}' :: (inner.reverse ++ '{' :: ((NotedLink.printAll (front.map Link.noted)).reverse ++
          (a.lead.text.reverse ++ behind))))
      refine ⟨⟨b, tail⟩, ?_, allFrom_ends style h b⟩
      rw [hprint, readAliasSide_own style a.lead (NotedLink.isTied_noted front) hfront hown, htail,
        NotedLink.map_part_noted, NotedLink.map_part_noted]
      simp [Link.map_operands]

/-- The own body is the last operand. -/
theorem readAliasSide_last (hbody : a.EndsInBody) (behind : Text) :
    ∃ place, readAliasSide style ⟨behind, a.side ++ tail⟩ = (Operand.definition style a.operands, place) ∧
      allFrom style place = all style rest := by
  obtain ⟨hfront, hown⟩ := hbody
  have hprint : a.side ++ tail = a.lead.text ++ (NotedLink.printAll (a.links.map Link.noted) ++
      (a.last.print ++ tail)) := by
    simp [side, NotedLink.printAll_noted]
  cases hlast : a.last with
  | name n => exact absurd hown (by simp [hlast, Operand.isOwn, Operand.isBody])
  | applied n arguments valid last =>
      exact absurd hown (by simp [hlast, Operand.isOwn, Operand.isBody])
  | body inner valid =>
      rw [hlast] at hown
      have hoperands : a.operands = Link.operands none a.links ++
          (Link.lastSign none a.links, .body inner valid) :: [] := by
        rw [operands, hlast]
      have hends : a.EndsInBody := ⟨hfront, hlast ▸ hown⟩
      rw [definition_of_own style a hoperands hfront hown]
      rw [← NotedLink.map_toLink_noted a.links] at hfront hown
      refine ⟨skipTrivia ⟨'}' :: (inner.reverse ++ '{' ::
        ((NotedLink.printAll (a.links.map Link.noted)).reverse ++ (a.lead.text.reverse ++ behind))),
          tail⟩, ?_, ?_⟩
      · rw [hprint, hlast, readAliasSide_own style a.lead (NotedLink.isTied_noted a.links) hfront hown,
          readAliasTail_ends h hends, NotedLink.map_part_noted]
        simp [Link.map_operands]
      · rw [allFrom_skipTrivia, allFrom_ends style h]

/-- There is no own body. -/
theorem readAliasSide_open (hnone : ∀ x ∈ a.operands, Operand.isOwn x = false) (behind : Text) :
    ∃ place, readAliasSide style ⟨behind, a.side ++ tail⟩ = (Operand.definition style a.operands, place) ∧
      allFrom style place = all style rest := by
  have hprint : a.side ++ tail = a.lead.text ++ (NotedLink.printAll (a.links.map Link.noted) ++
      (a.last.print ++ tail)) := by
    simp [side, NotedLink.printAll_noted]
  have hcapture : ∀ b, capture ⟨b, NotedLink.printAll (a.links.map Link.noted) ++
      (a.last.print ++ tail)⟩ endsAliasHead =
        (NotedLink.printAll (a.links.map Link.noted) ++ a.last.print, ⟨a.last.print.reverse ++
          ((NotedLink.printAll (a.links.map Link.noted)).reverse ++ b), tail⟩) := by
    intro b
    have hall := hnone
    rw [operands, List.forall_mem_append, List.forall_mem_singleton,
      ← NotedLink.map_toLink_noted a.links] at hall
    have htaken := NotedLink.firstVisible?_reverse_printAll
      (fun c hc => (isSeparator_aliasSigns c hc).1) (a.links.map Link.noted) (t := []) rfl
    rw [capture_head (NotedLink.isTied_noted a.links) hall.1,
      captureFrom_operand endsAliasHead_isPassedBy.plain a.last
        fun hbody rest => endsAliasHead_other hall.2 hbody htaken _ rest,
      capture_ends endsAliasHead (fun _ _ _ => rfl) (fun _ _ _ => rfl) h]
    simp [inFront]
  have hparts : topLevelParts ['&', '|'] (NotedLink.printAll (a.links.map Link.noted) ++
      a.last.print) = a.links.map (·.operand.print) ++ [a.last.print] := by
    have hall := NotedLink.topLevelParts_printAll (fun c hc => (isSeparator_aliasSigns c hc).1)
      (a.links.map Link.noted) (g := []) rfl
      (isUncut_operand (fun c hc => (isSeparator_aliasSigns c hc).1) a.last)
    rw [trimmed?_of_trim a.last.trim_print a.last.print_ne_nil, NotedLink.map_part_noted] at hall
    exact hall
  have hend : ∀ b, current? ⟨b, tail⟩ ≠ some '{' := by
    intro b
    cases h <;> simp [current?]
  refine ⟨⟨a.last.print.reverse ++ ((NotedLink.printAll (a.links.map Link.noted)).reverse ++
    (a.lead.text.reverse ++ behind)), tail⟩, ?_, allFrom_ends style h _⟩
  rw [definition_of_not_own style a hnone, map_operands, hprint, readAliasSide,
    skipTrivia_side, hcapture]
  dsimp only
  rw [if_neg (hend _), hparts, show ([] : List Text) = ([] : List Text).eraseDups from rfl,
    foldl_addNew, List.nil_append]

theorem readAliasSide_side (behind : Text) :
    ∃ place, readAliasSide style ⟨behind, a.side ++ tail⟩ =
        (Operand.definition style a.operands, place) ∧ allFrom style place = all style rest := by
  rcases Link.split_own none a.links with hnone | ⟨front, link, back, hlinks, hfront, hown⟩
  · cases hlast : Operand.isOwn (Link.lastSign none a.links, a.last) with
    | true => exact readAliasSide_last style a h ⟨hnone, hlast⟩ behind
    | false =>
        refine readAliasSide_open style a h ?_ behind
        rw [operands, List.forall_mem_append, List.forall_mem_singleton]
        exact ⟨hnone, hlast⟩
  · exact readAliasSide_within style a h hlinks hfront hown behind

/-- An alias is found, and what is left behind it is searched as if it stood alone. -/
theorem all_print :
    all style (a.print ++ tail) =
      ⟨a.name.text, Operand.definition style a.operands⟩ :: all style rest := by
  have hprint : a.print ++ tail = Component.typeWord.text ++
      ' ' :: (a.name.text ++ ' ' :: '=' :: (a.side ++ tail)) := by
    simp [print]
  obtain ⟨place, hside, hrest⟩ := readAliasSide_side style a h
    ('=' :: ' ' :: (a.name.text.reverse ++ ' ' :: (Component.typeWord.text.reverse ++ [])))
  have hfirst : (a.side ++ tail).head? ≠ some '=' := by
    obtain ⟨c, more, hcons, -, hne⟩ := exists_first_side (a.links.map Link.noted) a.last tail
    rw [side, ← NotedLink.printAll_noted, List.append_assoc, List.append_assoc, hcons,
      List.head?_append]
    cases hlead : a.lead.text with
    | nil => simpa using hne
    | cons d lead =>
        have hwhite := List.all_eq_true.mp a.lead.blank d (by simp [hlead])
        simpa using ne_of_kind hwhite (by decide : isWhite '=' = false)
  have hread : readAlias? style ⟨Component.typeWord.text.reverse ++ [],
      ' ' :: (a.name.text ++ ' ' :: '=' :: (a.side ++ tail))⟩ =
        some (⟨a.name.text, Operand.definition style a.operands⟩, place) := by
    have hpeek : ∀ b, peek? ⟨b, '=' :: (a.side ++ tail)⟩ 1 ≠ some '=' := by
      intro b
      simpa [peek?, List.head?_eq_getElem?] using hfirst
    rw [readAlias?, Component.readName?_identifier a.name (by decide)]
    simp only [Option.bind_eq_bind, Option.bind_some, current?, List.head?_cons, advance, hside]
    rw [if_pos (by simpa using hpeek _)]
    rfl
  rw [all, ofText, hprint, allFrom_keyword Component.typeWord (by decide) signFirst_nil
    (signFirst_cons _ (by decide)) ((read?_type _ _).trans hread), hrest]

omit h

/-- The first declaration of a name is entered as it is. -/
theorem merge_definition (xs : List (Option Char × Operand)) :
    TypeDefinition.merge {} (Operand.definition style xs) = Operand.definition style xs := by
  have hmembers : ∃ es, (Operand.definition style xs).members = OrderedMap.ofList es := by
    simp only [Operand.definition]
    split
    · exact Member.exists_scan_eq_ofList style _
    · exact ⟨[], rfl⟩
  obtain ⟨es, hes⟩ := hmembers
  have hextend : OrderedMap.empty.extend (Operand.definition style xs).members =
      (Operand.definition style xs).members := by
    rw [hes]
    exact OrderedMap.ofList_extend_ofList [] es
  have hparents : (Operand.definition style xs).parents.foldl addNew [] =
      (Operand.definition style xs).parents := by
    rw [Operand.definition]
    exact (foldl_addNew [] _).trans (eraseDups_append_eraseDups [] _)
  rw [TypeDefinition.merge, hextend, hparents]

include h

/-- An alias is recorded by its operands and the signs between them, whatever the white space beside
the signs: its first own body gives the members, and the others are its parents. What is left behind
it is searched as if it stood alone, and other declarations of the name are merged onto it. -/
theorem recorded_by_operands :
    all style (a.print ++ tail) =
        ⟨a.name.text, Operand.definition style a.operands⟩ :: all style rest ∧
      (TypeTable.ofScripts style [a.print ++ tail]).get? a.name.text =
        some (((all style rest).filter fun d => d.name = a.name.text).foldl
          (fun merged d => merged.merge d.definition) (Operand.definition style a.operands)) ∧
      ∀ (a' : Alias) (tail' : Text), a'.name = a.name → a'.operands = a.operands →
        a'.Ends tail' rest →
          TypeTable.ofScripts style [a'.print ++ tail'] =
            TypeTable.ofScripts style [a.print ++ tail] := by
  have hall := all_print style a h
  have hscripts : ∀ t, TypeTable.ofScripts style [t] =
      (all style t).foldl TypeTable.declare .empty := by
    intro t
    simp [TypeTable.ofScripts]
  refine ⟨hall, ?_, fun a' tail' hname hoperands hends => ?_⟩
  · have hkey : a.name.text ∈ (TypeTable.ofScripts style [a.print ++ tail]).keys := by
      rw [hscripts, TypeTable.keys_foldl_declare, hall, List.mem_eraseDups]
      simp
    obtain ⟨definition, hget⟩ := OrderedMap.exists_get?_of_mem_keys hkey
    have hmerged := TypeTable.getD_foldl_declare (all style (a.print ++ tail)) a.name.text
    rw [← hscripts, hget, hall, List.filter_cons_of_pos (by simp), List.foldl_cons,
      merge_definition] at hmerged
    rw [hget, ← hmerged]
    rfl
  · rw [hscripts, hscripts, hall, all_print style a' hends, hname, hoperands]

omit h

/-- A character that is none of some signs is told apart from each. -/
theorem forall_ne_of_eq_some {first : Option Char} {d : Char} {signs : List Char}
    (hfirst : first = some d) (hd : d ∉ signs) : ∀ c ∈ signs, first ≠ some c := by
  intro c hc heq
  rw [hfirst, Option.some.injEq] at heq
  exact hd (heq ▸ hc)

/-- An alias over five lines: a name with a function type for its argument, a body that only unites
with it, and its own body behind a blank line. -/
def spreadAlias : Alias where
  name := ⟨"N".toList, by decide⟩
  lead := ⟨"\n  ".toList, by decide⟩
  links := [
    ⟨.applied ⟨"A".toList, by decide⟩ "() => '>'".toList ⟨by decide, by decide, by decide⟩
      (by decide), ⟨"\n".toList, by decide⟩, '|', by decide, ⟨" ".toList, by decide⟩⟩,
    ⟨.body " a: 1; ".toList ⟨by decide, by decide, by decide⟩, ⟨" ".toList, by decide⟩, '&',
      by decide, ⟨"\n\n".toList, by decide⟩⟩]
  last := .body " b: '\x7b' ".toList ⟨by decide, by decide, by decide⟩

theorem recorded_by_operands_spread :
    spreadAlias.Ends "\ninterface N \x7b c: 2 \x7d".toList "interface N \x7b c: 2 \x7d".toList ∧
      all {} (spreadAlias.print ++ "\ninterface N \x7b c: 2 \x7d".toList) =
        ⟨"N".toList, Operand.definition {} spreadAlias.operands⟩ ::
          all {} "interface N \x7b c: 2 \x7d".toList := by
  have hends : spreadAlias.Ends "\ninterface N \x7b c: 2 \x7d".toList
      "interface N \x7b c: 2 \x7d".toList := by
    exact .line _ (forall_ne_of_eq_some (by decide : _ = some 'i') (by decide))
      fun _ => forall_ne_of_eq_some (by decide : _ = some 'i') (by decide)
  exact ⟨hends, (recorded_by_operands {} spreadAlias hends).1⟩

/-- An alias that is its own body. -/
def bodyAlias : Alias where
  name := ⟨"N".toList, by decide⟩
  lead := ⟨" ".toList, by decide⟩
  links := []
  last := .body " a: string ".toList ⟨by decide, by decide, by decide⟩

/-- Behind its own body an alias goes on over a comment, though no operator is the next visible
character. -/
theorem comment_hides_no_operator :
    ¬ ∀ (a : Alias) (rest : Text), (∀ c ∈ continuations, firstVisible? rest ≠ some c) →
      all {} (a.print ++ '\n' :: rest) =
        ⟨a.name.text, Operand.definition {} a.operands⟩ :: all {} rest := by
  intro hclaim
  have hvisible : ∀ c ∈ continuations, firstVisible? "// c\n& B".toList ≠ some c := by
    exact forall_ne_of_eq_some (by decide : _ = some '/') (by decide)
  have hlater := congrArg (fun ds => ds.head?.map fun d => d.definition.parents)
    (hclaim bodyAlias "// c\n& B".toList hvisible)
  have hnext : nextWord? (ofText (bodyAlias.print ++ "\n// c\n& B".toList)) =
      some ⟨"type".toList, ofText (bodyAlias.print ++ "\n// c\n& B".toList),
        ⟨"epyt".toList, (bodyAlias.print ++ "\n// c\n& B".toList).drop 4⟩⟩ := by
    decide
  obtain ⟨d, place, hread, hparents⟩ : ∃ d place, read? {} ⟨"type".toList,
      ofText (bodyAlias.print ++ "\n// c\n& B".toList),
        ⟨"epyt".toList, (bodyAlias.print ++ "\n// c\n& B".toList).drop 4⟩⟩ = some (d, place) ∧
          d.definition.parents = ["B".toList] :=
    ⟨_, _, rfl, rfl⟩
  rw [all, allFrom_nextWord, show '\n' :: "// c\n& B".toList = "\n// c\n& B".toList from rfl,
    hnext] at hlater
  dsimp only at hlater
  rw [hread] at hlater
  simp [hparents, Operand.definition, operands, bodyAlias, Link.operands, Link.lastSign,
    Operand.isOwn, Operand.isBody] at hlater

end Alias

end ComponentProps
