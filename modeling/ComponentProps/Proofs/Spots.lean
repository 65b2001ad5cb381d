import ComponentProps.Proofs.Searches

/-!
# Comments before a sign

A spot is a place in an expression: behind an operand and before the sign that follows it, where a
comment may stand. What follows the sign is any text. It is read in the same way with the comment and
without it: no look back goes past the sign.
-/

namespace ComponentProps

open Text Cursor

namespace Text

/-- Only what it looks like behind a text tells how it is split. -/
theorem piecesFrom_alike {b b' : Text} (h : LooksAlike b b') (separators : List Char)
    (region : Region) (nesting : Nesting) (front t : Text) :
    piecesFrom separators region nesting (front ++ b) t =
      piecesFrom separators region nesting (front ++ b') t := by
  induction t generalizing region nesting front with
  | nil => rfl
  | cons c t ih =>
      have hnext : ∀ region nesting, piecesFrom separators region nesting (c :: (front ++ b)) t =
          piecesFrom separators region nesting (c :: (front ++ b')) t :=
        fun region nesting => ih region nesting (c :: front)
      simp only [piecesFrom, h.read, h.bracket, hnext]

theorem partsFrom_alike {b b' : Text} (h : LooksAlike b b') (separators : List Char) (t : Text) :
    partsFrom separators b t = partsFrom separators b' t :=
  congrArg (List.filterMap trimmed?) (piecesFrom_alike h separators .code .top [] t)

/-- White space at the end of a text belongs to its last piece. -/
theorem exists_piecesFrom_blank {separators : List Char} (hsep : ∀ c ∈ separators, IsSeparator c)
    {g : Text} (hg : isBlank g = true) (region : Region) (nesting : Nesting) (behind t : Text) :
    ∃ ps last, piecesFrom separators region nesting behind t = ps ++ [last] ∧
      piecesFrom separators region nesting behind (t ++ g) = ps ++ [last ++ g] := by
  have hslash : EndsSlash g := by
    constructor <;>
      exact fun hhead => ne_of_kind (List.all_eq_true.mp hg _ (List.mem_of_mem_head? hhead))
        (by decide) rfl
  have hkeep : ∀ {c : Char} {ps : List Text} {last : Text},
      ∃ ps' last', consFirst c (ps ++ [last]) = ps' ++ [last'] ∧
        consFirst c (ps ++ [last ++ g]) = ps' ++ [last' ++ g] := by
    intro c ps last
    cases ps with
    | nil => exact ⟨[], c :: last, rfl, rfl⟩
    | cons p ps => exact ⟨(c :: p) :: ps, last, rfl, rfl⟩
  induction t generalizing region nesting behind with
  | nil =>
      refine ⟨[], [], rfl, ?_⟩
      clear hkeep hslash
      rw [List.nil_append, List.nil_append]
      induction g generalizing region nesting behind with
      | nil => rfl
      | cons c g ih =>
          rw [isBlank, List.all_cons, Bool.and_eq_true] at hg
          have hbracket := bracket_of_not_mem (isFlat_of_isWhite hg.1).2 behind
          have hno : separators.contains c = false := by
            rw [List.contains_eq_mem, decide_eq_false_iff_not]
            exact fun hmem => ne_of_kind hg.1 (hsep c hmem).2.2 rfl
          have hfirst : ∀ region, consFirst c (piecesFrom separators region nesting (c :: behind) g) =
              [c :: g] := by
            intro region
            rw [ih hg.2]
            rfl
          simp only [piecesFrom, hbracket, hno, Bool.and_false, Bool.false_eq_true, if_false, hfirst]
          split <;> rfl
  | cons c t ih =>
      simp only [List.cons_append, piecesFrom, Region.read_before hslash]
      split
      · split
        · obtain ⟨ps, last, h, h'⟩ := ih _ _ _
          rw [h, h']
          exact hkeep
        · obtain ⟨ps, last, h, h'⟩ := ih _ nesting (c :: behind)
          rw [h, h']
          split
          · exact ⟨[] :: ps, last, rfl, rfl⟩
          · exact hkeep
      · obtain ⟨ps, last, h, h'⟩ := ih _ nesting (c :: behind)
        rw [h, h']
        exact hkeep

theorem topLevelParts_trimEnd {separators : List Char} (hsep : ∀ c ∈ separators, IsSeparator c)
    (t : Text) : topLevelParts separators (trimEnd t) = topLevelParts separators t := by
  obtain ⟨g, hg, hsplit⟩ : ∃ g, isBlank g = true ∧ t = trimEnd t ++ g := by
    refine ⟨(t.reverse.takeWhile isWhite).reverse, ?_, ?_⟩
    · rw [isBlank, List.all_reverse, List.all_eq_true]
      exact fun c hc => List.mem_takeWhile_imp hc
    · rw [trimEnd, ← List.reverse_append, List.takeWhile_append_dropWhile, List.reverse_reverse]
  obtain ⟨ps, last, hpieces, hblank⟩ := exists_piecesFrom_blank hsep hg .code .top [] (trimEnd t)
  have htrimmed : trimmed? (last ++ g) = trimmed? last := by
    have htrim : trim (last ++ g) = trim last := by
      by_cases hlast : isBlank last = true
      · have hnil : ∀ u, isBlank u = true → trim u = [] := by
          intro u hu
          rw [trim, trimStart, List.dropWhile_eq_nil_iff.mpr (List.all_eq_true.mp hu)]
          rfl
        rw [hnil _ hlast, hnil]
        rw [isBlank, List.all_append, Bool.and_eq_true]
        exact ⟨hlast, hg⟩
      · have hne : last.dropWhile isWhite ≠ [] := by
          rw [ne_eq, List.dropWhile_eq_nil_iff, ← List.all_eq_true]
          exact hlast
        rw [trim, trimStart, List.dropWhile_append, if_neg (by simpa using hne),
          trimEnd_append_blank _ hg, trim, trimStart]
    rw [trimmed?, htrim, trimmed?]
  calc topLevelParts separators (trimEnd t)
      = (ps ++ [last]).filterMap trimmed? := by rw [topLevelParts, pieces, hpieces]
    _ = (ps ++ [last ++ g]).filterMap trimmed? := by
        simp only [List.filterMap_append, List.filterMap_cons, htrimmed]
    _ = topLevelParts separators t := by
        rw [← hblank, ← hsplit]
        rfl

end Text

/-! ### Spots -/

/-- A place behind an operand of an expression and before the sign that follows it. -/
structure Spot (separators : List Char) where
  lead : Gap
  front : List (NotedLink separators)
  link : NotedLink separators

namespace Spot

variable {separators : List Char}

def links (s : Spot separators) : List (NotedLink separators) := s.front ++ [s.link]

/-- The expression up to the sign and the white space behind it. -/
def print (s : Spot separators) : Text := s.lead.text ++ NotedLink.printAll s.links

/-- The expression without the comment. -/
def plain (s : Spot separators) : Spot separators :=
  { s with link := { s.link with comment := none } }

/-- The expression before the sign. -/
def beforeSign (s : Spot separators) : Text :=
  s.lead.text ++ (NotedLink.printAll s.front ++ (s.link.operand.print ++ s.link.pad))

theorem print_eq (s : Spot separators) :
    s.print = s.beforeSign ++ s.link.sign :: s.link.after.text := by
  simp [print, beforeSign, links, NotedLink.printAll, NotedLink.print]

theorem reverse_print_append (s : Spot separators) (b : Text) : s.print.reverse ++ b =
    s.link.after.text.reverse ++ s.link.sign :: (s.beforeSign.reverse ++ b) := by
  simp [print_eq]

/-- A split at the signs leaves the operand with its comment, and splits what follows the sign as if
nothing else stood before it. -/
theorem topLevelParts_print (hsep : ∀ c ∈ separators, IsSeparator c) (s : Spot separators)
    (hsign : s.link.sign ≠ '\\') (t : Text) :
    topLevelParts separators (s.print ++ t) = s.front.map NotedLink.part ++
      s.link.part :: partsFrom separators [s.link.sign] (s.link.after.text ++ t) := by
  obtain ⟨behind, g, hg, hparts⟩ := NotedLink.partsFrom_printAll hsep s.front s.lead.blank []
  have huncut : IsUncut separators (g ++ (s.link.operand.print ++ s.link.pad)) :=
    (isUncut_blank hsep hg).append ((isUncut_operand hsep s.link.operand).append
      (NotedLink.isUncut_pad hsep s.link))
  have hprint : s.print ++ t = s.lead.text ++ (NotedLink.printAll s.front ++
      ((s.link.operand.print ++ s.link.pad) ++ s.link.sign :: (s.link.after.text ++ t))) := by
    simp [print_eq, beforeSign]
  have halike : LooksAlike (s.link.sign :: ((g ++ (s.link.operand.print ++ s.link.pad)).reverse ++
      behind)) [s.link.sign] := looksAlike_cons hsign _ _
  rw [topLevelParts_eq, hprint, hparts, ← List.append_assoc,
    partsFrom_separator hsep huncut s.link.valid, trimmed?_blank_append hg,
    NotedLink.trimmed?_part, partsFrom_alike halike]
  rfl

theorem plain_links (s : Spot separators) :
    s.plain.links = s.front ++ [{ s.link with comment := none }] := rfl

theorem part_plain (s : Spot separators) : s.plain.link.part = s.link.operand.print :=
  NotedLink.part_of_comment_none rfl

/-! ### Captures -/

/-- The end of a capture depends on the text captured only as far back as the nearest sign. -/
def IsLocal (separators : List Char) (stop : Text → Cursor → Bool) : Prop :=
  ∀ sign ∈ separators, ∀ more t t' b b' ahead,
    stop (more ++ sign :: t) ⟨b, ahead⟩ = stop (more ++ sign :: t') ⟨b', ahead⟩

/-- A capture that begins before the expression passes over it. -/
def IsCaptured (stop : Text → Cursor → Bool) (s : Spot separators) : Prop :=
  ∀ behind rest, capture ⟨behind, s.print ++ rest⟩ stop =
    inFront s.print (captureFrom stop .code .top (s.print.reverse ++ []) (s.print.reverse ++ behind)
      rest)

variable {stop : Text → Cursor → Bool}

/-- A capture over the expression takes the same text behind it with the comment and without it. -/
theorem exists_capture (hlocal : IsLocal separators stop) {s : Spot separators}
    (hsign : s.link.sign ≠ '\\') (h : s.IsCaptured stop) (hplain : s.plain.IsCaptured stop)
    (behind rest : Text) :
    ∃ more place place', capture ⟨behind, s.print ++ rest⟩ stop = (s.print ++ more, place) ∧
      capture ⟨behind, s.plain.print ++ rest⟩ stop = (s.plain.print ++ more, place') ∧
      Beside (s.link.sign :: (s.beforeSign.reverse ++ behind))
        (s.link.sign :: (s.plain.beforeSign.reverse ++ behind)) place place' := by
  have hbeside := captureFrom_beside (looksAlike_cons hsign (s.beforeSign.reverse ++ behind)
    (s.plain.beforeSign.reverse ++ behind)) (s.link.sign :: (s.beforeSign.reverse ++ []))
    (s.link.sign :: (s.plain.beforeSign.reverse ++ []))
    (fun more b b' ahead => hlocal _ s.link.valid more _ _ b b' ahead) .code .top
    s.link.after.text.reverse s.link.after.text.reverse rest
  have hprint : ∀ b, s.plain.print.reverse ++ b =
      s.link.after.text.reverse ++ s.link.sign :: (s.plain.beforeSign.reverse ++ b) :=
    s.plain.reverse_print_append
  rw [← s.reverse_print_append, ← s.reverse_print_append, ← hprint, ← hprint] at hbeside
  rw [h, hplain]
  refine ⟨_, _, _, rfl, ?_, hbeside.2⟩
  rw [hbeside.1]
  rfl

/-- A capture that goes on at line feeds passes over an expression. -/
theorem isCaptured_of_lines (hsep : ∀ c ∈ separators, IsSeparator c ∧ c ∉ delimiters)
    (hplain : ∀ taken behind c rest, c ∉ delimiters → stop taken ⟨behind, c :: rest⟩ = false)
    (hline : ∀ taken behind rest, stop taken ⟨behind, '\n' :: rest⟩ = false)
    {s : Spot separators} (hbody : ∀ x ∈ s.links, x.operand.isBody = true →
      ∀ taken behind rest, stop taken ⟨behind, '{' :: rest⟩ = false) : s.IsCaptured stop := by
  intro behind rest
  have hpassed : NotedLink.IsPassedBy separators stop :=
    ⟨hplain, fun taken behind rest _ _ _ => hline taken behind rest⟩
  have hempty : firstVisible? (s.lead.text.reverse ++ []) = none :=
    (firstVisible?_blank (isBlank_reverse s.lead.blank) []).trans rfl
  have hbodies : ∀ sign, ∀ x ∈ Link.operands sign (s.links.map (·.toLink)), x.2.isBody = true →
      ∀ taken behind rest, firstVisible? taken = x.1 → stop taken ⟨behind, '{' :: rest⟩ = false := by
    intro sign x hx hxbody taken behind rest _
    obtain ⟨link, hlink, hoperand⟩ := Link.exists_of_mem_operands hx
    obtain ⟨y, hy, rfl⟩ := List.mem_map.mp hlink
    exact hbody y hy (hoperand ▸ hxbody) taken behind rest
  rw [print, List.append_assoc, capture, captureFrom_blank hplain s.lead.blank
    (fun _ _ _ _ => hline _ _ _), NotedLink.capture_printAll hsep hpassed
      (fun x _ _ _ => hline) hempty (hbodies none), ← inFront_append]
  simp

/-! ### Searches -/

section

variable {α : Type} {begins : Char → Bool} {search : Cursor → α} (h : IsSearch begins search)
  (hangle : begins '<' = false)

include h hangle

/-- What a search finds in an operand with a sign behind it, and further on, depends only on what it
finds behind the sign. -/
theorem search_operand {x y : NotedLink separators} (hx : x.operand.IsSealed search)
    (hsame : y.operand = x.operand ∧ y.sign = x.sign)
    (hvalid : (IsSign x.sign ∧ isWhite x.sign = false) ∧ begins x.sign = false)
    {behind t t' : Text} (hb : standsAlone behind = true)
    (hrest : search ⟨x.sign :: (x.pad.reverse ++ (x.operand.print.reverse ++ behind)), t⟩ =
      search ⟨x.sign :: (y.pad.reverse ++ (x.operand.print.reverse ++ behind)), t'⟩) :
    search ⟨behind, x.operand.print ++ (x.pad ++ x.sign :: t)⟩ =
      search ⟨behind, y.operand.print ++ (y.pad ++ y.sign :: t')⟩ := by
  obtain ⟨⟨hsign, hvisible⟩, hbegins⟩ := hvalid
  have hends : ∀ u, EndsWord (x.sign :: u) := fun u => (signFirst_cons u hsign).endsWord
  have hnext : ∀ (z : NotedLink separators) u b c,
      (skipTrivia ⟨b, z.pad ++ x.sign :: u⟩).current? = some c → begins c = false := by
    intro z u b c hc
    rw [z.skipTrivia_pad, skipTrivia_visible ⟨hsign.1, hvisible⟩] at hc
    obtain rfl : x.sign = c := by simpa [current?] using hc
    exact hbegins
  rw [hsame.1, hsame.2]
  refine h.operand hangle hx hb (x.endsWord_pad (hends t)) (y.endsWord_pad (hends t'))
    (hnext x t) (hnext y t') ?_
  rw [h.pad, h.pad, h.sign hsign, h.sign hsign, hrest]

theorem search_links
    (hsigns : ∀ c ∈ separators, (IsSign c ∧ isWhite c = false) ∧ begins c = false)
    {links : List (NotedLink separators)} (hlinks : ∀ x ∈ links, x.operand.IsSealed search)
    {t t' : Text}
    (ht : ∀ behind, standsAlone behind = true → search ⟨behind, t⟩ = search ⟨behind, t'⟩)
    {behind : Text} (hb : standsAlone behind = true) :
    search ⟨behind, NotedLink.printAll links ++ t⟩ =
      search ⟨behind, NotedLink.printAll links ++ t'⟩ := by
  induction links generalizing behind with
  | nil => exact ht behind hb
  | cons x links ih =>
      rw [List.forall_mem_cons] at hlinks
      have hvalid := hsigns _ x.valid
      rw [NotedLink.printAll_cons_append, NotedLink.printAll_cons_append]
      refine search_operand h hangle hlinks.1 ⟨rfl, rfl⟩ hvalid hb ?_
      rw [h.gap, h.gap]
      exact ih hlinks.2 (standsAlone_blank (isBlank_reverse x.after.blank)
        (standsAlone_sign hvalid.1.1 _))

/-- A search finds the same with the comment and without it. -/
theorem search_plain
    (hsigns : ∀ c ∈ separators, (IsSign c ∧ isWhite c = false) ∧ begins c = false)
    {s : Spot separators} (hlinks : ∀ x ∈ s.links, x.operand.IsSealed search) {behind : Text}
    (hb : standsAlone behind = true) (rest : Text) :
    search ⟨behind, s.print ++ rest⟩ = search ⟨behind, s.plain.print ++ rest⟩ := by
  have hvalid := hsigns _ s.link.valid
  have hlast : ∀ behind, standsAlone behind = true →
      search ⟨behind, s.link.print ++ rest⟩ = search ⟨behind, s.plain.link.print ++ rest⟩ := by
    intro b hb
    have hprint : ∀ x : NotedLink separators, x.print ++ rest =
        x.operand.print ++ (x.pad ++ x.sign :: (x.after.text ++ rest)) := by
      intro x
      simp [NotedLink.print]
    rw [hprint, hprint]
    refine search_operand (x := s.link) (y := s.plain.link) h hangle
      (hlinks s.link (by simp [links])) ⟨rfl, rfl⟩ hvalid hb ?_
    exact h.beside (looksAlike_cons hvalid.1.1.2.2.2.1 _ _) (beside_start _ _ _)
  have hprint : ∀ s : Spot separators, s.print ++ rest =
      s.lead.text ++ (NotedLink.printAll s.front ++ (s.link.print ++ rest)) := by
    intro s
    simp [print, links, NotedLink.printAll]
  have hfront : ∀ x ∈ s.front, x.operand.IsSealed search :=
    fun x hx => hlinks x (List.mem_append_left _ hx)
  rw [hprint, hprint, h.gap, h.gap]
  exact search_links h hangle hsigns hfront hlast
    (standsAlone_blank (isBlank_reverse s.lead.blank) hb)

end

end Spot

/-! ### Where the captures of statements stop -/

namespace TypeDeclaration

theorem trimStart_append_visible {c : Char} (hc : isWhite c = false) (more t : Text) :
    trimStart (more ++ c :: t) = trimStart more ++ c :: t := by
  rw [trimStart, List.dropWhile_append]
  split
  · rename_i hempty
    rw [List.dropWhile_cons_of_neg (by simp [hc]), trimStart, List.isEmpty_iff.mp hempty,
      List.nil_append]
  · rfl

/-- How an expression is to be continued is seen in what was captured behind its last sign. -/
theorem ends_before_sign {sign : Char} (hsign : sign ∈ aliasSigns) (more t t' : Text) :
    isOpenEnded (more ++ sign :: t) = isOpenEnded (more ++ sign :: t') ∧
      opensBody (more ++ sign :: t) = opensBody (more ++ sign :: t') := by
  have hvisible := (isSeparator_aliasSigns sign hsign).1.2.2
  simp only [isOpenEnded, opensBody, trimStart_append_visible hvisible]
  cases trimStart more with
  | nil =>
      simp only [aliasSigns, List.mem_cons, List.not_mem_nil, or_false] at hsign
      rcases hsign with rfl | rfl <;> exact ⟨rfl, rfl⟩
  | cons c more =>
      refine ⟨?_, rfl⟩
      by_cases hc : c = '>'
      · subst hc
        cases more <;> rfl
      · simp

theorem isLocal_endsAliasHead : Spot.IsLocal aliasSigns endsAliasHead := by
  intro sign hsign more t t' b b' ahead
  obtain ⟨hopen, hbody⟩ := ends_before_sign hsign more t t'
  simp only [endsAliasHead, endsAtLine, hopen, hbody]

theorem isLocal_endsAliasTail : Spot.IsLocal aliasSigns endsAliasTail := by
  intro sign hsign more t t' b b' ahead
  simp only [endsAliasTail, endsAtLine, (ends_before_sign hsign more t t').1]

end TypeDeclaration

end ComponentProps
