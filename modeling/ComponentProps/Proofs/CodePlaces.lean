import ComponentProps.Proofs.IntakeRange
import ComponentProps.Proofs.MemberLines
import ComponentProps.Proofs.TopLevelSplit

/-!
# Places in code

The readers of declarations and intake statements move between places in code: from the place where
a reader stops, characters have the roles that they have from the place where it set out. So what is
read off a script where no literal has a line feed has no line feed in a literal either: bodies,
clauses, annotations and their parts.
-/

namespace ComponentProps

open Text

/-! ### Roles -/

namespace Region

/-- A character of code is met in code, or ends a line comment, and then the same is read as from
code. -/
theorem roles_of_code {region : Region} {behind rest : Text} {c : Char}
    (h : (region.read behind c rest).1 = .code) :
    region.roles behind (c :: rest) = code.roles behind (c :: rest) := by
  cases region with
  | code => rfl
  | lineComment =>
      by_cases hc : c = '\n'
      · subst hc
        rw [roles_plain_cons (by decide)]
        simp [roles, read]
      · simp [read, hc] at h
  | literal quote | blockOpening | blockComment | blockClosing => contradiction

/-- Whether a character is part of a literal does not depend on what follows. -/
theorem literal_of_literal {region : Region} {behind rest : Text} {c : Char}
    (h : (region.read behind c rest).1 = .literal) (rest' : Text) :
    (region.read behind c rest').1 = .literal := by
  cases region with
  | code =>
      simp only [read] at h ⊢
      split at h
      · rename_i hc
        rw [if_pos hc]
      · split at h <;> contradiction
  | literal quote => rfl
  | lineComment =>
      simp only [read] at h
      split at h <;> contradiction
  | blockOpening | blockComment | blockClosing => contradiction

/-- A block comment is about to close only before a slash. -/
theorem read_blockClosing {region : Region} {behind rest : Text} {c : Char}
    (h : (region.read behind c rest).2 = .blockClosing) : rest.head? = some '/' := by
  cases region with
  | code =>
      simp only [read] at h
      split at h
      · contradiction
      · split at h
        · rename_i opened hopened
          obtain rfl : opened = .blockClosing := h
          unfold comment? at hopened
          repeat' split at hopened
          all_goals contradiction
        · contradiction
  | literal quote | lineComment =>
      simp only [read] at h
      split at h <;> contradiction
  | blockOpening | blockClosing => contradiction
  | blockComment =>
      simp only [read] at h
      split at h
      · simp_all
      · contradiction

/-- What is part of a literal in the first part of a text is so in the whole text. -/
theorem literal_mem_roles_append {region : Region} {behind s : Text} {c : Char}
    (h : (c, Role.literal) ∈ region.roles behind s) (t : Text) :
    (c, Role.literal) ∈ region.roles behind (s ++ t) := by
  induction s generalizing region behind with
  | nil => contradiction
  | cons d s ih =>
      rw [roles, List.mem_cons] at h
      rw [List.cons_append, roles, List.mem_cons]
      rcases h with h | h
      · obtain ⟨rfl, hrole⟩ := Prod.mk.inj h
        rw [literal_of_literal hrole.symm]
        exact .inl rfl
      · cases s with
        | nil => contradiction
        | cons d' s =>
            rw [read_ahead (by simp)]
            exact .inr (ih h)

end Region

/-! ### Texts without line feeds in literals -/

namespace Text

theorem IsUnbroken.of_append {s t : Text} (h : IsUnbroken (s ++ t)) : IsUnbroken s :=
  fun hmem => h (Region.literal_mem_roles_append hmem t)

/-- What follows a sign of code is read as it is alone. -/
theorem IsUnbroken.of_sign {s t : Text} {c : Char} (h : IsUnbroken (s ++ c :: t)) (hc : IsSign c)
    (hcode : Region.code.after [] s = .code) : IsUnbroken t := by
  have hends : EndsSlash (c :: t) := (signFirst_cons t hc).endsSlash
  have hbehind : (c :: s.reverse).head? ≠ some '\\' := by simpa using hc.2.2.2.1
  have halone := Region.roles_behind hbehind .code [] t
  intro hmem
  refine h ?_
  rw [Region.roles_append hends, hcode, List.append_nil, Region.roles_plain_cons hc.1,
    ← List.nil_append (c :: s.reverse), halone]
  exact List.mem_append_right _ (List.mem_cons_of_mem _ hmem)

theorem IsUnbroken.trim {t : Text} (h : IsUnbroken t) : IsUnbroken (trim t) := by
  have hstart : IsUnbroken (trimStart t) := by
    induction t with
    | nil => exact h
    | cons c t ih =>
        by_cases hc : isWhite c = true
        · have htrim : trimStart (c :: t) = trimStart t := by simp [trimStart, hc]
          rw [htrim]
          exact ih (IsUnbroken.of_sign (s := []) h (isSign_of_isWhite hc) rfl)
        · have htrim : trimStart (c :: t) = c :: t := by simp [trimStart, hc]
          rwa [htrim]
  obtain ⟨g, -, hend⟩ := exists_blank_after_trimEnd (trimStart t)
  rw [hend] at hstart
  exact hstart.of_append

theorem IsUnbroken.of_mem_pieces {separators : List Char}
    (hsep : ∀ c ∈ separators, c ∈ typeSeparators) {t piece : Text} (h : IsUnbroken t)
    (hpiece : piece ∈ pieces separators t) : IsUnbroken piece := by
  induction t using split_induction hsep with
  | whole t hwhole =>
      rw [hwhole, List.mem_singleton] at hpiece
      rwa [hpiece]
  | cut first c rest hc hfirst hwhole hpieces ih =>
      rw [hpieces, List.mem_cons] at hpiece
      rcases hpiece with rfl | hpiece
      · exact h.of_append
      · exact ih (h.of_sign (isSign_of_typeSeparator (hsep c hc)).2.1 hfirst.code) hpiece

/-- The parts of a text have no line feed in a literal if the text has none. -/
theorem IsUnbroken.of_mem_topLevelParts {separators : List Char}
    (hsep : ∀ c ∈ separators, c ∈ typeSeparators) {t part : Text} (h : IsUnbroken t)
    (hpart : part ∈ topLevelParts separators t) : IsUnbroken part := by
  obtain ⟨piece, hpiece, htrim⟩ := List.mem_filterMap.mp hpart
  rw [eq_trim_of_trimmed? htrim]
  exact (h.of_mem_pieces hsep hpiece).trim

end Text

namespace TypePart

/-- What stands in the brackets of a part has no line feed in a literal if the part has none. -/
theorem isUnbroken_inside {opening close : Char} (hopening : IsSign opening) {inner : Text}
    (h : IsUnbroken (opening :: (inner ++ [close]))) : IsUnbroken inner :=
  (IsUnbroken.of_sign (s := []) h hopening rfl).of_append

end TypePart

/-! ### Moves between places in code -/

namespace Cursor

/-- From the second place, characters have the roles that they have from the first. -/
def Leads (c d : Cursor) : Prop :=
  Region.code.roles d.behind d.ahead <:+ Region.code.roles c.behind c.ahead

namespace Leads

theorem refl (c : Cursor) : Leads c c := List.suffix_refl _

theorem trans {c d e : Cursor} (h : Leads c d) (h' : Leads d e) : Leads c e :=
  List.IsSuffix.trans h' h

end Leads

theorem leads_plain {t : Text} (h : ∀ c ∈ t, IsPlain c) (behind rest : Text) :
    Leads ⟨behind, t ++ rest⟩ ⟨t.reverse ++ behind, rest⟩ := by
  induction t generalizing behind with
  | nil => exact .refl _
  | cons c t ih =>
      rw [List.forall_mem_cons] at h
      have hfirst : Leads ⟨behind, c :: (t ++ rest)⟩ ⟨c :: behind, t ++ rest⟩ := by
        rw [Leads, Region.roles_plain_cons h.1]
        exact List.suffix_cons _ _
      have hnext := ih h.2 (c :: behind)
      rw [List.reverse_cons, List.append_assoc]
      exact hfirst.trans hnext

theorem leads_skipTriviaFrom {region : Region} (h : ∀ quote, region ≠ .literal quote)
    (behind ahead : Text) :
    Region.code.roles (skipTriviaFrom region behind ahead).behind
      (skipTriviaFrom region behind ahead).ahead <:+ region.roles behind ahead := by
  induction ahead generalizing region behind with
  | nil => exact List.suffix_refl _
  | cons c rest ih =>
      obtain ⟨htrivia, hcode⟩ := read_trivia h behind c rest
      rw [skipTriviaFrom_cons]
      split_ifs with hc
      · exact (ih (htrivia hc) (c :: behind)).trans (List.suffix_cons _ _)
      · obtain rfl := hcode (by simpa using hc)
        exact List.suffix_refl _

theorem leads_skipTrivia (c : Cursor) : Leads c c.skipTrivia :=
  leads_skipTriviaFrom (by simp) c.behind c.ahead

theorem leads_advanceBy_plain {c : Cursor} {t rest : Text} (hahead : c.ahead = t ++ rest)
    (h : ∀ d ∈ t, IsPlain d) : Leads c (c.advanceBy t.length) := by
  obtain ⟨behind, ahead⟩ := c
  dsimp only at hahead
  subst hahead
  rw [advanceBy_length]
  exact leads_plain h behind rest

/-- Identifiers are code. -/
theorem leads_leadingWord (c : Cursor) : Leads c (c.advanceBy (leadingWord c.ahead).length) :=
  leads_advanceBy_plain (leadingWord_append_dropWhile c.ahead).symm
    fun _ hd => isPlain_of_isIdentChar (List.mem_takeWhile_imp hd)

theorem exists_ahead_of_atWord {c : Cursor} {word : Text} (h : c.atWord word = true) :
    ∃ rest, c.ahead = word ++ rest := by
  unfold atWord at h
  split at h
  · contradiction
  · rename_i hafter
    exact ⟨[], eq_append_of_after? hafter⟩
  · rename_i x rest hafter
    exact ⟨x :: rest, eq_append_of_after? hafter⟩

theorem leads_atWord {c : Cursor} {word : Text} (h : c.atWord word = true)
    (hword : ∀ d ∈ word, IsPlain d) : Leads c (c.advanceBy word.length) := by
  obtain ⟨rest, hahead⟩ := exists_ahead_of_atWord h
  exact leads_advanceBy_plain hahead hword

theorem head?_behind_atWord {c : Cursor} {word : Text} (h : c.atWord word = true)
    (hne : word ≠ []) : (c.advanceBy word.length).behind.head? = word.getLast? := by
  obtain ⟨rest, hahead⟩ := exists_ahead_of_atWord h
  have hreverse : word.reverse ≠ [] := by simpa using hne
  rw [advanceBy, hahead, List.take_left, List.head?_append_of_ne_nil _ hreverse, List.head?_reverse]

theorem leads_nextWordFrom? {region : Region} {behind ahead : Text} {w : Word}
    (h : nextWordFrom? region behind ahead = some w) :
    Region.code.roles w.stop.behind w.stop.ahead <:+ region.roles behind ahead := by
  induction ahead generalizing region behind with
  | nil => contradiction
  | cons c rest ih =>
      have hlater : ∀ role next, region.read behind c rest = (role, next) →
          nextWordFrom? next (c :: behind) rest = some w →
          Region.code.roles w.stop.behind w.stop.ahead <:+ region.roles behind (c :: rest) := by
        intro role next hread hword
        rw [Region.roles, hread]
        exact (ih hword).trans (List.suffix_cons _ _)
      rw [nextWordFrom?] at h
      split at h
      · rename_i next hread
        split at h
        · obtain rfl := Option.some.inj h
          rw [Region.roles_of_code (by rw [hread])]
          exact leads_leadingWord ⟨behind, c :: rest⟩
        · exact hlater _ _ hread h
      · rename_i role next _ hread
        exact hlater _ _ hread h

theorem leads_nextWord? {c : Cursor} {w : Word} (h : c.nextWord? = some w) : Leads c w.stop :=
  leads_nextWordFrom? h

theorem leads_groupFrom (opening close : Char) (region : Region) (depth : Nat)
    (behind ahead : Text) :
    Region.code.roles (groupFrom opening close region depth behind ahead).2.behind
      (groupFrom opening close region depth behind ahead).2.ahead <:+
        region.roles behind ahead := by
  induction ahead generalizing region depth behind with
  | nil => exact List.suffix_refl _
  | cons c rest ih =>
      have hkeep : ∀ role next, region.read behind c rest = (role, next) → ∀ depth',
          Region.code.roles (groupFrom opening close next depth' (c :: behind) rest).2.behind
            (groupFrom opening close next depth' (c :: behind) rest).2.ahead <:+
              region.roles behind (c :: rest) := by
        intro role next hread depth'
        rw [Region.roles, hread]
        exact (ih next depth' (c :: behind)).trans (List.suffix_cons _ _)
      rw [groupFrom]
      split
      · rename_i next hread
        split
        · exact hkeep _ _ hread _
        · split
          · split
            · rw [Region.roles, hread, Region.read_code hread]
              exact List.suffix_cons _ _
            · exact hkeep _ _ hread _
          · exact hkeep _ _ hread _
      · rename_i role next _ hread
        exact hkeep _ _ hread _

theorem leads_readGroup (c : Cursor) (opening close : Char) :
    Leads c (c.readGroup opening close).2 :=
  leads_groupFrom opening close .code 0 c.behind c.ahead

theorem leads_captureFrom (stop : Text → Cursor → Bool) (region : Region) (nesting : Nesting)
    (taken behind ahead : Text) :
    Region.code.roles (captureFrom stop region nesting taken behind ahead).2.behind
      (captureFrom stop region nesting taken behind ahead).2.ahead <:+
        region.roles behind ahead := by
  induction ahead generalizing region nesting taken behind with
  | nil => exact List.suffix_refl _
  | cons c rest ih =>
      have hkeep : ∀ role next, region.read behind c rest = (role, next) → ∀ nesting',
          Region.code.roles
            (captureFrom stop next nesting' (c :: taken) (c :: behind) rest).2.behind
            (captureFrom stop next nesting' (c :: taken) (c :: behind) rest).2.ahead <:+
              region.roles behind (c :: rest) := by
        intro role next hread nesting'
        rw [Region.roles, hread]
        exact (ih next nesting' (c :: taken) (c :: behind)).trans (List.suffix_cons _ _)
      rw [captureFrom]
      split
      · rename_i next hread
        have hsame := Region.roles_of_code (by rw [hread] : (region.read behind c rest).1 = .code)
        split
        · rw [hsame]
        · split
          · rw [hsame]
          · exact hkeep _ _ hread _
      · rename_i role next _ hread
        exact hkeep _ _ hread _

theorem leads_capture (c : Cursor) (stop : Text → Cursor → Bool) : Leads c (c.capture stop).2 :=
  leads_captureFrom stop .code .top [] c.behind c.ahead

theorem leads_advance {c : Cursor} {x : Char} (h : c.current? = some x) (hx : IsPlain x) :
    Leads c c.advance := by
  obtain ⟨behind, ahead⟩ := c
  obtain ⟨rest, rfl⟩ := List.head?_eq_some_iff.mp h
  exact leads_plain (t := [x]) (by simpa using hx) behind rest

theorem isCourse_leads : IsCourse Leads where
  refl := .refl
  trans := .trans
  skipTrivia := leads_skipTrivia
  advance := leads_advance
  atWord := leads_atWord
  leadingWord := leads_leadingWord
  readGroup := leads_readGroup
  capture := leads_capture

theorem head?_behind_advance {c : Cursor} {x : Char} (h : c.current? = some x) :
    c.advance.behind.head? = some x := by
  obtain ⟨behind, ahead⟩ := c
  obtain ⟨rest, rfl⟩ := List.head?_eq_some_iff.mp h
  rfl

/-! ### What is read off a script -/

/-- What is ahead of a place in code has no line feed in a literal. -/
def IsUnbroken (c : Cursor) : Prop := ('\n', Role.literal) ∉ Region.code.roles c.behind c.ahead

theorem IsUnbroken.of_leads {c d : Cursor} (h : c.IsUnbroken) (hmove : Leads c d) : d.IsUnbroken :=
  fun hmem => h (hmove.subset hmem)

/-- The text ahead of a place that no backslash stands before has no line feed in a literal up to
any place. -/
theorem IsUnbroken.text {c : Cursor} (h : c.IsUnbroken) (hbehind : c.behind.head? ≠ some '\\')
    {t : Text} (ht : t <+: c.ahead) : t.IsUnbroken := by
  obtain ⟨rest, hrest⟩ := ht
  have hahead : c.ahead.IsUnbroken := by
    have halone := Region.roles_behind hbehind .code [] c.ahead
    rw [List.nil_append] at halone
    rwa [Text.IsUnbroken, ← halone]
  rw [← hrest] at hahead
  exact hahead.of_append

theorem IsUnbroken.advance {c : Cursor} (h : c.IsUnbroken) {x : Char} (hx : IsSign x)
    (hcurrent : c.current? = some x) :
    c.advance.IsUnbroken ∧ c.advance.behind.head? ≠ some '\\' := by
  refine ⟨h.of_leads (leads_advance hcurrent hx.1), ?_⟩
  rw [head?_behind_advance hcurrent]
  simpa using hx.2.2.2.1

theorem isPrefix_groupFrom (opening close : Char) (region : Region) (depth : Nat)
    (behind ahead : Text) : (groupFrom opening close region depth behind ahead).1 <+: ahead := by
  induction ahead generalizing region depth behind with
  | nil => exact List.prefix_refl _
  | cons c rest ih =>
      rw [groupFrom]
      repeat' split
      all_goals first
        | exact List.nil_prefix
        | exact List.cons_prefix_cons.mpr ⟨rfl, ih _ _ _⟩

theorem isPrefix_captureFrom (stop : Text → Cursor → Bool) (region : Region) (nesting : Nesting)
    (taken behind ahead : Text) :
    (captureFrom stop region nesting taken behind ahead).1 <+: ahead := by
  induction ahead generalizing region nesting taken behind with
  | nil => exact List.prefix_refl _
  | cons c rest ih =>
      rw [captureFrom]
      repeat' split
      all_goals first
        | exact List.nil_prefix
        | exact List.cons_prefix_cons.mpr ⟨rfl, ih _ _ _ _⟩

theorem IsUnbroken.capture {c : Cursor} (h : c.IsUnbroken) (hbehind : c.behind.head? ≠ some '\\')
    (stop : Text → Cursor → Bool) : (c.capture stop).1.IsUnbroken :=
  h.text hbehind (isPrefix_captureFrom stop .code .top [] c.behind c.ahead)

theorem IsUnbroken.readGroup {c : Cursor} (h : c.IsUnbroken) {opening : Char}
    (hopening : IsSign opening) (hcurrent : c.current? = some opening) (close : Char) :
    (c.readGroup opening close).1.IsUnbroken := by
  obtain ⟨behind, ahead⟩ := c
  obtain ⟨rest, rfl⟩ := List.head?_eq_some_iff.mp hcurrent
  have hrest : IsUnbroken ⟨opening :: behind, rest⟩ :=
    h.of_leads (leads_plain (t := [opening]) (by simpa using hopening.1) behind rest)
  exact hrest.text (by simpa using hopening.2.2.2.1)
    ((isPrefix_groupFrom opening close .code 0 behind (opening :: rest)).drop 1)

/-- No backslash stands right before the code that trivia lead to. -/
theorem head?_skipTriviaFrom {region : Region} (h : ∀ quote, region ≠ .literal quote)
    {behind ahead : Text} (hcode : region = .code → behind.head? ≠ some '\\')
    (hclosing : region = .blockClosing → ahead.head? = some '/') :
    (skipTriviaFrom region behind ahead).ahead = [] ∨
      (skipTriviaFrom region behind ahead).behind.head? ≠ some '\\' := by
  induction ahead generalizing region behind with
  | nil => exact .inl rfl
  | cons c rest ih =>
      obtain ⟨htrivia, hvisible⟩ := read_trivia h behind c rest
      rw [skipTriviaFrom_cons]
      split_ifs with hc
      · refine ih (htrivia hc) (fun hnext hslash => ?_) Region.read_blockClosing
        -- A backslash is neither white space nor the end of a comment.
        obtain rfl : c = '\\' := by simpa using hslash
        cases region with
        | code =>
            rw [Region.read_plain (by decide)] at hc
            exact absurd hc (by decide)
        | literal quote => exact h quote rfl
        | lineComment | blockOpening | blockComment => simp [Region.read] at hnext
        | blockClosing => simp at hclosing
      · exact .inr (hcode (hvisible (by simpa using hc)))

/-- A capture that sets out behind trivia has no line feed in a literal. -/
theorem IsUnbroken.captureTrivia {c : Cursor} (h : c.IsUnbroken)
    (hbehind : c.behind.head? ≠ some '\\') (stop : Text → Cursor → Bool) :
    (c.skipTrivia.capture stop).1.IsUnbroken := by
  have hcode : ∀ quote, Region.code ≠ .literal quote := by simp
  have hplace : c.skipTrivia.ahead = [] ∨ c.skipTrivia.behind.head? ≠ some '\\' :=
    head?_skipTriviaFrom hcode (fun _ => hbehind) fun hclosing => by simp at hclosing
  rcases hplace with hend | hstart
  · have hnil : (c.skipTrivia.capture stop).1 <+: c.skipTrivia.ahead :=
      isPrefix_captureFrom stop .code .top [] c.skipTrivia.behind c.skipTrivia.ahead
    have hempty : (c.skipTrivia.capture stop).1 = [] := by
      rw [hend] at hnil
      exact List.prefix_nil.mp hnil
    rw [hempty]
    simp [Text.IsUnbroken]
  · exact (h.of_leads (leads_skipTrivia c)).capture hstart stop

end Cursor

end ComponentProps
