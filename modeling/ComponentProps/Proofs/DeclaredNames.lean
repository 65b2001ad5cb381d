import ComponentProps.Proofs.DeclarationReading

/-!
# Names declared within types

A search for declarations looks at all words of a script, those within types included. Behind a word
of a type stands a sign, or the keyword of a conditional type and another type. So no word of a type
begins a declaration, but for one case: an identifier `interface` that is checked against an object
type is read as an interface named after the keyword. Main statement: nothing else is declared where
words are followed like this.
-/

namespace ComponentProps

open Text Component

/-! ### Words and what follows them -/

namespace Region

/-- Every word of code that stands alone has a property, together with the text behind it. -/
def EachWord (p : Text → Text → Prop) (region : Region) (behind : Text) : Text → Prop
  | [] => True
  | c :: rest =>
    ((region.read behind c rest).1 = .code → isIdentStart c = true →
      Cursor.standsAlone behind = true →
        p (leadingWord (c :: rest)) ((c :: rest).dropWhile isIdentChar)) ∧
      EachWord p (region.read behind c rest).2 (c :: behind) rest

variable {p : Text → Text → Prop} {region : Region} {behind rest t : Text}

theorem eachWord_and {p' : Text → Text → Prop} (h : region.EachWord p behind t)
    (h' : region.EachWord p' behind t) :
    region.EachWord (fun w rest => p w rest ∧ p' w rest) behind t := by
  induction t generalizing region behind with
  | nil => trivial
  | cons c t ih =>
      exact ⟨fun hcode hstart halone => ⟨h.1 hcode hstart halone, h'.1 hcode hstart halone⟩,
        ih h.2 h'.2⟩

theorem eachWord_of_words {p : Text → Prop} (h : ∀ w ∈ region.words behind t, p w) :
    region.EachWord (fun w _ => p w) behind t := by
  induction t generalizing region behind with
  | nil => trivial
  | cons c t ih =>
      obtain ⟨role, region', hread⟩ : ∃ role region', region.read behind c t = (role, region') :=
        ⟨_, _, rfl⟩
      simp only [words, hread] at h
      simp only [EachWord, hread]
      cases role with
      | code =>
          by_cases hword : (isIdentStart c && Cursor.standsAlone behind) = true
          · simp only [hword, if_true, List.forall_mem_cons] at h
            exact ⟨fun _ _ _ => h.1, ih h.2⟩
          · simp only [hword, Bool.false_eq_true, if_false] at h
            refine ⟨fun _ hstart halone => ?_, ih h⟩
            rw [hstart, halone] at hword
            exact absurd rfl hword
      | literal => exact ⟨fun hno => absurd hno (by decide), ih h⟩
      | comment => exact ⟨fun hno => absurd hno (by decide), ih h⟩

/-- What holds behind plain text. -/
theorem EachWord.plain (ht : ∀ c ∈ t, IsPlain c) (h : code.EachWord p behind (t ++ rest)) :
    code.EachWord p (t.reverse ++ behind) rest := by
  induction t generalizing behind with
  | nil => exact h
  | cons c t ih =>
      have hnext := h.2
      rw [read_plain (ht c List.mem_cons_self)] at hnext
      simpa using ih (fun d hd => ht d (List.mem_cons_of_mem _ hd)) hnext

/-- A character that is code where it is met is code wherever code may stand. -/
theorem read_code_of_read {region' : Region} {c : Char}
    (h : region.read behind c rest = (.code, region')) :
    code.read behind c rest = (.code, code) := by
  have hnext := read_code h
  subst hnext
  cases region with
  | code => exact h
  | lineComment =>
      simp only [read] at h
      split at h
      · rename_i hc
        subst hc
        exact read_plain (by decide) behind rest
      · simp at h
  | literal quote => simp [read] at h
  | blockOpening => simp [read] at h
  | blockComment => simp [read] at h
  | blockClosing => simp [read] at h

theorem EachWord.at_code {region' : Region} {c : Char}
    (hread : region.read behind c rest = (.code, region'))
    (h : region.EachWord p behind (c :: rest)) : code.EachWord p behind (c :: rest) := by
  have hnext := read_code hread
  subst hnext
  simpa only [EachWord, hread, read_code_of_read hread] using h

end Region

namespace Cursor

open Region

variable {p : Text → Text → Prop} {region : Region} {behind ahead : Text}

theorem eachWord_nextWordFrom? {w : Word} (hw : nextWordFrom? region behind ahead = some w)
    (h : region.EachWord p behind ahead) :
    p w.text w.stop.ahead ∧ code.EachWord p w.stop.behind w.stop.ahead := by
  induction ahead generalizing region behind with
  | nil => simp [nextWordFrom?] at hw
  | cons c rest ih =>
      obtain ⟨role, region', hread⟩ : ∃ role region', region.read behind c rest = (role, region') :=
        ⟨_, _, rfl⟩
      have hnext := h.2
      rw [hread] at hnext
      rw [nextWordFrom?, hread] at hw
      cases role with
      | literal => exact ih hw hnext
      | comment => exact ih hw hnext
      | code =>
          dsimp only at hw
          split at hw
          · rename_i hword
            rw [Bool.and_eq_true] at hword
            obtain rfl := Option.some.inj hw
            have hplain : ∀ d ∈ leadingWord (c :: rest), IsPlain d :=
              fun d hd => isPlain_of_isIdentChar (List.mem_takeWhile_imp hd)
            have hhere : code.EachWord p behind (leadingWord (c :: rest) ++
                (c :: rest).dropWhile isIdentChar) := by
              rw [leadingWord_append_dropWhile]
              exact EachWord.at_code hread h
            rw [advanceBy_leadingWord]
            exact ⟨h.1 (by rw [hread]) hword.1 hword.2, hhere.plain hplain⟩
          · exact ih hw hnext

/-- Behind the bracket that closes a group stands code. -/
theorem eachWord_groupFrom (opening close : Char) (depth : Nat)
    (h : region.EachWord p behind ahead) :
    code.EachWord p (groupFrom opening close region depth behind ahead).2.behind
      (groupFrom opening close region depth behind ahead).2.ahead := by
  induction ahead generalizing region behind depth with
  | nil => trivial
  | cons c rest ih =>
      obtain ⟨role, region', hread⟩ : ∃ role region', region.read behind c rest = (role, region') :=
        ⟨_, _, rfl⟩
      have hnext := h.2
      rw [hread] at hnext
      rw [groupFrom, hread]
      cases role with
      | literal => exact ih _ hnext
      | comment => exact ih _ hnext
      | code =>
          dsimp only
          split
          · exact ih _ hnext
          · split
            · split
              · have hcode := read_code hread
                subst hcode
                exact hnext
              · exact ih _ hnext
            · exact ih _ hnext

theorem exists_of_atWord {c : Cursor} {word : Text} (h : c.atWord word = true) :
    ∃ more, c.ahead = word ++ more := by
  have hprefix : word.isPrefixOf c.ahead = true := by
    by_contra hno
    simp [atWord, after?, hno] at h
  obtain ⟨more, hmore⟩ := List.isPrefixOf_iff_prefix.mp hprefix
  exact ⟨more, hmore.symm⟩

/-- A capture ends at code. -/
theorem eachWord_captureFrom (stop : Text → Cursor → Bool) (nesting : Nesting) (taken : Text)
    (h : region.EachWord p behind ahead) :
    code.EachWord p (captureFrom stop region nesting taken behind ahead).2.behind
      (captureFrom stop region nesting taken behind ahead).2.ahead := by
  induction ahead generalizing region nesting taken behind with
  | nil => trivial
  | cons c rest ih =>
      obtain ⟨role, region', hread⟩ : ∃ role region', region.read behind c rest = (role, region') :=
        ⟨_, _, rfl⟩
      have hnext := h.2
      rw [hread] at hnext
      rw [captureFrom, hread]
      cases role with
      | literal => exact ih _ _ hnext
      | comment => exact ih _ _ hnext
      | code =>
          dsimp only
          split
          · exact EachWord.at_code hread h
          · split
            · exact EachWord.at_code hread h
            · exact ih _ _ hnext

end Cursor

/-! ### Declarations -/

/-- What stands behind a word of a type: a sign, or the keyword of a conditional type and what
begins another type. -/
inductive FollowsWord : Text → Prop
  | sign {c : Char} (rest : Text) (h : IsSign c ∧ isWhite c = false) : FollowsWord (c :: rest)
  | space {c : Char} (rest : Text) (h : IsSign c ∧ isWhite c = false) :
      FollowsWord (' ' :: c :: rest)
  | bound {c : Char} (rest : Text) (h : opensType c = true) :
      FollowsWord (' ' :: (extendsWord.text ++ ' ' :: c :: rest))

/-- A word that begins declarations is followed as within a type. -/
def IsFollowed (word rest : Text) : Prop :=
  word ∈ declarationWords → FollowsWord rest

namespace TypeDeclaration

open Region

variable {style : Member.Style} {p : Text → Text → Prop} {behind rest : Text} {c : Char}

theorem skipTrivia_space_opensType (hc : opensType c = true) :
    Cursor.skipTrivia ⟨behind, ' ' :: c :: rest⟩ = ⟨' ' :: behind, c :: rest⟩ := by
  have hwhite := not_isWhite_of_opensType hc
  by_cases hquote : isQuote c = true
  · have hescaped : isEscaped (' ' :: behind) = false := isEscaped_of_head?_ne (by simp)
    have hread : code.read (' ' :: behind) c rest = (.literal, .literal c) := by
      simp [Region.read, hquote, hescaped]
    have hspace : IsPlain ' ' ∧ isWhite ' ' = true := by decide
    simp [Cursor.skipTrivia, Cursor.skipTriviaFrom, read_plain hspace.1, hspace.2, hread]
  · have hplain : IsPlain c := ⟨by simpa using hquote, ne_of_kind hc rfl⟩
    exact Cursor.skipTrivia_space ⟨hplain, hwhite⟩

/-- Only the keyword of a conditional type is taken for a name. -/
theorem readName?_followsWord (behind : Text) (h : FollowsWord rest) :
    readName? ⟨behind, rest⟩ = none ∨
      ∃ c more, rest = ' ' :: (extendsWord.text ++ ' ' :: c :: more) ∧ opensType c = true ∧
        readName? ⟨behind, rest⟩ = some (extendsWord.text,
          ⟨' ' :: (extendsWord.text.reverse ++ ' ' :: behind), c :: more⟩) := by
  have hnone : ∀ {c : Char} {behind rest : Text}, IsSign c →
      Cursor.readIdent? ⟨behind, c :: rest⟩ = none := by
    intro c behind rest hc
    simp [Cursor.readIdent?, hc.not_isIdentStart]
  cases h with
  | sign rest hc =>
      left
      rw [readName?, Cursor.skipTrivia_visible ⟨hc.1.1, hc.2⟩, hnone hc.1]
  | space rest hc =>
      left
      rw [readName?, Cursor.skipTrivia_space ⟨hc.1.1, hc.2⟩, hnone hc.1]
  | @bound c rest hc =>
      refine Or.inr ⟨c, rest, rfl, hc, ?_⟩
      have hangle : c ≠ '<' := ne_of_kind hc rfl
      have hspace : SignFirst (' ' :: c :: rest) := signFirst_cons _ (by decide)
      rw [readName?, Cursor.skipTrivia_space_identifier,
        Cursor.readIdent?_identifier extendsWord hspace]
      dsimp only
      rw [skipTrivia_space_opensType hc]
      simp [Cursor.current?, hangle]

theorem readAlias?_followsWord (h : FollowsWord rest) : readAlias? style ⟨behind, rest⟩ = none := by
  rw [readAlias?]
  rcases readName?_followsWord behind h with hread | ⟨c, more, -, hc, hread⟩
  · rw [hread]
    rfl
  · have hne : c ≠ '=' := ne_of_kind hc rfl
    rw [hread]
    simp [Cursor.current?, hne]

theorem eachWord_readExtends {place : Cursor} (h : code.EachWord p place.behind place.ahead) :
    code.EachWord p (readExtends place).2.behind (readExtends place).2.ahead := by
  unfold readExtends
  split
  · rename_i hword
    obtain ⟨more, hmore⟩ := Cursor.exists_of_atWord hword
    obtain ⟨behind, ahead⟩ := place
    dsimp only at hmore h
    subst hmore
    have hadvance : Cursor.advanceBy ⟨behind, "extends".toList ++ more⟩ "extends".length =
        ⟨extendsWord.text.reverse ++ behind, more⟩ :=
      Cursor.advanceBy_length behind extendsWord.text more
    rw [hadvance]
    exact Cursor.eachWord_captureFrom _ _ _ (h.plain fun _ hd => extendsWord.isPlain_of_mem hd)
  · exact h

/-- An interface that is read within types is named after the keyword. -/
theorem readInterface?_followsWord (hfollows : FollowsWord rest)
    (h : code.EachWord p behind rest) {d : TypeDeclaration} {place : Cursor}
    (hread : readInterface? style ⟨behind, rest⟩ = some (d, place)) :
    d.name = extendsWord.text ∧ code.EachWord p place.behind place.ahead := by
  rcases readName?_followsWord behind hfollows with hname | ⟨c, more, hrest, -, hname⟩
  · rw [readInterface?, hname] at hread
    contradiction
  · have hhere : code.EachWord p (' ' :: (extendsWord.text.reverse ++ ' ' :: behind))
        (c :: more) := by
      have hplain : (' ' :: (extendsWord.text ++ [' '])).all (IsPlain ·) = true := by decide
      have hsplit : rest = (' ' :: (extendsWord.text ++ [' '])) ++ c :: more := by simp [hrest]
      rw [hsplit] at h
      simpa using h.plain (by simpa only [List.all_eq_true, decide_eq_true_eq] using hplain)
    rw [readInterface?, hname] at hread
    simp only [Option.bind_eq_bind, Option.bind_some] at hread
    split at hread
    · simp only [Option.pure_def, Option.some.injEq, Prod.mk.injEq] at hread
      obtain ⟨rfl, rfl⟩ := hread
      exact ⟨rfl, Cursor.eachWord_groupFrom '{' '}' 0 (eachWord_readExtends hhere)⟩
    · contradiction

/-- A declaration that is read within types is such an interface. -/
theorem read?_isFollowed {w : Cursor.Word} (hfollows : IsFollowed w.text w.stop.ahead)
    (h : code.EachWord p w.stop.behind w.stop.ahead) {d : TypeDeclaration} {place : Cursor}
    (hread : read? style w = some (d, place)) :
    w.text = interfaceWord.text ∧ d.name = extendsWord.text ∧
      code.EachWord p place.behind place.ahead := by
  have hfollows := hfollows (by
    by_contra hkey
    rw [read?_of_not_mem hkey] at hread
    contradiction)
  unfold read? at hread
  split at hread
  · rename_i hinterface
    exact ⟨hinterface, readInterface?_followsWord hfollows h hread⟩
  · split at hread
    · rw [readAlias?_followsWord hfollows] at hread
      contradiction
    · contradiction

/-- Where the words that begin declarations are followed as within types, only the keyword of a
conditional type is declared, and that by a word `interface`. -/
theorem name_of_mem_allFrom {q : Prop} {place : Cursor} {d : TypeDeclaration}
    (h : code.EachWord (fun w rest => IsFollowed w rest ∧ (w = interfaceWord.text → q))
      place.behind place.ahead)
    (hd : d ∈ allFrom style place) : d.name = extendsWord.text ∧ q := by
  -- The search goes on behind a word or behind what was read; at both places the words that are left
  -- are followed as before.
  induction place using allFrom.induct style with
  | case1 place hword =>
      rw [allFrom_nextWord, hword] at hd
      simp at hd
  | case2 place w hword e next hread ih =>
      obtain ⟨⟨hfollows, hq⟩, hrest⟩ := Cursor.eachWord_nextWordFrom? hword h
      rw [allFrom_nextWord, hword] at hd
      simp only [hread, List.mem_cons] at hd
      obtain ⟨hinterface, hname, hnext⟩ := read?_isFollowed hfollows hrest hread
      rcases hd with rfl | hd
      · exact ⟨hname, hq hinterface⟩
      · exact ih hnext hd
  | case3 place w hword hread ih =>
      rw [allFrom_nextWord, hword] at hd
      simp only [hread] at hd
      exact ih (Cursor.eachWord_nextWordFrom? hword h).2 hd

end TypeDeclaration

/-! ### The words of a type -/

theorem FollowsWord.signFirst {t : Text} (h : FollowsWord t) : SignFirst t := by
  cases h with
  | sign rest hc => exact signFirst_cons rest hc.1
  | space rest hc => exact signFirst_cons _ (by decide)
  | bound rest hc => exact signFirst_cons _ (by decide)

namespace Region

variable {behind rest t : Text}

theorem eachWord_signs {u : Text} (hu : u.all (IsSign ·) = true) {p : Text → Text → Prop}
    (h : code.EachWord p (u.reverse ++ behind) rest) : code.EachWord p behind (u ++ rest) := by
  induction u generalizing behind with
  | nil => exact h
  | cons c u ih =>
      simp only [List.all_cons, Bool.and_eq_true, decide_eq_true_eq] at hu
      refine ⟨fun _ hstart => ?_, ?_⟩
      · rw [hu.1.not_isIdentStart] at hstart
        contradiction
      · rw [read_plain hu.1.1]
        exact ih hu.2 (by simpa using h)

/-- Within a word no other word begins. -/
theorem eachWord_word_tail (ht : ∀ c ∈ t, isIdentChar c = true) {c : Char}
    (hc : isIdentChar c = true) {p : Text → Text → Prop}
    (h : code.EachWord p (t.reverse ++ c :: behind) rest) :
    code.EachWord p (c :: behind) (t ++ rest) := by
  induction t generalizing c behind with
  | nil => exact h
  | cons d t ih =>
      rw [List.forall_mem_cons] at ht
      refine ⟨fun _ _ halone => ?_, ?_⟩
      · simp [Cursor.standsAlone, hc] at halone
      · rw [read_plain (isPlain_of_isIdentChar ht.1)]
        exact ih ht.2 ht.1 (by simpa using h)

theorem eachWord_word (n : Identifier) (hrest : SignFirst rest) {p : Text → Text → Prop}
    (hn : p n.text rest) (h : code.EachWord p (n.text.reverse ++ behind) rest) :
    code.EachWord p behind (n.text ++ rest) := by
  obtain ⟨c, more, htext, -, hall⟩ := n.exists_cons
  have hword := Cursor.leadingWord_identifier n hrest
  have hbehind : (n.text ++ rest).dropWhile isIdentChar = rest := by
    have hsplit := leadingWord_append_dropWhile (n.text ++ rest)
    rw [hword] at hsplit
    exact List.append_cancel_left hsplit
  rw [htext] at hn h hall hword hbehind ⊢
  rw [List.forall_mem_cons] at hall
  refine ⟨fun _ _ _ => ?_, ?_⟩
  · change p (leadingWord (c :: more ++ rest)) ((c :: more ++ rest).dropWhile isIdentChar)
    rwa [hword, hbehind]
  · rw [read_plain (isPlain_of_isIdentChar hall.1)]
    exact eachWord_word_tail hall.2 hall.1 (by simpa using h)

/-- Within a literal no word begins. -/
theorem eachWord_literal {quote : Char} {content : Text}
    (hcontent : ∀ c ∈ content, c ≠ quote ∧ c ≠ '\\') (hb : behind.head? ≠ some '\\')
    {p : Text → Text → Prop}
    (h : code.EachWord p (quote :: (content.reverse ++ behind)) rest) :
    (literal quote).EachWord p behind (content ++ quote :: rest) := by
  induction content generalizing behind with
  | nil =>
      have hread : (literal quote).read behind quote rest = (.literal, .code) := by
        simp [read, isEscaped_of_head?_ne hb]
      simpa [EachWord, hread] using h
  | cons c content ih =>
      rw [List.forall_mem_cons] at hcontent
      have hread : (literal quote).read behind c (content ++ quote :: rest) =
          (.literal, .literal quote) := by
        simp [read, hcontent.1.1]
      have hnext := ih hcontent.2 (show (c :: behind).head? ≠ some '\\' by simpa using hcontent.1.2)
        (by simpa using h)
      simpa [EachWord, hread] using hnext

end Region

/-- Wherever the text stands in front of what may follow a word, its words are followed as within a
type. -/
def KeepsFollowed (t : Text) : Prop :=
  ∀ behind rest, behind.head? ≠ some '\\' → FollowsWord rest →
    Region.code.EachWord IsFollowed (t.reverse ++ behind) rest →
      Region.code.EachWord IsFollowed behind (t ++ rest)

namespace KeepsFollowed

open Region

theorem nil : KeepsFollowed [] := fun _ _ _ _ h => h

theorem word (n : Identifier) : KeepsFollowed n.text :=
  fun _ _ _ hrest h => eachWord_word n hrest.signFirst (fun _ => hrest) h

theorem literal (l : StringLiteral) : KeepsFollowed l.print := by
  intro behind rest hb hrest h
  have hread : code.read behind l.quote (l.content ++ l.quote :: rest) =
      (.literal, .literal l.quote) := by
    simp [Region.read, l.isQuote, isEscaped_of_head?_ne hb]
  have hprint : l.print ++ rest = l.quote :: (l.content ++ l.quote :: rest) := by
    simp [StringLiteral.print]
  have hquote : (l.quote :: behind).head? ≠ some '\\' := by simpa using ne_of_kind l.isQuote rfl
  rw [hprint, EachWord, hread]
  refine ⟨by simp, eachWord_literal (fun c hc => ?_) hquote ?_⟩
  · exact ⟨(l.ne_of_mem hc).1, (l.ne_of_mem hc).2.1⟩
  · simpa [StringLiteral.print] using h

variable {s t : Text} {c : Char}

theorem ne_escape_of_signs {u : Text} (hu : u.all (IsSign ·) = true) (hmem : c ∈ u) : c ≠ '\\' :=
  (of_decide_eq_true (List.all_eq_true.mp hu c hmem)).2.2.2.1

theorem signed (ht : KeepsFollowed t) {u : Text} (hu : u.all (IsSign ·) = true) :
    KeepsFollowed (u ++ t) := by
  intro behind rest hb hrest h
  have hslash : (u.reverse ++ behind).head? ≠ some '\\' :=
    head?_reverse_append_ne
      (fun hlast => ne_escape_of_signs hu (List.mem_of_getLast? hlast) rfl) hb
  rw [List.append_assoc]
  exact eachWord_signs hu (ht _ _ hslash hrest (by simpa using h))

/-- Signs that follow a word, with texts on their two sides. -/
theorem joined (hs : KeepsFollowed s) (ht : KeepsFollowed t) {u : Text}
    (hu : u.all (IsSign ·) = true) (hfollows : ∀ rest, FollowsWord (u ++ rest)) :
    KeepsFollowed (s ++ (u ++ t)) := by
  intro behind rest hb hrest h
  have hlast : ∃ c front, u = front ++ [c] := by
    rcases List.eq_nil_or_concat u with rfl | ⟨front, c, hu⟩
    · exact absurd (hfollows []) (by rintro ⟨⟩)
    · exact ⟨c, front, by simpa using hu⟩
  obtain ⟨c, front, rfl⟩ := hlast
  have hslash : ((front ++ [c]).reverse ++ (s.reverse ++ behind)).head? ≠ some '\\' := by
    simpa using ne_escape_of_signs hu (c := c) (by simp)
  have hrest' : FollowsWord ((front ++ [c]) ++ (t ++ rest)) := hfollows _
  rw [List.append_assoc, List.append_assoc]
  refine hs behind _ hb hrest' (eachWord_signs hu (ht _ _ hslash hrest ?_))
  simpa using h

theorem ended (hs : KeepsFollowed s) {u : Text} (hu : u.all (IsSign ·) = true)
    (hfollows : ∀ rest, FollowsWord (u ++ rest)) : KeepsFollowed (s ++ u) := by
  simpa using hs.joined nil hu hfollows

/-- The keyword of a conditional type, with types on its two sides. -/
theorem bounded (hs : KeepsFollowed s) (ht : KeepsFollowed t)
    (hfirst : ∃ c rest, t = c :: rest ∧ opensType c = true) :
    KeepsFollowed (s ++ ' ' :: (extendsWord.text ++ ' ' :: t)) := by
  intro behind rest hb hrest h
  obtain ⟨c, more, rfl, hc⟩ := hfirst
  have hspace : [' '].all (IsSign ·) = true := by decide
  have hfollows : FollowsWord (' ' :: (extendsWord.text ++ ' ' :: c :: (more ++ rest))) :=
    .bound (more ++ rest) hc
  have hkeyword : IsFollowed extendsWord.text (' ' :: (c :: more ++ rest)) :=
    fun hkey => absurd hkey (by decide)
  have hbound := ht (' ' :: (extendsWord.text.reverse ++ ' ' :: (s.reverse ++ behind))) rest
    (by simp) hrest (by simpa using h)
  have hafter := eachWord_word extendsWord (signFirst_cons (c :: more ++ rest) (by decide)) hkeyword
    (eachWord_signs hspace hbound)
  simpa using hs behind _ hb hfollows (eachWord_signs hspace hafter)

theorem separated {separator : Char} (hs : IsSign separator ∧ isWhite separator = false)
    {ts : List Text} (h : ∀ t ∈ ts, KeepsFollowed t) : KeepsFollowed (separated separator ts) := by
  refine separated_induction nil h fun t ht u hu => ?_
  exact (h t ht).joined hu (u := [separator, ' ']) (by simp [hs.1]; decide) fun _ => .sign _ hs

theorem typedNames {separator : Char} (hs : IsSign separator ∧ isWhite separator = false)
    {fs : List TypedName} (h : ∀ f ∈ fs, KeepsFollowed f.type) :
    KeepsFollowed (ComponentProps.separated separator (fs.map TypedName.print)) := by
  refine separated hs fun t ht => ?_
  obtain ⟨f, hf, rfl⟩ := List.mem_map.mp ht
  have hprint : f.print = f.name.text ++ ((printMark f.optional ++ [':', ' ']) ++ f.type) := by
    simp [TypedName.print]
  rw [hprint]
  refine (word f.name).joined (h f hf) ?_ fun rest => ?_
  · cases f.optional <;> decide
  · cases f.optional with
    | false => exact .sign _ (by decide)
    | true => exact .sign _ (by decide)

end KeepsFollowed

theorem IsTypeText.keepsFollowed {keys : List Text} {t : Text} (h : IsTypeText keys t) :
    KeepsFollowed t := by
  induction h with
  | name n _ => exact .word n
  | literal l => exact .literal l
  | @generic n _ arguments _ ih =>
      have harguments : KeepsFollowed (separated ',' arguments) := .separated (by decide) ih
      have hinner := harguments.ended (u := ['>']) (by decide) fun _ => .sign _ (by decide)
      exact (KeepsFollowed.word n).joined hinner (u := ['<']) (by decide)
        fun _ => .sign _ (by decide)
  | array _ ih => exact ih.ended (by decide) fun _ => .sign _ (by decide)
  | @tuple elements _ ih =>
      have helements : KeepsFollowed (separated ',' elements) := .separated (by decide) ih
      have hinner := helements.ended (u := [']']) (by decide) fun _ => .sign _ (by decide)
      exact hinner.signed (u := ['[']) (by decide)
  | empty => exact KeepsFollowed.nil.signed (u := ['{', '}']) (by decide)
  | @object fields _ _ closed ih =>
      have hfields : KeepsFollowed (separated ';' (fields.map TypedName.print)) :=
        .typedNames (by decide) ih
      have hinner := hfields.ended (u := printTrailing closed ++ [' ', '}'])
        (by cases closed <;> decide) fun rest => by
          cases closed with
          | false => exact .space _ (by decide)
          | true => exact .sign _ (by decide)
      exact hinner.signed (u := ['{', ' ']) (by decide)
  | @function parameters _ _ _ _ ih hresult =>
      have hparameters : KeepsFollowed (separated ',' (parameters.map TypedName.print)) :=
        .typedNames (by decide) ih
      have hinner := hparameters.joined hresult (u := [')', ' ', '=', '>', ' ']) (by decide)
        fun _ => .sign _ (by decide)
      exact hinner.signed (u := ['(']) (by decide)
  | union _ _ hleft hright =>
      exact hleft.joined hright (u := [' ', '|', ' ']) (by decide) fun _ => .space _ (by decide)
  | intersection _ _ hleft hright =>
      exact hleft.joined hright (u := [' ', '&', ' ']) (by decide) fun _ => .space _ (by decide)
  | conditional _ bound _ _ hchecked hbound hpositive hnegative =>
      have hcases := hpositive.joined hnegative (u := [' ', ':', ' ']) (by decide)
        fun _ => .space _ (by decide)
      have hbehind := hbound.joined hcases (u := [' ', '?', ' ']) (by decide)
        fun _ => .space _ (by decide)
      -- The keyword takes the place of a sign here: what follows it begins another type.
      obtain ⟨c, more, rfl, hc⟩ := bound.hasTypeEnds.first
      exact hchecked.bounded hbehind ⟨c, _, rfl, hc⟩

end ComponentProps
