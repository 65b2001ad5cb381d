import ComponentProps.Proofs.CodeSpacing
import ComponentProps.Proofs.GroupReading

/-!
# Matching brackets

A reader counts brackets, at most of two kinds apart. Here the brackets of a text are matched one by
one, with a stack of those still to be closed. A text that is matched keeps to itself for every
reader that counts, and each bracket that it opens has its match in it.
-/

namespace ComponentProps

open Text

/-! ### The stack of open brackets -/

namespace Bracket

/-- The bracket that closes what a bracket opens. -/
def closer? : Char → Option Char
  | '(' => some ')'
  | '[' => some ']'
  | '{' => some '}'
  | '<' => some '>'
  | _ => none

/-- The brackets still to come behind a code character, nearest first. A bracket that is closed out
of turn has no answer. -/
def await? (awaited : List Char) (behind : Text) (c : Char) : Option (List Char) :=
  match closer? c with
  | some close => some (close :: awaited)
  | none =>
    match of? behind c with
    | none => some awaited
    | some _ => if awaited.head? = some c then some awaited.tail else none

section

variable {awaited awaited' : List Char} {behind : Text} {c close : Char}

theorem await?_opening (h : closer? c = some close) :
    await? awaited behind c = some (close :: awaited) := by
  simp only [await?, h]

theorem await?_closing (h : closer? c = none) (hb : (of? behind c).isSome = true) :
    await? (c :: awaited) behind c = some awaited := by
  obtain ⟨b, hb⟩ := Option.isSome_iff_exists.mp hb
  simp [await?, h, hb]

theorem await?_other (h : closer? c = none) (hb : of? behind c = none) :
    await? awaited behind c = some awaited := by
  simp only [await?, h, hb]

/-- A code character opens a bracket, closes the nearest open one or is no bracket. -/
theorem await?_cases (h : await? awaited behind c = some awaited') :
    (∃ close, closer? c = some close ∧ awaited' = close :: awaited) ∨
      (closer? c = none ∧ (of? behind c).isSome = true ∧ awaited = c :: awaited') ∨
      (closer? c = none ∧ of? behind c = none ∧ awaited' = awaited) := by
  unfold await? at h
  split at h
  · rename_i close hopen
    exact .inl ⟨close, hopen, (Option.some.inj h).symm⟩
  · rename_i hopen
    split at h
    · rename_i hnone
      exact .inr (.inr ⟨hopen, hnone, (Option.some.inj h).symm⟩)
    · rename_i b hb
      split at h
      · rename_i hhead
        obtain ⟨rest, rfl⟩ := List.head?_eq_some_iff.mp hhead
        obtain rfl := Option.some.inj h
        exact .inr (.inl ⟨hopen, by rw [hb]; rfl, rfl⟩)
      · contradiction

theorem closer?_of_not_mem (h : c ∉ bracketSigns) : closer? c = none := by
  unfold closer?
  split
  · simp [bracketSigns] at h
  · simp [bracketSigns] at h
  · simp [bracketSigns] at h
  · simp [bracketSigns] at h
  · rfl

theorem of?_of_closer?_some (h : closer? c = some close) (behind : Text) :
    of? behind c = some (if close = '>' then .angleOpening else .opening) := by
  unfold closer? at h
  split at h <;> cases h <;> rfl

theorem await?_of?_none (h : await? awaited behind c = some awaited') (hb : of? behind c = none) :
    awaited' = awaited := by
  rcases await?_cases h with ⟨close, hopen, -⟩ | ⟨-, hsome, -⟩ | ⟨-, -, hsame⟩
  · rw [of?_of_closer?_some hopen] at hb
    contradiction
  · rw [hb] at hsome
    contradiction
  · exact hsame

theorem eq_of_closer?_none {b : Bracket} (h : closer? c = none) (hb : of? behind c = some b) :
    b = if c = '>' then .angleClosing else .closing := by
  have hne : ∀ d, closer? d ≠ none → c ≠ d := by
    rintro d hd rfl
    exact hd h
  have hround := hne '(' (by decide)
  have hsquare := hne '[' (by decide)
  have hcurly := hne '{' (by decide)
  have hangle := hne '<' (by decide)
  by_cases hc : c = '>'
  · subst hc
    simp_all [of?]
  · simp_all [of?]

/-- A bracket that waits further out is not met where one further in is closed or opened. -/
theorem await?_below (h : await? awaited behind c = some awaited') (below : List Char) :
    await? (awaited ++ below) behind c = some (awaited' ++ below) := by
  rcases await?_cases h with ⟨close, hopen, rfl⟩ | ⟨hopen, hb, rfl⟩ | ⟨hopen, hb, rfl⟩
  · exact await?_opening hopen
  · exact await?_closing hopen hb
  · exact await?_other hopen hb

/-- A code character leaves alone what waits further out, or it closes the first of it. -/
theorem await?_append {opened below : List Char}
    (h : await? (opened ++ below) behind c = some awaited') :
    (∃ opened', await? opened behind c = some opened' ∧ awaited' = opened' ++ below) ∨
      (opened = [] ∧ (of? behind c).isSome = true ∧ below = c :: awaited') := by
  rcases await?_cases h with ⟨close, hopen, rfl⟩ | ⟨hopen, hb, hclosed⟩ | ⟨hopen, hb, rfl⟩
  · exact .inl ⟨close :: opened, await?_opening hopen, rfl⟩
  · cases opened with
    | nil => exact .inr ⟨rfl, hb, hclosed⟩
    | cons d opened =>
        obtain ⟨rfl, rfl⟩ := List.cons.inj hclosed
        exact .inl ⟨opened, await?_closing hopen hb, rfl⟩
  · exact .inl ⟨opened, await?_other hopen hb, rfl⟩

end

/-- The brackets still to come behind a character in its role. There is no answer for a comment. -/
def awaitAs? (role : Role) (awaited : List Char) (behind : Text) (c : Char) : Option (List Char) :=
  match role with
  | .comment => none
  | .literal => some awaited
  | .code => await? awaited behind c

section

variable {role : Role} {awaited awaited' : List Char} {behind : Text} {c : Char}

theorem awaitAs?_cases (h : awaitAs? role awaited behind c = some awaited') :
    (role = .literal ∧ awaited' = awaited) ∨
      (role = .code ∧ await? awaited behind c = some awaited') := by
  cases role with
  | comment => contradiction
  | literal => exact .inl ⟨rfl, (Option.some.inj h).symm⟩
  | code => exact .inr ⟨rfl, h⟩

theorem awaitAs?_ne_comment (h : awaitAs? role awaited behind c = some awaited') :
    role ≠ .comment := by
  rintro rfl
  contradiction

end

end Bracket

/-- The brackets still to come behind a text without comments, and the region behind it. -/
def awaited? (awaited : List Char) (region : Region) (behind : Text) :
    Text → Option (List Char × Region)
  | [] => some (awaited, region)
  | c :: rest =>
    (Bracket.awaitAs? (region.read behind c rest).1 awaited behind c).bind fun awaited' =>
      awaited? awaited' (region.read behind c rest).2 (c :: behind) rest

/-- Code without comments in which every literal is closed and every bracket is matched. -/
def IsMatched (t : Text) : Prop := awaited? [] .code [] t = some ([], .code)

instance (t : Text) : Decidable (IsMatched t) := inferInstanceAs (Decidable (_ = _))

section

variable {awaited awaited' : List Char} {region region' : Region} {behind : Text}

theorem awaited?_cons_of_read {role : Role} {next : Region} {awaited₁ : List Char} {c : Char}
    {t : Text} (hread : region.read behind c t = (role, next))
    (hstep : Bracket.awaitAs? role awaited behind c = some awaited₁) :
    awaited? awaited region behind (c :: t) = awaited? awaited₁ next (c :: behind) t := by
  rw [awaited?, hread, hstep]
  rfl

/-- A text that has an answer is read character by character. -/
theorem exists_of_awaited?_cons {c : Char} {t : Text} {final : List Char × Region}
    (h : awaited? awaited region behind (c :: t) = some final) :
    ∃ role next awaited₁, region.read behind c t = (role, next) ∧
      Bracket.awaitAs? role awaited behind c = some awaited₁ ∧
      awaited? awaited₁ next (c :: behind) t = some final := by
  obtain ⟨awaited₁, hstep, hrest⟩ := Option.bind_eq_some_iff.mp h
  exact ⟨_, _, awaited₁, rfl, hstep, hrest⟩

/-- A text is read on where the text before it ends. -/
theorem awaited?_append {t : Text} (ht : EndsSlash t) (s : Text) :
    awaited? awaited region behind (s ++ t) =
      (awaited? awaited region behind s).bind fun p =>
        awaited? p.1 p.2 (s.reverse ++ behind) t := by
  induction s generalizing awaited region behind with
  | nil => rfl
  | cons c s ih =>
      simp only [List.cons_append, awaited?, Region.read_before ht]
      cases Bracket.awaitAs? (region.read behind c s).1 awaited behind c with
      | none => rfl
      | some awaited' =>
          simp only [Option.bind_some, ih, List.reverse_cons, List.append_assoc, List.cons_append,
            List.nil_append]

theorem awaited?_alike {b b' : Text} (h : LooksAlike b b') (front t : Text) :
    awaited? awaited region (front ++ b) t = awaited? awaited region (front ++ b') t := by
  induction t generalizing awaited region front with
  | nil => rfl
  | cons c t ih =>
      have hnext : ∀ awaited region, awaited? awaited region (c :: (front ++ b)) t =
          awaited? awaited region (c :: (front ++ b')) t := fun awaited region =>
        ih (c :: front)
      simp only [awaited?, Bracket.awaitAs?, Bracket.await?, h.read, h.bracket, hnext]

/-- Behind a sign a text is matched as it is alone. -/
theorem isMatched_behind {sign : Char} (hsign : IsSign sign ∧ sign ≠ '=') (b t : Text) :
    awaited? [] .code (sign :: b) t = some ([], .code) ↔ IsMatched t := by
  have halike : awaited? [] .code (sign :: b) t = awaited? [] .code [] t :=
    awaited?_alike (looksAlike_sign hsign.1 hsign.2 b) [] t
  rw [halike]
  rfl

/-- Brackets that wait further out do not matter to a text that does not come to them. -/
theorem awaited?_below {t : Text} (h : awaited? awaited region behind t = some (awaited', region'))
    (below : List Char) :
    awaited? (awaited ++ below) region behind t = some (awaited' ++ below, region') := by
  induction t generalizing awaited region behind with
  | nil =>
      obtain ⟨rfl, rfl⟩ := Prod.mk.inj (Option.some.inj h)
      rfl
  | cons c t ih =>
      obtain ⟨role, next, awaited₁, hread, hstep, hrest⟩ := exists_of_awaited?_cons h
      have hstep' : Bracket.awaitAs? role (awaited ++ below) behind c =
          some (awaited₁ ++ below) := by
        rcases Bracket.awaitAs?_cases hstep with ⟨rfl, rfl⟩ | ⟨rfl, hawait⟩
        · rfl
        · exact Bracket.await?_below hawait below
      rw [awaited?_cons_of_read hread hstep']
      exact ih hrest

/-- The bracket that is awaited comes where all that was opened since is closed. -/
theorem exists_match {close : Char} (hclose : IsSign close ∧ close ≠ '\n')
    {opened below : List Char} {t : Text}
    (h : awaited? (opened ++ close :: below) region behind t = some (awaited', region'))
    (hdown : awaited'.length ≤ below.length) :
    ∃ inner rest, t = inner ++ close :: rest ∧
      awaited? opened region behind inner = some ([], .code) ∧
      (Bracket.of? (inner.reverse ++ behind) close).isSome = true ∧
      awaited? below .code (close :: (inner.reverse ++ behind)) rest =
        some (awaited', region') := by
  induction t generalizing opened region behind with
  | nil =>
      obtain ⟨rfl, -⟩ := Prod.mk.inj (Option.some.inj h)
      simp only [List.length_append, List.length_cons] at hdown
      omega
  | cons c t ih =>
      obtain ⟨role, next, awaited₁, hread, hstep, hrest⟩ := exists_of_awaited?_cons h
      -- What is found behind the character is found with it.
      have hcons : ∀ opened₁, Bracket.awaitAs? role opened behind c = some opened₁ →
          awaited₁ = opened₁ ++ close :: below →
          ∃ inner rest, c :: t = inner ++ close :: rest ∧
            awaited? opened region behind inner = some ([], .code) ∧
            (Bracket.of? (inner.reverse ++ behind) close).isSome = true ∧
            awaited? below .code (close :: (inner.reverse ++ behind)) rest =
              some (awaited', region') := by
        rintro opened₁ hopened rfl
        obtain ⟨inner, rest, rfl, hinner, hbracket, hbelow⟩ := ih hrest
        rw [Region.read_before (signFirst_cons rest hclose.1).endsSlash] at hread
        refine ⟨c :: inner, rest, rfl, ?_, by simpa using hbracket, by simpa using hbelow⟩
        rw [awaited?_cons_of_read hread hopened, hinner]
      rcases Bracket.awaitAs?_cases hstep with ⟨rfl, rfl⟩ | ⟨rfl, hawait⟩
      · exact hcons opened rfl rfl
      · rcases Bracket.await?_append hawait with ⟨opened₁, hopened, rfl⟩ | ⟨rfl, hb, hclosed⟩
        · exact hcons opened₁ hopened rfl
        · obtain ⟨rfl, rfl⟩ := List.cons.inj hclosed
          obtain rfl := Region.eq_code_of_read hclose.2 hread
          obtain rfl := Region.read_code hread
          exact ⟨[], t, rfl, rfl, hb, hrest⟩

end

/-! ### Brackets that are counted -/

namespace Nesting

/-- The nesting in which some brackets are still to come. -/
def ofAwaited (awaited : List Char) : Nesting :=
  ⟨awaited.countP (· != '>'), awaited.countP (· == '>')⟩

theorem isTop_ofAwaited {awaited : List Char} :
    (ofAwaited awaited).isTop = true ↔ awaited = [] := by
  constructor
  · intro h
    simp only [isTop, ofAwaited, Bool.and_eq_true, beq_iff_eq, List.countP_eq_zero] at h
    refine List.eq_nil_iff_forall_not_mem.mpr fun c hc => ?_
    by_cases hangle : c = '>'
    · exact h.2 c hc (by simpa using hangle)
    · exact h.1 c hc (by simpa using hangle)
  · rintro rfl
    rfl

theorem track?_ofAwaited {awaited awaited' : List Char} {behind : Text} {c : Char} {b : Bracket}
    (h : Bracket.await? awaited behind c = some awaited') (hb : Bracket.of? behind c = some b) :
    (ofAwaited awaited).track? b = some (ofAwaited awaited') := by
  rcases Bracket.await?_cases h with ⟨close, hopen, rfl⟩ | ⟨hopen, -, rfl⟩ | ⟨-, hnone, -⟩
  · obtain rfl := Option.some.inj ((Bracket.of?_of_closer?_some hopen behind).symm.trans hb)
    by_cases hangle : close = '>'
    · simp [hangle, track?, track, ofAwaited]
    · simp [hangle, track?, track, ofAwaited]
  · obtain rfl := Bracket.eq_of_closer?_none hopen hb
    by_cases hangle : c = '>'
    · simp [hangle, track?, track, ofAwaited]
    · simp [hangle, track?, track, ofAwaited]
  · rw [hnone] at hb
    contradiction

theorem track_of_track? {n m : Nesting} {b : Bracket} (h : n.track? b = some m) :
    n.track b = m := by
  have hwithin := track_within h top
  simpa [within, top] using hwithin

/-- A code character is tracked as the brackets still to come tell. -/
theorem trackChar_ofAwaited {awaited awaited' : List Char} {behind : Text} {c : Char}
    (h : Bracket.await? awaited behind c = some awaited') (base : Nesting) :
    ((ofAwaited awaited).within base).trackChar behind c = (ofAwaited awaited').within base := by
  unfold trackChar
  split
  · rename_i b hb
    exact track_within (track?_ofAwaited h hb) base
  · rename_i hb
    rw [Bracket.await?_of?_none h hb]

end Nesting

/-! ### Parts of a matched text -/

namespace Region

/-- Whether a region is met in a text without comments. -/
def IsCommentFree : Region → Prop
  | code => True
  | literal quote => isQuote quote = true
  | _ => False

theorem isCommentFree_read {region region' : Region} {role : Role} {behind rest : Text} {c : Char}
    (h : region.IsCommentFree) (hread : region.read behind c rest = (role, region'))
    (hrole : role ≠ .comment) : region'.IsCommentFree := by
  cases region with
  | code =>
      simp only [read] at hread
      split at hread
      · rename_i hquote
        obtain ⟨-, rfl⟩ := Prod.mk.inj hread
        rw [Bool.and_eq_true] at hquote
        exact hquote.1
      · split at hread
        · exact absurd (Prod.mk.inj hread).1.symm hrole
        · obtain ⟨-, rfl⟩ := Prod.mk.inj hread
          trivial
  | literal quote =>
      simp only [read] at hread
      obtain ⟨-, rfl⟩ := Prod.mk.inj hread
      split
      · trivial
      · exact h
  | lineComment => contradiction
  | blockOpening => contradiction
  | blockComment => contradiction
  | blockClosing => contradiction

theorem eq_code_of_isCommentFree {region next : Region} {behind rest : Text} {c : Char}
    (h : region.IsCommentFree) (hread : region.read behind c rest = (.code, next)) :
    region = .code := by
  cases region with
  | code => rfl
  | literal quote => simp [read] at hread
  | lineComment | blockOpening | blockComment | blockClosing => contradiction

end Region

theorem isCommentFree_awaited? {awaited awaited' : List Char} {region region' : Region}
    {behind t : Text} (hregion : region.IsCommentFree)
    (h : awaited? awaited region behind t = some (awaited', region')) :
    region'.IsCommentFree := by
  induction t generalizing awaited region behind with
  | nil =>
      obtain ⟨-, rfl⟩ := Prod.mk.inj (Option.some.inj h)
      exact hregion
  | cons c t ih =>
      obtain ⟨role, next, awaited₁, hread, hstep, hrest⟩ := exists_of_awaited?_cons h
      exact ih (Region.isCommentFree_read hregion hread (Bracket.awaitAs?_ne_comment hstep)) hrest

/-- A literal that ends in a text is ended by its quote. -/
theorem mem_of_awaited?_literal {awaited awaited' : List Char} {quote : Char} {behind t : Text}
    (h : awaited? awaited (.literal quote) behind t = some (awaited', .code)) : quote ∈ t := by
  induction t generalizing behind with
  | nil => simp [awaited?] at h
  | cons c t ih =>
      by_cases hc : c = quote
      · exact hc ▸ List.mem_cons_self
      · simp only [awaited?, Region.read, beq_eq_false_iff_ne.mpr hc, Bool.false_and,
          Bool.false_eq_true, if_false] at h
        exact List.mem_cons_of_mem c (ih h)

theorem awaited?_flat_cons {c : Char} (hc : IsFlat c) (awaited : List Char) (behind t : Text) :
    awaited? awaited .code behind (c :: t) = awaited? awaited .code (c :: behind) t :=
  awaited?_cons_of_read (Region.read_plain hc.1 behind t)
    (Bracket.await?_other (Bracket.closer?_of_not_mem hc.2) (bracket_of_not_mem hc.2 behind))

theorem awaited?_flat {t : Text} (ht : ∀ c ∈ t, IsFlat c) (awaited : List Char) (behind : Text) :
    awaited? awaited .code behind t = some (awaited, .code) := by
  induction t generalizing behind with
  | nil => rfl
  | cons c t ih =>
      rw [awaited?_flat_cons (ht c List.mem_cons_self)]
      exact ih (fun d hd => ht d (List.mem_cons_of_mem _ hd)) _

/-- White space opens and closes nothing. -/
theorem awaited?_blank {g : Text} (hg : isBlank g = true) (awaited : List Char) {region : Region}
    (hregion : region.IsCommentFree) (behind : Text) :
    awaited? awaited region behind g = some (awaited, region) := by
  cases region with
  | code => exact awaited?_flat (fun c hc => isFlat_of_isWhite (List.all_eq_true.mp hg c hc)) _ _
  | literal quote =>
      induction g generalizing behind with
      | nil => rfl
      | cons c g ih =>
          rw [isBlank, List.all_cons, Bool.and_eq_true] at hg
          have hne : c ≠ quote := ne_of_kind hg.1 (not_isWhite_of_isQuote hregion)
          simp only [awaited?, Region.read, beq_eq_false_iff_ne.mpr hne, Bool.false_and,
            Bool.false_eq_true, if_false]
          exact ih hg.2 _
  | lineComment => contradiction
  | blockOpening => contradiction
  | blockComment => contradiction
  | blockClosing => contradiction

theorem Text.eq_trim_of_trimmed? {t u : Text} (h : trimmed? t = some u) : u = trim t := by
  unfold trimmed? at h
  split at h
  · contradiction
  · rename_i c rest htrim
    rw [htrim, ← Option.some.inj h]

theorem endsSlash_of_isBlank {g : Text} (hg : isBlank g = true) : EndsSlash g := by
  cases g with
  | nil => exact endsSlash_nil
  | cons c g =>
      rw [isBlank, List.all_cons, Bool.and_eq_true] at hg
      exact (signFirst_cons g (isSign_of_isWhite hg.1)).endsSlash

theorem IsMatched.append_blank {t g : Text} (hg : isBlank g = true) (h : IsMatched (t ++ g)) :
    IsMatched t := by
  rw [IsMatched, awaited?_append (endsSlash_of_isBlank hg), Option.bind_eq_some_iff] at h
  obtain ⟨⟨awaited, region⟩, ht, hrest⟩ := h
  have hcode : Region.code.IsCommentFree := trivial
  have hregion : region.IsCommentFree := isCommentFree_awaited? hcode ht
  rw [awaited?_blank hg awaited hregion] at hrest
  rw [IsMatched, ht, hrest]

theorem IsMatched.blank_append {t g : Text} (hg : isBlank g = true) (h : IsMatched (g ++ t)) :
    IsMatched t := by
  induction g with
  | nil => exact h
  | cons c g ih =>
      rw [isBlank, List.all_cons, Bool.and_eq_true] at hg
      have hsign : IsSign c ∧ c ≠ '=' := ⟨isSign_of_isWhite hg.1, ne_of_kind hg.1 (by decide)⟩
      refine ih hg.2 ((isMatched_behind hsign [] (g ++ t)).mp ?_)
      rw [← awaited?_flat_cons (isFlat_of_isWhite hg.1)]
      exact h

theorem IsMatched.trim {t : Text} (h : IsMatched t) : IsMatched (trim t) := by
  obtain ⟨g, hg, hend⟩ := exists_blank_after_trimEnd (trimStart t)
  have hstart : t = t.takeWhile isWhite ++ trimStart t := List.takeWhile_append_dropWhile.symm
  rw [hstart] at h
  have htail : IsMatched (trimStart t) := h.blank_append (by simp [isBlank])
  rw [hend] at htail
  exact htail.append_blank hg

/-- The pieces between separators outside all brackets are matched. -/
theorem exists_piecesFrom_matched {separators : List Char}
    (hsep : ∀ s ∈ separators, IsSign s ∧ s ≠ '=' ∧ s ≠ '\n') {awaited : List Char} {region : Region}
    {behind t : Text} (h : awaited? awaited region behind t = some ([], .code)) :
    ∃ first others rest,
      piecesFrom separators region (.ofAwaited awaited) behind t = first :: others ∧
      t = first ++ rest ∧ EndsSlash rest ∧
      awaited? awaited region behind first = some ([], .code) ∧ ∀ p ∈ others, IsMatched p := by
  induction t generalizing awaited region behind with
  | nil => exact ⟨[], [], [], rfl, rfl, endsSlash_nil, h, by simp⟩
  | cons c t ih =>
      obtain ⟨role, next, awaited₁, hread, hstep, hrest⟩ := exists_of_awaited?_cons h
      obtain ⟨first, others, rest, hpieces, hsplit, hends, hfirst, hothers⟩ := ih hrest
      -- A character that is no separator belongs to the first piece.
      have hkeep : ∃ first others rest,
          consFirst c (piecesFrom separators next (.ofAwaited awaited₁) (c :: behind) t) =
            first :: others ∧ c :: t = first ++ rest ∧ EndsSlash rest ∧
          awaited? awaited region behind first = some ([], .code) ∧
          ∀ p ∈ others, IsMatched p := by
        rw [hsplit, Region.read_before hends] at hread
        refine ⟨c :: first, others, rest, by rw [hpieces]; rfl, by rw [hsplit]; rfl, hends, ?_,
          hothers⟩
        rw [awaited?_cons_of_read hread hstep, hfirst]
      simp only [piecesFrom, hread]
      rcases Bracket.awaitAs?_cases hstep with ⟨rfl, rfl⟩ | ⟨rfl, hawait⟩
      · exact hkeep
      · cases hb : Bracket.of? behind c with
        | some b =>
            have htrack := Nesting.track_of_track? (Nesting.track?_ofAwaited hawait hb)
            dsimp only
            rw [htrack]
            exact hkeep
        | none =>
            obtain rfl : awaited₁ = awaited := Bracket.await?_of?_none hawait hb
            dsimp only
            split
            · rename_i hcut
              rw [Bool.and_eq_true, Nesting.isTop_ofAwaited, List.contains_eq_mem,
                decide_eq_true_eq] at hcut
              obtain ⟨rfl, hmem⟩ := hcut
              obtain ⟨hsign, harrow, hfeed⟩ := hsep c hmem
              obtain rfl := Region.eq_code_of_read hfeed hread
              obtain rfl := Region.read_code hread
              have hmatched := (isMatched_behind ⟨hsign, harrow⟩ behind first).mp hfirst
              refine ⟨[], first :: others, c :: t, by rw [hpieces], rfl,
                (signFirst_cons t hsign).endsSlash, rfl, ?_⟩
              exact List.forall_mem_cons.mpr ⟨hmatched, hothers⟩
            · exact hkeep

/-- The parts of a matched text are matched. -/
theorem IsMatched.of_mem_topLevelParts {separators : List Char}
    (hsep : ∀ s ∈ separators, IsSign s ∧ s ≠ '=' ∧ s ≠ '\n') {t p : Text} (h : IsMatched t)
    (hp : p ∈ topLevelParts separators t) : IsMatched p := by
  obtain ⟨q, hq, htrimmed⟩ := List.mem_filterMap.mp hp
  obtain ⟨first, others, rest, hpieces, -, -, hfirst, hothers⟩ := exists_piecesFrom_matched hsep h
  have hpieces' : pieces separators t = first :: others := hpieces
  have hmatched : IsMatched q := by
    rw [hpieces'] at hq
    rcases List.mem_cons.mp hq with rfl | hq
    · exact hfirst
    · exact hothers q hq
  rw [eq_trim_of_trimmed? htrimmed]
  exact hmatched.trim

end ComponentProps
