import ComponentProps.Proofs.BracketMatching
import ComponentProps.Proofs.Spots

/-!
# Splits at the top level

A place of a text lies outside when it is code and no bracket before it is left open. A split cuts a
text at the separators that stand outside and nowhere else. At a cut the reader is in the state that
it starts in, so the pieces can be read alone, white space at their ends opens and closes nothing,
and the parts can be put together again with any of the separators.
-/

namespace ComponentProps

open Text

/-! ### Places outside brackets -/

namespace Bracket

/-- The number of brackets that are left open, for one kind of brackets. A closing bracket that
nothing opened does nothing. -/
def pending (opener closer : Bracket) (bs : List Bracket) : Nat :=
  bs.foldl (fun n b => if b = opener then n + 1 else if b = closer then n - 1 else n) 0

variable {opener closer : Bracket}

theorem pending_concat (bs : List Bracket) (b : Bracket) :
    pending opener closer (bs ++ [b]) =
      if b = opener then pending opener closer bs + 1
      else if b = closer then pending opener closer bs - 1 else pending opener closer bs := by
  rw [pending, List.foldl_append]
  rfl

/-- Brackets are left open where behind some place more are opened than closed. -/
theorem pending_le_iff (hne : opener ≠ closer) (bs : List Bracket) (n : Nat) :
    pending opener closer bs ≤ n ↔
      ∀ late, late <:+ bs → late.count opener ≤ late.count closer + n := by
  induction bs using List.reverseRecOn generalizing n with
  | nil => simp [pending]
  | append_singleton bs b ih =>
      have hlate : (∀ late, late <:+ bs ++ [b] → late.count opener ≤ late.count closer + n) ↔
          ∀ late, late <:+ bs →
            (late ++ [b]).count opener ≤ (late ++ [b]).count closer + n := by
        constructor
        · exact fun h late hlate => h _ (List.suffix_append_self_iff.mpr hlate)
        · intro h late hlate
          rcases List.suffix_concat_iff.mp hlate with rfl | ⟨late', rfl, hlate'⟩
          · simp
          · exact h late' hlate'
      rw [hlate, pending_concat]
      simp only [List.count_append, List.count_singleton, beq_iff_eq]
      by_cases hopen : b = opener
      · subst hopen
        cases n with
        | zero =>
            exact ⟨fun h => absurd h (by simp),
              fun h => absurd (h [] List.nil_suffix) (by simp [hne])⟩
        | succ n =>
            simp only [if_true, if_neg hne, Nat.add_le_add_iff_right, ih]
            exact forall₂_congr fun late _ => by omega
      · by_cases hclose : b = closer
        · subst hclose
          simp only [if_neg hopen, if_true, Nat.sub_le_iff_le_add, ih]
          exact forall₂_congr fun late _ => by omega
        · simp only [if_neg hopen, if_neg hclose, ih]
          exact forall₂_congr fun late _ => by omega

end Bracket

/-- The brackets in the code of a text that is read behind the characters `behind`. -/
def Region.brackets (region : Region) (behind : Text) : Text → List Bracket
  | [] => []
  | c :: rest =>
    match region.read behind c rest with
    | (.code, region') => (Bracket.of? behind c).toList ++ region'.brackets (c :: behind) rest
    | (_, region') => region'.brackets (c :: behind) rest

/-- Behind such a text stands code, and no bracket of the text is left open: from every place to its
end at least as many brackets of a kind are closed as are opened. -/
structure IsOutside (t : Text) : Prop where
  code : Region.code.after [] t = .code
  closed : ∀ late, late <:+ Region.code.brackets [] t →
    late.count .opening ≤ late.count .closing ∧ late.count .angleOpening ≤ late.count .angleClosing

namespace Nesting

/-- The nesting after a text that is read behind the characters `behind`. -/
def after (n : Nesting) (region : Region) (behind t : Text) : Nesting :=
  (region.brackets behind t).foldl track n

/-- The nesting after the character `c`, if it plays the role `role`. -/
def trackAs (n : Nesting) (role : Role) (behind : Text) (c : Char) : Nesting :=
  match role with
  | .code => n.trackChar behind c
  | _ => n

theorem after_cons (n : Nesting) (region : Region) (behind : Text) (c : Char) (rest : Text) :
    n.after region behind (c :: rest) =
      (n.trackAs (region.read behind c rest).1 behind c).after (region.read behind c rest).2
        (c :: behind) rest := by
  obtain ⟨role, next, hread⟩ : ∃ role next, region.read behind c rest = (role, next) := ⟨_, _, rfl⟩
  rw [after, Region.brackets, hread]
  cases role with
  | literal => rfl
  | comment => rfl
  | code => cases hb : Bracket.of? behind c <;> simp [trackAs, trackChar, hb, after]

theorem foldl_track_top (bs : List Bracket) :
    bs.foldl track top =
      ⟨Bracket.pending .opening .closing bs, Bracket.pending .angleOpening .angleClosing bs⟩ := by
  induction bs using List.reverseRecOn with
  | nil => rfl
  | append_singleton bs b ih =>
      rw [List.foldl_append, ih, Bracket.pending_concat, Bracket.pending_concat]
      cases b <;> rfl

theorem isTop_iff {n : Nesting} : n.isTop = true ↔ n = top := by
  obtain ⟨depth, angle⟩ := n
  simp [isTop, top]

end Nesting

theorem isOutside_iff {t : Text} :
    IsOutside t ↔ Region.code.after [] t = .code ∧ Nesting.top.after .code [] t = .top := by
  have hround := Bracket.pending_le_iff (by decide : Bracket.opening ≠ .closing)
    (Region.code.brackets [] t) 0
  have hangle := Bracket.pending_le_iff (by decide : Bracket.angleOpening ≠ .angleClosing)
    (Region.code.brackets [] t) 0
  rw [Nesting.after, Nesting.foldl_track_top, Nesting.top, Nesting.mk.injEq]
  constructor
  · intro h
    exact ⟨h.code, Nat.le_zero.mp (hround.mpr fun late hlate => (h.closed late hlate).1),
      Nat.le_zero.mp (hangle.mpr fun late hlate => (h.closed late hlate).2)⟩
  · rintro ⟨hcode, hdepth, hpending⟩
    exact ⟨hcode, fun late hlate => ⟨hround.mp hdepth.le late hlate,
      hangle.mp hpending.le late hlate⟩⟩

namespace Region

theorem brackets_append {t : Text} (ht : EndsSlash t) (region : Region) (behind s : Text) :
    region.brackets behind (s ++ t) =
      region.brackets behind s ++ (region.after behind s).brackets (s.reverse ++ behind) t := by
  induction s generalizing region behind with
  | nil => rfl
  | cons c s ih =>
      obtain ⟨role, next, hread⟩ : ∃ role next, region.read behind c s = (role, next) :=
        ⟨_, _, rfl⟩
      rw [List.cons_append, brackets, brackets, after, read_before ht, hread, List.reverse_cons,
        List.append_assoc]
      cases role with
      | literal => exact ih next (c :: behind)
      | comment => exact ih next (c :: behind)
      | code =>
          dsimp only
          rw [ih next (c :: behind), List.append_assoc]
          rfl

theorem brackets_alike {b b' : Text} (h : LooksAlike b b') (region : Region) (front t : Text) :
    region.brackets (front ++ b) t = region.brackets (front ++ b') t := by
  induction t generalizing region front with
  | nil => rfl
  | cons c t ih =>
      have hnext : ∀ region : Region, region.brackets (c :: (front ++ b)) t =
          region.brackets (c :: (front ++ b')) t := fun region => ih region (c :: front)
      simp only [brackets, h.read, h.bracket, hnext]

/-- White space holds no brackets, whatever it is part of. -/
theorem brackets_blank {g : Text} (hg : isBlank g = true) (region : Region) (behind : Text) :
    region.brackets behind g = [] := by
  induction g generalizing region behind with
  | nil => rfl
  | cons c g ih =>
      rw [isBlank, List.all_cons, Bool.and_eq_true] at hg
      simp only [brackets, ih hg.2, bracket_of_not_mem (isFlat_of_isWhite hg.1).2]
      split <;> rfl

end Region

/-- Behind a separator that stands outside, a place lies outside if it does so without what is
before. -/
theorem isOutside_cut_iff {s : Char} (hs : IsSign s) (hne : s ≠ '=') (hbracket : s ∉ bracketSigns)
    {t : Text} (ht : IsOutside t) (u : Text) : IsOutside (t ++ s :: u) ↔ IsOutside u := by
  have hends : EndsSlash (s :: u) := (signFirst_cons u hs).endsSlash
  have hafter : Region.code.after [] (t ++ s :: u) = Region.code.after [] u := by
    rw [Region.after_append hends, ht.code, Region.after_plain_cons hs.1]
    exact Region.after_behind (signFirst_cons _ hs).not_escape .code [] u
  have hbrackets : Region.code.brackets [] (t ++ s :: u) =
      Region.code.brackets [] t ++ Region.code.brackets [] u := by
    rw [Region.brackets_append hends, ht.code, Region.brackets, Region.read_plain hs.1,
      bracket_of_not_mem hbracket]
    exact congrArg _ (Region.brackets_alike (looksAlike_sign hs hne _) .code [] u)
  have hnesting : Nesting.top.after .code [] (t ++ s :: u) = Nesting.top.after .code [] u := by
    have htop : (Region.code.brackets [] t).foldl Nesting.track .top = .top :=
      (isOutside_iff.mp ht).2
    rw [Nesting.after, hbrackets, List.foldl_append, htop, Nesting.after]
  rw [isOutside_iff, isOutside_iff, hafter, hnesting]

/-! ### One cut -/

namespace Text

/-- The characters that type expressions and lists of them are split at. -/
def typeSeparators : List Char := ['&', '|', ',']

theorem isSign_of_typeSeparator {c : Char} (h : c ∈ typeSeparators) :
    IsSeparator c ∧ IsSign c ∧ c ≠ '=' ∧ c ≠ '\n' := by
  simp only [typeSeparators, List.mem_cons, List.not_mem_nil, or_false] at h
  rcases h with rfl | rfl | rfl <;> decide

/-- Whether a text is cut at the character `c`, which plays the role `role`. -/
def isCut (separators : List Char) (n : Nesting) (role : Role) (behind : Text) (c : Char) : Bool :=
  role == .code && (Bracket.of? behind c).isNone && (n.isTop && separators.contains c)

variable {separators : List Char} {region : Region} {nesting : Nesting} {behind rest t : Text}

theorem piecesFrom_cons (separators : List Char) (region : Region) (nesting : Nesting)
    (behind : Text) (c : Char) (rest : Text) :
    piecesFrom separators region nesting behind (c :: rest) =
      if isCut separators nesting (region.read behind c rest).1 behind c then
        [] :: piecesFrom separators (region.read behind c rest).2 nesting (c :: behind) rest
      else
        consFirst c (piecesFrom separators (region.read behind c rest).2
          (nesting.trackAs (region.read behind c rest).1 behind c) (c :: behind) rest) := by
  obtain ⟨role, next, hread⟩ : ∃ role next, region.read behind c rest = (role, next) := ⟨_, _, rfl⟩
  rw [piecesFrom, hread]
  cases role with
  | literal => rfl
  | comment => rfl
  | code =>
      cases hb : Bracket.of? behind c <;>
        simp [isCut, Nesting.trackAs, Nesting.trackChar, hb]

theorem eq_singleton_of_consFirst {c : Char} {ps : List Text} (hne : ps ≠ [])
    (h : consFirst c ps = [c :: t]) : ps = [t] := by
  cases ps with
  | nil => exact absurd rfl hne
  | cons p ps => simpa [consFirst] using h

/-- A text without a cut goes into the first piece of what it is followed by. -/
theorem piecesFrom_append (hr : EndsSlash rest)
    (h : piecesFrom separators region nesting behind t = [t]) :
    piecesFrom separators region nesting behind (t ++ rest) =
      inFirst t (piecesFrom separators (region.after behind t) (nesting.after region behind t)
        (t.reverse ++ behind) rest) := by
  induction t generalizing region nesting behind with
  | nil => rfl
  | cons c t ih =>
      rw [piecesFrom_cons] at h
      split at h
      · simp at h
      rename_i hkeep
      have hwhole := eq_singleton_of_consFirst (piecesFrom_ne_nil _ _ _ _ _) h
      rw [List.cons_append, piecesFrom_cons, Region.read_before hr, if_neg hkeep, ih hwhole,
        Nesting.after_cons, Region.after, List.reverse_cons, List.append_assoc]
      rfl

/-- A text is left whole, or it is cut at a separator outside. What stands before the first cut is
left whole. -/
theorem piecesFrom_cases (hsep : ∀ c ∈ separators, c ∈ typeSeparators) (region : Region)
    (nesting : Nesting) (behind t : Text) :
    piecesFrom separators region nesting behind t = [t] ∨
      ∃ first c rest, t = first ++ c :: rest ∧ c ∈ separators ∧
        piecesFrom separators region nesting behind first = [first] ∧
        region.after behind first = .code ∧ nesting.after region behind first = .top ∧
        piecesFrom separators region nesting behind t =
          first :: piecesFrom separators .code .top (c :: (first.reverse ++ behind)) rest := by
  induction t generalizing region nesting behind with
  | nil => exact .inl rfl
  | cons c t ih =>
      obtain ⟨role, next, hread⟩ : ∃ role next, region.read behind c t = (role, next) :=
        ⟨_, _, rfl⟩
      rw [piecesFrom_cons, hread]
      split
      · rename_i hcut
        simp only [isCut, Bool.and_eq_true, beq_iff_eq, List.contains_eq_mem,
          decide_eq_true_eq] at hcut
        obtain ⟨⟨rfl, -⟩, htop, hmem⟩ := hcut
        obtain ⟨-, -, -, hfeed⟩ := isSign_of_typeSeparator (hsep c hmem)
        obtain rfl := Region.eq_code_of_read hfeed hread
        obtain rfl := Region.read_code hread
        obtain rfl := Nesting.isTop_iff.mp htop
        exact .inr ⟨[], c, t, rfl, hmem, rfl, rfl, rfl, rfl⟩
      · rename_i hkeep
        rcases ih next (nesting.trackAs role behind c) (c :: behind) with
          hwhole | ⟨first, s, rest, rfl, hmem, hfirst, hcode, htop, hpieces⟩
        · exact .inl (by rw [hwhole]; rfl)
        · obtain ⟨-, hsign, -⟩ := isSign_of_typeSeparator (hsep s hmem)
          rw [Region.read_before (signFirst_cons rest hsign).endsSlash] at hread
          refine .inr ⟨c :: first, s, rest, rfl, hmem, ?_, ?_, ?_, ?_⟩
          · rw [piecesFrom_cons, hread, if_neg hkeep, hfirst]
            rfl
          · rw [Region.after, hread, hcode]
          · rw [Nesting.after_cons, hread, htop]
          · rw [hpieces, List.reverse_cons, List.append_assoc]
            rfl

/-! ### All cuts -/

/-- Behind a separator, as behind white space, a text is split as it is split alone. -/
theorem piecesFrom_sign {c : Char} (hc : IsSign c) (hne : c ≠ '=') (separators : List Char)
    (behind t : Text) :
    piecesFrom separators .code .top (c :: behind) t = pieces separators t :=
  piecesFrom_alike (looksAlike_sign hc hne behind) separators .code .top [] t

/-- What holds of texts without a cut, and is kept when such a text and a separator are put in
front, holds of every text. -/
theorem split_induction {motive : Text → Prop} (hsep : ∀ c ∈ separators, c ∈ typeSeparators)
    (whole : ∀ t, pieces separators t = [t] → motive t)
    (cut : ∀ first c rest, c ∈ separators → IsOutside first → pieces separators first = [first] →
      pieces separators (first ++ c :: rest) = first :: pieces separators rest → motive rest →
        motive (first ++ c :: rest))
    (t : Text) : motive t := by
  induction hlength : t.length using Nat.strong_induction_on generalizing t with
  | h n ih =>
      rcases piecesFrom_cases hsep .code .top [] t with
        hwhole | ⟨first, c, rest, rfl, hmem, hfirst, hcode, htop, hpieces⟩
      · exact whole t hwhole
      · obtain ⟨-, hsign, hne, -⟩ := isSign_of_typeSeparator (hsep c hmem)
        rw [piecesFrom_sign hsign hne] at hpieces
        have hshorter : rest.length < n := by
          rw [← hlength, List.length_append, List.length_cons]
          omega
        exact cut first c rest hmem (isOutside_iff.mpr ⟨hcode, htop⟩) hfirst hpieces
          (ih rest.length hshorter rest rfl)

/-- A text is cut at a separator that stands outside. -/
theorem piecesFrom_outside {c : Char} (hc : c ∈ typeSeparators) (hmem : c ∈ separators)
    (hcode : region.after behind t = .code) (htop : nesting.after region behind t = .top) :
    piecesFrom separators region nesting behind (t ++ c :: rest) =
      piecesFrom separators region nesting behind t ++
        piecesFrom separators .code .top (c :: (t.reverse ++ behind)) rest := by
  obtain ⟨hflat, hsign, -⟩ := isSign_of_typeSeparator hc
  have hcontains : separators.contains c = true := by simpa using hmem
  induction t generalizing region nesting behind with
  | nil =>
      obtain rfl : region = .code := hcode
      obtain rfl : nesting = .top := htop
      exact piecesFrom_separator hflat.1 hcontains
  | cons d t ih =>
      rw [Nesting.after_cons] at htop
      rw [Region.after] at hcode
      have hrest := ih hcode htop
      rw [List.cons_append, piecesFrom_cons, piecesFrom_cons,
        Region.read_before (signFirst_cons rest hsign).endsSlash, List.reverse_cons,
        List.append_assoc]
      split
      · rename_i hcut
        simp only [isCut, Bool.and_eq_true, beq_iff_eq, Option.isNone_iff_eq_none] at hcut
        rw [hcut.1.1, Nesting.trackAs, Nesting.trackChar, hcut.1.2] at hrest
        exact congrArg ([] :: ·) hrest
      · rw [hrest]
        cases hpieces : piecesFrom separators (region.read behind d t).2
          (nesting.trackAs (region.read behind d t).1 behind d) (d :: behind) t with
        | nil => exact absurd hpieces (piecesFrom_ne_nil _ _ _ _ _)
        | cons p ps => rfl

theorem pieces_outside (hsep : ∀ c ∈ separators, c ∈ typeSeparators) {c : Char}
    (hc : c ∈ separators) (ht : IsOutside t) (rest : Text) :
    pieces separators (t ++ c :: rest) = pieces separators t ++ pieces separators rest := by
  obtain ⟨-, hsign, hne, -⟩ := isSign_of_typeSeparator (hsep c hc)
  obtain ⟨hcode, htop⟩ := isOutside_iff.mp ht
  rw [pieces, piecesFrom_outside (hsep c hc) hc hcode htop, piecesFrom_sign hsign hne]
  rfl

/-- A text without a cut has no separator outside. -/
theorem not_isOutside_of_whole (hsep : ∀ c ∈ separators, c ∈ typeSeparators) {c : Char}
    (hc : c ∈ separators) (h : pieces separators (t ++ c :: rest) = [t ++ c :: rest]) :
    ¬ IsOutside t := by
  intro ht
  have hlength := congrArg List.length h
  rw [pieces_outside hsep hc ht, List.length_append, List.length_singleton] at hlength
  have hfirst := List.length_pos_iff.mpr (piecesFrom_ne_nil separators .code .top [] t)
  have hrest := List.length_pos_iff.mpr (piecesFrom_ne_nil separators .code .top [] rest)
  rw [pieces, pieces] at hlength
  omega

/-- A text made of pieces: the first one, and each of the others behind a separator. -/
def withCuts (first : Text) (cuts : List (Char × Text)) : Text :=
  first ++ cuts.flatMap fun cut => cut.1 :: cut.2

theorem withCuts_cons (first : Text) (c : Char) (piece : Text) (cuts : List (Char × Text)) :
    withCuts first ((c, piece) :: cuts) = first ++ c :: withCuts piece cuts := by
  simp [withCuts]

/-- The cuts of a text are the separators that stand outside. -/
theorem exists_cuts (hsep : ∀ c ∈ separators, c ∈ typeSeparators) (t : Text) :
    ∃ first cuts, t = withCuts first cuts ∧ pieces separators t = first :: cuts.map Prod.snd ∧
      ∀ before c behind, (t = before ++ c :: behind ∧ c ∈ separators ∧ IsOutside before) ↔
        ∃ front piece back, cuts = front ++ (c, piece) :: back ∧ before = withCuts first front ∧
          behind = withCuts piece back := by
  induction t using split_induction hsep with
  | whole t ht =>
      refine ⟨t, [], by simp [withCuts], ht, fun before c behind => ⟨?_, by simp⟩⟩
      rintro ⟨rfl, hc, hbefore⟩
      exact absurd hbefore (not_isOutside_of_whole hsep hc ht)
  | cut first s rest hs hfirst hwhole hpieces ih =>
      obtain ⟨hflat, hsign, hne, -⟩ := isSign_of_typeSeparator (hsep s hs)
      obtain ⟨second, cuts, hrest, hsecond, hcuts⟩ := ih
      refine ⟨first, (s, second) :: cuts, by rw [hrest, withCuts_cons],
        by rw [hpieces, hsecond]; rfl, ?_⟩
      have hhere : ∃ front piece back, (s, second) :: cuts = front ++ (s, piece) :: back ∧
          first = withCuts first front ∧ rest = withCuts piece back :=
        ⟨[], second, cuts, rfl, by simp [withCuts], hrest⟩
      intro before c behind
      constructor
      · rintro ⟨hsplit, hc, hbefore⟩
        rcases List.append_eq_append_iff.mp hsplit with
          ⟨more, rfl, hmore⟩ | ⟨more, rfl, hmore⟩
        · cases more with
          | nil =>
              obtain ⟨rfl, rfl⟩ := List.cons.inj hmore
              rwa [List.append_nil]
          | cons d more =>
              -- The first piece has been passed: the place lies outside without it, too.
              obtain ⟨rfl, htail⟩ := List.cons.inj hmore
              have houtside := (isOutside_cut_iff hsign hne hflat.1.2 hfirst more).mp hbefore
              obtain ⟨front, piece, back, rfl, hfront, hback⟩ :=
                (hcuts more c behind).mp ⟨htail, hc, houtside⟩
              exact ⟨(s, second) :: front, piece, back, rfl, by rw [withCuts_cons, hfront], hback⟩
        · cases more with
          | nil =>
              obtain ⟨rfl, rfl⟩ := List.cons.inj hmore
              simpa using hhere
          | cons d more =>
              -- A separator outside within the first piece would have cut it.
              obtain ⟨rfl, -⟩ := List.cons.inj hmore
              exact absurd hbefore (not_isOutside_of_whole hsep hc hwhole)
      · rintro ⟨front, piece, back, hsplit, rfl, rfl⟩
        cases front with
        | nil =>
            obtain ⟨⟨rfl, rfl⟩, rfl⟩ : (s = c ∧ second = piece) ∧ cuts = back := by
              simpa using hsplit
            refine ⟨?_, hs, ?_⟩
            · rw [hrest]
              simp [withCuts]
            · simpa [withCuts] using hfirst
        | cons cut front =>
            obtain ⟨rfl, rfl⟩ : cut = (s, second) ∧ cuts = front ++ (c, piece) :: back := by
              simpa [eq_comm] using hsplit
            obtain ⟨hback, hc, houtside⟩ :=
              (hcuts (withCuts second front) c (withCuts piece back)).mpr
                ⟨front, piece, back, rfl, rfl, rfl⟩
            refine ⟨?_, hc, ?_⟩
            · rw [withCuts_cons, hback, List.append_assoc, List.cons_append]
            · rw [withCuts_cons]
              exact (isOutside_cut_iff hsign hne hflat.1.2 hfirst _).mpr houtside

/-! ### Parts alone and joined -/

theorem whole_of_mem_pieces (hsep : ∀ c ∈ separators, c ∈ typeSeparators) {t piece : Text}
    (h : piece ∈ pieces separators t) : pieces separators piece = [piece] := by
  induction t using split_induction hsep with
  | whole t ht =>
      rw [ht] at h
      rwa [List.mem_singleton.mp h]
  | cut first s rest hs hfirst hwhole hpieces ih =>
      rw [hpieces] at h
      rcases List.mem_cons.mp h with rfl | h
      · exact hwhole
      · exact ih h

/-- White space at the ends of a text makes no cut. -/
theorem pieces_trim (hsep : ∀ c ∈ separators, c ∈ typeSeparators) {t : Text}
    (h : pieces separators t = [t]) : pieces separators (trim t) = [trim t] := by
  have hseparator := fun c hc => (isSign_of_typeSeparator (hsep c hc)).1
  have hstart : pieces separators (trimStart t) = [trimStart t] := by
    induction t with
    | nil => exact h
    | cons c t ih =>
        by_cases hc : isWhite c = true
        · have hsign := isSign_of_isWhite hc
          have hne : c ≠ '=' := ne_of_kind hc (by decide)
          have hblank : isBlank [c] = true := by simp [isBlank, hc]
          have hpieces := isUncut_blank hseparator hblank [] t
          rw [List.singleton_append, ← pieces, h] at hpieces
          have htail := eq_singleton_of_consFirst (piecesFrom_ne_nil _ _ _ _ _) hpieces.symm
          rw [List.reverse_singleton, List.singleton_append, piecesFrom_sign hsign hne] at htail
          simpa [trimStart, hc] using ih htail
        · simpa [trimStart, hc] using h
  obtain ⟨g, hg, hend⟩ := exists_blank_after_trimEnd (trimStart t)
  obtain ⟨ps, last, hpieces, hlonger⟩ :=
    exists_piecesFrom_blank hseparator hg .code .top [] (trim t)
  have hone : ps ++ [last ++ g] = [trim t ++ g] := by
    rw [← hlonger, trim, ← hend]
    exact hstart
  obtain ⟨rfl, hlast⟩ : ps = [] ∧ last ++ g = trim t ++ g := by
    cases ps with
    | nil => exact ⟨rfl, by simpa using hone⟩
    | cons p ps => simp at hone
  rw [pieces, hpieces, List.append_cancel_right hlast, List.nil_append]

theorem looksAlike_blank {g : Text} (hg : isBlank g = true) : LooksAlike g [] := by
  cases g with
  | nil => exact ⟨by simp, rfl, rfl⟩
  | cons c g =>
      rw [isBlank, List.all_cons, Bool.and_eq_true] at hg
      exact looksAlike_sign (isSign_of_isWhite hg.1) (ne_of_kind hg.1 (by decide)) g

theorem topLevelParts_blank_append (hsep : ∀ c ∈ separators, c ∈ typeSeparators) {g : Text}
    (hg : isBlank g = true) (t : Text) :
    topLevelParts separators (g ++ t) = topLevelParts separators t := by
  have hpieces := isUncut_blank (fun c hc => (isSign_of_typeSeparator (hsep c hc)).1) hg [] t
  have hbehind := partsFrom_alike (looksAlike_blank (isBlank_reverse hg)) separators t
  rw [List.append_nil] at hpieces
  rw [topLevelParts, pieces, hpieces, topLevelParts_eq, ← hbehind, partsFrom]
  cases hfirst : piecesFrom separators .code .top g.reverse t with
  | nil => exact absurd hfirst (piecesFrom_ne_nil _ _ _ _ _)
  | cons p ps =>
      rw [inFirst_cons, List.filterMap_cons, trimmed?_blank_append hg, List.filterMap_cons]

/-- White space that ends in code ends in code at its first line feed. -/
theorem read_feed {region : Region} (hquoted : region.IsQuoted) {g behind : Text}
    (hg : isBlank g = true) (h : region.after behind g = .code) (behind' rest : Text) :
    (region.read behind' '\n' rest).2 = .code := by
  induction g generalizing region behind with
  | nil =>
      obtain rfl : region = .code := h
      rw [Region.read_plain (by decide)]
  | cons c g ih =>
      rw [isBlank, List.all_cons, Bool.and_eq_true] at hg
      have hrest := ih (Region.isQuoted_read hquoted behind c g) hg.2 h
      cases region with
      | code => rw [Region.read_plain (by decide)]
      | literal quote =>
          have hquote := hquoted quote rfl
          have hne : c ≠ quote := ne_of_kind hg.1 (not_isWhite_of_isQuote hquote)
          have hwhite : isWhite '\n' = true := by decide
          have hfeed : '\n' ≠ quote := ne_of_kind hwhite (not_isWhite_of_isQuote hquote)
          simp [Region.read, hne, hfeed] at hrest
      | lineComment => simp [Region.read]
      | blockOpening => simp [Region.read] at hrest
      | blockComment =>
          have hstar : c ≠ '*' := ne_of_kind hg.1 (by decide)
          simp [Region.read, hstar] at hrest
      | blockClosing => rfl

theorem isQuoted_after (t : Text) {region : Region} (h : region.IsQuoted) (behind : Text) :
    (region.after behind t).IsQuoted := by
  induction t generalizing region behind with
  | nil => exact h
  | cons c t ih => exact ih (Region.isQuoted_read h behind c t) (c :: behind)

theorem isOutside_trimStart {t : Text} (h : IsOutside t) : IsOutside (trimStart t) := by
  induction t with
  | nil => exact h
  | cons c t ih =>
      by_cases hc : isWhite c = true
      · have hnil : IsOutside [] := isOutside_iff.mpr ⟨rfl, rfl⟩
        have htail := (isOutside_cut_iff (isSign_of_isWhite hc) (ne_of_kind hc (by decide))
          (isFlat_of_isWhite hc).2 hnil t).mp h
        simpa [trimStart, hc] using ih htail
      · simpa [trimStart, hc] using h

/-- Nothing but a line comment is open at the end of a text that lies outside with the white space
behind it. -/
theorem isOutside_trim {t : Text} (h : IsOutside t) :
    Nesting.top.after .code [] (trim t) = .top ∧
      ∀ behind rest, ((Region.code.after [] (trim t)).read behind '\n' rest).2 = .code := by
  obtain ⟨g, hg, hend⟩ := exists_blank_after_trimEnd (trimStart t)
  have hends : EndsSlash g := endsSlash_of_isBlank hg
  obtain ⟨hcode, htop⟩ := isOutside_iff.mp (isOutside_trimStart h)
  rw [hend, ← trim] at hcode htop
  rw [Nesting.after, Region.brackets_append hends, Region.brackets_blank hg,
    List.append_nil] at htop
  rw [Region.after_append hends] at hcode
  have hquoted : (Region.code.after [] (trim t)).IsQuoted :=
    isQuoted_after (trim t) (by simp [Region.IsQuoted]) []
  exact ⟨htop, read_feed hquoted hg hcode⟩

/-- A part with a separator on a line of its own behind it is split off. -/
theorem topLevelParts_line (hsep : ∀ c ∈ separators, c ∈ typeSeparators) {first part : Text}
    (houtside : IsOutside first) (hwhole : pieces separators first = [first])
    (hpart : trimmed? first = some part) {c : Char} (hc : c ∈ separators) (rest : Text) :
    topLevelParts separators (part ++ '\n' :: c :: '\n' :: rest) =
      part :: topLevelParts separators rest := by
  obtain rfl := eq_trim_of_trimmed? hpart
  obtain ⟨hflat, hsign, hne, -⟩ := isSign_of_typeSeparator (hsep c hc)
  obtain ⟨htop, hfeed⟩ := isOutside_trim houtside
  have hcontains : separators.contains c = true := by simpa using hc
  have hnot : '\n' ∉ separators := fun hmem => (isSign_of_typeSeparator (hsep _ hmem)).2.2.2 rfl
  have hends : EndsSlash ('\n' :: c :: '\n' :: rest) := endsSlash_cons (by decide) _
  have htrack : ∀ role behind, Nesting.top.trackAs role behind '\n' = .top := by
    intro role behind
    cases role <;> rfl
  have hpieces : pieces separators (trim first ++ '\n' :: c :: '\n' :: rest) =
      (trim first ++ ['\n']) :: pieces separators ('\n' :: rest) := by
    rw [pieces, piecesFrom_append hends (pieces_trim hsep hwhole), htop, piecesFrom_cons, hfeed,
      htrack, piecesFrom_separator hflat.1 hcontains, piecesFrom_sign hsign hne]
    simp [isCut, hnot, inFirst_cons, consFirst]
  have htrimmed : trimmed? (trim first ++ ['\n']) = some (trim first) := by
    have hne : trim first ≠ [] := by
      intro hnil
      simp [trimmed?, hnil] at hpart
    have hself : trim (trim first ++ ['\n']) = trim first :=
      trim_append_blank (trim_trim first) hne (by decide)
    rw [trimmed?, hself, ← trimmed?_of_trim (trim_trim first) hne, trimmed?, trim_trim]
  rw [topLevelParts, hpieces, List.filterMap_cons, htrimmed, ← topLevelParts,
    ← topLevelParts_blank_append hsep (g := ['\n']) (by decide) rest, List.singleton_append]

/-- A part cannot be split further. -/
theorem topLevelParts_of_whole (hsep : ∀ c ∈ separators, c ∈ typeSeparators) {piece part : Text}
    (hwhole : pieces separators piece = [piece]) (hpart : trimmed? piece = some part) :
    topLevelParts separators part = [part] := by
  have hne : part ≠ [] := by
    rintro rfl
    unfold trimmed? at hpart
    split at hpart <;> simp at hpart
  have hself : trimmed? part = some part := by
    rw [eq_trim_of_trimmed? hpart] at hne ⊢
    exact trimmed?_of_trim (trim_trim piece) hne
  have hpieces : pieces separators part = [part] :=
    eq_trim_of_trimmed? hpart ▸ pieces_trim hsep hwhole
  rw [topLevelParts, hpieces, List.filterMap_cons, hself, List.filterMap_nil]

/-- The parts of a text, joined by a separator on lines of its own, are the parts of the whole. -/
theorem topLevelParts_intercalate (hsep : ∀ c ∈ separators, c ∈ typeSeparators) {c : Char}
    (hc : c ∈ separators) (t : Text) :
    topLevelParts separators (['\n', c, '\n'].intercalate (topLevelParts separators t)) =
      topLevelParts separators t := by
  induction t using split_induction hsep with
  | whole t ht =>
      rw [topLevelParts, topLevelParts, ht, List.filterMap_cons, List.filterMap_nil]
      cases hpart : trimmed? t with
      | none => rfl
      | some part =>
          rw [List.intercalate_singleton, ← topLevelParts]
          exact topLevelParts_of_whole hsep ht hpart
  | cut first s rest hs hfirst hwhole hpieces ih =>
      have hparts : topLevelParts separators (first ++ s :: rest) =
          (trimmed? first).toList ++ topLevelParts separators rest := by
        rw [topLevelParts, hpieces, List.filterMap_cons]
        cases trimmed? first <;> rfl
      rw [hparts]
      cases hpart : trimmed? first with
      | none => exact ih
      | some part =>
          rw [Option.toList_some, List.singleton_append]
          cases hrest : topLevelParts separators rest with
          | nil =>
              rw [List.intercalate_singleton]
              exact topLevelParts_of_whole hsep hwhole hpart
          | cons next more =>
              rw [hrest] at ih
              rw [List.intercalate_cons_cons, List.append_assoc, List.cons_append, List.cons_append,
                List.singleton_append, topLevelParts_line hsep hfirst hwhole hpart hc, ih]

/-- Parts are the trimmed pieces that are not blank. -/
theorem filterMap_trimmed? (ps : List Text) :
    ps.filterMap trimmed? = (ps.map trim).filter fun p => !p.isEmpty := by
  induction ps with
  | nil => rfl
  | cons p ps ih =>
      rw [List.filterMap_cons, List.map_cons, List.filter_cons, ih, trimmed?]
      cases trim p <;> rfl

/-- A split is exact and stable. Its cuts are the separators outside literals, comments and
brackets, its parts are the trimmed pieces between them that are not blank, no part can be split
further, and the parts joined by any separator are split as before. -/
theorem topLevelParts_exact {separators : List Char} (hsep : ∀ c ∈ separators, c ∈ ['&', '|', ','])
    (t : Text) :
    (∃ first cuts, t = withCuts first cuts ∧
      (∀ before c behind, (t = before ++ c :: behind ∧ c ∈ separators ∧ IsOutside before) ↔
        ∃ front piece back, cuts = front ++ (c, piece) :: back ∧ before = withCuts first front ∧
          behind = withCuts piece back) ∧
      topLevelParts separators t =
        ((first :: cuts.map Prod.snd).map trim).filter fun p => !p.isEmpty) ∧
    (∀ part ∈ topLevelParts separators t, topLevelParts separators part = [part]) ∧
    ∀ c ∈ separators,
      topLevelParts separators (['\n', c, '\n'].intercalate (topLevelParts separators t)) =
        topLevelParts separators t := by
  refine ⟨?_, ?_, fun c hc => topLevelParts_intercalate hsep hc t⟩
  · obtain ⟨first, cuts, hsplit, hpieces, hcuts⟩ := exists_cuts hsep t
    exact ⟨first, cuts, hsplit, hcuts, by rw [topLevelParts, hpieces, filterMap_trimmed?]⟩
  · intro part hpart
    obtain ⟨piece, hpiece, htrimmed⟩ := List.mem_filterMap.mp hpart
    exact topLevelParts_of_whole hsep (whole_of_mem_pieces hsep hpiece) htrimmed

/-- Types with a line comment, a literal, a bracket that nothing opens and brackets left open. -/
def unbalancedTypes : Text := "A // x | y\n & 'b | c') | <D | [e ".toList

theorem topLevelParts_exact_unbalanced :
    (∀ c ∈ ['&', '|'], c ∈ ['&', '|', ',']) ∧
      topLevelParts ['&', '|'] unbalancedTypes =
        ["A // x | y".toList, "'b | c')".toList, "<D | [e".toList] ∧
      (∀ part ∈ topLevelParts ['&', '|'] unbalancedTypes,
        topLevelParts ['&', '|'] part = [part]) ∧
      ∀ c ∈ ['&', '|'], topLevelParts ['&', '|']
          (['\n', c, '\n'].intercalate (topLevelParts ['&', '|'] unbalancedTypes)) =
        topLevelParts ['&', '|'] unbalancedTypes := by
  have hsep : ∀ c ∈ ['&', '|'], c ∈ ['&', '|', ','] := by
    rw [List.forall_mem_cons, List.forall_mem_singleton]
    exact ⟨by decide, by decide⟩
  exact ⟨hsep, by decide, (topLevelParts_exact hsep unbalancedTypes).2⟩

end Text

end ComponentProps
