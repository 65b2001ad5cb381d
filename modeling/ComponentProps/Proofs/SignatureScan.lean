import ComponentProps.Proofs.BracketMatching
import ComponentProps.Proofs.MemberComposition

/-!
# Scanning brackets of a signature

Within a member the scanner takes up whatever stands between two brackets, if the text between them
is matched. Round, square and curly brackets keep everything; angle brackets keep a comma, but not a
semicolon and not what looks like the next member.
-/

namespace ComponentProps.Member

open Text
open Scan (conditionalsAfter)

/-- Whether nothing in a text ends the type it stands in, read with a nesting and some conditionals
open: outside round, square and curly brackets there is no semicolon, and outside conditionals too
no member seems to start behind white space. -/
def isUnbroken (n : Nesting) (region : Region) (q : Nat) (behind : Text) : Text → Bool
  | [] => true
  | c :: rest =>
    let outside := region == .code && n.depth == 0
    let looked := outside && q == 0 && behind.head?.any isWhite
    !(outside && c == ';') && !(looked && startsMember (c :: rest)) &&
      match region.read behind c rest with
      | (.code, region') =>
        isUnbroken (n.trackChar behind c) region' (conditionalsAfter n q c) (c :: behind) rest
      | (_, region') => isUnbroken n region' q (c :: behind) rest

theorem isUnbroken_alike {b b' : Text} (h : LooksAlike b b')
    (hwhite : b.head?.any isWhite = b'.head?.any isWhite) (n : Nesting) (region : Region) (q : Nat)
    (front t : Text) :
    isUnbroken n region q (front ++ b) t = isUnbroken n region q (front ++ b') t := by
  induction t generalizing n region q front with
  | nil => rfl
  | cons c t ih =>
      have hnext : ∀ n region q, isUnbroken n region q (c :: (front ++ b)) t =
          isUnbroken n region q (c :: (front ++ b')) t := fun n region q =>
        ih n region q (c :: front)
      have hlast : (front ++ b).head?.any isWhite = (front ++ b').head?.any isWhite := by
        cases front with
        | nil => exact hwhite
        | cons d front => rfl
      simp only [isUnbroken, Nesting.trackChar, h.read, h.bracket, hnext, hlast]

namespace Scan

variable {style : Style} {s : Scan} {d : Draft} {taken : Text} {n : Nesting} {q : Nat} {c : Char}
  {rest : Text}

/-- The state within the type of a member, in code or in a literal. -/
def inRegion (s : Scan) (d : Draft) (taken : Text) (n : Nesting) (q : Nat) (region : Region)
    (ahead : Text) : Scan :=
  { s with
    cursor := ⟨taken ++ s.cursor.behind, ahead⟩
    mode := .type { draftAt d taken n q with region := region } }

theorem nextStarts_inRegion {region : Region} (h : region = .code → Quiet taken n q rest) :
    (inRegion s d taken n q region rest).nextStarts { draftAt d taken n q with region := region } =
      false := by
  by_cases hregion : region = .code
  · subst hregion
    exact nextStarts_of_quiet (h rfl)
  · simp [nextStarts, hregion]

/-- A character of a literal is taken up. -/
theorem run_literal_char {region next : Region}
    (hquiet : region = .code → Quiet taken n q (c :: rest))
    (hread : region.read (taken ++ s.cursor.behind) c rest = (.literal, next)) :
    run style (inRegion s d taken n q region (c :: rest)) =
      run style (inRegion s d (c :: taken) n q next rest) := by
  have hstep : (inRegion s d taken n q region (c :: rest)).step style =
      inRegion s d (c :: taken) n q next rest := by
    change (inRegion s d taken n q region (c :: rest)).stepType style _ c rest = _
    rw [stepType, nextStarts_inRegion hquiet]
    simp only [inRegion, hread]
    rfl
  rw [run_step (by simp [inRegion]), hstep]

/-- A code character is taken up if it ends nothing. -/
theorem run_code_char (hquiet : Quiet taken n q (c :: rest))
    (hread : Region.code.read (taken ++ s.cursor.behind) c rest = (.code, .code))
    (hcloses : Bracket.of? (taken ++ s.cursor.behind) c = some .closing → n.depth ≠ 0)
    (hgoes : ¬ Separates n c) :
    run style (inType s d taken n q (c :: rest)) =
      run style (inType s d (c :: taken) (n.trackChar (taken ++ s.cursor.behind) c)
        (conditionalsAfter n q c) rest) := by
  have hcode : (inType s d taken n q (c :: rest)).stepTypeCode style (draftAt d taken n q) c =
      (inType s d taken n q (c :: rest)).take (draftAt d taken
        (n.trackChar (taken ++ s.cursor.behind) c) (conditionalsAfter n q c)) c := by
    cases hb : Bracket.of? (taken ++ s.cursor.behind) c with
    | none =>
        rw [stepTypeCode_of_not_separates hb hgoes, Nesting.trackChar, hb]
    | some b =>
        have hne : c ≠ '?' ∧ c ≠ ':' := by
          constructor
          · rintro rfl
            simp [Bracket.of?] at hb
          · rintro rfl
            simp [Bracket.of?] at hb
        have hopen : (b == .closing && n.depth == 0) = false := by
          rw [Bool.and_eq_false_iff]
          by_cases hclosing : b = .closing
          · exact .inr (beq_eq_false_iff_ne.mpr (hcloses (hclosing ▸ hb)))
          · exact .inl (beq_eq_false_iff_ne.mpr hclosing)
        rw [conditionalsAfter_of_ne hne, Nesting.trackChar, hb]
        simp only [stepTypeCode, inType, hb, draftAt, hopen]
        rfl
  have hstep : (inType s d taken n q (c :: rest)).step style =
      (inType s d taken n q (c :: rest)).take (draftAt d taken
        (n.trackChar (taken ++ s.cursor.behind) c) (conditionalsAfter n q c)) c := by
    change (inType s d taken n q (c :: rest)).stepType style (draftAt d taken n q) c rest = _
    rw [stepType, nextStarts_of_quiet hquiet]
    simp only [inType, draftAt, hread]
    exact hcode
  rw [run_step (by simp [inType]), hstep]
  rfl

/-- What follows the text between brackets: it ends a word and is part of no member's name. -/
structure EndsBetween (rest : Text) : Prop where
  stop : IsStop rest
  word : ∀ c, rest.head? = some c → isIdentChar c = false

theorem EndsBetween.endsWord (h : EndsBetween rest) (t : Text) : Look.EndsWord t rest :=
  takeWhile_append_of_head h.word t

theorem endsBetween_cons (hc : isWhite c = false ∧ c ∉ lookSigns ∧ isIdentChar c = false)
    (rest : Text) : EndsBetween (c :: rest) := by
  refine ⟨?_, ?_⟩
  · rintro e he
    obtain rfl : c = e := by simpa using he
    exact ⟨hc.1, hc.2.1⟩
  · rintro e he
    obtain rfl : c = e := by simpa using he
    exact hc.2.2

/-- In an unbroken text nobody finds a member, whatever follows it. -/
theorem quiet_of_isUnbroken (hrest : EndsBetween rest) (htaken : taken ≠ []) {b t : Text}
    {awaited : List Char} (h : awaited? awaited .code (taken ++ b) (c :: t) = some ([], .code))
    (hunbroken : isUnbroken n .code q (taken ++ b) (c :: t) = true) :
    Quiet taken n q (c :: t ++ rest) := by
  intro hdepth hq hwhite
  have hlast : (taken ++ b).head?.any isWhite = true := by
    rwa [List.head?_append_of_ne_nil _ htaken]
  have halone : startsMember (c :: t) = false := by
    simp only [isUnbroken, hdepth, hq, hlast, beq_self_eq_true, Bool.and_self, Bool.true_and,
      Bool.and_eq_true, Bool.not_eq_true'] at hunbroken
    exact hunbroken.1.2
  have hclosed : isQuote c = true → c ∈ t := by
    intro hquote
    have hescaped : isEscaped (taken ++ b) = false := by
      refine isEscaped_of_head?_ne fun hslash => ?_
      rw [hslash] at hlast
      contradiction
    simp only [awaited?, Region.read, hquote, hescaped, Bool.not_false, Bool.and_self,
      if_true] at h
    exact mem_of_awaited?_literal h
  rw [startsMember_append_stop hrest.stop hclosed (hrest.endsWord _) fun _ => hrest.endsWord _]
  exact halone

/-- The brackets around a text keep it within its member, whatever is awaited in it: one of them is
round, square or curly, or they are angle brackets and the text is unbroken. -/
def IsKept (base : Nesting) (awaited : List Char) (region : Region) (q : Nat) (behind t : Text) :
    Prop :=
  base.depth ≠ 0 ∨ base.angle ≠ 0 ∧
    isUnbroken ((Nesting.ofAwaited awaited).within base) region q behind t = true

namespace IsKept

variable {base : Nesting} {awaited awaited₁ : List Char} {behind t : Text}

/-- No member is found in a text that is kept. -/
theorem quiet {b : Text} (h : IsKept base awaited .code q (taken ++ b) (c :: t))
    (hrest : EndsBetween rest) (htaken : taken ≠ [])
    (hawaited : awaited? awaited .code (taken ++ b) (c :: t) = some ([], .code)) :
    Quiet taken ((Nesting.ofAwaited awaited).within base) q (c :: (t ++ rest)) := by
  rcases h with hdepth | ⟨-, hunbroken⟩
  · intro hzero
    simp only [Nesting.within] at hzero
    omega
  · exact quiet_of_isUnbroken hrest htaken hawaited hunbroken

/-- A text that is kept is not ended by a separator. -/
theorem not_separates (h : IsKept base awaited .code q behind (c :: t)) :
    ¬ Separates ((Nesting.ofAwaited awaited).within base) c := by
  rintro ⟨hdepth, hsign⟩
  rcases h with hdeep | ⟨hangle, hunbroken⟩
  · simp only [Nesting.within] at hdepth
    omega
  · rcases hsign with rfl | ⟨-, hzero⟩
    · simp [isUnbroken, hdepth] at hunbroken
    · simp only [Nesting.within] at hzero
      omega

theorem literal {region next : Region} (h : IsKept base awaited region q behind (c :: t))
    (hread : region.read behind c t = (.literal, next)) :
    IsKept base awaited next q (c :: behind) t := by
  refine h.imp_right fun hangle => ⟨hangle.1, ?_⟩
  have hunbroken := hangle.2
  simp only [isUnbroken, hread, Bool.and_eq_true] at hunbroken
  exact hunbroken.2

theorem code (h : IsKept base awaited .code q behind (c :: t))
    (hread : Region.code.read behind c t = (.code, .code))
    (hawait : Bracket.await? awaited behind c = some awaited₁) :
    IsKept base awaited₁ .code (conditionalsAfter ((Nesting.ofAwaited awaited).within base) q c)
      (c :: behind) t := by
  refine h.imp_right fun hangle => ⟨hangle.1, ?_⟩
  have hunbroken := hangle.2
  simp only [isUnbroken, hread, Bool.and_eq_true, Nesting.trackChar_ofAwaited hawait base]
    at hunbroken
  exact hunbroken.2

end IsKept

/-- A matched text is taken up as a whole within brackets that keep it. -/
theorem run_matched {base : Nesting} (hrest : EndsBetween rest) {t : Text} {awaited : List Char}
    {region : Region} (htaken : taken ≠ []) (hregion : region.IsCommentFree)
    (h : awaited? awaited region (taken ++ s.cursor.behind) t = some ([], .code))
    (hkept : IsKept base awaited region q (taken ++ s.cursor.behind) t) :
    ∃ q', run style (inRegion s d taken ((Nesting.ofAwaited awaited).within base) q region
        (t ++ rest)) =
      run style (inType s d (t.reverse ++ taken) base q' rest) := by
  induction t generalizing awaited region q taken with
  | nil =>
      obtain ⟨rfl, rfl⟩ := Prod.mk.inj (Option.some.inj h)
      have htop : (Nesting.ofAwaited []).within base = base := Nesting.top_within base
      rw [htop]
      exact ⟨q, rfl⟩
  | cons c t ih =>
      obtain ⟨role, next, awaited₁, hread, hstep, hawaited⟩ := exists_of_awaited?_cons h
      have hread' : region.read (taken ++ s.cursor.behind) c (t ++ rest) = (role, next) := by
        rw [Region.read_before (endsSlash_stop hrest.stop), hread]
      have hnext := Region.isCommentFree_read hregion hread (Bracket.awaitAs?_ne_comment hstep)
      rcases Bracket.awaitAs?_cases hstep with ⟨rfl, rfl⟩ | ⟨rfl, hawait⟩
      · obtain ⟨q', hrun⟩ := ih (List.cons_ne_nil c taken) hnext hawaited (hkept.literal hread)
        refine ⟨q', ?_⟩
        rw [List.cons_append, run_literal_char ?_ hread', hrun]
        · simp
        · rintro rfl
          exact hkept.quiet hrest htaken h
      · obtain rfl := Region.eq_code_of_isCommentFree hregion hread
        obtain rfl := Region.read_code hread
        obtain ⟨q', hrun⟩ :=
          ih (List.cons_ne_nil c taken) hregion hawaited (hkept.code hread hawait)
        have hchar : run style (inType s d taken ((Nesting.ofAwaited awaited).within base) q
              (c :: (t ++ rest))) =
            run style (inType s d (c :: taken) ((Nesting.ofAwaited awaited₁).within base)
              (conditionalsAfter ((Nesting.ofAwaited awaited).within base) q c) (t ++ rest)) := by
          rw [run_code_char (hkept.quiet hrest htaken h) hread' ?_ hkept.not_separates,
            Nesting.trackChar_ofAwaited hawait base]
          exact fun hb => Nesting.depth_within_of_closing (Nesting.track?_ofAwaited hawait hb) base
        exact ⟨q', hchar.trans (hrun.trans (by simp))⟩

/-- What stands behind an opening bracket is taken up if it is matched: within round brackets
whatever it is, within angle brackets if it is unbroken. -/
theorem run_between {base : Nesting} {opening : Char}
    (hopening : IsSign opening ∧ opening ≠ '=' ∧ isWhite opening = false)
    (hrest : EndsBetween rest) {t : Text} (h : IsMatched t)
    (hbase : base.depth ≠ 0 ∨ base.angle ≠ 0 ∧ isUnbroken base .code q [] t = true) :
    ∃ q', run style (inType s d (opening :: taken) base q (t ++ rest)) =
      run style (inType s d (t.reverse ++ opening :: taken) base q' rest) := by
  obtain ⟨hsign, harrow, hvisible⟩ := hopening
  have hmatched : awaited? [] .code ((opening :: taken) ++ s.cursor.behind) t = some ([], .code) :=
    (isMatched_behind ⟨hsign, harrow⟩ _ t).mpr h
  have htop : (Nesting.ofAwaited []).within base = base := Nesting.top_within base
  have hkept : IsKept base [] .code q ((opening :: taken) ++ s.cursor.behind) t := by
    refine hbase.imp_right fun hangle => ⟨hangle.1, ?_⟩
    rw [htop, ← hangle.2]
    exact isUnbroken_alike (looksAlike_sign hsign harrow (taken ++ s.cursor.behind))
      (by simpa using hvisible) base .code q [] t
  have hcode : Region.code.IsCommentFree := trivial
  have hrun : ∃ q', run style (inRegion s d (opening :: taken)
      ((Nesting.ofAwaited []).within base) q .code (t ++ rest)) =
        run style (inType s d (t.reverse ++ opening :: taken) base q' rest) :=
    run_matched hrest (by simp) hcode hmatched hkept
  rwa [htop] at hrun

end Scan

end ComponentProps.Member
