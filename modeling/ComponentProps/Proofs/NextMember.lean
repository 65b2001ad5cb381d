import ComponentProps.Proofs.MemberComposition

/-!
# The place of the next member

A member follows where the scanner is between members, and also within a type, behind white space,
if what comes next looks like a member. What stands before such a place is read without regard to
the member that follows. The looks ahead stop at its first character, which is a letter or a quote.
Only a word that goes right up to this place could be looked at together with the name of the
member: such a word leaves the scanner in a type whose last character is visible, or it is the
modifier of the member.
-/

namespace ComponentProps.Member

open Text

/-! ### The look at a name -/

theorem mem_of_endsName {l : Look} (h : l.endsName = true) : ':' ∈ l.rest := by
  have hspaces : ∀ l : Look, l.spaces.rest ⊆ l.rest := fun l _ hc => List.mem_of_mem_drop hc
  have hmark : l.spaces.mark.rest ⊆ l.rest := by
    unfold Look.mark
    split
    · intro c hc
      exact hspaces l (List.mem_of_mem_drop (hspaces (l.spaces.pass 1) hc))
    · exact hspaces l
  simp only [Look.endsName, Bool.and_eq_true, beq_iff_eq] at h
  exact hmark (List.mem_of_mem_head? h.2)

/-- Without a colon there is no member. -/
theorem startsMember_of_not_mem {ahead : Text} (h : ':' ∉ ahead) : startsMember ahead = false := by
  cases ahead with
  | nil => rfl
  | cons c t =>
      by_cases hc : isIdentStart c = true ∨ isQuote c = true
      · have hpassed : ∀ n m, ':' ∉ ((c :: t).drop n).drop m := fun n m hmem =>
          h (List.mem_of_mem_drop (List.mem_of_mem_drop hmem))
        have hfirst : (Look.mk 0 (c :: t)).word.endsName = false := by
          by_contra hname
          exact hpassed _ 0 (mem_of_endsName (Bool.not_eq_false _ ▸ hname))
        have hsecond : (Look.mk 0 (c :: t)).word.spaces.word.endsName = false := by
          by_contra hname
          exact hpassed _ _ (List.mem_of_mem_drop (mem_of_endsName (Bool.not_eq_false _ ▸ hname)))
        rw [startsMember_eq rfl hc, hfirst, hsecond]
        split
        · split
          · rfl
          · exact Bool.and_false _
        · rfl
      · rw [not_or, Bool.not_eq_true, Bool.not_eq_true] at hc
        exact startsMember_sign hc.1 hc.2 t

/-- The spaces of a text, if the reach goes that far. -/
theorem Look.spaces_eq {used : Nat} {t : Text} (h : used + (t.takeWhile isGap).length ≤ reach) :
    (Look.mk used t).spaces = ⟨used + (t.takeWhile isGap).length, t.dropWhile isGap⟩ := by
  have htake : (t.take (reach - used)).takeWhile isGap = t.takeWhile isGap := by
    rw [← List.take_takeWhile]
    exact List.take_of_length_le (by omega)
  have hdrop : t.drop (t.takeWhile isGap).length = t.dropWhile isGap := by
    calc t.drop (t.takeWhile isGap).length
        = (t.takeWhile isGap ++ t.dropWhile isGap).drop (t.takeWhile isGap).length := by
          rw [List.takeWhile_append_dropWhile]
      _ = t.dropWhile isGap := List.drop_left
  change (Look.mk used t).pass ((t.take (reach - used)).takeWhile isGap).length = _
  rw [htake, pass, hdrop]

/-- What the look passes as spaces are spaces. -/
theorem Look.exists_spaces (l : Look) :
    ∃ gap, (∀ c ∈ gap, isGap c = true) ∧ l.rest = gap ++ l.spaces.rest := by
  refine ⟨(l.rest.take (reach - l.used)).takeWhile isGap, fun c hc => List.mem_takeWhile_imp hc, ?_⟩
  have hprefix : (l.rest.take (reach - l.used)).takeWhile isGap <+: l.rest :=
    (List.takeWhile_prefix _).trans (List.take_prefix _ _)
  exact List.prefix_iff_eq_append.mp hprefix |>.symm

/-- The number of characters before the first colon. -/
def colonDistance (t : Text) : Nat := (t.takeWhile (· != ':')).length

theorem colonDistance_dropWhile (t : Text) :
    colonDistance t = (t.takeWhile isGap).length + colonDistance (t.dropWhile isGap) := by
  have hgap : ∀ c ∈ t.takeWhile isGap, (c != ':') = true := by
    intro c hc
    have hisGap : isGap c = true := List.mem_takeWhile_imp hc
    simpa using ne_of_kind hisGap rfl
  conv_lhs => rw [← List.takeWhile_append_dropWhile (p := isGap) (l := t)]
  rw [colonDistance, List.takeWhile_append_of_pos hgap, List.length_append, colonDistance]

/-- A colon that follows a name within reach is seen. -/
theorem endsName_of_near {used : Nat} {t : Text} (h : ¬ NoColon t)
    (hnear : used + colonDistance t < reach) : (Look.mk used t).endsName = true := by
  have hfirst := colonDistance_dropWhile t
  have hspaces : (Look.mk used t).spaces = ⟨used + (t.takeWhile isGap).length, t.dropWhile isGap⟩ :=
    Look.spaces_eq (by omega)
  by_cases hplain : (t.dropWhile isGap).head? = some ':'
  · have hused : used + (t.takeWhile isGap).length < reach := by omega
    simp [Look.endsName, hspaces, Look.mark, hplain, hused]
  · obtain ⟨more, hmore, hcolon⟩ : ∃ more, t.dropWhile isGap = '?' :: more ∧
        (more.dropWhile isGap).head? = some ':' := by
      by_contra hnone
      exact h ⟨hplain, fun more hmore hcolon => hnone ⟨more, hmore, hcolon⟩⟩
    have hmark : colonDistance ('?' :: more) = 1 + colonDistance more := by
      simp [colonDistance, Nat.add_comm]
    have hsecond := colonDistance_dropWhile more
    rw [hmore, hmark, hsecond] at hfirst
    have hused : used + (t.takeWhile isGap).length + 1 + (more.takeWhile isGap).length < reach := by
      omega
    have hpassed : (Look.mk (used + (t.takeWhile isGap).length + 1) more).spaces =
        ⟨used + (t.takeWhile isGap).length + 1 + (more.takeWhile isGap).length,
          more.dropWhile isGap⟩ := Look.spaces_eq (by omega)
    have hpass : (Look.mk used t).spaces.pass 1 =
        ⟨used + (t.takeWhile isGap).length + 1, more⟩ := by
      rw [hspaces, hmore]
      rfl
    have hhead : ((Look.mk used t).spaces.rest.head? == some '?') = true := by
      rw [hspaces, hmore]
      rfl
    rw [Look.endsName, Look.mark, if_pos hhead, hpass, hpassed]
    simp [hcolon, hused]

/-- A quoted name that is not too long is recognised where an identifier would be. -/
theorem startsMember_quoted {key : Identifier} (hkey : key.text ≠ "readonly".toList) {r : Text}
    (hr : ∀ c, r.head? = some c → isIdentChar c = false)
    (hstarts : startsMember (key.text ++ r) = true) {l : StringLiteral}
    (hnear : l.print.length + colonDistance r < reach) : startsMember (l.print ++ r) = true := by
  have hcolon : ¬ NoColon r := by
    intro hnone
    rw [startsMember_word key hr hnone fun heq => absurd heq hkey] at hstarts
    contradiction
  have hlength : l.print.length = l.content.length + 2 := by simp [StringLiteral.print]
  have hword : (Look.mk 0 (l.print ++ r)).word = ⟨l.print.length, r⟩ := by
    rw [Look.word, wordLength_literal, if_pos (by omega), ← hlength, Look.pass, List.drop_left,
      Nat.zero_add]
  have hcons : l.print ++ r = l.quote :: (l.content ++ [l.quote] ++ r) := rfl
  have hnot : (l.print ++ r).take l.print.length ≠ "readonly".toList := by
    rw [List.take_left]
    intro heq
    have hquote : l.quote = 'r' := (List.cons.inj heq).1
    have hisQuote := l.isQuote
    rw [hquote] at hisQuote
    contradiction
  rw [startsMember_eq hcons (Or.inr l.isQuote), hword, if_neg hnot]
  exact endsName_of_near hcolon hnear

/-! ### Where the next member may start -/

/-- A type that is being read may end here, if a member starts. -/
def Draft.mayEnd (d : Draft) : Bool :=
  d.region == .code && d.nesting.depth == 0 && d.conditionals == 0 &&
    (d.taken.head?.any isWhite && !isBlank d.taken)

/-- The word before the spaces that end a text. Both stand nearest character first. -/
def lastWord (behind : Text) : Text := (behind.dropWhile isGap).takeWhile isIdentChar

/-- The last word behind a modifier and spaces. -/
theorem lastWord_modifier {gap behind : Text} (hgap : ∀ c ∈ gap, isGap c = true)
    (hbehind : behind.head?.any isWhite = true) :
    lastWord (("readonly".toList ++ gap).reverse ++ behind) = "readonly".toList.reverse := by
  have hspaces : ∀ c ∈ gap.reverse, isGap c = true := fun c hc => hgap c (List.mem_reverse.mp hc)
  have hall : ∀ c ∈ "readonly".toList.reverse, isIdentChar c = true := fun c hc =>
    (Identifier.mk "readonly".toList (by decide)).isIdentChar_of_mem (List.mem_reverse.mp hc)
  have hstop : ∀ c, behind.head? = some c → isIdentChar c = false := by
    intro c hc
    rw [hc] at hbehind
    exact not_isIdentChar_of_isWhite hbehind
  have hdrop : (("readonly".toList ++ gap).reverse ++ behind).dropWhile isGap =
      "readonly".toList.reverse ++ behind := by
    have hlast : "readonly".toList.reverse = 'y' :: "lnodaer".toList := by decide
    rw [List.reverse_append, List.append_assoc, List.dropWhile_append_of_pos hspaces, hlast,
      List.cons_append, List.dropWhile_cons_of_neg (by decide)]
  rw [lastWord, hdrop, (takeWhile_word hall hstop).1]

namespace Scan

variable {style : Style}

/-- The scanner is between members, or in a type that ends if a member starts here. In a type no
modifier may stand before this place: it would be the start of the member. -/
def Awaits (s : Scan) : Prop :=
  match s.mode with
  | .seeking => True
  | .type d => d.mayEnd = true ∧ lastWord s.cursor.behind ≠ "readonly".toList.reverse
  | _ => False

theorem Awaits.isClosed {s : Scan} (h : s.Awaits) : s.IsClosed := by
  obtain ⟨cursor, mode, pending, members⟩ := s
  cases mode with
  | seeking => exact trivial
  | type d =>
      have hends := h.1
      simp only [Draft.mayEnd, Bool.and_eq_true, beq_iff_eq] at hends
      exact ⟨hends.1.1.1, hends.1.1.2⟩
  | _ => exact h.elim

/-- Words and spaces at the end of a type are taken up. -/
theorem run_words {s : Scan} {d : Draft} {n : Nesting} {q : Nat} {t : Text}
    (ht : ∀ c ∈ t, isIdentChar c = true ∨ isGap c = true) (taken : Text) :
    run style (inType s d taken n q t) = inType s d (t.reverse ++ taken) n q [] := by
  induction t generalizing taken with
  | nil => exact run_end rfl
  | cons c t ih =>
      have hcolon : ':' ∉ c :: t := fun hmem => absurd (ht ':' hmem) (by decide)
      have hneutral : IsNeutral c := by
        rcases ht c List.mem_cons_self with hident | hgap
        · exact isNeutral_of_isIdentChar hident
        · simp only [isGap, Bool.or_eq_true, beq_iff_eq] at hgap
          rcases hgap with rfl | rfl <;> decide
      rw [run_neutral (fun _ _ _ => startsMember_of_not_mem hcolon) hneutral,
        ih fun x hx => ht x (List.mem_cons_of_mem _ hx)]
      simp

/-- Where words and spaces lead to the place of the next member, they end with a space and the last
word is no modifier. -/
theorem awaits_words {s : Scan} {d : Draft} (htracks : s.TracksType) (hmode : s.mode = .type d)
    (hcode : d.region = .code) (hawaits : (run style s).Awaits)
    (hwords : ∀ c ∈ s.cursor.ahead, isIdentChar c = true ∨ isGap c = true) :
    (∀ c, s.cursor.ahead.getLast? = some c → isIdentChar c = false) ∧
      lastWord (s.cursor.ahead.reverse ++ s.cursor.behind) ≠ "readonly".toList.reverse := by
  obtain ⟨⟨behind, t⟩, mode, pending, members⟩ := s
  obtain rfl : mode = .type d := hmode
  obtain ⟨more, hmore⟩ := htracks d rfl
  obtain rfl : d.taken ++ more = behind := hmore
  have hstate : (⟨⟨d.taken ++ more, t⟩, .type d, pending, members⟩ : Scan) =
      inType ⟨⟨more, []⟩, .seeking, pending, members⟩ d d.taken d.nesting d.conditionals t := by
    rw [inType, draftAt, ← hcode]
  rw [hstate, run_words hwords, inType] at hawaits
  obtain ⟨hends, hword⟩ := hawaits
  simp only [Draft.mayEnd, draftAt, Bool.and_eq_true] at hends
  refine ⟨fun c hc => ?_, by rwa [List.append_assoc] at hword⟩
  have hlast := hends.2.1
  rw [List.head?_append, List.head?_reverse, hc, Option.some_or] at hlast
  exact not_isIdentChar_of_isWhite hlast

/-- The look for the next member stays before the place of a member. -/
theorem nextStarts_place_of_awaits {behind tail : Text} (ht : IsStop tail)
    {m : OrderedMap Text Member} {s : Scan} {d : Draft} (htracks : s.TracksType)
    (hawaits : (run style s).Awaits) (hmode : s.mode = .type d) (hahead : s.cursor.ahead ≠ []) :
    (place behind tail m s).nextStarts d = s.nextStarts d := by
  obtain ⟨c, t, hcons⟩ := List.exists_cons_of_ne_nil hahead
  change (d.mayEnd && startsMember (s.cursor.ahead ++ tail)) =
    (d.mayEnd && startsMember s.cursor.ahead)
  cases hends : d.mayEnd with
  | false => rfl
  | true =>
      simp only [Draft.mayEnd, Bool.and_eq_true, beq_iff_eq] at hends
      obtain ⟨⟨⟨hcode, -⟩, -⟩, hwhite, -⟩ := hends
      have hwords := awaits_words htracks hmode hcode hawaits
      rw [hcons] at hwords
      rw [hcons, Bool.true_and, Bool.true_and]
      -- A word at the end would be all that is left, perhaps behind a modifier.
      have hends : ∀ u v, c :: t = u ++ v → (∀ x ∈ u, isIdentChar x = true ∨ isGap x = true) →
          v ≠ [] → Look.EndsWord v tail := by
        intro u v huv hu hv
        by_contra hgoes
        have hall : ∀ x ∈ v, isIdentChar x = true := by
          intro x hx
          by_contra hident
          exact hgoes (takeWhile_append_of_mem hx (Bool.not_eq_true _ ▸ hident) tail)
        have hlast := (hwords fun x hx => by
          rcases List.mem_append.mp (huv ▸ hx) with hx | hx
          · exact hu x hx
          · exact Or.inl (hall x hx)).1 (v.getLast hv) (by
            rw [huv, List.getLast?_append, List.getLast?_eq_some_getLast hv, Option.some_or])
        rw [hall _ (List.getLast_mem hv)] at hlast
        contradiction
      refine startsMember_append_stop ht ?_ ?_ ?_
      · intro hquote
        exact quote_mem_of_isClosed htracks hawaits.isClosed hmode hcons hquote hcode hwhite
      · exact hends [] (c :: t) rfl nofun (List.cons_ne_nil c t)
      · intro hmodifier
        obtain ⟨gap, hgap, hrest⟩ := Look.exists_spaces (Look.mk 0 (c :: t)).word
        have hsplit : c :: t =
            "readonly".toList ++ gap ++ (Look.mk 0 (c :: t)).word.spaces.rest := by
          rw [← hmodifier, List.append_assoc, ← hrest]
          simp [Look.word, Look.pass]
        have hfront : ∀ x ∈ "readonly".toList ++ gap, isIdentChar x = true ∨ isGap x = true := by
          intro x hx
          rcases List.mem_append.mp hx with hx | hx
          · exact Or.inl (List.all_eq_true.mp (by decide) x hx)
          · exact Or.inr (hgap x hx)
        cases hlast : (Look.mk 0 (c :: t)).word.spaces.rest with
        | nil =>
            rw [hlast, List.append_nil] at hsplit
            rw [hsplit] at hwords
            exact absurd (lastWord_modifier hgap (htracks.white_behind hmode hwhite))
              (hwords hfront).2
        | cons x v =>
            rw [hlast] at hsplit
            exact hends _ (x :: v) hsplit hfront (List.cons_ne_nil x v)

/-- The state with another text ahead. -/
def facing (s : Scan) (next : Text) : Scan := { s with cursor := ⟨s.cursor.behind, next⟩ }

/-- A text that goes up to the place of a member is read without regard to the member. -/
theorem run_awaiting {a next : Text} (hnext : IsStop next) (h : (run style (start a)).Awaits) :
    run style (start (a ++ next)) = run style ((run style (start a)).facing next) := by
  obtain ⟨es, hmembers, hrun⟩ := run_place_of_looks style head?_nil_ne hnext
    (P := fun s => s.TracksType ∧ (run style s).Awaits)
    (fun s hmore hs => ⟨hs.1.step, by rw [← run_step hmore]; exact hs.2⟩)
    (fun s d m hmore hs hmode => nextStarts_place_of_awaits hnext hs.1 hs.2 hmode hmore)
    (start a) ⟨nofun, h⟩
  have hcontext := hrun .empty
  rw [List.append_nil, List.append_nil] at hcontext
  rw [facing, hmembers]
  exact hcontext

/-- The doc comment that a member at this place would have. -/
def waiting (s : Scan) : Option Text :=
  match s.mode with
  | .seeking => s.pending
  | _ => none

/-- At its place a member is read as one between members. -/
theorem run_next {a next : Text} (hnext : IsStop next) (h : (run style (start a)).Awaits)
    (hstarts : (run style (start a)).mode = .seeking ∨ startsMember next = true) :
    run style (start (a ++ next)) =
      run style ⟨⟨(run style (start a)).cursor.behind, next⟩, .seeking,
        (run style (start a)).waiting, scan style a⟩ := by
  rw [run_awaiting hnext h, scan]
  generalize run style (start a) = e at h hstarts
  obtain ⟨⟨behind, ahead⟩, mode, pending, members⟩ := e
  cases mode with
  | seeking => rfl
  | type d =>
      have hstarts : startsMember next = true := by simpa using hstarts
      have hmore : next ≠ [] := by
        rintro rfl
        contradiction
      have hends : nextStarts ⟨⟨behind, next⟩, .type d, pending, members⟩ d = true := by
        change (d.mayEnd && startsMember next) = true
        rw [h.1, hstarts]
        rfl
      rw [facing, run_step hmore, step_of_nextStarts hmore rfl hends]
      rfl
  | _ => exact h.elim

end Scan

end ComponentProps.Member
