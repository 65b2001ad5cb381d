import ComponentProps.Proofs.KeywordSearch
import Mathlib.Data.Option.Basic

/-!
# Surroundings

A move over code looks back at the character just passed and at a run of backslashes, and no
further. Two places with the same text ahead are therefore left in step, whatever lies behind them,
as long as the looks back tell the same. A search through a script goes the same way behind any text
that leaves no literal and no comment open: what such a text holds within its literals and comments
is not seen, and of its words only the keywords matter.
-/

namespace ComponentProps

open Text

namespace Text

/-- Two texts behind a place, nearest character first, that no look back tells apart. -/
structure LooksAlike (b b' : Text) : Prop where
  slash : b.head? ≠ some '\\' ∧ b'.head? ≠ some '\\'
  arrow : (b.head? == some '=') = (b'.head? == some '=')
  alone : Cursor.standsAlone b = Cursor.standsAlone b'

namespace LooksAlike

variable {b b' : Text} (h : LooksAlike b b')

include h

theorem read (region : Region) (front : Text) (c : Char) (rest : Text) :
    region.read (front ++ b) c rest = region.read (front ++ b') c rest := by
  have hb := Region.read_context h.slash.1 endsSlash_nil region front c rest
  have hb' := Region.read_context h.slash.2 endsSlash_nil region front c rest
  rw [List.append_nil] at hb hb'
  rw [hb, hb']

theorem arrow_append (front : Text) :
    ((front ++ b).head? == some '=') = ((front ++ b').head? == some '=') := by
  cases front with
  | nil => exact h.arrow
  | cons c front => rfl

theorem standsAlone (front : Text) :
    Cursor.standsAlone (front ++ b) = Cursor.standsAlone (front ++ b') := by
  cases front with
  | nil => exact h.alone
  | cons c front => rfl

theorem bracket (front : Text) (c : Char) :
    Bracket.of? (front ++ b) c = Bracket.of? (front ++ b') c := by
  simp only [Bracket.of?, bne, h.arrow_append front]

theorem closesGroup (close : Char) (front : Text) (c : Char) :
    Cursor.closesGroup close (front ++ b) c = Cursor.closesGroup close (front ++ b') c := by
  simp only [Cursor.closesGroup, h.arrow_append front]

end LooksAlike

/-- Behind a sign, other than that of an arrow, it looks as at the start of a text. -/
theorem looksAlike_sign {c : Char} (hc : IsSign c) (hne : c ≠ '=') (b : Text) :
    LooksAlike (c :: b) [] where
  slash := ⟨(signFirst_cons b hc).not_escape, by simp⟩
  arrow := by simpa using hne
  alone := (signFirst_cons b hc).standsAlone

/-- Only the nearest character is looked at, unless it is a backslash. -/
theorem looksAlike_cons {c : Char} (hc : c ≠ '\\') (b b' : Text) :
    LooksAlike (c :: b) (c :: b') where
  slash := ⟨by simpa using hc, by simpa using hc⟩
  arrow := rfl
  alone := rfl

end Text

/-! ### Moves -/

namespace Cursor

/-- Two places with the same text ahead. One lies behind `b` and the other behind `b'`, and the
characters passed since are the same. -/
inductive Beside (b b' : Text) : Cursor → Cursor → Prop
  | mk (front ahead : Text) : Beside b b' ⟨front ++ b, ahead⟩ ⟨front ++ b', ahead⟩

/-- The same was read, and the places after it are beside each other. -/
def ReadsBeside {α : Type} (b b' : Text) (p p' : α × Cursor) : Prop :=
  p.1 = p'.1 ∧ Beside b b' p.2 p'.2

variable {b b' : Text} {c c' : Cursor}

theorem beside_start (b b' ahead : Text) : Beside b b' ⟨b, ahead⟩ ⟨b', ahead⟩ := .mk [] ahead

namespace Beside

theorem ahead (hc : Beside b b' c c') : c.ahead = c'.ahead := by
  cases hc
  rfl

theorem current? (hc : Beside b b' c c') : c.current? = c'.current? := by
  cases hc
  rfl

theorem peek? (hc : Beside b b' c c') (n : Nat) : c.peek? n = c'.peek? n := by
  cases hc
  rfl

theorem atWord (hc : Beside b b' c c') (word : Text) : c.atWord word = c'.atWord word := by
  cases hc
  rfl

theorem advanceBy (hc : Beside b b' c c') (n : Nat) :
    Beside b b' (c.advanceBy n) (c'.advanceBy n) := by
  obtain ⟨front, ahead⟩ := hc
  simp only [Cursor.advanceBy, ← List.append_assoc]
  exact .mk _ _

theorem advance (hc : Beside b b' c c') : Beside b b' c.advance c'.advance := by
  obtain ⟨front, ahead⟩ := hc
  cases ahead with
  | nil => exact .mk front []
  | cons x rest => exact .mk (x :: front) rest

theorem byteOffset (hc : Beside b b' c c') :
    c.byteOffset + byteLength b' = c'.byteOffset + byteLength b := by
  obtain ⟨front, ahead⟩ := hc
  simp only [Cursor.byteOffset, byteLength_append]
  omega

theorem readIdent? (hc : Beside b b' c c') :
    Option.Rel (ReadsBeside b b') c.readIdent? c'.readIdent? := by
  have hplace := hc.advanceBy (leadingWord c.ahead).length
  obtain ⟨front, ahead⟩ := hc
  cases ahead with
  | nil => exact .none
  | cons x rest =>
      simp only [Cursor.readIdent?]
      split
      · exact .some ⟨rfl, hplace⟩
      · exact .none

end Beside

variable (h : LooksAlike b b')

include h

theorem skipTriviaFrom_beside (region : Region) (front ahead : Text) :
    Beside b b' (skipTriviaFrom region (front ++ b) ahead)
      (skipTriviaFrom region (front ++ b') ahead) := by
  induction ahead generalizing region front with
  | nil => exact .mk front []
  | cons x rest ih =>
      simp only [skipTriviaFrom, h.read]
      split
      · exact ih _ (x :: front)
      · split
        · exact ih _ (x :: front)
        · exact .mk front (x :: rest)
      · exact .mk front (x :: rest)

theorem nextWordFrom?_beside (region : Region) (front ahead : Text) :
    Option.Rel (fun w w' => w.text = w'.text ∧ Beside b b' w.start w'.start ∧
        Beside b b' w.stop w'.stop)
      (nextWordFrom? region (front ++ b) ahead) (nextWordFrom? region (front ++ b') ahead) := by
  induction ahead generalizing region front with
  | nil => exact .none
  | cons x rest ih =>
      simp only [nextWordFrom?, h.read, h.standsAlone]
      split
      · split
        · have hhere : Beside b b' ⟨front ++ b, x :: rest⟩ ⟨front ++ b', x :: rest⟩ := .mk _ _
          exact .some ⟨rfl, hhere, hhere.advanceBy _⟩
        · exact ih _ (x :: front)
      · exact ih _ (x :: front)

theorem groupFrom_beside (opening close : Char) (region : Region) (depth : Nat)
    (front ahead : Text) :
    ReadsBeside b b' (groupFrom opening close region depth (front ++ b) ahead)
      (groupFrom opening close region depth (front ++ b') ahead) := by
  induction ahead generalizing region depth front with
  | nil => exact ⟨rfl, .mk front []⟩
  | cons x rest ih =>
      have hkeep : ∀ region depth,
          ReadsBeside b b'
            (x :: (groupFrom opening close region depth (x :: (front ++ b)) rest).1,
              (groupFrom opening close region depth (x :: (front ++ b)) rest).2)
            (x :: (groupFrom opening close region depth (x :: (front ++ b')) rest).1,
              (groupFrom opening close region depth (x :: (front ++ b')) rest).2) := by
        intro region depth
        obtain ⟨htext, hplace⟩ := ih region depth (x :: front)
        exact ⟨congrArg (x :: ·) htext, hplace⟩
      simp only [groupFrom, h.read, h.closesGroup]
      split
      · split
        · exact hkeep _ _
        · split
          · split
            · exact ⟨rfl, .mk (x :: front) rest⟩
            · exact hkeep _ _
          · exact hkeep _ _
      · exact hkeep _ _

/-- A capture is the same behind another text, and after other text captured before, if its end does
not depend on them. -/
theorem captureFrom_beside {stop : Text → Cursor → Bool} (t t' : Text)
    (hstop : ∀ more b b' ahead, stop (more ++ t) ⟨b, ahead⟩ = stop (more ++ t') ⟨b', ahead⟩)
    (region : Region) (nesting : Nesting) (more front ahead : Text) :
    ReadsBeside b b' (captureFrom stop region nesting (more ++ t) (front ++ b) ahead)
      (captureFrom stop region nesting (more ++ t') (front ++ b') ahead) := by
  induction ahead generalizing region nesting more front with
  | nil => exact ⟨rfl, .mk front []⟩
  | cons x rest ih =>
      have hkeep : ∀ region nesting,
          ReadsBeside b b'
            (x :: (captureFrom stop region nesting (x :: (more ++ t)) (x :: (front ++ b)) rest).1,
              (captureFrom stop region nesting (x :: (more ++ t)) (x :: (front ++ b)) rest).2)
            (x :: (captureFrom stop region nesting (x :: (more ++ t')) (x :: (front ++ b')) rest).1,
              (captureFrom stop region nesting (x :: (more ++ t')) (x :: (front ++ b')) rest).2) := by
        intro region nesting
        obtain ⟨htext, hplace⟩ := ih region nesting (x :: more) (x :: front)
        exact ⟨congrArg (x :: ·) htext, hplace⟩
      have hhere : Beside b b' ⟨front ++ b, x :: rest⟩ ⟨front ++ b', x :: rest⟩ := .mk _ _
      simp only [captureFrom, h.read, h.bracket, Nesting.trackChar,
        hstop more (front ++ b) (front ++ b')]
      split
      · split
        · exact ⟨rfl, hhere⟩
        · split
          · exact ⟨rfl, hhere⟩
          · exact hkeep _ _
      · exact hkeep _ _

namespace Beside

theorem skipTrivia (hc : Beside b b' c c') : Beside b b' c.skipTrivia c'.skipTrivia := by
  obtain ⟨front, ahead⟩ := hc
  exact skipTriviaFrom_beside h .code front ahead

theorem nextWord? (hc : Beside b b' c c') :
    Option.Rel (fun w w' => w.text = w'.text ∧ Beside b b' w.start w'.start ∧
      Beside b b' w.stop w'.stop) c.nextWord? c'.nextWord? := by
  obtain ⟨front, ahead⟩ := hc
  exact nextWordFrom?_beside h .code front ahead

theorem readGroup (hc : Beside b b' c c') (opening close : Char) :
    ReadsBeside b b' (c.readGroup opening close) (c'.readGroup opening close) := by
  obtain ⟨front, ahead⟩ := hc
  obtain ⟨htext, hplace⟩ := groupFrom_beside h opening close .code 0 front ahead
  exact ⟨congrArg (List.drop 1) htext, hplace⟩

theorem capture (hc : Beside b b' c c') (stop : Text → Cursor → Bool)
    (hstop : ∀ taken b b' ahead, stop taken ⟨b, ahead⟩ = stop taken ⟨b', ahead⟩) :
    ReadsBeside b b' (c.capture stop) (c'.capture stop) := by
  obtain ⟨front, ahead⟩ := hc
  refine captureFrom_beside h [] [] (fun more b b' ahead => ?_) .code .top [] front ahead
  rw [List.append_nil]
  exact hstop more b b' ahead

end Beside

end Cursor

/-! ### Declarations -/

namespace TypeDeclaration

open Cursor

variable {b b' : Text} {c c' : Cursor} (h : LooksAlike b b') (style : Member.Style)

include h

theorem readName?_beside (hc : Beside b b' c c') :
    Option.Rel (ReadsBeside b b') (readName? c) (readName? c') := by
  have hname := (hc.skipTrivia h).readIdent?
  unfold readName?
  generalize c.skipTrivia.readIdent? = p at hname ⊢
  generalize c'.skipTrivia.readIdent? = p' at hname ⊢
  cases hname with
  | none => exact .none
  | @some p p' hread =>
      obtain ⟨name, d⟩ := p
      obtain ⟨name', d'⟩ := p'
      obtain ⟨rfl, hplace⟩ : name = name' ∧ Beside b b' d d' := hread
      have hskip := hplace.skipTrivia h
      dsimp only
      rw [hskip.current?]
      split
      · exact .some ⟨rfl, (hskip.readGroup h '<' '>').2.skipTrivia h⟩
      · exact .some ⟨rfl, hskip⟩

theorem readExtends_beside (hc : Beside b b' c c') :
    ReadsBeside b b' (readExtends c) (readExtends c') := by
  obtain ⟨htext, hplace⟩ := (hc.advanceBy "extends".length).capture h
    (fun _ c => c.current? == some '{') fun _ _ _ _ => rfl
  unfold readExtends
  rw [hc.atWord]
  split
  · refine ⟨?_, hplace⟩
    dsimp only
    rw [htext]
  · exact ⟨rfl, hc⟩

theorem readInterface?_beside (hc : Beside b b' c c') :
    Option.Rel (ReadsBeside b b') (readInterface? style c) (readInterface? style c') := by
  have hname := readName?_beside h hc
  unfold readInterface?
  generalize readName? c = p at hname ⊢
  generalize readName? c' = p' at hname ⊢
  cases hname with
  | none => exact .none
  | @some p p' hread =>
      obtain ⟨name, d⟩ := p
      obtain ⟨name', d'⟩ := p'
      obtain ⟨rfl, hplace⟩ : name = name' ∧ Beside b b' d d' := hread
      obtain ⟨hparents, hbody⟩ := readExtends_beside h hplace
      obtain ⟨htext, hend⟩ := hbody.readGroup h '{' '}'
      simp only [Option.bind_eq_bind, Option.bind_some, hparents, hbody.current?, htext]
      split
      · exact .some ⟨rfl, hend⟩
      · exact .none

theorem readAliasTail_beside (hc : Beside b b' c c') :
    ReadsBeside b b' (readAliasTail c) (readAliasTail c') := by
  have hskip := hc.skipTrivia h
  obtain ⟨htext, hplace⟩ := hskip.advance.capture h endsAliasTail fun _ _ _ _ => rfl
  unfold readAliasTail
  dsimp only
  rw [hskip.current?]
  split
  · exact ⟨congrArg (topLevelParts ['&', '|']) htext, hplace⟩
  · exact ⟨rfl, hskip⟩

theorem readAliasSide_beside (hc : Beside b b' c c') :
    ReadsBeside b b' (readAliasSide style c) (readAliasSide style c') := by
  obtain ⟨hhead, hplace⟩ := (hc.skipTrivia h).capture h endsAliasHead fun _ _ _ _ => rfl
  obtain ⟨hbody, hbehind⟩ := hplace.readGroup h '{' '}'
  obtain ⟨htail, hend⟩ := readAliasTail_beside h hbehind
  simp only [readAliasSide, hhead, hplace.current?]
  split
  · refine ⟨?_, hend⟩
    simp only [hbody, htail]
  · exact ⟨rfl, hplace⟩

theorem readAlias?_beside (hc : Beside b b' c c') :
    Option.Rel (ReadsBeside b b') (readAlias? style c) (readAlias? style c') := by
  have hname := readName?_beside h hc
  unfold readAlias?
  generalize readName? c = p at hname ⊢
  generalize readName? c' = p' at hname ⊢
  cases hname with
  | none => exact .none
  | @some p p' hread =>
      obtain ⟨name, d⟩ := p
      obtain ⟨name', d'⟩ := p'
      obtain ⟨rfl, hplace⟩ : name = name' ∧ Beside b b' d d' := hread
      obtain ⟨hside, hend⟩ := readAliasSide_beside h style hplace.advance
      simp only [Option.bind_eq_bind, Option.bind_some, hplace.current?, hplace.peek?, hside]
      split
      · exact .some ⟨rfl, hend⟩
      · exact .none

theorem read?_beside {w w' : Word} (htext : w.text = w'.text) (hstop : Beside b b' w.stop w'.stop) :
    Option.Rel (ReadsBeside b b') (read? style w) (read? style w') := by
  simp only [read?, htext]
  split
  · exact readInterface?_beside h style hstop
  · split
    · exact readAlias?_beside h style hstop
    · exact .none

/-- The search for declarations finds the same at places beside each other. -/
theorem allFrom_beside (hc : Beside b b' c c') : allFrom style c = allFrom style c' := by
  induction hn : c.ahead.length using Nat.strong_induction_on generalizing c c' with
  | _ n ih =>
      have hnext := hc.nextWord? h
      rw [allFrom_nextWord style c, allFrom_nextWord style c']
      generalize hword : c.nextWord? = found at hnext ⊢
      generalize c'.nextWord? = found' at hnext ⊢
      cases hnext with
      | none => rfl
      | @some w w' hsame =>
          obtain ⟨htext, -, hstop⟩ := hsame
          have hshorter := length_stop_nextWord? hword
          have hread := read?_beside h style htext hstop
          dsimp only
          generalize hplace : read? style w = declared at hread ⊢
          generalize read? style w' = declared' at hread ⊢
          cases hread with
          | none => exact ih _ (by omega) hstop rfl
          | @some p p' hsame =>
              obtain ⟨d, place⟩ := p
              obtain ⟨d', place'⟩ := p'
              obtain ⟨rfl, hbehind⟩ : d = d' ∧ Beside b b' place place' := hsame
              have hlength : place.ahead.length ≤ w.stop.ahead.length := length_read?_le hplace
              exact congrArg (d :: ·) (ih _ (by omega) hbehind rfl)

end TypeDeclaration

/-! ### The intake statement -/

namespace Intake

open Cursor

/-- The intake statement of a script with `n` more bytes in front of it. -/
def shift (n : Nat) (intake : Intake) : Intake :=
  { intake with start := intake.start + n, stop := intake.stop + n }

/-- What follows the annotation of a statement: the call with its type argument, and the place
behind it. -/
def readCall? (call : Text) (c : Cursor) : Option (Option Text × Cursor) :=
  (passCallName? call c).bind fun d =>
    (passArguments? (readArgument d).2).map fun e => ((readArgument d).1, e)

/-- A statement is a pattern, an annotation and a call. -/
theorem read?_eq (call : Text) (c : Cursor) :
    read? call c = (readPattern? c).bind fun p =>
      (readCall? call (readAscription p.2).2).map fun q =>
        (p.1, (readAscription p.2).1.or q.1, q.2) := by
  rw [read?]
  cases readPattern? c with
  | none => rfl
  | some p =>
      simp only [Option.bind_eq_bind, Option.bind_some, readCall?]
      cases passCallName? call (readAscription p.2).2 with
      | none => rfl
      | some d =>
          simp only [Option.bind_some, Option.map_map]
          cases passArguments? (readArgument d).2 <;> rfl

variable {b b' : Text} {c c' : Cursor} (h : LooksAlike b b') (call : Text)

include h

theorem readPattern?_beside (hc : Beside b b' c c') :
    Option.Rel (ReadsBeside b b') (readPattern? c) (readPattern? c') := by
  have hskip := hc.skipTrivia h
  unfold readPattern?
  dsimp only
  rw [hskip.current?]
  split
  · exact .some (hskip.readGroup h '{' '}')
  · exact .none

theorem readAscription_beside (hc : Beside b b' c c') :
    ReadsBeside b b' (readAscription c) (readAscription c') := by
  have hskip := hc.skipTrivia h
  obtain ⟨htext, hplace⟩ := hskip.advance.capture h endsAscription fun _ _ _ _ => rfl
  unfold readAscription
  dsimp only
  rw [hskip.current?]
  split
  · exact ⟨congrArg trimmed? htext, hplace⟩
  · exact ⟨rfl, hskip⟩

theorem passCallName?_beside (hc : Beside b b' c c') :
    Option.Rel (Beside b b') (passCallName? call c) (passCallName? call c') := by
  have hskip := hc.advance.skipTrivia h
  unfold passCallName?
  dsimp only
  rw [hc.current?, hskip.atWord]
  split
  · split
    · exact .some ((hskip.advanceBy call.length).skipTrivia h)
    · exact .none
  · exact .none

theorem readArgument_beside (hc : Beside b b' c c') :
    ReadsBeside b b' (readArgument c) (readArgument c') := by
  obtain ⟨htext, hplace⟩ := hc.readGroup h '<' '>'
  unfold readArgument
  rw [hc.current?]
  split
  · exact ⟨congrArg trimmed? htext, hplace.skipTrivia h⟩
  · exact ⟨rfl, hc⟩

theorem passArguments?_beside (hc : Beside b b' c c') :
    Option.Rel (Beside b b') (passArguments? c) (passArguments? c') := by
  unfold passArguments?
  rw [hc.current?]
  split
  · exact .some (hc.readGroup h '(' ')').2
  · exact .none

theorem readCall?_beside (hc : Beside b b' c c') :
    Option.Rel (ReadsBeside b b') (readCall? call c) (readCall? call c') := by
  have hname := passCallName?_beside h call hc
  unfold readCall?
  generalize passCallName? call c = p at hname ⊢
  generalize passCallName? call c' = p' at hname ⊢
  cases hname with
  | none => exact .none
  | @some d d' hd =>
      obtain ⟨hargument, hplace⟩ := readArgument_beside h hd
      have hend := passArguments?_beside h hplace
      simp only [Option.bind_some, hargument]
      generalize passArguments? (readArgument d).2 = q at hend ⊢
      generalize passArguments? (readArgument d').2 = q' at hend ⊢
      cases hend with
      | none => exact .none
      | some he => exact .some ⟨rfl, he⟩

theorem read?_beside (hc : Beside b b' c c') :
    Option.Rel (fun p p' => p.1 = p'.1 ∧ p.2.1 = p'.2.1 ∧ Beside b b' p.2.2 p'.2.2)
      (read? call c) (read? call c') := by
  have hpattern := readPattern?_beside h hc
  rw [read?_eq, read?_eq]
  generalize readPattern? c = p at hpattern ⊢
  generalize readPattern? c' = p' at hpattern ⊢
  cases hpattern with
  | none => exact .none
  | @some p p' hread =>
      obtain ⟨pattern, d⟩ := p
      obtain ⟨pattern', d'⟩ := p'
      obtain ⟨rfl, hplace⟩ : pattern = pattern' ∧ Beside b b' d d' := hread
      obtain ⟨hascription, hbehind⟩ := readAscription_beside h hplace
      have hcall := readCall?_beside h call hbehind
      simp only [Option.bind_some, hascription]
      generalize readCall? call (readAscription d).2 = q at hcall ⊢
      generalize readCall? call (readAscription d').2 = q' at hcall ⊢
      cases hcall with
      | none => exact .none
      | some hread => exact .some ⟨rfl, congrArg (Option.or _) hread.1, hread.2⟩

/-- The search for the intake statement finds the same at places beside each other, as far apart as
the texts behind them are longer or shorter. -/
theorem findFrom?_beside (hc : Beside b b' c c') :
    Option.Rel (fun i i' => i.pattern = i'.pattern ∧ i.ascription = i'.ascription ∧
        i.start + byteLength b' = i'.start + byteLength b ∧
        i.stop + byteLength b' = i'.stop + byteLength b)
      (findFrom? call c) (findFrom? call c') := by
  induction hn : c.ahead.length using Nat.strong_induction_on generalizing c c' with
  | _ n ih =>
      have hnext := hc.nextWord? h
      rw [findFrom?_nextWord call c, findFrom?_nextWord call c']
      generalize hword : c.nextWord? = found at hnext ⊢
      generalize c'.nextWord? = found' at hnext ⊢
      cases hnext with
      | none => exact .none
      | @some w w' hsame =>
          obtain ⟨htext, hstart, hstop⟩ := hsame
          have hshorter := length_stop_nextWord? hword
          have hread := read?_beside h call hstop
          dsimp only
          rw [htext]
          split
          · generalize read? call w.stop = statement at hread ⊢
            generalize read? call w'.stop = statement' at hread ⊢
            cases hread with
            | none => exact ih _ (by omega) hstop rfl
            | some hsame =>
                obtain ⟨hpattern, hascription, hend⟩ := hsame
                exact .some ⟨hpattern, hascription, hstart.byteOffset, hend.byteOffset⟩
          · exact ih _ (by omega) hstop rfl

omit h in
/-- Behind text that looks like none, the intake statement is found where it is, and so much
further on. -/
theorem findFrom?_eq_shift {b : Text} (h : LooksAlike b []) (ahead : Text) :
    findFrom? call ⟨b, ahead⟩ = (findFrom? call ⟨[], ahead⟩).map (shift (byteLength b)) := by
  have hfound := findFrom?_beside h call (beside_start b [] ahead)
  generalize findFrom? call ⟨b, ahead⟩ = found at hfound ⊢
  generalize findFrom? call ⟨[], ahead⟩ = alone at hfound ⊢
  cases hfound with
  | none => rfl
  | @some i i' hsame =>
      obtain ⟨pattern, ascription, start, stop⟩ := i
      obtain ⟨pattern', ascription', start', stop'⟩ := i'
      obtain ⟨rfl, rfl, hstart, hstop⟩ := hsame
      simp only [byteLength_nil, Nat.add_zero] at hstart hstop
      simp [shift, hstart, hstop]

end Intake

/-! ### Text without keywords -/

namespace Cursor

/-- A search passes over a line without keywords that leaves no literal and no block comment open. -/
theorem nextAmong?_line {keys : List Text} {t : Text}
    (hclosed : Region.code.after [] t = .code ∨ Region.code.after [] t = .lineComment)
    (hwords : ∀ w ∈ Region.code.words [] t, w ∉ keys) (rest : Text) :
    nextAmong? keys .code [] (t ++ '\n' :: rest) =
      nextAmong? keys .code ('\n' :: t.reverse) rest := by
  have hsign : IsSign '\n' := by decide
  rw [nextAmong?_append (signFirst_cons rest hsign) hwords, List.append_nil]
  rcases hclosed with hcode | hcomment
  · rw [hcode, nextAmong?_sign hsign]
  · have hread : Region.lineComment.read t.reverse '\n' rest = (.code, .code) := rfl
    have hstart : isIdentStart '\n' = false := by decide
    rw [hcomment, nextAmong?, hread]
    simp [hstart]

end Cursor

theorem looksAlike_line (t : Text) : LooksAlike ('\n' :: t) [] :=
  looksAlike_sign (by decide) (by decide) t

/-- Text that leaves no literal and no block comment open is not seen by the searches through the
script behind it, unless one of its words is a keyword. Its literals and comments may hold
anything. -/
theorem closed_text_unseen (style : Member.Style) (t script : Text)
    (hclosed : Region.code.after [] t = .code ∨ Region.code.after [] t = .lineComment) :
    ((∀ w ∈ Region.code.words [] t, w ∉ Intake.keywords) → ∀ call,
      Intake.find? call (t ++ '\n' :: script) =
        (Intake.find? call script).map (Intake.shift (byteLength t + 1))) ∧
    ((∀ w ∈ Region.code.words [] t, w ∉ declarationWords) →
      TypeTable.ofScripts style [t ++ '\n' :: script] = TypeTable.ofScripts style [script]) := by
  constructor
  · intro hwords call
    have hlength : byteLength ('\n' :: t.reverse) = byteLength t + 1 := by
      have hfeed : '\n'.utf8Size = 1 := by decide
      rw [byteLength_cons, byteLength_reverse, hfeed, Nat.add_comm]
    calc Intake.find? call (t ++ '\n' :: script)
        = Intake.findFrom? call ⟨'\n' :: t.reverse, script⟩ := by
          rw [Intake.find?, Cursor.ofText, Intake.findFrom?_eq,
            Cursor.nextAmong?_line hclosed hwords, ← Intake.findFrom?_eq call ⟨_, script⟩]
      _ = (Intake.find? call script).map (Intake.shift (byteLength t + 1)) := by
          rw [Intake.findFrom?_eq_shift call (looksAlike_line t.reverse), hlength]
          rfl
  · intro hwords
    have hall : TypeDeclaration.all style (t ++ '\n' :: script) =
        TypeDeclaration.all style script := by
      calc TypeDeclaration.all style (t ++ '\n' :: script)
          = TypeDeclaration.allFrom style ⟨'\n' :: t.reverse, script⟩ := by
            rw [TypeDeclaration.all, Cursor.ofText, TypeDeclaration.allFrom_eq,
              Cursor.nextAmong?_line hclosed hwords, ← TypeDeclaration.allFrom_eq style ⟨_, script⟩]
        _ = TypeDeclaration.all style script :=
            TypeDeclaration.allFrom_beside (looksAlike_line t.reverse) style
              (Cursor.beside_start _ [] script)
    simp only [TypeTable.ofScripts, List.flatMap_cons, hall]

/-- A literal and a comment that hold an intake statement and a declaration, with escaped quotes and
a backslash at the very end. -/
def inertText : Text :=
  "s = \"let \x7b a \x7d = $props() \\\\\"; /* type T = 'x\" */ f.var(`// \\``) // it's \\".toList

theorem closed_text_unseen_inert :
    ((∀ w ∈ Region.code.words [] inertText, w ∉ Intake.keywords) ∧
      (∀ w ∈ Region.code.words [] inertText, w ∉ declarationWords)) ∧
    (Intake.find? "$props".toList (inertText ++ '\n' :: "let \x7b é \x7d: T = $props()".toList) =
        (Intake.find? "$props".toList "let \x7b é \x7d: T = $props()".toList).map
          (Intake.shift (byteLength inertText + 1)) ∧
      TypeTable.ofScripts {} [inertText ++ '\n' :: "type T = A".toList] =
        TypeTable.ofScripts {} ["type T = A".toList]) := by
  have hclosed : Region.code.after [] inertText = .code ∨
      Region.code.after [] inertText = .lineComment := by decide
  have hwords : (∀ w ∈ Region.code.words [] inertText, w ∉ Intake.keywords) ∧
      (∀ w ∈ Region.code.words [] inertText, w ∉ declarationWords) := by decide
  exact ⟨hwords, (closed_text_unseen {} inertText _ hclosed).1 hwords.1 _,
    (closed_text_unseen {} inertText _ hclosed).2 hwords.2⟩

end ComponentProps
