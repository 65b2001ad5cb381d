import ComponentProps.Proofs.DeclaredNames
import ComponentProps.Proofs.TypeBodies

/-!
# Searches that go back

A script is searched in turns. A turn passes over literals and comments to the next character of
code. If a word begins there it is read, and what follows a keyword is read as a statement. Such an
attempt may come to the end of the text before it fails. The search then goes back to a place behind
the start of the keyword and forgets in which literal it was. Main statement: every turn but the
last leaves the search further on than it was and outside all literals, so it ends within as many
turns as the script has characters and one more, with all that is to be found.
-/

namespace ComponentProps

open Text

/-! ### Places -/

namespace Region

variable {region next : Region} {behind rest : Text} {c : Char}

/-- The quote of the literal that a region lies in. -/
def openQuote : Region → OpenQuote
  | literal quote => some quote
  | _ => none

/-- The region in which a search goes on that knows of an open quote only. -/
def ofQuote : OpenQuote → Region
  | some quote => literal quote
  | none => code

theorem openQuote_of_read (h : region.read behind c rest = (.code, next)) :
    region.openQuote = none := by
  cases region with
  | literal quote => simp [read] at h
  | code | lineComment | blockOpening | blockComment | blockClosing => rfl

end Region

namespace Cursor

variable {c d : Cursor} {keys : List Text}

theorem Moves.text (h : Moves c d) : d.text = c.text := by
  obtain ⟨behind, passed, ahead⟩ := h
  simp [Cursor.text]

theorem Moves.pos_le (h : Moves c d) : c.pos ≤ d.pos := by
  obtain ⟨behind, passed, ahead⟩ := h
  simp [Cursor.pos]

/-- A place is found again by its number from every place of the text. -/
theorem seek_pos (h : d.text = c.text) : d.seek c.pos = c := by
  have hpass := advanceBy_length [] c.behind.reverse c.ahead
  rw [List.length_reverse, List.reverse_reverse, List.append_nil] at hpass
  rw [seek, h]
  exact hpass

/-- The word that begins at a place is the next word, and it can be read there. -/
theorem exists_word_of_atWordStart {behind ahead : Text} (h : atWordStart ⟨behind, ahead⟩ = true) :
    ∃ x t rest, ahead = x :: t ++ rest ∧ (∀ d ∈ x :: t, isIdentChar d = true) ∧
      readIdent? ⟨behind, ahead⟩ = some (x :: t, ⟨(x :: t).reverse ++ behind, rest⟩) ∧
      nextWord? ⟨behind, ahead⟩ =
        some ⟨x :: t, ⟨behind, ahead⟩, ⟨(x :: t).reverse ++ behind, rest⟩⟩ := by
  cases ahead with
  | nil => contradiction
  | cons x more =>
      have hstart : isIdentStart x = true ∧ standsAlone behind = true := by
        simpa [atWordStart] using h
      have hx := isIdentChar_of_isIdentStart hstart.1
      have hlead := leadingWord_cons hx more
      have hsplit : x :: leadingWord more ++ more.dropWhile isIdentChar = x :: more :=
        congrArg (x :: ·) (leadingWord_append_dropWhile more)
      have hstop := advanceBy_leadingWord behind (x :: more)
      rw [hlead, List.dropWhile_cons_of_pos hx] at hstop
      refine ⟨x, leadingWord more, more.dropWhile isIdentChar, hsplit.symm, ?_, ?_, ?_⟩
      · exact List.forall_mem_cons.mpr ⟨hx, fun d hd => List.mem_takeWhile_imp hd⟩
      · simp only [readIdent?, hstart.1, if_true, hlead, hstop]
      · simp only [nextWord?, nextWordFrom?, Region.read_plain (isPlain_of_isIdentChar hx), hstart,
          Bool.and_self, if_true, hlead, hstop]

/-- No keyword begins at a character of code where no word begins. -/
theorem nextAmong?_advance {behind rest : Text} {x : Char}
    (hread : Region.code.read behind x rest = (.code, .code))
    (h : atWordStart ⟨behind, x :: rest⟩ = false) :
    nextAmong? keys .code behind (x :: rest) = nextAmong? keys .code (x :: behind) rest := by
  have hstart : (isIdentStart x && standsAlone behind) = false := h
  simp only [nextAmong?, hread, hstart, Bool.false_and, Bool.false_eq_true, if_false]

end Cursor

/-! ### Turns -/

/-- A search on its way: where it is, and in which literal it takes itself to be. -/
structure Walker where
  place : Cursor
  quote : OpenQuote
  deriving DecidableEq, Repr

namespace Walker

/-- What a turn of a search comes to: the search ends, or it goes on. -/
inductive Turn (α : Type)
  | last (found : List α)
  | next (found : List α) (w : Walker)
  deriving DecidableEq, Repr

open Cursor

variable {α : Type} {w w' v : Walker} {keys : List Text} {search : Cursor → List α}

def start (script : Text) : Walker := ⟨ofText script, none⟩

/-- Go to the `n`-th place of the text. The literal that the search was in is forgotten. -/
def seek (c : Cursor) (n : Nat) : Walker := ⟨c.seek n, none⟩

def skipInertFrom (region : Region) (behind : Text) : Text → Walker
  | [] => ⟨⟨behind, []⟩, region.openQuote⟩
  | c :: rest =>
    match region.read behind c rest with
    | (.code, _) => ⟨⟨behind, c :: rest⟩, region.openQuote⟩
    | (_, region') => skipInertFrom region' (c :: behind) rest

/-- Go to the first code character, seen from within the literal that the search is in. -/
def skipInert (w : Walker) : Walker :=
  skipInertFrom (.ofQuote w.quote) w.place.behind w.place.ahead

/-- One turn of a search that does `onWord` where a word begins. -/
def turn (onWord : Walker → Turn α) (w : Walker) : Turn α :=
  let w := w.skipInert
  if w.place.atEnd then .last []
  else if w.place.atWordStart then onWord w
  else .next [] { w with place := w.place.advance }

/-- What is found in at most `n` turns, if the search ends with one of them. -/
def run (turn : Walker → Turn α) : Nat → Walker → Option (List α)
  | 0, _ => none
  | n + 1, w =>
    match turn w with
    | .last found => some found
    | .next found w' => (run turn n w').map (found ++ ·)

/-- The search goes on in the same text, further on and outside all literals: neither does it take
itself to be in one, nor is it, since characters have the roles that they had before. -/
structure Progress (w w' : Walker) : Prop where
  text : w'.place.text = w.place.text
  pos : w.place.pos < w'.place.pos
  quote : w'.quote = none
  leads : Leads w.place w'.place

theorem Progress.length_lt (h : Progress w w') :
    w'.place.ahead.length < w.place.ahead.length := by
  have hbefore := w.place.pos_add_length
  have hafter := w'.place.pos_add_length
  have hpos := h.pos
  rw [h.text] at hafter
  omega

/-- What is passed on the way to a place counts for what is passed behind it. -/
theorem Progress.of_moves (hmove : Moves w.place v.place) (hleads : Leads w.place v.place)
    (h : Progress v w') : Progress w w' where
  text := h.text.trans hmove.text
  pos := Nat.lt_of_le_of_lt hmove.pos_le h.pos
  quote := h.quote
  leads := hleads.trans h.leads

theorem Progress.moves (h : Progress w w') {d : Cursor} (hmove : Moves w'.place d)
    (hleads : Leads w'.place d) : Progress w ⟨d, none⟩ where
  text := hmove.text.trans h.text
  pos := Nat.lt_of_lt_of_le h.pos hmove.pos_le
  quote := rfl
  leads := h.leads.trans hleads

theorem progress_plain {behind t rest : Text} {quote : OpenQuote} (hne : t ≠ [])
    (ht : ∀ d ∈ t, IsPlain d) :
    Progress ⟨⟨behind, t ++ rest⟩, quote⟩ ⟨⟨t.reverse ++ behind, rest⟩, none⟩ where
  text := (Moves.mk behind t rest).text
  pos := by simpa [Cursor.pos] using List.length_pos_of_ne_nil hne
  quote := rfl
  leads := leads_plain ht behind rest

/-- What a move over literals and comments comes to. -/
structure PassesInert (region : Region) (behind ahead : Text) (v : Walker) : Prop where
  moves : Moves ⟨behind, ahead⟩ v.place
  roles : Region.code.roles v.place.behind v.place.ahead <:+ region.roles behind ahead
  keyword : ∀ keys, nextAmong? keys region behind ahead =
    nextAmong? keys .code v.place.behind v.place.ahead
  code : v.place.ahead = [] ∨ v.quote = none ∧ ∃ x rest, v.place.ahead = x :: rest ∧
    Region.code.read v.place.behind x rest = (.code, .code)

theorem passesInert_skipInertFrom (region : Region) (behind ahead : Text) :
    PassesInert region behind ahead (skipInertFrom region behind ahead) := by
  induction ahead generalizing region behind with
  | nil => exact ⟨.refl _, List.suffix_refl _, fun _ => rfl, .inl rfl⟩
  | cons c rest ih =>
      obtain ⟨role, region', hread⟩ : ∃ role region', region.read behind c rest = (role, region') :=
        ⟨_, _, rfl⟩
      obtain ⟨hmoves, hroles, hkeyword, hcode⟩ := ih region' (c :: behind)
      rw [skipInertFrom, hread]
      cases role with
      | literal | comment =>
          refine ⟨hmoves.cons, ?_, fun keys => ?_, hcode⟩
          · rw [Region.roles, hread]
            exact hroles.trans (List.suffix_cons _ _)
          · rw [nextAmong?, hread]
            exact hkeyword keys
      | code =>
          have hhere := Region.read_code_of_read hread
          have hnext := Region.read_code hread
          have hroles : region.roles behind (c :: rest) = Region.code.roles behind (c :: rest) :=
            Region.roles_of_code (by rw [hread])
          refine ⟨.refl _, hroles ▸ List.suffix_refl _, fun keys => ?_,
            .inr ⟨Region.openQuote_of_read hread, c, rest, rfl, hhere⟩⟩
          simp only [nextAmong?, hread, hhere, hnext]

/-- A search whose outcome depends on the next of its keywords. -/
structure SeeksAmong (keys : List Text) (search : Cursor → List α) : Prop where
  same : ∀ {c d : Cursor}, nextAmong? keys .code c.behind c.ahead =
    nextAmong? keys .code d.behind d.ahead → search c = search d
  none : ∀ {c : Cursor}, nextAmong? keys .code c.behind c.ahead = none → search c = []

/-- A turn that serves a search makes progress, or it is the last one, and what it finds comes first
in what the search finds. -/
def Serves (search : Cursor → List α) (w : Walker) : Turn α → Prop
  | .last found => search w.place = found
  | .next found w' => Progress w w' ∧ search w.place = found ++ search w'.place

theorem Serves.of_moves {t : Turn α} (hmove : Moves w.place v.place)
    (hleads : Leads w.place v.place) (hsame : search w.place = search v.place)
    (h : Serves search v t) : Serves search w t := by
  cases t with
  | last found => exact hsame.trans h
  | next found w' => exact ⟨.of_moves hmove hleads h.1, hsame.trans h.2⟩

/-- The turns of a search serve it if they do so where a word begins. -/
theorem serves_turn {onWord : Walker → Turn α} (hsearch : SeeksAmong keys search)
    (honWord : ∀ v : Walker, v.quote = none → v.place.atWordStart = true →
      Serves search v (onWord v))
    (hw : w.quote = none) : Serves search w (turn onWord w) := by
  have hpass : PassesInert .code w.place.behind w.place.ahead w.skipInert := by
    rw [skipInert, hw]
    exact passesInert_skipInertFrom .code w.place.behind w.place.ahead
  refine .of_moves hpass.moves hpass.roles (hsearch.same (hpass.keyword keys)) ?_
  unfold turn
  dsimp only
  generalize w.skipInert = v at hpass
  rcases hpass.code with hend | ⟨hquote, x, rest, hahead, hread⟩
  · rw [if_pos (by simp [atEnd, hend])]
    exact hsearch.none (by rw [hend]; rfl)
  · rw [if_neg (by simp [atEnd, hahead])]
    split
    · rename_i hstart
      exact honWord v hquote hstart
    · rename_i hstart
      obtain ⟨⟨behind, ahead⟩, quote⟩ := v
      dsimp only at hahead hread hquote hstart ⊢
      subst hahead hquote
      have hroles : Region.code.roles (x :: behind) rest <:+
          Region.code.roles behind (x :: rest) := by
        rw [Region.roles, hread]
        exact List.suffix_cons _ _
      have hsame : nextAmong? keys .code behind (x :: rest) =
          nextAmong? keys .code (x :: behind) rest :=
        nextAmong?_advance hread (by simpa using hstart)
      exact ⟨⟨text_advance _, Nat.lt_succ_self _, rfl, hroles⟩, hsearch.same hsame⟩

/-- A word that begins where a search is. Behind it the search has made progress, and so it has
behind the first character, from where it comes to the same keyword as from behind the word. -/
structure MeetsWord (v : Walker) (word : Text) (stop : Cursor) : Prop where
  ident : v.place.readIdent? = some (word, stop)
  next : v.place.nextWord? = some ⟨word, v.place, stop⟩
  passes : Progress v ⟨stop, none⟩
  enters : Progress v ⟨v.place.advance, none⟩
  pos_advance : v.place.advance.pos = v.place.pos + 1
  keyword : ∀ keys, nextAmong? keys .code v.place.advance.behind v.place.advance.ahead =
    nextAmong? keys .code stop.behind stop.ahead

theorem exists_meetsWord (h : v.place.atWordStart = true) : ∃ word stop, MeetsWord v word stop := by
  obtain ⟨⟨behind, ahead⟩, quote⟩ := v
  obtain ⟨x, t, rest, rfl, hident, hread, hnext⟩ := exists_word_of_atWordStart h
  have hplain : ∀ d ∈ x :: t, IsPlain d := fun d hd => isPlain_of_isIdentChar (hident d hd)
  have hfirst : ∀ d ∈ [x], IsPlain d := by simpa using hplain x List.mem_cons_self
  rw [List.forall_mem_cons] at hident
  refine ⟨x :: t, _, hread, hnext, progress_plain (List.cons_ne_nil x t) hplain,
    progress_plain (List.cons_ne_nil x []) hfirst, rfl, fun keys => ?_⟩
  rw [List.reverse_cons, List.append_assoc]
  exact nextAmong?_word_tail keys hident.2 hident.1 behind rest

/-- A search whose turns serve it ends, and it finds what it is to find. -/
theorem run_eq {turn : Walker → Turn α}
    (hturn : ∀ w : Walker, w.quote = none → Serves search w (turn w)) {n : Nat}
    (hw : w.quote = none) (hn : w.place.ahead.length < n) :
    run turn n w = some (search w.place) := by
  induction n generalizing w with
  | zero => omega
  | succ n ih =>
      have hserves := hturn w hw
      rw [run]
      generalize turn w = t at hserves
      cases t with
      | last found => exact congrArg some hserves.symm
      | next found w' =>
          obtain ⟨hprogress, hfound⟩ := hserves
          have hlength := hprogress.length_lt
          rw [hfound]
          exact congrArg (Option.map (found ++ ·)) (ih hprogress.quote (by omega))

end Walker

/-! ### The search for the intake statement -/

namespace Intake

open Cursor Walker

/-- Read the rest of an intake statement after its keyword, and tell the place that the attempt came
to even if it fails. -/
def attempt (call : Text) (c : Cursor) : Option (Text × Option Text) × Cursor :=
  match readPattern? c with
  | none => (none, c.skipTrivia)
  | some (pattern, c) =>
    let (ascription, c) := readAscription c
    match passCallName? call c with
    | none => (none, if c.current? = some '=' then c.advance.skipTrivia else c)
    | some c =>
      let (argument, c) := readArgument c
      match passArguments? c with
      | none => (none, c)
      | some c => (some (pattern, ascription.or argument), c)

/-- What the search does where a word begins. It goes back behind a keyword that begins no intake
statement. -/
def onWord (call : Text) (w : Walker) : Turn Intake :=
  match w.place.readIdent? with
  | none => .next [] { w with place := w.place.advance }
  | some (word, stop) =>
    if keywords.contains word then
      match attempt call stop with
      | (some (pattern, ascription), last) =>
        .last [⟨pattern, ascription, w.place.byteOffset, last.byteOffset⟩]
      | (none, last) => .next [] (Walker.seek last stop.pos)
    else .next [] { w with place := stop }

theorem read?_attempt (call : Text) (c : Cursor) :
    read? call c =
      (attempt call c).1.map fun found => (found.1, found.2, (attempt call c).2) := by
  unfold read? attempt
  cases readPattern? c with
  | none => rfl
  | some p =>
      dsimp only [Option.bind_eq_bind, Option.bind_some]
      cases passCallName? call (readAscription p.2).2 with
      | none => rfl
      | some d =>
          dsimp only [Option.bind_some]
          cases passArguments? (readArgument d).2 <;> rfl

theorem moves_attempt (call : Text) (c : Cursor) : Moves c (attempt call c).2 := by
  unfold attempt
  split
  · exact moves_skipTrivia c
  · rename_i pattern c₁ hpattern
    have hascription := (isCourse_moves.readPattern? hpattern).trans (isCourse_moves.readAscription c₁)
    dsimp only
    split
    · split
      · exact hascription.trans ((moves_advance _).trans (moves_skipTrivia _))
      · exact hascription
    · rename_i c₂ hname
      have hargument :=
        hascription.trans ((moves_passCallName? hname).trans (isCourse_moves.readArgument c₂))
      split
      · exact hargument
      · rename_i c₃ harguments
        exact hargument.trans (isCourse_moves.passArguments? harguments)

theorem seeksAmong_findFrom? (call : Text) :
    SeeksAmong keywords fun c => (findFrom? call c).toList where
  same {c d} h := by rw [findFrom?_eq, h, ← findFrom?_eq]
  none {c} h := by rw [findFrom?_eq, h]; rfl

theorem serves_onWord (call : Text) {v : Walker} (hquote : v.quote = none)
    (h : v.place.atWordStart = true) :
    Serves (fun c => (findFrom? call c).toList) v (onWord call v) := by
  obtain ⟨word, stop, hword⟩ := exists_meetsWord h
  have hfind := findFrom?_nextWord call v.place
  simp only [hword.next] at hfind
  simp only [onWord, hword.ident, List.contains_iff_mem]
  split_ifs with hkey
  · have hread := read?_attempt call stop
    have hmoves := moves_attempt call stop
    generalize attempt call stop = result at hread hmoves
    obtain ⟨found, last⟩ := result
    rw [if_pos hkey, hread] at hfind
    cases found with
    | some found => exact congrArg Option.toList hfind
    | none =>
        have hback : Walker.seek last stop.pos = ⟨stop, none⟩ :=
          congrArg (Walker.mk · none) (seek_pos hmoves.text)
        dsimp only
        rw [hback]
        exact ⟨hword.passes, congrArg Option.toList hfind⟩
  · rw [if_neg hkey] at hfind
    rw [hquote]
    exact ⟨hword.passes, congrArg Option.toList hfind⟩

end Intake

/-! ### The search for declarations -/

namespace TypeDeclaration

open Cursor Walker

/-- Read the rest of a declaration after its keyword, and tell the place that the attempt came to
even if it fails. -/
def attempt (style : Member.Style) (word : Text) (c : Cursor) : Option TypeDeclaration × Cursor :=
  match readName? c with
  | none => (none, c.skipTrivia)
  | some (name, c) =>
    if word = "interface".toList then
      let (parents, c) := readExtends c
      if c.current? = some '{' then
        let (body, c) := c.readGroup '{' '}'
        (some ⟨name, ⟨Member.scan style body, parents⟩⟩, c)
      else (none, c)
    else if c.current? = some '=' && c.peek? 1 ≠ some '=' then
      let (definition, c) := readAliasSide style c.advance
      (some ⟨name, definition⟩, c)
    else (none, c)

/-- What the search does where a word begins. It goes back into a keyword that begins no
declaration. -/
def onWord (style : Member.Style) (w : Walker) : Turn TypeDeclaration :=
  match w.place.readIdent? with
  | none => .next [] w
  | some (word, stop) =>
    if declarationWords.contains word then
      match attempt style word stop with
      | (some declaration, last) => .next [declaration] { w with place := last }
      | (none, last) => .next [] (Walker.seek last (w.place.pos + 1))
    else .next [] { w with place := stop }

theorem read?_attempt (style : Member.Style) (word : Cursor.Word)
    (h : word.text ∈ declarationWords) :
    read? style word = (attempt style word.text word.stop).1.map
      (·, (attempt style word.text word.stop).2) := by
  unfold read? attempt readInterface? readAlias?
  by_cases hinterface : word.text = "interface".toList
  · rw [if_pos hinterface]
    cases readName? word.stop with
    | none => rfl
    | some p =>
        simp only [hinterface, if_true, Option.bind_eq_bind, Option.bind_some]
        split <;> rfl
  · have htype : word.text = "type".toList := by
      simp only [declarationWords, List.mem_cons, List.not_mem_nil, or_false] at h
      exact h.resolve_left hinterface
    rw [if_neg hinterface, if_pos htype]
    cases readName? word.stop with
    | none => rfl
    | some p =>
        simp only [hinterface, if_false, Option.bind_eq_bind, Option.bind_some]
        split <;> rfl

theorem moves_attempt (style : Member.Style) (word : Text) (c : Cursor) :
    Moves c (attempt style word c).2 := by
  unfold attempt
  split
  · exact moves_skipTrivia c
  · rename_i name c₁ hname
    have hplace : Moves c c₁ := isCourse_moves.readName? hname
    have hextends := hplace.trans (isCourse_moves.readExtends c₁)
    dsimp only
    split
    · split
      · exact hextends.trans (moves_readGroup _ '{' '}')
      · exact hextends
    · split
      · exact hplace.trans ((moves_advance c₁).trans (isCourse_moves.readAliasSide style _))
      · exact hplace

theorem seeksAmong_allFrom (style : Member.Style) :
    SeeksAmong declarationWords (allFrom style) where
  same {c d} h := by rw [allFrom_eq, h, ← allFrom_eq]
  none {c} h := by rw [allFrom_eq, h]

theorem serves_onWord (style : Member.Style) {v : Walker} (hquote : v.quote = none)
    (h : v.place.atWordStart = true) : Serves (allFrom style) v (onWord style v) := by
  obtain ⟨word, stop, hword⟩ := exists_meetsWord h
  have hall := allFrom_nextWord style v.place
  simp only [hword.next] at hall
  simp only [onWord, hword.ident, List.contains_iff_mem]
  split_ifs with hkey
  · have hread := read?_attempt style ⟨word, v.place, stop⟩ hkey
    have hmoves := moves_attempt style word stop
    dsimp only at hread
    generalize attempt style word stop = result at hread hmoves
    obtain ⟨found, last⟩ := result
    cases found with
    | some declaration =>
        have hleads := (isReadFrom_read? hread).leads
        rw [hread] at hall
        dsimp only
        rw [hquote]
        exact ⟨hword.passes.moves hmoves hleads, hall⟩
    | none =>
        -- The rest of the word is no word of its own, so it makes no difference that the search
        -- goes on in it and not behind it.
        have htext : last.text = v.place.advance.text :=
          hmoves.text.trans (hword.passes.text.trans hword.enters.text.symm)
        have hback : Walker.seek last (v.place.pos + 1) = ⟨v.place.advance, none⟩ := by
          rw [← hword.pos_advance, Walker.seek, seek_pos htext]
        have hsame := (seeksAmong_allFrom style).same (hword.keyword declarationWords)
        rw [hread] at hall
        dsimp only
        rw [hback]
        exact ⟨hword.enters, hall.trans hsame.symm⟩
  · rw [read?_of_not_mem hkey] at hall
    rw [hquote]
    exact ⟨hword.passes, hall⟩

end TypeDeclaration

/-! ### Both searches -/

namespace Walker

theorem Serves.progress {α : Type} {search : Cursor → List α} {w w' : Walker} {t : Turn α}
    {found : List α} (h : Serves search w t) (ht : t = .next found w') : Progress w w' := by
  subst ht
  exact h.1

/-- Each turn of the search for the intake statement and of the search for declarations ends the
search or leaves it further on in the text and outside all literals, even if an attempt went ahead
and failed. So both searches end, with what they are to find, within as many turns as the script has
characters and one more. -/
theorem searches_progress (call : Text) (style : Member.Style) :
    (∀ w : Walker, w.quote = none →
      (∀ found w', w.turn (Intake.onWord call) = .next found w' → w.Progress w') ∧
      ∀ found w', w.turn (TypeDeclaration.onWord style) = .next found w' → w.Progress w') ∧
    ∀ script : Text,
      run (turn (Intake.onWord call)) (script.length + 1) (start script) =
        some (Intake.find? call script).toList ∧
      run (turn (TypeDeclaration.onWord style)) (script.length + 1) (start script) =
        some (TypeDeclaration.all style script) := by
  have hintake : ∀ w : Walker, w.quote = none →
      Serves (fun c => (Intake.findFrom? call c).toList) w (w.turn (Intake.onWord call)) :=
    fun w hw => serves_turn (Intake.seeksAmong_findFrom? call)
      (fun _ => Intake.serves_onWord call) hw
  have hdeclarations : ∀ w : Walker, w.quote = none →
      Serves (TypeDeclaration.allFrom style) w (w.turn (TypeDeclaration.onWord style)) :=
    fun w hw => serves_turn (TypeDeclaration.seeksAmong_allFrom style)
      (fun _ => TypeDeclaration.serves_onWord style) hw
  refine ⟨fun w hw => ⟨fun _ _ ht => (hintake w hw).progress ht,
    fun _ _ ht => (hdeclarations w hw).progress ht⟩, fun script => ⟨?_, ?_⟩⟩
  · exact run_eq hintake rfl (Nat.lt_succ_self _)
  · exact run_eq hdeclarations rfl (Nat.lt_succ_self _)

/-- A pattern and a clause of parents in which a literal is not closed. Both attempts come to the
end of the script, and both searches go back. -/
theorem searches_progress_unclosed :
    ((Intake.attempt "f".toList ⟨"tel".toList, " \x7b 'b".toList⟩).2.atEnd = true ∧
      (start "let \x7b 'b".toList).quote = none ∧
      (start "let \x7b 'b".toList).turn (Intake.onWord "f".toList) =
        .next [] ⟨⟨"tel".toList, " \x7b 'b".toList⟩, none⟩ ∧
      (start "let \x7b 'b".toList).Progress ⟨⟨"tel".toList, " \x7b 'b".toList⟩, none⟩) ∧
    (TypeDeclaration.attempt {} "interface".toList
        ⟨"ecafretni".toList, " A extends 'b".toList⟩).2.atEnd = true ∧
      (start "interface A extends 'b".toList).turn (TypeDeclaration.onWord {}) =
        .next [] ⟨⟨"i".toList, "nterface A extends 'b".toList⟩, none⟩ ∧
      (start "interface A extends 'b".toList).Progress
        ⟨⟨"i".toList, "nterface A extends 'b".toList⟩, none⟩ := by
  have hlet : (start "let \x7b 'b".toList).turn (Intake.onWord "f".toList) =
      .next [] ⟨⟨"tel".toList, " \x7b 'b".toList⟩, none⟩ := by decide +kernel
  have hinterface : (start "interface A extends 'b".toList).turn (TypeDeclaration.onWord {}) =
      .next [] ⟨⟨"i".toList, "nterface A extends 'b".toList⟩, none⟩ := by decide +kernel
  exact ⟨⟨by decide +kernel, rfl, hlet, ((searches_progress "f".toList {}).1 _ rfl).1 _ _ hlet⟩,
    by decide +kernel, hinterface, ((searches_progress [] {}).1 _ rfl).2 _ _ hinterface⟩

end Walker

end ComponentProps
