import ComponentProps.Proofs.CodeSpacing
import ComponentProps.Proofs.LineFeeds
import ComponentProps.Proofs.MethodSignatures

/-!
# Line feeds in members

The scanner of members tells literals by its own means: by regions within types, by quotes alone
within index, call and construct signatures, and not at all between members. It stays in step with
the regions of the body if no quote stands in code and if comments within brackets hold nothing that
looks like a literal or ends a signature. If also no literal of the body has a line feed, then names
have none, and types have none that their normal form keeps.
-/

namespace ComponentProps

open Text

/-! ### Maps all of whose entries are alike -/

namespace OrderedMap

universe u v

variable {κ : Type u} {α : Type v}

/-- Every entry of a map is of some kind. -/
def Every (p : κ → α → Prop) (m : OrderedMap κ α) : Prop := ∀ e ∈ m.entries, p e.1 e.2

variable {p : κ → α → Prop} {m other : OrderedMap κ α} {k : κ} {a : α}

theorem every_empty : (empty : OrderedMap κ α).Every p := by simp [Every, empty]

variable [DecidableEq κ]

theorem mem_setEntry {es : List (κ × α)} {e : κ × α} (h : e ∈ setEntry k a es) :
    e = (k, a) ∨ e ∈ es := by
  induction es with
  | nil => simpa [setEntry] using h
  | cons d es ih =>
      rw [setEntry] at h
      split at h
      · rcases List.mem_cons.mp h with rfl | hmem
        · exact .inl rfl
        · exact .inr (List.mem_cons_of_mem d hmem)
      · rcases List.mem_cons.mp h with rfl | hmem
        · exact .inr List.mem_cons_self
        · exact (ih hmem).imp_right (List.mem_cons_of_mem d)

theorem Every.insert (h : m.Every p) (ha : p k a) : (m.insert k a).Every p := by
  intro e he
  rcases mem_setEntry he with rfl | hmem
  · exact ha
  · exact h e hmem

theorem Every.insertAll {es : List (κ × α)} (h : m.Every p) (hes : ∀ e ∈ es, p e.1 e.2) :
    (m.insertAll es).Every p := by
  induction es generalizing m with
  | nil => exact h
  | cons e es ih =>
      rw [List.forall_mem_cons] at hes
      exact ih (h.insert hes.1) hes.2

theorem Every.extend (h : m.Every p) (hother : other.Every p) : (m.extend other).Every p :=
  h.insertAll hother

theorem Every.get? (h : m.Every p) (hk : m.get? k = some a) : p k a :=
  h (k, a) (mem_entries_of_get? hk)

end OrderedMap

/-! ### Tame bodies -/

/-- The brackets that are open at a place, each kind counted for itself. -/
structure Enclosure extends Binding.Depths where
  angle : Nat := 0
  deriving DecidableEq, Repr

namespace Enclosure

/-- The open brackets after the code character `c`. -/
def track (e : Enclosure) (c : Char) : Enclosure :=
  ⟨e.toDepths.track c,
    if c == '<' then e.angle + 1 else if c == '>' then e.angle - 1 else e.angle⟩

/-- The open brackets after the character `c` of some role. -/
def pass (e : Enclosure) (role : Role) (c : Char) : Enclosure :=
  if role = .code then e.track c else e

/-- Whether a place is enclosed by nothing but curly brackets. -/
def inBodies (e : Enclosure) : Bool := e.round == 0 && e.square == 0 && e.angle == 0

/-- Whether a character of some role, met within some brackets, is what it looks like: no quote
stands in code, and in a comment within brackets neither a quote nor a sign that could end a
signature. -/
def admits (e : Enclosure) (role : Role) (c : Char) : Bool :=
  match role with
  | .code => !isQuote c
  | .literal => true
  | .comment =>
    (e.inBodies && e.curly == 0) || (!isQuote c && (e.inBodies || !bracketSigns.contains c))

end Enclosure

/-- Whether every character of a text is what it looks like. -/
def Region.isTame (region : Region) (e : Enclosure) (behind : Text) : Text → Bool
  | [] => true
  | c :: rest =>
    e.admits (region.read behind c rest).1 c &&
      (region.read behind c rest).2.isTame (e.pass (region.read behind c rest).1 c) (c :: behind)
        rest

/-- Whether the text of a type body, which is read as code from its start, is tame. -/
def Text.isTameBody (body : Text) : Bool := Region.code.isTame {} [] body

/-- No literal of a text has a line feed. -/
def Text.IsUnbroken (t : Text) : Prop := ('\n', Role.literal) ∉ Region.code.roles [] t

instance (t : Text) : Decidable t.IsUnbroken := inferInstanceAs (Decidable (_ ∉ _))

/-! ### Brackets -/

namespace Enclosure

/-- The number of open brackets that a type is nested in. -/
def depth (e : Enclosure) : Nat := e.round + e.square + e.curly

/-- The number of open brackets of the kind that opens a signature. -/
def count (e : Enclosure) (opening : Char) : Nat :=
  if opening = '[' then e.square else if opening = '(' then e.round else e.angle

theorem depth_trackChar_le {e : Enclosure} {n : Nesting} (h : n.depth ≤ e.depth) (behind : Text)
    (c : Char) : (n.trackChar behind c).depth ≤ (e.track c).depth := by
  unfold depth at h ⊢
  by_cases hc : c ∈ bracketSigns
  · simp only [bracketSigns, List.mem_cons, List.not_mem_nil, or_false] at hc
    rcases hc with rfl | rfl | rfl | rfl | rfl | rfl | rfl | rfl <;>
      simp only [Nesting.trackChar, Bracket.of?, Nesting.track, track, Binding.Depths.track,
        Char.reduceBEq, Bool.or_false, Bool.or_true, if_true, if_false, Bool.false_eq_true,
        Bool.true_and] <;>
      first | omega | (by_cases hb : behind.head? = some '=' <;> simpa [hb] using h)
  · have hnone := bracket_of_not_mem hc behind
    simp only [bracketSigns, List.mem_cons, List.not_mem_nil, or_false, not_or] at hc
    simpa [Nesting.trackChar, hnone, track, Binding.Depths.track, hc] using h

theorem count_track_opening (e : Enclosure) {opening : Char} (h : opening ∈ ['[', '(', '<']) :
    (e.track opening).count opening = e.count opening + 1 := by
  simp only [List.mem_cons, List.not_mem_nil, or_false] at h
  rcases h with rfl | rfl | rfl <;> simp [track, count, Binding.Depths.track]

theorem count_track_end (e : Enclosure) {opening : Char} (h : opening ∈ ['[', '(', '<']) :
    (e.track (Member.Scan.signatureEnd opening)).count opening = e.count opening - 1 := by
  simp only [List.mem_cons, List.not_mem_nil, or_false] at h
  rcases h with rfl | rfl | rfl <;>
    simp [track, count, Binding.Depths.track, Member.Scan.signatureEnd]

theorem count_track_of_ne (e : Enclosure) {opening c : Char} (h : opening ∈ ['[', '(', '<'])
    (hopening : c ≠ opening) (hend : c ≠ Member.Scan.signatureEnd opening) :
    (e.track c).count opening = e.count opening := by
  simp only [List.mem_cons, List.not_mem_nil, or_false] at h
  unfold track count Binding.Depths.track
  rcases h with rfl | rfl | rfl <;> simp [Member.Scan.signatureEnd] at hend <;>
    simp [hopening, hend] <;> split_ifs <;> rfl

/-- Within brackets no comment holds a quote. -/
theorem not_isQuote_of_admits {e : Enclosure} {role : Role} {c : Char} (h : e.admits role c = true)
    (hrole : role ≠ .literal) (hdepth : role = .comment → 0 < e.depth + e.angle) :
    isQuote c = false := by
  cases role with
  | code => simpa [admits] using h
  | literal => exact absurd rfl hrole
  | comment =>
      have hne := hdepth rfl
      simp only [admits, inBodies, Bool.or_eq_true, Bool.and_eq_true, beq_iff_eq] at h
      rcases h with ⟨⟨⟨hround, hsquare⟩, hangle⟩, hcurly⟩ | ⟨hquote, -⟩
      · simp [depth, hround, hsquare, hangle, hcurly] at hne
      · simpa using hquote

/-- Within a signature no comment holds a bracket. -/
theorem not_bracket_of_admits {e : Enclosure} {opening c : Char} (h : e.admits .comment c = true)
    (hcount : 0 < e.count opening) : c ∉ bracketSigns := by
  have hbodies : e.inBodies = false := by
    rw [Bool.eq_false_iff]
    intro hall
    simp only [inBodies, Bool.and_eq_true, beq_iff_eq] at hall
    simp [count, hall] at hcount
  exact (by simpa [admits, hbodies] using h : isQuote c = false ∧ c ∉ bracketSigns).2

end Enclosure

/-! ### Regions and quotes -/

namespace Region

/-- A character of no literal is met outside literals and leads into none. -/
theorem quote_of_ne_literal {region : Region} {behind rest : Text} {c : Char}
    (h : (region.read behind c rest).1 ≠ .literal) :
    region.quote = none ∧ (region.read behind c rest).2.quote = none := by
  cases region with
  | code =>
      simp only [read] at h ⊢
      split at h
      · exact absurd rfl h
      · rename_i hquote
        rw [if_neg hquote]
        cases hopened : comment? c rest with
        | none => exact ⟨rfl, rfl⟩
        | some opened =>
            cases opened with
            | literal quote => exact absurd rfl (comment?_ne_literal hopened quote)
            | code | lineComment | blockOpening | blockComment | blockClosing => exact ⟨rfl, rfl⟩
  | literal quote => exact absurd rfl h
  | lineComment | blockComment =>
      simp only [read]
      split <;> exact ⟨rfl, rfl⟩
  | blockOpening | blockClosing => exact ⟨rfl, rfl⟩

/-- A character of a literal leads to code or stays in a literal. -/
theorem read_literal {region : Region} {behind rest : Text} {c : Char}
    (h : (region.read behind c rest).1 = .literal)
    (hquote : (region.read behind c rest).2.quote = none) :
    (region.read behind c rest).2 = .code := by
  cases region with
  | code =>
      simp only [read] at h hquote ⊢
      split at h
      · rename_i hc
        rw [if_pos hc] at hquote
        contradiction
      · split at h <;> contradiction
  | literal quote =>
      simp only [read] at hquote ⊢
      split at hquote
      · rename_i hc
        exact if_pos hc
      · contradiction
  | lineComment =>
      simp only [read] at h
      split at h <;> contradiction
  | blockOpening | blockComment | blockClosing => contradiction

theorem isCommentFree_of_literal {region : Region} (hquoted : region.IsQuoted) {behind rest : Text}
    {c : Char} (h : (region.read behind c rest).1 = .literal) : region.IsCommentFree := by
  cases region with
  | code => trivial
  | literal quote => exact hquoted quote rfl
  | lineComment =>
      simp only [read] at h
      split at h <;> contradiction
  | blockOpening | blockComment | blockClosing => contradiction

/-- Where no quote stands outside literals, quotes alone tell literals from other text. -/
theorem quote_next {region : Region} (hquoted : region.IsQuoted) {behind rest : Text} {c : Char}
    (hquote : (region.read behind c rest).1 ≠ .literal → isQuote c = false) :
    region.quote.next behind c = (region.read behind c rest).2.quote ∧
      region.quote.covers behind c = ((region.read behind c rest).1 == .literal) := by
  by_cases hrole : (region.read behind c rest).1 = .literal
  · exact quote_read (isCommentFree_of_literal hquoted hrole) rfl (by simp [hrole])
  · obtain ⟨hregion, hnext⟩ := quote_of_ne_literal hrole
    have hc := OpenQuote.next_of_not_isQuote (hquote hrole) none behind
    rw [hregion, hnext, OpenQuote.covers, hc]
    exact ⟨rfl, by simpa using hrole⟩

end Region

namespace Member

/-! ### What is ahead of the scanner -/

/-- Ahead of a place that lies in some region and within some brackets, no literal has a line feed
and the text is tame. -/
structure Outlook (region : Region) (e : Enclosure) (c : Cursor) : Prop where
  quoted : region.IsQuoted
  unbroken : ('\n', Role.literal) ∉ region.roles c.behind c.ahead
  tame : region.isTame e c.behind c.ahead = true

theorem outlook_start {body : Text} (hunbroken : body.IsUnbroken) (htame : body.isTameBody = true) :
    Outlook .code {} (Cursor.ofText body) :=
  ⟨by simp [Region.IsQuoted], hunbroken, htame⟩

namespace Outlook

variable {region : Region} {e : Enclosure} {behind rest : Text} {c : Char}

theorem next (h : Outlook region e ⟨behind, c :: rest⟩) :
    Outlook (region.read behind c rest).2 (e.pass (region.read behind c rest).1 c)
      ⟨c :: behind, rest⟩ where
  quoted := Region.isQuoted_read h.quoted behind c rest
  unbroken := fun hmem => h.unbroken (List.mem_cons_of_mem _ hmem)
  tame := (Bool.and_eq_true_iff.mp h.tame).2

theorem admits (h : Outlook region e ⟨behind, c :: rest⟩) :
    e.admits (region.read behind c rest).1 c = true :=
  (Bool.and_eq_true_iff.mp h.tame).1

theorem ne_newline (h : Outlook region e ⟨behind, c :: rest⟩)
    (hrole : (region.read behind c rest).1 = .literal) : c ≠ '\n' := by
  rintro rfl
  refine h.unbroken ?_
  rw [Region.roles, hrole]
  exact List.mem_cons_self

/-- A character of code that is neither a quote nor a comment sign leaves the place in code. -/
theorem plain (h : Outlook .code e ⟨behind, c :: rest⟩) (hc : IsPlain c) :
    Outlook .code (e.track c) ⟨c :: behind, rest⟩ := by
  have hnext := h.next
  rwa [Region.read_plain hc] at hnext

/-- A quote that is met in code opens a literal. -/
theorem read_quote (h : Outlook .code e ⟨behind, c :: rest⟩) (hc : isQuote c = true) :
    Region.code.read behind c rest = (.literal, .literal c) := by
  have hslash : c ≠ '/' := by
    rintro rfl
    contradiction
  have hadmits := h.admits
  simp only [Region.read, hc, Region.comment?, if_neg hslash] at hadmits ⊢
  split
  · rfl
  · rename_i hescaped
    rw [if_neg hescaped] at hadmits
    simp [Enclosure.admits, hc] at hadmits

end Outlook

/-! ### Agreement between modes and regions -/

/-- A name that has no line feed or makes no member. -/
def IsKeyable (name : Text) : Prop := '\n' ∉ name ∨ isSignatureName name = true

/-- A type is read in its region, at most as deep as the brackets that are open, and the quotes of
what has been taken tell the same literals as the region. -/
structure Draft.Fits (region : Region) (e : Enclosure) (behind : Text) (d : Draft) : Prop where
  region_eq : d.region = region
  depth_le : d.nesting.depth ≤ e.depth
  /-- A comment is taken up only within brackets. -/
  nested : region ≠ .code → region.quote = none → 0 < d.nesting.depth
  keyable : IsKeyable d.name
  calm : IsCalm d.taken.reverse
  quote_eq : OpenQuote.after none [] d.taken.reverse = region.quote
  behind_eq : ∃ base, behind = d.taken ++ base ∧ base.head? ≠ some '\\'

/-- A mode of the scanner agrees with the region and the brackets of the place it is at. -/
def Mode.Fits (region : Region) (e : Enclosure) (behind : Text) : Mode → Prop
  | .seeking => region = .code
  | .lineComment => region = .lineComment
  | .blockComment => region = .blockComment
  | .docComment _ => region = .blockComment
  | .quotedName quote word => region = .literal quote ∧ '\n' ∉ word
  | .signature opening depth quote text =>
    opening ∈ ['[', '(', '<'] ∧ 0 < depth ∧ depth ≤ e.count opening ∧ quote = region.quote ∧
      isSignatureName text.reverse = true
  | .name text ended =>
    region = .code ∧ behind.head? ≠ some '\\' ∧ IsKeyable text.reverse ∧
      (ended = false → '\n' ∉ text)
  | .afterMark word => region = .code ∧ behind.head? ≠ some '\\' ∧ IsKeyable word
  | .afterColon word _ => region = .code ∧ behind.head? ≠ some '\\' ∧ IsKeyable word
  | .type d => d.Fits region e behind

/-- A member whose name has no line feed and whose type has none within quotes. -/
def IsCalmEntry (name : Text) (m : Member) : Prop := '\n' ∉ name ∧ IsCalm m.type

namespace Scan

/-- The scanner is in step with a region and some brackets. -/
structure InStep (region : Region) (e : Enclosure) (s : Scan) : Prop where
  outlook : Outlook region e s.cursor
  fits : s.mode.Fits region e s.cursor.behind
  calm : s.members.Every IsCalmEntry

/-- The scanner is in step with the text. -/
def IsInStep (s : Scan) : Prop := ∃ region e, s.InStep region e

variable {region : Region} {e : Enclosure} {s : Scan} {c : Char} {rest : Text}

theorem isInStep_move (h : Outlook region e s.cursor) (hahead : s.cursor.ahead = c :: rest)
    (hcalm : s.members.Every IsCalmEntry) {mode : Mode}
    (hfits : mode.Fits (region.read s.cursor.behind c rest).2
      (e.pass (region.read s.cursor.behind c rest).1 c) (c :: s.cursor.behind)) :
    (s.move 1 mode).IsInStep := by
  obtain ⟨⟨behind, ahead⟩, _, pending, members⟩ := s
  dsimp only at hahead
  subst hahead
  exact ⟨_, _, h.next, hfits, hcalm⟩

/-- Moving over a plain character of code leads to code. -/
theorem isInStep_move_plain (h : Outlook .code e s.cursor) (hahead : s.cursor.ahead = c :: rest)
    (hcalm : s.members.Every IsCalmEntry) (hc : IsPlain c) {mode : Mode}
    (hfits : mode.Fits .code (e.track c) (c :: s.cursor.behind)) : (s.move 1 mode).IsInStep := by
  refine isInStep_move h hahead hcalm ?_
  rw [Region.read_plain hc]
  exact hfits

/-! ### Between members and in comments -/

theorem isInStep_stepSeeking (h : s.InStep .code e) (hahead : s.cursor.ahead = c :: rest) :
    (s.stepSeeking c rest).IsInStep := by
  obtain ⟨⟨behind, ahead⟩, mode, pending, members⟩ := s
  dsimp only at hahead
  subst hahead
  have houtlook := h.outlook
  unfold stepSeeking
  split_ifs with hwhite hdoc hblock hline hident hquote hopening
  · exact isInStep_move_plain houtlook rfl h.calm (isPlain_of_isWhite hwhite) rfl
  · simp only [Bool.and_eq_true, beq_iff_eq, List.isPrefixOf_iff_prefix, bne_iff_ne] at hdoc
    obtain ⟨⟨rfl, t, rfl⟩, hlast⟩ := hdoc
    refine ⟨_, _, houtlook.next.next.next, ?_, h.calm⟩
    have hopen : (t.head? == some '/') = false := by
      cases t with
      | nil => rfl
      | cons d t => simpa using hlast
    simp [Mode.Fits, move, Region.read, Region.comment?, isQuote, hopen]
  · simp only [Bool.and_eq_true, beq_iff_eq, List.head?_eq_some_iff] at hblock
    obtain ⟨rfl, t, rfl⟩ := hblock
    exact ⟨_, _, houtlook.next.next, rfl, h.calm⟩
  · simp only [Bool.and_eq_true, beq_iff_eq, List.head?_eq_some_iff] at hline
    obtain ⟨rfl, t, rfl⟩ := hline
    exact ⟨_, _, houtlook.next.next, rfl, h.calm⟩
  · have hc := isIdentChar_of_isIdentStart hident
    have hslash : c ≠ '\\' := ne_of_kind hc rfl
    have hfeed : '\n' ∉ [c] := by
      simpa using (ne_of_kind hc rfl : c ≠ '\n').symm
    exact isInStep_move_plain houtlook rfl h.calm (isPlain_of_isIdentChar hc)
      ⟨rfl, by simpa using hslash, .inl hfeed, fun _ => hfeed⟩
  · refine isInStep_move houtlook rfl h.calm ?_
    rw [houtlook.read_quote hquote]
    exact ⟨rfl, by simp⟩
  · have hmem : c ∈ ['[', '(', '<'] := by simpa [or_assoc] using hopening
    have hplain : IsPlain c := by
      simp only [List.mem_cons, List.not_mem_nil, or_false] at hmem
      rcases hmem with rfl | rfl | rfl <;> decide
    refine isInStep_move_plain houtlook rfl h.calm hplain ⟨hmem, Nat.one_pos, ?_, rfl, ?_⟩
    · rw [Enclosure.count_track_opening e hmem]
      exact Nat.le_add_left 1 _
    · simpa [isSignatureName] using hopening
  · -- A slash that opens no comment is a character like any other.
    have hcomment : Region.comment? c rest = none := by
      unfold Region.comment?
      split
      · rename_i hslash
        subst hslash
        split <;> simp_all
      · rfl
    refine isInStep_move houtlook rfl h.calm ?_
    simp only [Region.read, hcomment, hquote]
    rfl

theorem isInStep_lineComment (h : s.InStep .lineComment e) (hahead : s.cursor.ahead = c :: rest) :
    (if c = '\n' then s.move 1 .seeking else s.move 1 .lineComment).IsInStep := by
  split_ifs with hfeed
  all_goals
    refine isInStep_move h.outlook hahead h.calm ?_
    simp [Region.read, hfeed, Mode.Fits]

/-- A block comment goes on up to its end, whatever is kept of it. -/
theorem isInStep_inComment (h : s.InStep .blockComment e) (hahead : s.cursor.ahead = c :: rest)
    {mode : Mode} (hmode : mode = .blockComment ∨ ∃ raw, mode = .docComment raw)
    (pending : Option Text) :
    (if c == '*' && rest.head? == some '/' then { s.move 2 .seeking with pending := pending }
      else s.move 1 mode).IsInStep := by
  split_ifs with hend
  · obtain ⟨⟨behind, ahead⟩, mode, pending, members⟩ := s
    dsimp only at hahead
    subst hahead
    simp only [Bool.and_eq_true, beq_iff_eq, List.head?_eq_some_iff] at hend
    obtain ⟨rfl, t, rfl⟩ := hend
    exact ⟨_, _, h.outlook.next.next, rfl, h.calm⟩
  · refine isInStep_move h.outlook hahead h.calm ?_
    rcases hmode with rfl | ⟨raw, rfl⟩ <;> simp [Region.read, hend, Mode.Fits]

/-! ### Names -/

theorem isInStep_stepQuotedName {quote : Char} {word : Text} (h : s.InStep (.literal quote) e)
    (hword : '\n' ∉ word) (hahead : s.cursor.ahead = c :: rest) :
    (s.stepQuotedName quote word c).IsInStep := by
  have hquote : isQuote quote = true := h.outlook.quoted quote rfl
  have hoff : c ≠ '\n' := by
    obtain ⟨⟨behind, ahead⟩, mode, pending, members⟩ := s
    dsimp only at hahead
    subst hahead
    exact h.outlook.ne_newline rfl
  unfold stepQuotedName Cursor.isEscaped
  split_ifs with hend
  · have hc : c = quote := by simp_all
    have hslash : c ≠ '\\' := by
      rintro rfl
      subst hc
      contradiction
    exact isInStep_move h.outlook hahead h.calm
      ⟨if_pos hend, by simpa using hslash, .inl (by simpa using hword), by simp⟩
  · exact isInStep_move h.outlook hahead h.calm
      ⟨if_neg hend, by simpa using ⟨hoff.symm, hword⟩⟩

theorem isSignatureName_append {name : Text} (h : isSignatureName name = true) (t : Text) :
    isSignatureName (name ++ t) = true := by
  cases name with
  | nil => contradiction
  | cons c name => exact h

theorem bracketSigns_of_opening {opening : Char} (h : opening ∈ ['[', '(', '<']) :
    opening ∈ bracketSigns ∧ signatureEnd opening ∈ bracketSigns := by
  simp only [List.mem_cons, List.not_mem_nil, or_false] at h
  rcases h with rfl | rfl | rfl <;> decide

theorem isInStep_stepSignature {opening : Char} {depth : Nat} {quote : OpenQuote} {text : Text}
    (h : s.InStep region e) (hfits : (Mode.signature opening depth quote text).Fits region e [])
    (hahead : s.cursor.ahead = c :: rest) :
    (s.stepSignature opening depth quote text c).IsInStep := by
  obtain ⟨⟨behind, ahead⟩, mode, pending, members⟩ := s
  dsimp only at hahead
  subst hahead
  obtain ⟨hopening, hpos, hdepth, rfl, htext⟩ := hfits
  obtain ⟨hopens, hends⟩ := bracketSigns_of_opening hopening
  have houtlook := h.outlook
  have hcount : 0 < e.count opening := Nat.lt_of_lt_of_le hpos hdepth
  have hname : isSignatureName (c :: text).reverse = true := by
    rw [List.reverse_cons]
    exact isSignatureName_append htext [c]
  have hopen : 0 < e.depth + e.angle := by
    unfold Enclosure.count at hcount
    unfold Enclosure.depth
    split_ifs at hcount <;> omega
  obtain ⟨hnext, hcovers⟩ := Region.quote_next houtlook.quoted
    fun hrole => Enclosure.not_isQuote_of_admits houtlook.admits hrole fun _ => hopen
  have hgo : ∀ depth', 0 < depth' →
      depth' ≤ (e.pass (region.read behind c rest).1 c).count opening →
      (move ⟨⟨behind, c :: rest⟩, mode, pending, members⟩ 1
        (.signature opening depth' (region.quote.next behind c) (c :: text))).IsInStep :=
    fun depth' hpos' hdepth' =>
      isInStep_move houtlook rfl h.calm ⟨hopening, hpos', hdepth', hnext, hname⟩
  unfold stepSignature
  dsimp only
  rw [hcovers]
  cases hrole : (region.read behind c rest).1 with
  | literal =>
      rw [hrole] at hgo
      exact hgo depth hpos hdepth
  | comment =>
      -- A comment in a signature has no bracket, so it ends nothing.
      have hadmits := houtlook.admits
      rw [hrole] at hgo hadmits
      have hc := Enclosure.not_bracket_of_admits hadmits hcount
      have hother : c ≠ opening ∧ c ≠ signatureEnd opening :=
        ⟨fun heq => hc (heq ▸ hopens), fun heq => hc (heq ▸ hends)⟩
      simp only [beq_iff_eq, hother.1, hother.2, if_false]
      exact hgo depth hpos hdepth
  | code =>
      rw [hrole] at hgo
      have hpass : e.pass .code c = e.track c := rfl
      rw [hpass] at hgo
      simp only [beq_iff_eq, reduceCtorEq, if_false]
      split_ifs with hsame hend hlast
      · subst hsame
        refine hgo (depth + 1) (Nat.succ_pos depth) ?_
        rw [Enclosure.count_track_opening e hopening]
        exact Nat.succ_le_succ hdepth
      · have hslash : c ≠ '\\' := by
          rintro rfl
          rw [← hend] at hends
          contradiction
        refine isInStep_move houtlook rfl h.calm ⟨?_, by simpa using hslash, .inr hname, by simp⟩
        exact Region.read_code (Prod.ext hrole rfl)
      · refine hgo (depth - 1) (by omega) ?_
        rw [hend, Enclosure.count_track_end e hopening]
        omega
      · refine hgo depth hpos ?_
        rw [Enclosure.count_track_of_ne e hopening hsame hend]
        exact hdepth

/-- A type begins with nothing taken. -/
theorem fits_begin {word behind : Text} (hbehind : behind.head? ≠ some '\\')
    (hword : IsKeyable word) (optional method : Bool) :
    (Mode.type { name := word, optional := optional, method := method }).Fits .code e behind where
  region_eq := rfl
  depth_le := Nat.zero_le _
  nested := fun hne => absurd rfl hne
  keyable := hword
  calm := isCalm_of_not_mem (by simp)
  quote_eq := rfl
  behind_eq := ⟨behind, rfl, hbehind⟩

theorem isInStep_beginMethod {word : Text} (h : s.InStep .code e)
    (hbehind : s.cursor.behind.head? ≠ some '\\') (hword : IsKeyable word) (optional : Bool) :
    (s.beginMethod word optional).IsInStep :=
  ⟨_, _, h.outlook, fits_begin hbehind hword optional true, h.calm⟩

theorem isInStep_abandon (h : s.InStep .code e) : s.abandon.IsInStep :=
  ⟨_, _, h.outlook, rfl, h.calm⟩

theorem isInStep_stepName {word : Text} {ended : Bool} (h : s.InStep .code e)
    (hfits : (Mode.name word ended).Fits .code e s.cursor.behind)
    (hahead : s.cursor.ahead = c :: rest) : (s.stepName word ended c rest).IsInStep := by
  obtain ⟨-, hbehind, hkeyable, hopen⟩ := hfits
  unfold stepName
  by_cases hident : isIdentChar c = true
  · rw [if_pos hident]
    have hslash : c ≠ '\\' := ne_of_kind hident rfl
    have hfeed : '\n' ≠ c := (ne_of_kind hident rfl : c ≠ '\n').symm
    have hlonger : '\n' ∉ (if ended then [c] else c :: word) := by
      cases ended with
      | true => simpa using hfeed
      | false => simpa using ⟨hfeed, hopen rfl⟩
    exact isInStep_move_plain h.outlook hahead h.calm (isPlain_of_isIdentChar hident)
      ⟨rfl, by simpa using hslash, .inl (fun hmem => hlonger (List.mem_reverse.mp hmem)),
        fun _ => hlonger⟩
  rw [if_neg hident]
  split_ifs with hwhite hcolon hmethod hmark
  · have hslash : c ≠ '\\' := ne_of_kind hwhite rfl
    exact isInStep_move_plain h.outlook hahead h.calm (isPlain_of_isWhite hwhite)
      ⟨rfl, by simpa using hslash, hkeyable, by simp⟩
  · obtain rfl : c = ':' := by simpa using hcolon
    exact isInStep_move_plain h.outlook hahead h.calm (by decide) ⟨rfl, by simp, hkeyable⟩
  · exact isInStep_beginMethod h hbehind hkeyable false
  · obtain rfl : c = '?' := by simpa using hmark
    split
    · split
      · exact isInStep_move_plain h.outlook hahead h.calm (by decide) ⟨rfl, by simp, hkeyable⟩
      · exact isInStep_abandon h
    · exact isInStep_abandon h
  · exact isInStep_abandon h

theorem isInStep_stepAfterMark {word : Text} (h : s.InStep .code e)
    (hbehind : s.cursor.behind.head? ≠ some '\\') (hkeyable : IsKeyable word)
    (hahead : s.cursor.ahead = c :: rest) : (s.stepAfterMark word c).IsInStep := by
  unfold stepAfterMark
  split_ifs with hwhite hcolon hmethod
  · have hslash : c ≠ '\\' := ne_of_kind hwhite rfl
    exact isInStep_move_plain h.outlook hahead h.calm (isPlain_of_isWhite hwhite)
      ⟨rfl, by simpa using hslash, hkeyable⟩
  · obtain rfl : c = ':' := by simpa using hcolon
    exact isInStep_move_plain h.outlook hahead h.calm (by decide) ⟨rfl, by simp, hkeyable⟩
  · exact isInStep_beginMethod h hbehind hkeyable true
  · exact isInStep_abandon h

theorem isInStep_stepAfterColon {word : Text} (h : s.InStep .code e)
    (hbehind : s.cursor.behind.head? ≠ some '\\') (hkeyable : IsKeyable word)
    (hahead : s.cursor.ahead = c :: rest) (optional : Bool) :
    (s.stepAfterColon word optional c).IsInStep := by
  unfold stepAfterColon
  split_ifs with hwhite
  · have hslash : c ≠ '\\' := ne_of_kind hwhite rfl
    exact isInStep_move_plain h.outlook hahead h.calm (isPlain_of_isWhite hwhite)
      ⟨rfl, by simpa using hslash, hkeyable⟩
  · exact ⟨_, _, h.outlook, fits_begin hbehind hkeyable optional false, h.calm⟩

/-! ### Types -/

/-- A member that is complete has a name without a line feed and a calm type. -/
theorem isCalmEntry_of_make? {style : Style} {name raw : Text} {optional method : Bool}
    {doc : Option Text} {m : Member} (h : make? style name optional method doc raw = some m)
    (hname : IsKeyable name) (hraw : IsCalm raw) : IsCalmEntry m.name m := by
  unfold make? at h
  split at h
  · contradiction
  · rename_i hsignature
    split at h
    · contradiction
    · rename_i c rest htype
      obtain rfl := Option.some.inj h
      have hcalm := isCalm_typeText hraw style method
      rw [htype] at hcalm
      refine ⟨?_, hcalm⟩
      rcases hname with hname | hname
      · exact hname
      · simp [hname] at hsignature

theorem every_complete {style : Style} {d : Draft} (h : s.members.Every IsCalmEntry)
    (hname : IsKeyable d.name) (hcalm : IsCalm d.taken.reverse) :
    (s.complete style d).members.Every IsCalmEntry := by
  unfold complete
  dsimp only
  split
  · rename_i m hm
    exact h.insert (isCalmEntry_of_make? hm hname hcalm)
  · exact h

theorem isInStep_complete {style : Style} {d : Draft} (h : s.InStep .code e)
    (hname : IsKeyable d.name) (hcalm : IsCalm d.taken.reverse) : (s.complete style d).IsInStep :=
  ⟨_, _, h.outlook, rfl, every_complete h.calm hname hcalm⟩

/-- Taking a character into a type keeps the quotes of the type in step with the regions. -/
theorem isInStep_take {d : Draft} (h : s.InStep region e) (hfits : d.Fits region e s.cursor.behind)
    (hahead : s.cursor.ahead = c :: rest)
    (hcomment : (region.read s.cursor.behind c rest).1 = .comment → 0 < d.nesting.depth)
    {d' : Draft} (hname : d'.name = d.name) (htaken : d'.taken = d.taken)
    (hregion : d'.region = (region.read s.cursor.behind c rest).2)
    (hdepth : d'.nesting.depth ≤ (e.pass (region.read s.cursor.behind c rest).1 c).depth)
    (hnested : d'.region ≠ .code → d'.region.quote = none → 0 < d'.nesting.depth) :
    (s.take d' c).IsInStep := by
  obtain ⟨⟨behind, ahead⟩, mode, pending, members⟩ := s
  dsimp only at hahead
  subst hahead
  obtain ⟨base, hbehind, hbase⟩ := hfits.behind_eq
  have houtlook := h.outlook
  dsimp only at hbehind hcomment hregion hdepth
  obtain ⟨hnext, -⟩ := Region.quote_next houtlook.quoted fun hrole =>
    Enclosure.not_isQuote_of_admits houtlook.admits hrole fun hinert =>
      Nat.add_pos_left (Nat.lt_of_lt_of_le (hcomment hinert) hfits.depth_le) e.angle
  have hescape : OpenQuote.next region.quote d.taken c = OpenQuote.next region.quote behind c := by
    rw [OpenQuote.next, OpenQuote.next, hbehind, isEscaped_append hbase]
  refine isInStep_move houtlook rfl h.calm
    ⟨hregion, hdepth, fun hne hquote => ?_, hname ▸ hfits.keyable, ?_, ?_, base, ?_⟩
  · exact hnested (hregion ▸ hne) (hregion ▸ hquote)
  · -- A line feed that is taken up stands in no literal.
    rw [htaken, List.reverse_cons]
    refine isCalm_concat hfits.calm ?_
    rintro rfl
    have hrole := fun hliteral => houtlook.ne_newline hliteral rfl
    rw [hfits.quote_eq]
    exact (Region.quote_of_ne_literal hrole).1
  · rw [htaken, List.reverse_cons, OpenQuote.after_append, hfits.quote_eq, List.reverse_reverse,
      List.append_nil, ← hnext, ← hescape]
    rfl
  · rw [htaken]
    exact ⟨congrArg (c :: ·) hbehind, hbase⟩

theorem isInStep_stepTypeCode (style : Style) {d : Draft} (h : s.InStep region e)
    (hfits : d.Fits region e s.cursor.behind) (hahead : s.cursor.ahead = c :: rest)
    (hrole : (region.read s.cursor.behind c rest).1 = .code) :
    (s.stepTypeCode style { d with region := (region.read s.cursor.behind c rest).2 }
      c).IsInStep := by
  have hcode : (region.read s.cursor.behind c rest).2 = .code :=
    Region.read_code (Prod.ext hrole rfl)
  -- Outside brackets the type is read as code, so the scanner may leave it there.
  have htop : d.nesting.depth = 0 → region = .code := by
    intro hdepth
    by_contra hne
    have hliteral : (region.read s.cursor.behind c rest).1 ≠ .literal := by simp [hrole]
    have hpos := hfits.nested hne (Region.quote_of_ne_literal hliteral).1
    omega
  have htake : ∀ d' : Draft, d'.name = d.name → d'.taken = d.taken → d'.region = .code →
      d'.nesting = d.nesting.trackChar s.cursor.behind c → (s.take d' c).IsInStep := by
    intro d' hname htaken hregion hnesting
    refine isInStep_take h hfits hahead (by simp [hrole]) hname htaken (hregion.trans hcode.symm) ?_
      fun hne => absurd hregion hne
    rw [hrole, hnesting]
    exact Enclosure.depth_trackChar_le hfits.depth_le s.cursor.behind c
  unfold stepTypeCode
  split
  · rename_i b hbracket
    split_ifs with hend
    · have hdepth : d.nesting.depth = 0 := by simp_all
      obtain rfl := htop hdepth
      exact isInStep_complete h hfits.keyable hfits.calm
    · exact htake _ rfl rfl hcode (by simp [Nesting.trackChar, hbracket])
  · rename_i hbracket
    have hsame : d.nesting.trackChar s.cursor.behind c = d.nesting := by
      simp [Nesting.trackChar, hbracket]
    split_ifs with hnested hmark hcolon hend
    · exact htake _ rfl rfl hcode hsame.symm
    · exact htake _ rfl rfl hcode hsame.symm
    · exact htake _ rfl rfl hcode hsame.symm
    · have hdepth : d.nesting.depth = 0 := by simpa using hnested
      obtain rfl := htop hdepth
      have hplain : IsPlain c := by
        rcases (by simpa using hend : c = ';' ∨ c = ',' ∧ d.nesting.angle = 0) with rfl | ⟨rfl, -⟩
          <;> decide
      exact isInStep_move_plain (s := s.complete style _) h.outlook hahead
        (every_complete h.calm hfits.keyable hfits.calm) hplain rfl
    · exact htake _ rfl rfl hcode hsame.symm

theorem isInStep_stepType (style : Style) {d : Draft} (h : s.InStep region e)
    (hfits : d.Fits region e s.cursor.behind) (hahead : s.cursor.ahead = c :: rest) :
    (s.stepType style d c rest).IsInStep := by
  have hcomplete : region = .code → (s.complete style d).IsInStep := by
    rintro rfl
    exact isInStep_complete h hfits.keyable hfits.calm
  have hkeep : ∀ role next, region.read s.cursor.behind c rest = (role, next) → role ≠ .code →
      (role = .comment → 0 < d.nesting.depth) → (s.take { d with region := next } c).IsInStep := by
    intro role next hread hcode hcomment
    have hrole : (region.read s.cursor.behind c rest).1 = role := by rw [hread]
    have hnext : (region.read s.cursor.behind c rest).2 = next := by rw [hread]
    refine isInStep_take h hfits hahead (fun hc => hcomment (hrole.symm.trans hc)) rfl rfl
      hnext.symm ?_ fun hne hquote => ?_
    · rw [hrole, Enclosure.pass, if_neg hcode]
      exact hfits.depth_le
    · cases role with
      | code => exact absurd rfl hcode
      | comment => exact hcomment rfl
      | literal =>
          subst hnext
          exact absurd (Region.read_literal hrole hquote) hne
  unfold stepType
  rw [hfits.region_eq]
  by_cases hstarts : s.nextStarts d = true
  · rw [if_pos hstarts]
    simp only [nextStarts, hfits.region_eq, Bool.and_eq_true, beq_iff_eq] at hstarts
    exact hcomplete hstarts.1.1.1.1
  rw [if_neg hstarts]
  cases hread : region.read s.cursor.behind c rest with
  | mk role next =>
      have hrole : (region.read s.cursor.behind c rest).1 = role := by rw [hread]
      cases role with
      | literal => exact hkeep _ _ hread (by decide) (by simp)
      | comment =>
          dsimp only
          split_ifs with hend
          · exact hcomplete (by simp_all)
          · refine hkeep _ _ hread (by decide) fun _ => ?_
            by_cases hregion : region = .code
            · have hdepth : d.nesting.depth ≠ 0 := by simpa [hregion] using hend
              exact Nat.pos_of_ne_zero hdepth
            · have hliteral : (region.read s.cursor.behind c rest).1 ≠ .literal := by simp [hrole]
              exact hfits.nested hregion (Region.quote_of_ne_literal hliteral).1
      | code =>
          have hstep := isInStep_stepTypeCode style h hfits hahead hrole
          rwa [hread] at hstep

/-! ### Every step and every run -/

theorem IsInStep.step (style : Style) (h : s.IsInStep) : (s.step style).IsInStep := by
  obtain ⟨region, e, h⟩ := h
  have hfits := h.fits
  unfold Scan.step
  split
  · exact ⟨region, e, h⟩
  rename_i c rest hahead
  cases hmode : s.mode <;> rw [hmode] at hfits
  case seeking =>
    obtain rfl : region = .code := hfits
    exact isInStep_stepSeeking h hahead
  case lineComment =>
    obtain rfl : region = .lineComment := hfits
    exact isInStep_lineComment h hahead
  case blockComment =>
    obtain rfl : region = .blockComment := hfits
    exact isInStep_inComment h hahead (.inl rfl) s.pending
  case docComment raw =>
    obtain rfl : region = .blockComment := hfits
    exact isInStep_inComment h hahead (.inr ⟨c :: raw, rfl⟩) (docText? style raw.reverse)
  case quotedName quote word =>
    obtain ⟨rfl, hword⟩ := hfits
    exact isInStep_stepQuotedName h hword hahead
  case signature opening depth quote text => exact isInStep_stepSignature h hfits hahead
  case name word ended =>
    obtain rfl : region = .code := hfits.1
    exact isInStep_stepName h hfits hahead
  case afterMark word =>
    obtain ⟨rfl, hbehind, hword⟩ := hfits
    exact isInStep_stepAfterMark h hbehind hword hahead
  case afterColon word optional =>
    obtain ⟨rfl, hbehind, hword⟩ := hfits
    exact isInStep_stepAfterColon h hbehind hword hahead optional
  case type d => exact isInStep_stepType style h hfits hahead

theorem IsInStep.run (style : Style) (h : s.IsInStep) : (s.run style).IsInStep := by
  induction s using Scan.run.induct style with
  | case1 s hend =>
      rw [run_end hend]
      exact h
  | case2 s hmore ih =>
      rw [run_step hmore]
      exact ih (h.step style)

theorem IsInStep.finish (style : Style) (h : s.IsInStep) :
    (s.finish style).Every IsCalmEntry := by
  obtain ⟨region, e, h⟩ := h
  have hfits := h.fits
  unfold Scan.finish
  split
  · rename_i d hmode
    rw [hmode] at hfits
    exact every_complete h.calm hfits.keyable hfits.calm
  · exact h.calm

end Scan

/-- In a tame body no literal of which has a line feed, names have no line feed and types have none
within quotes. -/
theorem every_scan {body : Text} (hunbroken : body.IsUnbroken) (htame : body.isTameBody = true)
    (style : Style) : (scan style body).Every IsCalmEntry := by
  have hstart : (Scan.start body).IsInStep :=
    ⟨.code, {}, outlook_start hunbroken htame, rfl, OrderedMap.every_empty⟩
  exact (hstart.run style).finish style

end Member

end ComponentProps
