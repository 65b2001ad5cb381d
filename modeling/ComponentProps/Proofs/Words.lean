import ComponentProps.Code.Walk
import ComponentProps.Proofs.TypeSyntax
import Mathlib.Data.List.TakeWhile

/-!
# Words and passages of code

A search for a keyword looks at the words of code that stand alone. A passage is a text that such a
search and a count of curly brackets pass over: its literals and comments are closed, its curly
brackets are balanced and none of its words is a keyword. Passages are put together at signs, which
belong to no word, open no literal and end no comment.
-/

namespace ComponentProps

open Text

namespace Text

/-- A character that keeps the texts on its two sides apart. -/
def IsSign (c : Char) : Prop :=
  IsPlain c ∧ isIdentChar c = false ∧ c ≠ '.' ∧ c ≠ '\\' ∧ c ≠ '*'

instance (c : Char) : Decidable (IsSign c) := inferInstanceAs (Decidable (_ ∧ _))

theorem IsSign.not_isIdentStart {c : Char} (h : IsSign c) : isIdentStart c = false := by
  rw [Bool.eq_false_iff]
  intro hstart
  have hident := isIdentChar_of_isIdentStart hstart
  rw [h.2.1] at hident
  contradiction

/-- A sign that is no curly bracket. -/
def IsJoint (c : Char) : Prop := IsSign c ∧ c ≠ '{' ∧ c ≠ '}'

instance (c : Char) : Decidable (IsJoint c) := inferInstanceAs (Decidable (_ ∧ _))

/-- The text is empty or begins with a sign. -/
def SignFirst (t : Text) : Prop := ∀ c, t.head? = some c → IsSign c

theorem signFirst_nil : SignFirst [] := by simp [SignFirst]

theorem signFirst_cons {c : Char} (t : Text) (h : IsSign c) : SignFirst (c :: t) := by
  simpa [SignFirst] using h

theorem SignFirst.endsSlash {t : Text} (h : SignFirst t) : EndsSlash t := by
  constructor
  · intro hhead
    exact (h _ hhead).1.2 rfl
  · intro hhead
    exact (h _ hhead).2.2.2.2 rfl

theorem SignFirst.not_escape {t : Text} (h : SignFirst t) : t.head? ≠ some '\\' :=
  fun hhead => (h _ hhead).2.2.2.1 rfl

theorem SignFirst.standsAlone {t : Text} (h : SignFirst t) : Cursor.standsAlone t = true := by
  cases t with
  | nil => rfl
  | cons c t =>
      obtain ⟨-, hident, hdot, -⟩ := h c rfl
      simp [Cursor.standsAlone, hident, hdot]

theorem leadingWord_append {t rest : Text} (h : SignFirst rest) :
    leadingWord (t ++ rest) = leadingWord t := by
  have hstop : rest.takeWhile isIdentChar = [] := by
    cases rest with
    | nil => rfl
    | cons c rest => simp [(h c rfl).2.1]
  unfold leadingWord
  rw [List.takeWhile_append]
  split
  · rename_i hall
    rw [hstop, List.append_nil]
    exact ((List.takeWhile_prefix isIdentChar).eq_of_length hall).symm
  · rfl

end Text

/-! ### Words -/

namespace Region

/-- The words of code in a text that stand alone, read behind the characters `behind`. -/
def words (region : Region) (behind : Text) : Text → List Text
  | [] => []
  | c :: rest =>
    match region.read behind c rest with
    | (.code, region') =>
      if isIdentStart c && Cursor.standsAlone behind then
        leadingWord (c :: rest) :: words region' (c :: behind) rest
      else words region' (c :: behind) rest
    | (_, region') => words region' (c :: behind) rest

@[simp] theorem words_nil (region : Region) (behind : Text) : region.words behind [] = [] := rfl

theorem words_behind {behind : Text} (hb : SignFirst behind) (region : Region) (front t : Text) :
    region.words (front ++ behind) t = region.words front t := by
  have halone : ∀ front, Cursor.standsAlone (front ++ behind) = Cursor.standsAlone front := by
    intro front
    cases front with
    | nil => exact hb.standsAlone
    | cons c front => rfl
  induction t generalizing region front with
  | nil => rfl
  | cons c t ih =>
      have hread := read_context hb.not_escape endsSlash_nil region front c t
      rw [List.append_nil] at hread
      have hnext : ∀ region', words region' (c :: (front ++ behind)) t =
          words region' (c :: front) t := fun region' => ih region' (c :: front)
      simp only [words, hread, halone, hnext]

theorem words_append {t : Text} (ht : SignFirst t) (region : Region) (behind s : Text) :
    region.words behind (s ++ t) =
      region.words behind s ++ (region.after behind s).words (s.reverse ++ behind) t := by
  induction s generalizing region behind with
  | nil => simp
  | cons c s ih =>
      have hword : leadingWord (c :: (s ++ t)) = leadingWord (c :: s) :=
        leadingWord_append (t := c :: s) ht
      obtain ⟨role, region', hread⟩ : ∃ role region', region.read behind c s = (role, region') :=
        ⟨_, _, rfl⟩
      simp only [List.cons_append, words, after, read_before ht.endsSlash, hread, ih, hword,
        List.reverse_cons, List.append_assoc, List.nil_append]
      cases role with
      | code =>
          dsimp only
          split <;> simp
      | literal => rfl
      | comment => rfl

theorem words_sign_cons {c : Char} (h : IsSign c) (behind t : Text) :
    code.words behind (c :: t) = code.words [] t := by
  have hskip : code.words behind (c :: t) = code.words (c :: behind) t := by
    simp [words, read_plain h.1, h.not_isIdentStart]
  rw [hskip]
  exact words_behind (signFirst_cons behind h) code [] t

/-- Within a word no other word begins. -/
theorem words_word_tail {t : Text} (ht : ∀ c ∈ t, isIdentChar c = true) {c : Char}
    (hc : isIdentChar c = true) (behind : Text) : code.words (c :: behind) t = [] := by
  induction t generalizing c behind with
  | nil => rfl
  | cons d t ih =>
      have hd := ht d List.mem_cons_self
      have hinside : Cursor.standsAlone (c :: behind) = false := by simp [Cursor.standsAlone, hc]
      simp only [words, read_plain (isPlain_of_isIdentChar hd), hinside, Bool.and_false]
      exact ih (fun e he => ht e (List.mem_cons_of_mem _ he)) hd (c :: behind)

theorem words_identifier (n : Identifier) : code.words [] n.text = [n.text] := by
  obtain ⟨c, more, htext, hstart, hall⟩ := n.exists_cons
  have hc := isIdentChar_of_isIdentStart hstart
  have hword : leadingWord (c :: more) = c :: more := by
    rw [leadingWord, List.takeWhile_eq_self_iff]
    intro d hd
    exact hall d (htext ▸ hd)
  have htail : code.words [c] more = [] :=
    words_word_tail (fun d hd => hall d (by simp [htext, hd])) hc []
  simp only [htext, words, read_plain (isPlain_of_isIdentChar hc), hstart, hword, htail]
  rfl

/-- A literal is inert up to the quote that ends it. -/
theorem literal_reads {quote : Char} {content : Text}
    (hcontent : ∀ c ∈ content, c ≠ quote ∧ c ≠ '\\') {behind : Text}
    (hb : behind.head? ≠ some '\\') :
    (literal quote).after behind (content ++ [quote]) = code ∧
      (literal quote).roles behind (content ++ [quote]) =
        (content ++ [quote]).map (fun c => (c, .literal)) ∧
      (literal quote).words behind (content ++ [quote]) = [] := by
  induction content generalizing behind with
  | nil => simp [after, roles, words, read, isEscaped_of_head?_ne hb]
  | cons c content ih =>
      obtain ⟨hquote, hslash⟩ := hcontent c List.mem_cons_self
      have hb' : (c :: behind).head? ≠ some '\\' := by simpa using hslash
      obtain ⟨hafter, hroles, hwords⟩ :=
        ih (fun d hd => hcontent d (List.mem_cons_of_mem _ hd)) hb'
      have hread : (literal quote).read behind c (content ++ [quote]) =
          (.literal, literal quote) := by simp [read, hquote]
      simp only [List.cons_append, after, roles, words, hread, hafter, hroles, hwords,
        List.map_cons, and_self]

theorem roles_sign_cons {c : Char} (h : IsSign c) (behind t : Text) :
    code.roles behind (c :: t) = (c, .code) :: code.roles [] t := by
  rw [roles_plain_cons h.1]
  exact congrArg _ (roles_behind (signFirst_cons behind h).not_escape code [] t)

theorem after_sign_cons {c : Char} (h : IsSign c) (behind t : Text) :
    code.after behind (c :: t) = code.after [] t := by
  rw [after_plain_cons h.1]
  exact after_behind (signFirst_cons behind h).not_escape code [] t

end Region

/-! ### Passages -/

/-- A text without keywords that can stand between signs. -/
structure IsPassage (keys : List Text) (t : Text) : Prop where
  closed : Region.code.after [] t = .code
  braces : depthAfter? '{' '}' 0 (Region.code.roles [] t) = some 0
  words : ∀ w ∈ Region.code.words [] t, w ∉ keys

namespace IsPassage

variable {keys : List Text} {s t : Text}

theorem nil : IsPassage keys [] := ⟨rfl, rfl, by simp⟩

theorem sign {c : Char} (ht : IsPassage keys t) (hc : IsJoint c) :
    IsPassage keys (c :: t) := by
  obtain ⟨h, hbrace⟩ := hc
  refine ⟨?_, ?_, ?_⟩
  · rw [Region.after_sign_cons h]
    exact ht.closed
  · rw [Region.roles_sign_cons h]
    simpa [depthAfter?, hbrace] using ht.braces
  · rw [Region.words_sign_cons h]
    exact ht.words

theorem signs (u : Text) (hu : u.all (IsJoint ·) = true) (ht : IsPassage keys t) :
    IsPassage keys (u ++ t) := by
  induction u with
  | nil => exact ht
  | cons c u ih =>
      rw [List.all_cons, Bool.and_eq_true, decide_eq_true_eq] at hu
      exact (ih hu.2).sign hu.1

/-- What begins with a sign is read behind any text as it is read alone. -/
theorem reads_behind (hs : SignFirst t) (behind : Text) :
    Region.code.after behind t = Region.code.after [] t ∧
      Region.code.roles behind t = Region.code.roles [] t ∧
      Region.code.words behind t = Region.code.words [] t := by
  cases t with
  | nil => exact ⟨rfl, rfl, rfl⟩
  | cons c t =>
      have hc := hs c rfl
      refine ⟨?_, ?_, ?_⟩
      · rw [Region.after_sign_cons hc, Region.after_sign_cons hc]
      · rw [Region.roles_sign_cons hc, Region.roles_sign_cons hc]
      · rw [Region.words_sign_cons hc, Region.words_sign_cons hc]

theorem append (hs : IsPassage keys s) (ht : IsPassage keys t) (hsign : SignFirst t) :
    IsPassage keys (s ++ t) := by
  obtain ⟨hafter, hroles, hwords⟩ := reads_behind hsign (s.reverse ++ [])
  refine ⟨?_, ?_, ?_⟩
  · rw [Region.after_append hsign.endsSlash, hs.closed, hafter]
    exact ht.closed
  · rw [Region.roles_append hsign.endsSlash, hs.closed, hroles, depthAfter?_append, hs.braces]
    exact ht.braces
  · rw [Region.words_append hsign, hs.closed, hwords]
    exact List.forall_mem_append.mpr ⟨hs.words, ht.words⟩

/-- A passage in curly brackets. -/
theorem braced (ht : IsPassage keys t) : IsPassage keys ('{' :: (t ++ ['}'])) := by
  have hopen : IsSign '{' := by decide
  have hclose : IsSign '}' := by decide
  have hsign : SignFirst ['}'] := signFirst_cons [] hclose
  have hroles : Region.code.roles [] (t ++ ['}']) =
      Region.code.roles [] t ++ [('}', .code)] := by
    rw [Region.roles_append hsign.endsSlash, ht.closed, Region.roles_sign_cons hclose]
    rfl
  refine ⟨?_, ?_, ?_⟩
  · rw [Region.after_sign_cons hopen, Region.after_append hsign.endsSlash, ht.closed,
      Region.after_sign_cons hclose]
    rfl
  · have hdepth : depthAfter? '{' '}' 1 (Region.code.roles [] t) = some 1 :=
      depthAfter?_add ht.braces 1
    rw [Region.roles_sign_cons hopen, hroles]
    change depthAfter? '{' '}' 1 _ = some 0
    rw [depthAfter?_append, hdepth]
    rfl
  · rw [Region.words_sign_cons hopen, Region.words_append hsign, ht.closed,
      Region.words_sign_cons hclose, Region.words_nil, List.append_nil]
    exact ht.words

/-- An identifier that is no keyword. -/
theorem word (n : Identifier) (h : n.text ∉ keys) : IsPassage keys n.text := by
  have hplain : ∀ c ∈ n.text, IsPlain c := fun c hc => n.isPlain_of_mem hc
  refine ⟨Region.after_plain hplain [], ?_, ?_⟩
  · rw [Region.roles_plain hplain]
    refine depthAfter?_of_ne fun p hp => ?_
    obtain ⟨c, hc, rfl⟩ := List.mem_map.mp hp
    have hident := n.isIdentChar_of_mem hc
    exact Or.inr ⟨ne_of_kind hident rfl, ne_of_kind hident rfl⟩
  · simpa [Region.words_identifier] using h

theorem literal (l : StringLiteral) : IsPassage keys l.print := by
  have hcontent : ∀ c ∈ l.content, c ≠ l.quote ∧ c ≠ '\\' :=
    fun c hc => ⟨(l.ne_of_mem hc).1, (l.ne_of_mem hc).2.1⟩
  have hb : [l.quote].head? ≠ some '\\' := by
    intro hhead
    have hquote := l.isQuote
    rw [show l.quote = '\\' by simpa using hhead] at hquote
    contradiction
  have hread : Region.code.read [] l.quote (l.content ++ [l.quote]) =
      (.literal, .literal l.quote) := by simp [Region.read, l.isQuote, isEscaped]
  obtain ⟨hafter, hroles, hwords⟩ := Region.literal_reads hcontent hb
  refine ⟨?_, ?_, ?_⟩
  · simp only [StringLiteral.print, Region.after, hread, hafter]
  · simp only [StringLiteral.print, Region.roles, hread, hroles]
    have hinert : Role.literal ≠ .code := by decide
    refine depthAfter?_of_ne fun p hp => Or.inl ?_
    rcases List.mem_cons.mp hp with rfl | hp
    · exact hinert
    · obtain ⟨c, -, rfl⟩ := List.mem_map.mp hp
      exact hinert
  · simp only [StringLiteral.print, Region.words, hread, hwords]
    simp

/-- A sign that ends a passage, or stands between two. -/
theorem append_sign {c : Char} (hs : IsPassage keys s) (hc : IsJoint c) (ht : IsPassage keys t) :
    IsPassage keys (s ++ c :: t) :=
  hs.append (ht.sign hc) (signFirst_cons t hc.1)

end IsPassage

/-! ### Texts of types -/

section

variable {keys : List Text}

theorem isPassage_mark (optional : Bool) : IsPassage keys (printMark optional) := by
  cases optional with
  | false => exact IsPassage.nil
  | true => exact IsPassage.nil.sign (by decide)

theorem signFirst_mark (optional : Bool) {t : Text} (ht : SignFirst t) :
    SignFirst (printMark optional ++ t) := by
  cases optional with
  | false => exact ht
  | true => exact signFirst_cons t (by decide)

theorem isPassage_trailing (closed : Bool) : IsPassage keys (printTrailing closed) := by
  cases closed with
  | false => exact IsPassage.nil
  | true => exact IsPassage.nil.sign (by decide)

theorem signFirst_trailing (closed : Bool) : SignFirst (printTrailing closed ++ [' ']) := by
  cases closed with
  | false => exact signFirst_cons _ (by decide)
  | true => exact signFirst_cons _ (by decide)

theorem isPassage_separated {separator : Char} (hs : IsJoint separator) {ts : List Text}
    (h : ∀ t ∈ ts, IsPassage keys t) : IsPassage keys (separated separator ts) :=
  separated_induction IsPassage.nil h fun t ht _ hu =>
    (h t ht).append_sign hs (hu.sign (by decide))

theorem TypedName.isPassage {f : TypedName} (hname : f.name.text ∉ keys)
    (htype : IsPassage keys f.type) : IsPassage keys f.print := by
  have hcolon : SignFirst (':' :: ' ' :: f.type) := signFirst_cons _ (by decide)
  have htyped : IsPassage keys (':' :: ' ' :: f.type) := htype.signs [':', ' '] (by decide)
  exact (IsPassage.word f.name hname).append ((isPassage_mark f.optional).append htyped hcolon)
    (signFirst_mark f.optional hcolon)

theorem isPassage_typedNames {separator : Char} (hs : IsJoint separator) {fs : List TypedName}
    (hnames : ∀ f ∈ fs, f.name.text ∉ keys) (h : ∀ f ∈ fs, IsPassage keys f.type) :
    IsPassage keys (separated separator (fs.map TypedName.print)) := by
  refine isPassage_separated hs fun t ht => ?_
  obtain ⟨f, hf, rfl⟩ := List.mem_map.mp ht
  exact TypedName.isPassage (hnames f hf) (h f hf)

/-- A type is a passage if its identifiers are no keywords. -/
theorem IsTypeText.isPassage (hkeys : "extends".toList ∉ keys) {t : Text}
    (h : IsTypeText keys t) : IsPassage keys t := by
  induction h with
  | name n free => exact IsPassage.word n free
  | literal l => exact IsPassage.literal l
  | generic n free _ ih =>
      refine (IsPassage.word n free).append_sign (by decide) ?_
      exact (isPassage_separated (by decide) ih).append_sign (by decide) IsPassage.nil
  | array _ ih =>
      exact ih.append (IsPassage.nil.signs ['[', ']'] (by decide)) (signFirst_cons _ (by decide))
  | tuple _ ih =>
      refine IsPassage.sign ?_ (by decide)
      exact (isPassage_separated (by decide) ih).append_sign (by decide) IsPassage.nil
  | empty => exact IsPassage.nil.braced
  | @object fields free _ closed ih =>
      have hfields : IsPassage keys (separated ';' (fields.map TypedName.print)) :=
        isPassage_typedNames (by decide) free ih
      have hspace : IsPassage keys [' '] := IsPassage.nil.sign (by decide)
      have hend : IsPassage keys (printTrailing closed ++ [' ']) :=
        (isPassage_trailing closed).append hspace (signFirst_cons _ (by decide))
      have hinner := (hfields.append hend (signFirst_trailing closed)).sign (c := ' ') (by decide)
      simpa using hinner.braced
  | @function parameters free _ _ _ ih hresult =>
      have hparameters : IsPassage keys (separated ',' (parameters.map TypedName.print)) :=
        isPassage_typedNames (by decide) free ih
      refine IsPassage.sign (hparameters.append_sign (by decide) ?_) (by decide)
      exact hresult.signs [' ', '=', '>', ' '] (by decide)
  | union _ _ hleft hright =>
      exact hleft.append_sign (by decide) (hright.signs ['|', ' '] (by decide))
  | intersection _ _ hleft hright =>
      exact hleft.append_sign (by decide) (hright.signs ['&', ' '] (by decide))
  | conditional _ _ _ _ hchecked hbound hpositive hnegative =>
      refine hchecked.append_sign (by decide) ?_
      refine (IsPassage.word ⟨"extends".toList, by decide⟩ hkeys).append_sign (by decide) ?_
      refine hbound.append_sign (by decide) ?_
      refine IsPassage.signs ['?', ' '] (by decide) ?_
      exact hpositive.append_sign (by decide) (hnegative.signs [':', ' '] (by decide))

/-- A printed type is a passage if its identifiers are no keywords. -/
theorem TypeExpr.isPassage (hkeys : "extends".toList ∉ keys) (t : TypeExpr)
    (h : ∀ n ∈ t.names, n ∉ keys) : IsPassage keys t.print :=
  (t.isTypeText h).isPassage hkeys

end

end ComponentProps
