import ComponentProps.Proofs.SignatureScan

/-!
# Method signatures

A method is a name with a signature: perhaps type parameters, then parameters, then perhaps a result
type. The scanner takes the signature up as a whole, and a second reader, which minds only round
brackets, finds the parameters in it. The two agree unless a round bracket stands among the type
parameters: the parameters are then taken to end with the bracket that closes it.
-/

namespace ComponentProps

open Text

/-! ### The first round bracket -/

/-- The quote of the literal that a region lies in. -/
def Region.quote : Region → OpenQuote
  | literal quote => some quote
  | _ => none

/-- Where there are no comments, quotes alone tell literals from code. -/
theorem Region.quote_read {region next : Region} {role : Role} {behind rest : Text} {c : Char}
    (h : region.IsCommentFree) (hread : region.read behind c rest = (role, next))
    (hrole : role ≠ .comment) :
    region.quote.next behind c = next.quote ∧
      region.quote.covers behind c = (role == .literal) := by
  cases region with
  | code =>
      simp only [read] at hread
      split at hread
      · rename_i hquote
        obtain ⟨rfl, rfl⟩ := Prod.mk.inj hread
        simp only [Bool.and_eq_true, Bool.not_eq_true'] at hquote
        simp [quote, OpenQuote.covers, OpenQuote.next, OpenQuote.feed, hquote]
      · rename_i hquote
        split at hread
        · exact absurd (Prod.mk.inj hread).1.symm hrole
        · obtain ⟨rfl, rfl⟩ := Prod.mk.inj hread
          have hnext : OpenQuote.next none behind c = none := by
            rw [OpenQuote.next, OpenQuote.feed, if_pos]
            simpa [imp_iff_not_or] using hquote
          exact ⟨hnext, by simp [quote, OpenQuote.covers, hnext]⟩
  | literal open' =>
      obtain ⟨rfl, rfl⟩ := Prod.mk.inj hread
      refine ⟨?_, rfl⟩
      have hquote : isQuote open' = true := h
      by_cases hc : c = open'
      · subst hc
        cases hescaped : isEscaped behind <;>
          simp [quote, OpenQuote.next, OpenQuote.feed, hquote, hescaped]
      · simp [quote, OpenQuote.next, OpenQuote.feed, hc, Ne.symm hc]
  | lineComment | blockOpening | blockComment | blockClosing => contradiction

/-- The round brackets still to come behind a code character. -/
theorem Bracket.count_await? {awaited awaited' : List Char} {behind : Text} {c : Char}
    (h : await? awaited behind c = some awaited') :
    (c = '(' → awaited'.count ')' = awaited.count ')' + 1) ∧
      (c = ')' → awaited.count ')' = awaited'.count ')' + 1) ∧
      (c ≠ '(' → c ≠ ')' → awaited'.count ')' = awaited.count ')') := by
  rcases await?_cases h with ⟨close, hopen, rfl⟩ | ⟨hopen, hb, rfl⟩ | ⟨hopen, hb, rfl⟩
  · refine ⟨?_, ?_, ?_⟩
    · rintro rfl
      obtain rfl := Option.some.inj hopen
      exact List.count_cons_self
    · rintro rfl
      contradiction
    · intro hne _
      have hclose : close ≠ ')' := by
        rintro rfl
        unfold closer? at hopen
        split at hopen <;> simp at hopen
        exact hne rfl
      exact List.count_cons_of_ne hclose
  · refine ⟨?_, ?_, ?_⟩
    · rintro rfl
      contradiction
    · rintro rfl
      exact List.count_cons_self
    · intro _ hne
      exact (List.count_cons_of_ne hne).symm
  · refine ⟨?_, ?_, fun _ _ => rfl⟩
    · rintro rfl
      contradiction
    · rintro rfl
      contradiction

section

variable {awaited awaited' : List Char} {region region' : Region} {behind t : Text}

/-- Without a round bracket in its code a text does not wait for one. -/
theorem count_awaited? (h : awaited? awaited region behind t = some (awaited', region'))
    (hbefore : awaited.count ')' = 0) (hround : ('(', Role.code) ∉ region.roles behind t) :
    awaited'.count ')' = 0 := by
  induction t generalizing awaited region behind with
  | nil =>
      obtain ⟨rfl, -⟩ := Prod.mk.inj (Option.some.inj h)
      exact hbefore
  | cons c t ih =>
      obtain ⟨role, next, awaited₁, hread, hstep, hrest⟩ := exists_of_awaited?_cons h
      simp only [Region.roles, hread, List.mem_cons, not_or, Prod.mk.injEq, not_and] at hround
      refine ih hrest ?_ hround.2
      rcases Bracket.awaitAs?_cases hstep with ⟨rfl, rfl⟩ | ⟨rfl, hawait⟩
      · exact hbefore
      · obtain ⟨-, hclose, hother⟩ := Bracket.count_await? hawait
        have hne : c ≠ ')' := by
          rintro rfl
          rw [hclose rfl] at hbefore
          contradiction
        exact (hother (fun heq => hround.1 heq.symm rfl) hne).trans hbefore

/-- A text with a round bracket in its code has a first one. -/
theorem exists_first_round (h : awaited? awaited region behind t = some (awaited', region'))
    (hmem : ('(', Role.code) ∈ region.roles behind t) (hregion : region.IsCommentFree) :
    ∃ front rest awaited₁, t = front ++ '(' :: rest ∧
      ('(', Role.code) ∉ region.roles behind front ∧
      awaited? awaited region behind front = some (awaited₁, .code) ∧
      awaited? (')' :: awaited₁) .code ('(' :: (front.reverse ++ behind)) rest =
        some (awaited', region') := by
  induction t generalizing awaited region behind with
  | nil => simp at hmem
  | cons c t ih =>
      obtain ⟨role, next, awaited₁, hread, hstep, hrest⟩ := exists_of_awaited?_cons h
      by_cases hfirst : c = '(' ∧ role = .code
      · obtain ⟨rfl, rfl⟩ := hfirst
        obtain rfl := Region.eq_code_of_isCommentFree hregion hread
        obtain rfl := Region.read_code hread
        obtain rfl := Option.some.inj hstep
        exact ⟨[], t, awaited, rfl, by simp, rfl, hrest⟩
      · have hnot : ¬ ('(', Role.code) = (c, role) := fun heq =>
          hfirst ⟨(Prod.mk.inj heq).1.symm, (Prod.mk.inj heq).2.symm⟩
        have hlater : ('(', Role.code) ∈ next.roles (c :: behind) t := by
          rw [Region.roles, hread] at hmem
          exact (List.mem_cons.mp hmem).resolve_left hnot
        have hnext := Region.isCommentFree_read hregion hread (Bracket.awaitAs?_ne_comment hstep)
        obtain ⟨front, rest, awaited₂, rfl, hnone, hfront, hrest⟩ := ih hrest hlater hnext
        rw [Region.read_before (endsSlash_cons (by decide) rest)] at hread
        refine ⟨c :: front, rest, awaited₂, rfl, ?_, ?_, by simpa using hrest⟩
        · rw [Region.roles, hread]
          exact fun hmem => (List.mem_cons.mp hmem).elim hnot hnone
        · rw [awaited?_cons_of_read hread hstep, hfront]

end

namespace Member

/-! ### The end of the parameters -/

/-- The search for the end of the parameters passes over a text within round brackets, and over one
that has none. -/
theorem splitParametersFrom?_pass {awaited awaited' : List Char} {region region' : Region}
    {behind t : Text} (base : Nat) (hregion : region.IsCommentFree)
    (h : awaited? awaited region behind t = some (awaited', region'))
    (hbase : base ≠ 0 ∨ awaited.count ')' = 0 ∧ ('(', Role.code) ∉ region.roles behind t)
    (rest : Text) :
    splitParametersFrom? region.quote (awaited.count ')' + base) behind (t ++ rest) =
      (splitParametersFrom? region'.quote (awaited'.count ')' + base) (t.reverse ++ behind)
        rest).map fun p => (t ++ p.1, p.2) := by
  induction t generalizing awaited region behind with
  | nil =>
      obtain ⟨rfl, rfl⟩ := Prod.mk.inj (Option.some.inj h)
      simp
  | cons c t ih =>
      obtain ⟨role, next, awaited₁, hread, hstep, hrest⟩ := exists_of_awaited?_cons h
      have hrole := Bracket.awaitAs?_ne_comment hstep
      obtain ⟨hquote, hcovers⟩ := Region.quote_read hregion hread hrole
      -- A character that is kept is put in front of what is found behind it.
      have hkeep : base ≠ 0 ∨ awaited₁.count ')' = 0 ∧
            ('(', Role.code) ∉ next.roles (c :: behind) t →
          (splitParametersFrom? (region.quote.next behind c) (awaited₁.count ')' + base)
              (c :: behind) (t ++ rest)).map (fun p => (c :: p.1, p.2)) =
            (splitParametersFrom? region'.quote (awaited'.count ')' + base)
              ((c :: t).reverse ++ behind) rest).map fun p => (c :: t ++ p.1, p.2) := by
        intro hbase'
        rw [hquote, ih (Region.isCommentFree_read hregion hread hrole) hrest hbase',
          Option.map_map]
        simp [Function.comp_def]
      have hlater : ('(', Role.code) ∉ region.roles behind (c :: t) →
          ('(', Role.code) ∉ next.roles (c :: behind) t := by
        intro hround hmem
        rw [Region.roles, hread] at hround
        exact hround (List.mem_cons_of_mem _ hmem)
      simp only [List.cons_append, splitParametersFrom?, hcovers]
      rcases Bracket.awaitAs?_cases hstep with ⟨rfl, rfl⟩ | ⟨rfl, hawait⟩
      · exact hkeep (hbase.imp_right fun hnone => ⟨hnone.1, hlater hnone.2⟩)
      · obtain ⟨hopens, hcloses, hother⟩ := Bracket.count_await? hawait
        have hcode : (Role.code == Role.literal) = false := rfl
        simp only [hcode, Bool.false_eq_true, if_false]
        by_cases hopen : c = '('
        · have hdeep : base ≠ 0 := by
            refine hbase.resolve_right fun hnone => hnone.2 ?_
            rw [Region.roles, hread, hopen]
            exact List.mem_cons_self
          have hdepth : awaited.count ')' + base + 1 = awaited₁.count ')' + base := by
            rw [hopens hopen]
            omega
          rw [if_pos hopen, hdepth]
          exact hkeep (.inl hdeep)
        · rw [if_neg hopen]
          by_cases hclose : c = ')'
          · have hcount := hcloses hclose
            have hdeep : base ≠ 0 := hbase.resolve_right fun hnone => by omega
            have hdepth : awaited.count ')' + base - 1 = awaited₁.count ')' + base := by omega
            rw [if_pos hclose, if_neg (by omega), hdepth]
            exact hkeep (.inl hdeep)
          · have hcount := hother hopen hclose
            rw [if_neg hclose, ← hcount]
            refine hkeep (hbase.imp_right fun hnone => ?_)
            exact ⟨hcount.trans hnone.1, hlater hnone.2⟩

/-- The parameters end with the bracket that closes the first round bracket. -/
theorem splitParametersFrom?_first {front inner : Text} {awaited : List Char}
    (hfront : awaited? [] .code [] front = some (awaited, .code))
    (hround : ('(', Role.code) ∉ Region.code.roles [] front) (hinner : IsMatched inner)
    (rest : Text) :
    splitParametersFrom? none 0 [] (front ++ '(' :: (inner ++ ')' :: rest)) =
      some (front ++ '(' :: (inner ++ [')']), rest) := by
  have hcode : Region.code.IsCommentFree := trivial
  have hcount : awaited.count ')' = 0 := count_awaited? hfront rfl hround
  have hinside : awaited? [] .code ('(' :: front.reverse) inner = some ([], .code) :=
    (isMatched_behind (by decide) front.reverse inner).mpr hinner
  have hpass : splitParametersFrom? none 0 [] (front ++ '(' :: (inner ++ ')' :: rest)) =
      (splitParametersFrom? none (awaited.count ')' + 0) (front.reverse ++ [])
        ('(' :: (inner ++ ')' :: rest))).map fun p => (front ++ p.1, p.2) :=
    splitParametersFrom?_pass 0 hcode hfront (.inr ⟨rfl, hround⟩) _
  have hopen : ∀ behind t, splitParametersFrom? none 0 behind ('(' :: t) =
      (splitParametersFrom? none 1 ('(' :: behind) t).map fun p => ('(' :: p.1, p.2) :=
    fun behind t => rfl
  have hpass' : splitParametersFrom? none 1 ('(' :: front.reverse) (inner ++ ')' :: rest) =
      (splitParametersFrom? none 1 (inner.reverse ++ '(' :: front.reverse) (')' :: rest)).map
        fun p => (inner ++ p.1, p.2) :=
    splitParametersFrom?_pass 1 hcode hinside (.inl Nat.one_ne_zero) _
  have hclose : ∀ behind, splitParametersFrom? none 1 behind (')' :: rest) = some ([')'], rest) :=
    fun behind => rfl
  rw [hpass, hcount, List.append_nil, hopen, hpass', hclose]
  rfl

/-! ### The function type of a signature -/

theorem head?_trim (t : Text) : (trim t).head? = firstVisible? t := by
  induction t with
  | nil => rfl
  | cons c t ih =>
      cases hc : isWhite c with
      | true => simpa [firstVisible?, trim, trimStart, hc] using ih
      | false => simp [firstVisible?, trim, trimStart, trimEnd_cons, hc]

theorem functionType_ne_nil {signature : Text} (h : signature ≠ []) :
    functionType signature ≠ [] := by
  unfold functionType
  split
  · exact h
  · split
    · simp
    · simp
    · exact h

/-- Parameters are found to end too early among type parameters: the function type is not that of
the whole signature. -/
theorem functionType_early {parameters front rest result : Text} {c : Char}
    (hsplit : splitParametersFrom? none 0 [] (parameters ++ (front ++ c :: rest)) =
      some (parameters, front ++ c :: rest)) (hc : isWhite c = false) (hresult : rest ≠ result) :
    functionType (parameters ++ (front ++ c :: rest)) ≠ parameters ++ (front ++ c :: result) := by
  have hfirst : ∀ t, firstVisible? (front ++ c :: t) = firstVisible? (front ++ [c]) := by
    intro t
    simp [firstVisible?, List.find?_append, hc]
  intro heq
  rw [functionType, hsplit] at heq
  dsimp only at heq
  split at heq
  · rename_i hnil
    have hvisible := head?_trim (front ++ c :: rest)
    simp [hnil, firstVisible?, hc] at hvisible
  · rename_i more hcolon
    have hvisible := head?_trim (front ++ c :: rest)
    rw [hcolon, hfirst, ← hfirst result] at hvisible
    rw [List.append_assoc, List.append_cancel_left_eq] at heq
    have harrow : firstVisible? (" => ".toList ++ trim more) = some '=' := rfl
    rw [← heq, harrow] at hvisible
    simp at hvisible
  · rw [List.append_cancel_left_eq, List.append_cancel_left_eq, List.cons.injEq] at heq
    exact hresult heq.2

/-! ### Methods -/

/-- A text on one line whose brackets are matched. -/
structure MatchedLine where
  text : Text
  matched : IsMatched text
  oneLine : '\n' ∉ text

/-- What stands between the angle brackets of a signature: the bracket behind it is not that of an
arrow, and nothing in it ends the member. -/
structure TypeParameters extends MatchedLine where
  noArrow : text.getLast? ≠ some '='
  unbroken : isUnbroken ⟨0, 1⟩ .code 0 [] text = true

structure Method where
  name : Identifier
  optional : Bool
  generics : Option TypeParameters
  parameters : MatchedLine
  result : Option TypeExpr

namespace TypeParameters

variable (g : TypeParameters)

def print : Text := '<' :: (g.text ++ ['>'])

theorem isMatched_print : IsMatched g.print := by
  have hinside : awaited? [] .code ['<'] g.text = some ([], .code) :=
    (isMatched_behind (by decide) [] g.text).mpr g.matched
  have hopen : awaited? [] .code [] g.print = awaited? ['>'] .code ['<'] (g.text ++ ['>']) := rfl
  have hclose := bracket_of_close_angle g.noArrow []
  rw [List.reverse_cons, List.append_nil] at hclose
  have hwait : awaited? ['>'] .code ['<'] g.text = some (['>'], .code) :=
    awaited?_below hinside ['>']
  have hstep : Bracket.await? ['>'] (g.text.reverse ++ ['<']) '>' = some [] :=
    Bracket.await?_closing rfl (by rw [hclose]; rfl)
  have hlast : awaited? ['>'] .code (g.text.reverse ++ ['<']) ['>'] = some ([], .code) :=
    awaited?_cons_of_read (Region.read_plain (by decide) _ []) hstep
  rw [IsMatched, hopen, awaited?_append (endsSlash_cons (by decide) []), hwait]
  exact hlast

/-- The round brackets of type parameters are those of their text. -/
theorem round_mem_print :
    ('(', Role.code) ∈ Region.code.roles [] g.print ↔
      ('(', Role.code) ∈ Region.code.roles [] g.text := by
  have hbehind : Region.code.roles ['<'] g.text = Region.code.roles [] g.text :=
    Region.roles_behind (by decide) .code [] g.text
  rw [print, Region.roles_plain_cons (by decide),
    Region.roles_append (endsSlash_cons (by decide) []), hbehind]
  simp [Region.roles]

/-- Where type parameters have a round bracket, the bracket that closes the first one stands among
them too. -/
theorem exists_first_group (h : ('(', Role.code) ∈ Region.code.roles [] g.text) :
    ∃ front inner more awaited,
      g.print = front ++ '(' :: (inner ++ ')' :: (more ++ ['>'])) ∧
      awaited? [] .code [] front = some (awaited, .code) ∧
      ('(', Role.code) ∉ Region.code.roles [] front ∧ IsMatched inner := by
  have hcode : Region.code.IsCommentFree := trivial
  obtain ⟨front, tail, awaited, hprint, hnone, hfront, htail⟩ :=
    exists_first_round g.isMatched_print (g.round_mem_print.mpr h) hcode
  have hopened : awaited? ([] ++ ')' :: awaited) .code ('(' :: (front.reverse ++ [])) tail =
      some ([], .code) := htail
  obtain ⟨inner, rest, rfl, hinner, -, -⟩ := exists_match (by decide) hopened (Nat.zero_le _)
  have hmatched : IsMatched inner := (isMatched_behind (by decide) _ inner).mp hinner
  have hlast : g.print.getLast? = some '>' := by simp [print, List.getLast?_cons]
  rw [hprint] at hlast
  rcases List.eq_nil_or_concat rest with rfl | ⟨more, e, rfl⟩
  · simp [List.getLast?_cons] at hlast
  · obtain rfl : e = '>' := by simpa [List.getLast?_cons] using hlast
    rw [List.concat_eq_append] at hprint
    exact ⟨front, inner, more, awaited, hprint, hfront, hnone, hmatched⟩

end TypeParameters

namespace Method

def printGenerics : Option TypeParameters → Text
  | none => []
  | some g => g.print

def printResult : Option TypeExpr → Text
  | none => []
  | some r => ':' :: ' ' :: r.print

/-- The result type, which is `any` if none is written. -/
def resultType : Option TypeExpr → Text
  | none => "any".toList
  | some r => r.print

variable (m : Method)

/-- The type parameters and the parameters. -/
def head : Text := printGenerics m.generics ++ '(' :: (m.parameters.text ++ [')'])

def signature : Text := m.head ++ printResult m.result

def print : Text := m.name.text ++ (printMark m.optional ++ (m.signature ++ [';']))

/-- The function type that a method stands for. -/
def type : Text := m.head ++ (" => ".toList ++ resultType m.result)

theorem signature_eq : m.signature =
    printGenerics m.generics ++ '(' :: (m.parameters.text ++ ')' :: printResult m.result) := by
  simp [signature, head]

theorem type_eq : m.type = printGenerics m.generics ++
    '(' :: (m.parameters.text ++ ')' :: (" => ".toList ++ resultType m.result)) := by
  simp [type, head]

theorem exists_signature_cons : ∃ c rest, m.signature = c :: rest ∧ (c = '(' ∨ c = '<') := by
  rw [signature_eq]
  cases m.generics with
  | none => exact ⟨_, _, rfl, .inl rfl⟩
  | some g => exact ⟨_, _, rfl, .inr rfl⟩

theorem trim_printResult (result : Option TypeExpr) :
    trim (printResult result) = printResult result := by
  cases result with
  | none => rfl
  | some r =>
      obtain ⟨front, d, hlast, hd⟩ := r.hasTypeEnds.last
      have hconcat : printResult (some r) = (':' :: ' ' :: front) ++ [d] := by
        simp [printResult, hlast]
      exact trim_of_ends rfl (by decide) hconcat (not_isWhite_of_closesType hd)

theorem exists_signature_concat : ∃ front d, m.signature = front ++ [d] ∧ isWhite d = false := by
  rw [signature]
  cases m.result with
  | none =>
      refine ⟨printGenerics m.generics ++ '(' :: m.parameters.text, ')', ?_, by decide⟩
      simp [printResult, head]
  | some r =>
      obtain ⟨front, d, hlast, hd⟩ := r.hasTypeEnds.last
      refine ⟨m.head ++ ':' :: ' ' :: front, d, ?_, not_isWhite_of_closesType hd⟩
      simp [printResult, hlast]

theorem newline_not_mem_signature : '\n' ∉ m.signature := by
  have hgenerics : '\n' ∉ printGenerics m.generics := by
    cases m.generics with
    | none => simp [printGenerics]
    | some g => simp [printGenerics, TypeParameters.print, g.oneLine]
  have hresult : '\n' ∉ printResult m.result := by
    cases m.result with
    | none => simp [printResult]
    | some r => simp [printResult, r.isTypeText_print.newline_not_mem]
  simp [signature_eq, hgenerics, hresult, m.parameters.oneLine]

/-- The signature of a method is taken for its type as it is written. -/
theorem typeText_signature : typeText {} true m.signature = functionType m.signature := by
  obtain ⟨c, rest, hfirst, hc⟩ := m.exists_signature_cons
  obtain ⟨front, d, hlast, hd⟩ := m.exists_signature_concat
  have hwhite : isWhite c = false := by rcases hc with rfl | rfl <;> decide
  have htrim : trim m.signature = m.signature := trim_of_ends hfirst hwhite hlast hd
  have hdedent : dedent m.signature = c :: rest := by
    rw [dedent_oneLine (by rw [htrim]; exact m.newline_not_mem_signature), htrim, hfirst]
  have hplain : withoutLeadingOperator m.signature = m.signature := by
    rw [withoutLeadingOperator, hdedent, hfirst]
    rcases hc with rfl | rfl <;> rfl
  simp [typeText, hplain]

/-- Without round brackets among the type parameters the function type is found. -/
theorem functionType_signature
    (h : ∀ g ∈ m.generics, ('(', Role.code) ∉ Region.code.roles [] g.text) :
    functionType m.signature = m.type := by
  have hfront : IsMatched (printGenerics m.generics) ∧
      ('(', Role.code) ∉ Region.code.roles [] (printGenerics m.generics) := by
    cases hg : m.generics with
    | none => exact ⟨rfl, List.not_mem_nil⟩
    | some g => exact ⟨g.isMatched_print, fun hmem => h g hg (g.round_mem_print.mp hmem)⟩
  rw [signature_eq, functionType,
    splitParametersFrom?_first hfront.1 hfront.2 m.parameters.matched, type_eq]
  dsimp only
  rw [trim_printResult]
  cases m.result with
  | none => simp [printResult, resultType]
  | some r => simp [printResult, resultType, trim_space_cons, trim_of_hasTypeEnds r.hasTypeEnds]

/-- With a round bracket among the type parameters the parameters are taken to end too early. -/
theorem functionType_signature_ne {g : TypeParameters} (hg : m.generics = some g)
    (hround : ('(', Role.code) ∈ Region.code.roles [] g.text) :
    functionType m.signature ≠ m.type := by
  obtain ⟨front, inner, more, awaited, hprint, hfront, hnone, hmatched⟩ :=
    g.exists_first_group hround
  have hresult : ∀ t, '(' :: (m.parameters.text ++ ')' :: printResult m.result) ≠
      '(' :: (m.parameters.text ++ ')' :: (" => ".toList ++ t)) := by
    intro t heq
    cases hr : m.result <;> simp [printResult, hr] at heq
  have hassoc : ∀ t, front ++ '(' :: (inner ++ ')' :: (more ++ '>' :: t)) =
      (front ++ '(' :: (inner ++ [')'])) ++ (more ++ '>' :: t) := by simp
  have hgenerics : ∀ t, printGenerics m.generics ++ t =
      (front ++ '(' :: (inner ++ [')'])) ++ (more ++ '>' :: t) := by
    intro t
    rw [hg, printGenerics, hprint]
    simp
  have hsplit := splitParametersFrom?_first hfront hnone hmatched
    (more ++ '>' :: '(' :: (m.parameters.text ++ ')' :: printResult m.result))
  rw [hassoc] at hsplit
  rw [signature_eq, type_eq, hgenerics, hgenerics]
  exact functionType_early hsplit (by decide) (hresult (resultType m.result))

end Method

/-! ### Scanning a method -/

namespace Scan

variable {style : Style} {behind rest : Text} {pending : Option Text}
  {members : OrderedMap Text Member}

/-- The draft of a method whose signature is to be read. -/
def draftMethod (name : Text) (optional : Bool) : Draft :=
  { name := name, optional := optional, method := true }

/-- A name is followed by its signature, perhaps behind a question mark. -/
theorem run_mark_signature (name : Text) (optional : Bool) {c : Char} (hc : c = '(' ∨ c = '<') :
    run style ⟨⟨behind, printMark optional ++ c :: rest⟩, .name name.reverse false, pending,
        members⟩ =
      run style (inType ⟨⟨(printMark optional).reverse ++ behind, []⟩, .seeking, pending, members⟩
        (draftMethod name optional) [] .top 0 (c :: rest)) := by
  have hident : isIdentChar c = false := by rcases hc with rfl | rfl <;> decide
  have hwhite : isWhite c = false := by rcases hc with rfl | rfl <;> decide
  cases optional with
  | false =>
      have hbegin : step style ⟨⟨behind, c :: rest⟩, .name name.reverse false, pending, members⟩ =
          inType ⟨⟨behind, []⟩, .seeking, pending, members⟩ (draftMethod name false) [] .top 0
            (c :: rest) := by
        rcases hc with rfl | rfl <;>
          simp [step, stepName, hident, hwhite, beginMethod, inType, draftAt, draftMethod]
      exact (run_step (by simp)).trans (congrArg (run style) hbegin)
  | true =>
      have hmark : step style ⟨⟨behind, '?' :: c :: rest⟩, .name name.reverse false, pending,
          members⟩ = ⟨⟨'?' :: behind, c :: rest⟩, .afterMark name, pending, members⟩ := by
        have hquestion : isIdentChar '?' = false ∧ isWhite '?' = false := by decide
        rcases hc with rfl | rfl <;>
          simp [step, stepName, hquestion, hwhite, reach, firstVisible?, move, Cursor.advanceBy]
      have hbegin : step style ⟨⟨'?' :: behind, c :: rest⟩, .afterMark name, pending, members⟩ =
          inType ⟨⟨'?' :: behind, []⟩, .seeking, pending, members⟩ (draftMethod name true) [] .top
            0 (c :: rest) := by
        rcases hc with rfl | rfl <;>
          simp [step, stepAfterMark, hwhite, beginMethod, inType, draftAt, draftMethod]
      have hprint : printMark true ++ c :: rest = '?' :: c :: rest := rfl
      rw [hprint, run_step (by simp), hmark, run_step (by simp), hbegin]
      rfl

variable {s : Scan} {d : Draft} {taken : Text} {q : Nat}

theorem run_generics (generics : Option TypeParameters) :
    ∃ q, run style (inType s d [] .top 0 (Method.printGenerics generics ++ rest)) =
      run style (inType s d (Method.printGenerics generics).reverse .top q rest) := by
  cases generics with
  | none => exact ⟨0, rfl⟩
  | some g =>
      have hprint : Method.printGenerics (some g) ++ rest = '<' :: (g.text ++ '>' :: rest) := by
        simp [Method.printGenerics, TypeParameters.print]
      have hends : EndsBetween ('>' :: rest) := endsBetween_cons (by decide) rest
      obtain ⟨q, hrun⟩ : ∃ q, run style (inType s d ['<'] ⟨0, 1⟩ 0 (g.text ++ '>' :: rest)) =
          run style (inType s d (g.text.reverse ++ ['<']) ⟨0, 1⟩ q ('>' :: rest)) :=
        run_between (by decide) hends g.matched (.inr ⟨Nat.one_ne_zero, g.unbroken⟩)
      have hopen : run style (inType s d [] .top 0 ('<' :: (g.text ++ '>' :: rest))) =
          run style (inType s d ['<'] ⟨0, 1⟩ 0 (g.text ++ '>' :: rest)) := run_angle_open
      have harrow : ((g.text.reverse ++ ['<']) ++ s.cursor.behind).head? ≠ some '=' := by
        rw [List.append_assoc, List.head?_append, List.head?_reverse]
        cases hlast : g.text.getLast? with
        | none => simp
        | some c => simpa [hlast] using g.noArrow
      have hclose : run style (inType s d (g.text.reverse ++ ['<']) ⟨0, 1⟩ q ('>' :: rest)) =
          run style (inType s d ('>' :: (g.text.reverse ++ ['<'])) .top q rest) :=
        run_angle_close (n := .top) harrow
      refine ⟨q, ?_⟩
      rw [hprint, hopen, hrun, hclose]
      simp [Method.printGenerics, TypeParameters.print]

theorem run_parameters (p : MatchedLine) :
    ∃ q', run style (inType s d taken .top q ('(' :: (p.text ++ ')' :: rest))) =
      run style (inType s d (('(' :: (p.text ++ [')'])).reverse ++ taken) .top q' rest) := by
  have hends : EndsBetween (')' :: rest) := endsBetween_cons (by decide) rest
  obtain ⟨q', hrun⟩ : ∃ q', run style (inType s d ('(' :: taken) ⟨1, 0⟩ q (p.text ++ ')' :: rest)) =
      run style (inType s d (p.text.reverse ++ '(' :: taken) ⟨1, 0⟩ q' (')' :: rest)) :=
    run_between (by decide) hends p.matched (.inl Nat.one_ne_zero)
  have hopen : run style (inType s d taken .top q ('(' :: (p.text ++ ')' :: rest))) =
      run style (inType s d ('(' :: taken) ⟨1, 0⟩ q (p.text ++ ')' :: rest)) := run_open (by simp)
  have hclose : run style (inType s d (p.text.reverse ++ '(' :: taken) ⟨1, 0⟩ q' (')' :: rest)) =
      run style (inType s d (')' :: (p.text.reverse ++ '(' :: taken)) .top q' rest) :=
    run_close (n := .top) (by simp)
  refine ⟨q', ?_⟩
  rw [hopen, hrun, hclose]
  simp

/-- A result type is taken up with its colon, which may seem to close a conditional. -/
theorem run_result (result : Option TypeExpr) (hends : EndsType rest) :
    ∃ q', run style (inType s d taken .top q (Method.printResult result ++ rest)) =
      run style (inType s d ((Method.printResult result).reverse ++ taken) .top q' rest) := by
  cases result with
  | none => exact ⟨q, rfl⟩
  | some r =>
      have hgoes : ¬ Separates .top ':' := not_separates_of_ne (by decide)
      have hcolon : run style (inType s d taken .top q (':' :: ' ' :: (r.print ++ rest))) =
          run style (inType s d (':' :: taken) .top (conditionalsAfter .top q ':')
            (' ' :: (r.print ++ rest))) :=
        run_punctuation (by decide) (stepTypeCode_of_not_separates rfl hgoes)
      refine ⟨conditionalsAfter .top q ':', ?_⟩
      have hprint : Method.printResult (some r) ++ rest = ':' :: ' ' :: (r.print ++ rest) := rfl
      rw [hprint, hcolon, run_space,
        isTaken_typeText r.isTypeText_print s d _ _ _ rest (by simp) fun _ _ => hends]
      simp [Method.printResult]

/-- The signature of a method is taken up as a whole. -/
theorem run_signature (m : Method) (hends : EndsType rest) :
    ∃ q, run style (inType s d [] .top 0 (m.signature ++ rest)) =
      run style (inType s d m.signature.reverse .top q rest) := by
  have hprint : m.signature ++ rest = Method.printGenerics m.generics ++
      '(' :: (m.parameters.text ++ ')' :: (Method.printResult m.result ++ rest)) := by
    simp [Method.signature_eq]
  obtain ⟨q₁, hgenerics⟩ : ∃ q, run style (inType s d [] .top 0 (Method.printGenerics m.generics ++
        '(' :: (m.parameters.text ++ ')' :: (Method.printResult m.result ++ rest)))) =
      run style (inType s d (Method.printGenerics m.generics).reverse .top q
        ('(' :: (m.parameters.text ++ ')' :: (Method.printResult m.result ++ rest)))) :=
    run_generics m.generics
  obtain ⟨q₂, hparameters⟩ : ∃ q, run style (inType s d (Method.printGenerics m.generics).reverse
        .top q₁ ('(' :: (m.parameters.text ++ ')' :: (Method.printResult m.result ++ rest)))) =
      run style (inType s d (('(' :: (m.parameters.text ++ [')'])).reverse ++
        (Method.printGenerics m.generics).reverse) .top q (Method.printResult m.result ++ rest)) :=
    run_parameters m.parameters
  have hhead : ('(' :: (m.parameters.text ++ [')'])).reverse ++
      (Method.printGenerics m.generics).reverse = m.head.reverse := by simp [Method.head]
  obtain ⟨q₃, hresult⟩ : ∃ q, run style (inType s d m.head.reverse .top q₂
        (Method.printResult m.result ++ rest)) =
      run style (inType s d ((Method.printResult m.result).reverse ++ m.head.reverse) .top q
        rest) := run_result m.result hends
  refine ⟨q₃, ?_⟩
  rw [hprint, hgenerics, hparameters, hhead, hresult, Method.signature, List.reverse_append]

/-- The state within the signature of a method that stands alone. -/
def inSignature (m : Method) (taken : Text) (q : Nat) (ahead : Text) : Scan :=
  inType ⟨⟨(printMark m.optional).reverse ++ m.name.text.reverse, []⟩, .seeking, none, .empty⟩
    (draftMethod m.name.text m.optional) taken .top q ahead

/-- A method is read up to its semicolon. -/
theorem run_method (m : Method) :
    ∃ q, run style (start m.print) = run style (inSignature m m.signature.reverse q [';']) := by
  obtain ⟨c, rest, hcons, hc⟩ := m.exists_signature_cons
  have hname : run style (start m.print) = run style ⟨⟨m.name.text.reverse ++ [],
      printMark m.optional ++ (m.signature ++ [';'])⟩, .name m.name.text.reverse false, none,
        .empty⟩ := run_name m.name (Or.inl rfl)
  have hbegin : run style ⟨⟨m.name.text.reverse, printMark m.optional ++ (m.signature ++ [';'])⟩,
      .name m.name.text.reverse false, none, .empty⟩ =
        run style (inSignature m [] 0 (m.signature ++ [';'])) := by
    rw [hcons]
    exact run_mark_signature m.name.text m.optional hc
  obtain ⟨q, hsignature⟩ : ∃ q, run style (inSignature m [] 0 (m.signature ++ [';'])) =
      run style (inSignature m m.signature.reverse q [';']) :=
    run_signature m (endsType_sign [] (by decide))
  refine ⟨q, ?_⟩
  rw [hname, List.append_nil, hbegin, hsignature]

end Scan

theorem make?_method (m : Method) :
    make? {} m.name.text m.optional true none m.signature =
      some ⟨m.name.text, functionType m.signature, m.optional, none⟩ := by
  obtain ⟨c, more, htext, hstart, -⟩ := m.name.exists_cons
  have hc := isIdentChar_of_isIdentStart hstart
  have h1 : c ≠ '[' := ne_of_kind hc rfl
  have h2 : c ≠ '(' := ne_of_kind hc rfl
  have h3 : c ≠ '<' := ne_of_kind hc rfl
  obtain ⟨d, rest, hsignature, -⟩ := m.exists_signature_cons
  have hne : m.signature ≠ [] := by simp [hsignature]
  obtain ⟨e, type, htype⟩ := List.exists_cons_of_ne_nil (functionType_ne_nil hne)
  rw [make?, m.typeText_signature, htype]
  simp [htext, isSignatureName, h1, h2, h3]

theorem Scan.finish_inSignature (m : Method) (q : Nat) :
    ((inSignature m m.signature.reverse q []).finish {}).entries =
      [(m.name.text, ⟨m.name.text, functionType m.signature, m.optional, none⟩)] := by
  change ((inSignature m m.signature.reverse q []).complete {} _).members.entries = _
  simp only [complete, inSignature, inType, draftAt, draftMethod, List.reverse_reverse,
    make?_method]
  rfl

/-- A method is scanned as one member whose type is the function type found in its signature. -/
theorem entries_scan_method (m : Method) :
    (scan {} m.print).entries =
      [(m.name.text, ⟨m.name.text, functionType m.signature, m.optional, none⟩)] := by
  obtain ⟨q, hrun⟩ := Scan.run_method m
  have hend : Scan.run {} (Scan.inSignature m m.signature.reverse q [';']) = Scan.run {} _ :=
    Scan.run_semicolon (s := Scan.inSignature m m.signature.reverse q []) ⟨rfl, rfl⟩ []
  rw [scan, hrun, hend, Scan.run_end rfl]
  exact Scan.finish_inSignature m q

/-- A method is scanned as one member with the optional flag as written. Its type is the function
type of the method exactly if no round bracket stands among the type parameters. -/
theorem scan_method (m : Method) :
    ∃ type, (scan {} m.print).entries = [(m.name.text, ⟨m.name.text, type, m.optional, none⟩)] ∧
      (type = m.type ↔
        ∀ g ∈ m.generics, ('(', Role.code) ∉ Region.code.roles [] g.text) := by
  refine ⟨functionType m.signature, entries_scan_method m, ?_, m.functionType_signature⟩
  intro htype g hg hround
  exact m.functionType_signature_ne hg hround htype

/-- A method with a conditional type and a quoted bracket among its type parameters. -/
def lookupMethod : Method where
  name := ⟨"lookup".toList, by decide⟩
  optional := true
  generics := some
    { text := "K extends 'f(' = T extends A[] ? B : { c: D }, V".toList
      matched := by decide +kernel
      oneLine := by decide +kernel
      noArrow := by decide +kernel
      unbroken := by decide +kernel }
  parameters := ⟨"key: K, found: (value: V) => void".toList, by decide +kernel, by decide +kernel⟩
  result := some (.array (.name ⟨"V".toList, by decide⟩))

theorem scan_method_lookup :
    (scan {} ("lookup?<K extends 'f(' = T extends A[] ? B : { c: D }, V>" ++
      "(key: K, found: (value: V) => void): V[];").toList).entries =
      [("lookup".toList, ⟨"lookup".toList, ("<K extends 'f(' = T extends A[] ? B : { c: D }, V>" ++
        "(key: K, found: (value: V) => void) => V[]").toList, true, none⟩)] := by
  obtain ⟨type, hentries, htype⟩ := scan_method lookupMethod
  have hround : ∀ g ∈ lookupMethod.generics, ('(', Role.code) ∉ Region.code.roles [] g.text := by
    rintro g hg
    obtain rfl := Option.some.inj hg
    decide +kernel
  have hprint : lookupMethod.print = ("lookup?<K extends 'f(' = T extends A[] ? B : { c: D }, V>" ++
      "(key: K, found: (value: V) => void): V[];").toList := by decide +kernel
  have hfunction : lookupMethod.type = ("<K extends 'f(' = T extends A[] ? B : { c: D }, V>" ++
      "(key: K, found: (value: V) => void) => V[]").toList := by decide +kernel
  rw [htype.mpr hround, hprint, hfunction] at hentries
  exact hentries

/-- A function type as a bound: its parameters are taken for those of the method, and the signature
is left as it is. -/
theorem scan_boundedMethod :
    (scan {} "f<T extends (x: A) => B>(p: T): R;".toList).entries = [("f".toList,
      ⟨"f".toList, "<T extends (x: A) => B>(p: T): R".toList, false, none⟩)] := by
  rw [scan, ← Scan.run_iterate {} 60, Scan.run_end (by decide +kernel)]
  decide +kernel

end Member

end ComponentProps
