import ComponentProps.Proofs.PatternComposition
import ComponentProps.Proofs.Styling
import ComponentProps.Proofs.TypeSyntax

/-!
# Calls as default values

A default value may be a call with type arguments. Within a value the scanner counts round, square
and curly brackets but no angle brackets, so a comma between type arguments ends the item unless it
stands within other brackets. Whether a type shows such a comma can be read off its tree. A call
without one is taken up whole, and one with it is cut at the first.
-/

namespace ComponentProps

open Text

/-! ### Commas outside brackets -/

mutual

/-- Whether the type is written with a comma outside round, square and curly brackets. -/
def TypeExpr.opensComma : TypeExpr → Bool
  | .name _ | .literal _ | .tuple _ | .object _ _ => false
  | .generic _ arguments => typesOpenComma arguments
  | .array element => element.opensComma
  | .function _ result => result.opensComma
  | .union left right | .intersection left right => left.opensComma || right.opensComma
  | .conditional checked bound positive negative =>
    checked.opensComma || (bound.opensComma || (positive.opensComma || negative.opensComma))

/-- Two types have a comma between them. -/
def typesOpenComma : List TypeExpr → Bool
  | [] => false
  | type :: types => type.opensComma || !types.isEmpty

end

namespace Binding

/-- A call with type arguments, which may be that of a constructor. -/
structure Call where
  construct : Bool
  callee : Identifier
  types : List TypeExpr
  arguments : Text
  balanced : IsBalanced arguments

namespace Call

/-- The callee with its type arguments. -/
def printCallee (c : Call) : Text :=
  (if c.construct then "new ".toList else []) ++
    (c.callee.text ++ '<' :: (printTypes c.types ++ ['>']))

def print (c : Call) : Text := c.printCallee ++ '(' :: (c.arguments ++ [')'])

def opensComma (c : Call) : Bool := typesOpenComma c.types

end Call

/-- Some bracket is open. -/
def Depths.IsNested (d : Depths) : Prop := d.isTop = false

namespace Scan

open Depths

/-! ### Texts within a value -/

/-- Within a value, where the open brackets are such as `p` says, the text is taken up as it
stands. It does not end in a backslash. -/
structure Carries (p : Depths → Prop) (t : Text) : Prop where
  last : t.getLast? ≠ some '\\'
  run : ∀ d, p d → ∀ (name value : Text) (m : OrderedMap Text (Option Text)) (behind rest : Text),
    behind.head? ≠ some '\\' →
      run false ⟨.value, .code, d, name, value, m⟩ behind (t ++ rest) =
        run false ⟨.value, .code, d, name, t.reverse ++ value, m⟩ (t.reverse ++ behind) rest

/-- A literal is taken up to its closing quote. -/
theorem run_value_literal {quote : Char} {content : Text}
    (hcontent : ∀ c ∈ content, c ≠ quote ∧ c ≠ '\\') {behind : Text} (hb : behind.head? ≠ some '\\')
    (d : Depths) (name value : Text) (m : OrderedMap Text (Option Text)) (rest : Text) :
    run false ⟨.value, .literal quote, d, name, value, m⟩ behind (content ++ quote :: rest) =
      run false ⟨.value, .code, d, name, quote :: (content.reverse ++ value), m⟩
        (quote :: (content.reverse ++ behind)) rest := by
  induction content generalizing behind value with
  | nil => simp [run, step, stepValue, Region.read, isEscaped_of_head?_ne hb]
  | cons c content ih =>
      obtain ⟨hquote, hslash⟩ := hcontent c List.mem_cons_self
      have hnext := ih (fun d hd => hcontent d (List.mem_cons_of_mem _ hd))
        (show (c :: behind).head? ≠ some '\\' by simpa using hslash) (c :: value)
      simpa [run, step, stepValue, Region.read, hquote] using hnext

namespace Carries

variable {p : Depths → Prop} {s t : Text}

theorem nil : Carries p [] := ⟨by simp, fun _ _ _ _ _ _ _ _ => rfl⟩

theorem append (hs : Carries p s) (ht : Carries p t) : Carries p (s ++ t) := by
  refine ⟨getLast?_append_ne hs.last ht.last, fun d hd name value m behind rest hb => ?_⟩
  rw [List.append_assoc, hs.run d hd name value m behind _ hb,
    ht.run d hd name _ m _ rest (head?_reverse_append_ne hs.last hb)]
  simp

/-- A character that means nothing within a value, or a comma where it means nothing. -/
theorem flat {c : Char} (hc : IsPlain c ∧ c ≠ '\\' ∧ isBracket c = false)
    (hcomma : c = ',' → ∀ d, p d → d.IsNested) : Carries p [c] := by
  refine ⟨by simpa using hc.2.1, fun d hd name value m behind rest _ => ?_⟩
  have hstay : (c == ',' && d.isTop) = false := by
    by_cases h : c = ','
    · have hnested : d.isTop = false := hcomma h d hd
      simp [hnested]
    · simp [h]
  simp [Scan.run, step, stepValue, Region.read_plain hc.1, hstay, track_of_not_isBracket hc.2.2]

theorem flats {u : Text}
    (hu : u.all (fun c => IsPlain c ∧ c ≠ '\\' ∧ isBracket c = false ∧ c ≠ ',') = true) :
    Carries p u := by
  refine append_induction nil (fun _ _ => append) fun c hc => ?_
  obtain ⟨hplain, hslash, hbracket, hcomma⟩ := of_decide_eq_true (List.all_eq_true.mp hu c hc)
  exact flat ⟨hplain, hslash, hbracket⟩ fun h => absurd h hcomma

theorem word (n : Identifier) : Carries p n.text := by
  refine flats (List.all_eq_true.mpr fun c hc => decide_eq_true ?_)
  have hident := n.isIdentChar_of_mem hc
  have hidle := isIdle_of_isIdentChar hident
  exact ⟨hidle.1, ne_of_kind hident rfl, hidle.2.2.2, hidle.2.2.1⟩

theorem literal (l : StringLiteral) : Carries p l.print := by
  have hquote : l.quote ≠ '\\' := ne_of_kind l.isQuote rfl
  have hcontent : ∀ c ∈ l.content, c ≠ l.quote ∧ c ≠ '\\' :=
    fun c hc => ⟨(l.ne_of_mem hc).1, (l.ne_of_mem hc).2.1⟩
  refine ⟨by simpa [StringLiteral.print, List.getLast?_cons] using hquote,
    fun d _ name value m behind rest hb => ?_⟩
  have hopen : ∀ ahead, step false ⟨.value, .code, d, name, value, m⟩ behind l.quote ahead =
      ⟨.value, .literal l.quote, d, name, l.quote :: value, m⟩ := by
    simp [step, stepValue, Region.read, l.isQuote, isEscaped_of_head?_ne hb]
  have hprint : l.print ++ rest = l.quote :: (l.content ++ l.quote :: rest) := by
    simp [StringLiteral.print]
  rw [hprint, Scan.run, hopen, run_value_literal hcontent (by simpa using hquote)]
  simp [StringLiteral.print]

/-- Brackets with a text between them. -/
theorem group (ht : Carries IsNested t) {opening close : Char}
    (h : (opening, close) ∈ bracketKinds) :
    Carries p (opening :: (t ++ [close])) := by
  have hkind : IsPlain opening ∧ IsPlain close ∧ opening ≠ '\\' ∧ close ≠ '\\' ∧ opening ≠ ',' ∧
      close ≠ ',' ∧ ∀ d : Depths, (d.track opening).isTop = false ∧
        (d.track opening).track close = d := by
    simp only [bracketKinds, List.mem_cons, List.not_mem_nil, or_false, Prod.mk.injEq] at h
    rcases h with ⟨rfl, rfl⟩ | ⟨rfl, rfl⟩ | ⟨rfl, rfl⟩ <;>
      exact ⟨by decide, by decide, by decide, by decide, by decide, by decide,
        fun d => ⟨by simp [track, isTop], by simp [track]⟩⟩
  obtain ⟨hopen, hclose, hopen', hclose', hcomma, hcomma', htrack⟩ := hkind
  refine ⟨by simpa [List.getLast?_cons] using hclose', fun d _ name value m behind rest _ => ?_⟩
  have hfirst : ∀ ahead, step false ⟨.value, .code, d, name, value, m⟩ behind opening ahead =
      ⟨.value, .code, d.track opening, name, opening :: value, m⟩ := by
    simp [step, stepValue, Region.read_plain hopen, hcomma]
  have hlast : ∀ value behind, step false ⟨.value, .code, d.track opening, name, value, m⟩ behind
      close rest = ⟨.value, .code, d, name, close :: value, m⟩ := by
    simp [step, stepValue, Region.read_plain hclose, hcomma', (htrack d).2]
  have hprint : opening :: (t ++ [close]) ++ rest = opening :: (t ++ close :: rest) := by simp
  rw [hprint, Scan.run, hfirst,
    ht.run _ (htrack d).1 _ _ _ _ _ (show (opening :: behind).head? ≠ _ by simpa using hopen'),
    Scan.run, hlast]
  simp

end Carries

/-- Within brackets every type is taken up as it stands. -/
theorem typeClosed_carries : TypeClosed (Carries IsNested) where
  nil := .nil
  append := .append
  letter hc := by
    have hidle := isIdle_of_isIdentChar hc
    exact .flat ⟨hidle.1, ne_of_kind hc rfl, hidle.2.2.2⟩ fun _ _ => id
  sign hc := by
    refine .flat ?_ fun _ _ => id
    exact of_decide_eq_true (List.all_eq_true.mp (by decide : typeSigns.all
      (fun c => IsPlain c ∧ c ≠ '\\' ∧ isBracket c = false) = true) _ hc)
  arrow := .flats (by decide)
  literal := .literal
  group hkind ht := ht.group hkind
  angles _ ht := by
    have hopen : Carries IsNested ['<'] := .flats (by decide)
    have hclose : Carries IsNested ['>'] := .flats (by decide)
    exact hopen.append (ht.append hclose)

/-! ### The first comma outside brackets -/

/-- Outside brackets the text is taken up whole, or up to a comma. -/
def Settles : Bool → Text → Prop
  | false, t => Carries (fun _ => True) t
  | true, t => ∃ t₁ t₂, t = t₁ ++ ',' :: t₂ ∧ Carries (fun _ => True) t₁

theorem Settles.append {a b : Bool} {s t : Text} (hs : Settles a s) (ht : Settles b t) :
    Settles (a || b) (s ++ t) := by
  cases a with
  | true =>
      obtain ⟨s₁, s₂, rfl, hs₁⟩ := hs
      exact ⟨s₁, s₂ ++ t, by simp, hs₁⟩
  | false =>
      cases b with
      | false => exact Carries.append hs ht
      | true =>
          obtain ⟨t₁, t₂, rfl, ht₁⟩ := ht
          exact ⟨s ++ t₁, t₂, by simp, Carries.append hs ht₁⟩

theorem Settles.flats {u : Text}
    (hu : u.all (fun c => IsPlain c ∧ c ≠ '\\' ∧ isBracket c = false ∧ c ≠ ',') = true) :
    Settles false u :=
  Carries.flats hu

mutual

/-- A type is taken up whole exactly if it shows no comma outside brackets. -/
theorem settles_type : ∀ t : TypeExpr, Settles t.opensComma t.print
  | .name n => by
      rw [TypeExpr.print, TypeExpr.opensComma]
      exact Carries.word n
  | .literal l => by
      rw [TypeExpr.print, TypeExpr.opensComma]
      exact Carries.literal l
  | .generic n arguments => by
      have hword : Settles false n.text := Carries.word n
      have hopen : Settles false ['<'] := .flats (by decide)
      have hclose : Settles false ['>'] := .flats (by decide)
      have hall := hword.append (hopen.append ((settles_types arguments).append hclose))
      rw [TypeExpr.print, TypeExpr.opensComma]
      simpa using hall
  | .array element => by
      have hbrackets : Settles false ['[', ']'] := Carries.nil.group (by decide)
      rw [TypeExpr.print, TypeExpr.opensComma]
      simpa using (settles_type element).append hbrackets
  | .tuple elements => by
      rw [TypeExpr.print, TypeExpr.opensComma]
      exact (typeClosed_carries.types elements).group (by decide)
  | .object fields closed => by
      have hspace : Carries IsNested [' '] := .flats (by decide)
      have htrailing : Carries IsNested (printTrailing closed) := by
        cases closed <;> exact .flats (by decide)
      have hfields : Carries IsNested (printFields ';' fields) :=
        typeClosed_carries.fields (by decide) fields
      have hcurly : Settles false _ := (hspace.append (hfields.append
        (htrailing.append hspace))).group (show ('{', '}') ∈ _ by decide)
      rw [TypeExpr.print, TypeExpr.opensComma]
      simpa using hcurly
  | .function parameters result => by
      have hround : Settles false ('(' :: (printFields ',' parameters ++ [')'])) :=
        (typeClosed_carries.fields (by decide) parameters).group (by decide)
      have harrow : Settles false [' ', '=', '>', ' '] := .flats (by decide)
      rw [TypeExpr.print, TypeExpr.opensComma]
      simpa using hround.append (harrow.append (settles_type result))
  | .union left right => by
      have hsign : Settles false [' ', '|', ' '] := .flats (by decide)
      rw [TypeExpr.print, TypeExpr.opensComma]
      simpa using (settles_type left).append (hsign.append (settles_type right))
  | .intersection left right => by
      have hsign : Settles false [' ', '&', ' '] := .flats (by decide)
      rw [TypeExpr.print, TypeExpr.opensComma]
      simpa using (settles_type left).append (hsign.append (settles_type right))
  | .conditional checked bound positive negative => by
      have hkeyword : Settles false " extends ".toList := .flats (by decide)
      have hquestion : Settles false [' ', '?', ' '] := .flats (by decide)
      have hcolon : Settles false [' ', ':', ' '] := .flats (by decide)
      have hall := (settles_type checked).append (hkeyword.append ((settles_type bound).append
        (hquestion.append ((settles_type positive).append
          (hcolon.append (settles_type negative))))))
      rw [TypeExpr.print, TypeExpr.opensComma]
      simpa using hall

theorem settles_types : ∀ ts : List TypeExpr, Settles (typesOpenComma ts) (printTypes ts)
  | [] => by
      rw [printTypes, typesOpenComma]
      exact Carries.nil
  | t :: ts => by
      rw [printTypes, typesOpenComma]
      refine (settles_type t).append ?_
      cases ts with
      | nil =>
          rw [printMoreTypes]
          exact Carries.nil
      | cons u us =>
          rw [printMoreTypes]
          exact ⟨[], _, rfl, Carries.nil⟩

end

/-! ### Calls -/

theorem settles_callee (c : Call) : Settles c.opensComma c.printCallee := by
  have hnew : Settles false (if c.construct then "new ".toList else []) := by
    cases c.construct <;> exact .flats (by decide)
  have hword : Settles false c.callee.text := Carries.word c.callee
  have hopen : Settles false ['<'] := .flats (by decide)
  have hclose : Settles false ['>'] := .flats (by decide)
  have hall := hnew.append (hword.append (hopen.append ((settles_types c.types).append hclose)))
  rw [Call.printCallee, Call.opensComma]
  simpa using hall

/-- The arguments of a call are taken up with their brackets. -/
theorem run_arguments {t : Text} (ht : IsBalanced t) (name value : Text)
    (m : OrderedMap Text (Option Text)) (behind : Text) :
    run false ⟨.value, .code, {}, name, value, m⟩ behind ('(' :: (t ++ [')'])) =
      ⟨.value, .code, {}, name, ')' :: (t.reverse ++ '(' :: value), m⟩ := by
  have hopen : ∀ ahead, step false ⟨.value, .code, {}, name, value, m⟩ behind '(' ahead =
      ⟨.value, .code, { round := 1 }, name, '(' :: value, m⟩ := fun _ => rfl
  have hends : EndsSlash [')'] := by decide
  have hbehind : ('(' :: behind).head? ≠ some '\\' := by simp
  have htop := (atTop_iff _).mp ht.balanced
  have hroles : Region.code.roles [] (t ++ [')']) = Region.code.roles [] t ++ [(')', .code)] := by
    rw [Region.roles_append hends, ht.closed]
    rfl
  have hclosed : Region.code.after [] (t ++ [')']) = .code := by
    rw [Region.after_append hends, ht.closed]
    rfl
  have hreads : Reads { round := 1 } (Region.code.roles [] (t ++ [')'])) {} := by
    rw [hroles]
    refine ⟨?_, ?_, ?_⟩
    · rw [depthAfter?_append, show (1 : Nat) = 0 + 1 from rfl, depthAfter?_add htop.round 1]
      rfl
    · rw [depthAfter?_append, htop.square]
      rfl
    · rw [depthAfter?_append, htop.curly]
      rfl
  have hcovers : Covers (fun x => x = (',', .code) ∨ x.2 = .comment) { round := 1 }
      (Region.code.roles [] (t ++ [')'])) := by
    rw [hroles]
    intro front hfront x hx hP hreads'
    rcases List.prefix_concat_iff.mp ((List.mem_inits _ _).mp hfront) with rfl | hinner
    · obtain rfl : (')', Role.code) = x := by simpa using hx
      simp at hP
    · exact not_reads_top_of_balanced htop.round ((List.mem_inits _ _).mpr hinner) hreads'.round
  have hrun : run false ⟨.value, .code, { round := 1 }, name, '(' :: value, m⟩
      ([] ++ ('(' :: behind)) (t ++ [')'] ++ []) = _ :=
    run_value_within false hbehind endsSlash_nil ('(' :: value) hclosed hreads hcovers
  rw [List.append_nil] at hrun
  rw [run, hopen]
  simpa [run] using hrun

theorem run_default_start (x : Identifier) (t : Text) :
    run false {} [] (x.text ++ ' ' :: '=' :: ' ' :: t) =
      run false ⟨.value, .code, {}, x.text.reverse, [' '], .empty⟩
        (' ' :: '=' :: ' ' :: x.text.reverse) t := by
  have hequals : ∀ behind rest, step false ⟨.name, .code, {}, x.text.reverse, [], .empty⟩ behind
      '=' rest = ⟨.value, .code, {}, x.text.reverse, [], .empty⟩ := by
    intro behind rest
    simp [step, stepName, stepNameCode, Region.comment?, isQuote, x.ne_nil,
      show isIdentChar '=' = false by decide]
  have hspace : ∀ behind rest, step false ⟨.value, .code, {}, x.text.reverse, [], .empty⟩ behind
      ' ' rest = ⟨.value, .code, {}, x.text.reverse, [' '], .empty⟩ := fun _ _ => rfl
  rw [run_bound_name, run, step_name_space, run, hequals, run, hspace, List.append_nil]

theorem default?_visible {v : Text} (hv : isBlank v = false) :
    default? false (' ' :: v) = some (dedent v) := by
  have htrim : dedent (trim v) = dedent v := by rw [dedent, trim_trim, dedent]
  have hne : dedent v ≠ [] := by
    rw [← htrim]
    exact dedent_ne_nil (fun h => by simp [trim_eq_nil_iff.mp h] at hv) (trim_trim v)
  rw [default?, dedent_space_cons]
  cases hd : dedent v with
  | nil => exact absurd hd hne
  | cons c rest => rfl

end Scan

open Scan

theorem scan_space_cons (b : Text) : scan false (' ' :: b) = scan false b := by
  have hspace : ([' '] : Text).head? ≠ some '\\' := by simp
  have hbehind := run_behind false hspace {} [] b
  rw [List.nil_append] at hbehind
  rw [scan, run, step_name_space, hbehind, scan]

/-- A text that is taken up whole is the default value, if a comma follows it. -/
theorem scan_default (x : Identifier) {v : Text} (hv : isBlank v = false)
    (hrun : ∀ value behind, behind.head? ≠ some '\\' →
      run false ⟨.value, .code, {}, x.text.reverse, value, .empty⟩ behind v =
        ⟨.value, .code, {}, x.text.reverse, v.reverse ++ value, .empty⟩) (b : Text) :
    scan false (x.text ++ ' ' :: '=' :: ' ' :: (v ++ ',' :: b)) =
      (OrderedMap.ofList [(x.text, some (dedent v))]).extend (scan false b) := by
  have hitem : run false {} [] (x.text ++ ' ' :: '=' :: ' ' :: v) =
      ⟨.value, .code, {}, x.text.reverse, v.reverse ++ [' '], .empty⟩ := by
    rw [run_default_start, hrun _ _ (by simp)]
  have hsettled : (run false {} [] (x.text ++ ' ' :: '=' :: ' ' :: v)).IsSettled := by
    rw [hitem]
    exact ⟨rfl, rfl, nofun⟩
  have hscan : scan false (x.text ++ ' ' :: '=' :: ' ' :: v) =
      OrderedMap.ofList [(x.text, some (dedent v))] := by
    rw [scan, hitem]
    simp [complete, x.ne_nil, default?_visible hv]
    rfl
  have hcomma := scan_append_comma false hsettled b
  rw [hscan] at hcomma
  simpa using hcomma

namespace Call

variable (c : Call)

theorem printCallee_cons : ∃ d rest, c.printCallee = d :: rest ∧ isIdentStart d = true := by
  obtain ⟨d, rest, hcallee, hd, -⟩ := c.callee.exists_cons
  cases hnew : c.construct with
  | true => exact ⟨'n', _, by simp [printCallee, hnew]; rfl, by decide⟩
  | false => exact ⟨d, _, by simp [printCallee, hnew, hcallee]; rfl, hd⟩

theorem visible_of_prefix {v rest : Text} {d : Char} (hv : c.printCallee = v ++ d :: rest)
    (hd : isIdentStart d = false) : isBlank v = false := by
  obtain ⟨e, more, hcallee, he⟩ := c.printCallee_cons
  cases v with
  | nil =>
      obtain ⟨rfl, -⟩ := List.cons.inj (hcallee.symm.trans hv)
      simp [he] at hd
  | cons a v =>
      obtain ⟨rfl, -⟩ := List.cons.inj (hcallee.symm.trans hv)
      rw [isBlank_cons, not_isWhite_of_isIdentChar (isIdentChar_of_isIdentStart he)]
      rfl

theorem trim_print : trim c.print = c.print := by
  obtain ⟨d, rest, hcallee, hd⟩ := c.printCallee_cons
  have hwhite := not_isWhite_of_isIdentChar (isIdentChar_of_isIdentStart hd)
  have hlast : c.print = (c.printCallee ++ '(' :: c.arguments) ++ [')'] := by simp [print]
  exact trim_of_ends (by rw [print, hcallee, List.cons_append]) hwhite hlast (by decide)

theorem dedent_print (h : '\n' ∉ c.arguments) : dedent c.print = c.print := by
  have htypes := typeClosed_newline_not_mem.types c.types
  have hname := typeClosed_newline_not_mem.word c.callee
  have hnew : '\n' ∉ (if c.construct then "new ".toList else []) := by
    cases c.construct <;> decide
  have hprint : '\n' ∉ trim c.print := by
    rw [c.trim_print]
    simp only [print, printCallee, List.mem_append, List.mem_cons, hnew, hname, htypes, h]
    decide
  rw [dedent_oneLine hprint, c.trim_print]

end Call

/-- A call with type arguments is the default value of an item whole if no comma between them stands
outside other brackets, and otherwise up to the first such comma. What follows the comma is scanned
as it is scanned alone, and its bindings are entered over that of the item. -/
theorem scan_call (x : Identifier) (c : Call) :
    (c.opensComma = false → ∀ b,
      scan false (x.text ++ ' ' :: '=' :: ' ' :: (c.print ++ ',' :: ' ' :: b)) =
        (OrderedMap.ofList [(x.text, some (dedent c.print))]).extend (scan false b)) ∧
    (c.opensComma = true → ∃ v₁ v₂, c.print = v₁ ++ ',' :: v₂ ∧ ∀ b,
      scan false (x.text ++ ' ' :: '=' :: ' ' :: (c.print ++ ',' :: ' ' :: b)) =
        (OrderedMap.ofList [(x.text, some (dedent v₁))]).extend
          (scan false (v₂ ++ ',' :: ' ' :: b))) ∧
    ('\n' ∉ c.arguments → dedent c.print = c.print) := by
  have hcallee := settles_callee c
  refine ⟨fun hcomma b => ?_, fun hcomma => ?_, c.dedent_print⟩
  · rw [hcomma] at hcallee
    have hvisible : isBlank c.print = false := by
      refine Bool.eq_false_iff.mpr fun hblank => ?_
      have hnil : c.print = [] := c.trim_print ▸ trim_eq_nil_iff.mpr hblank
      simp [Call.print] at hnil
    rw [scan_default x hvisible, scan_space_cons]
    intro value behind hb
    rw [Call.print, hcallee.run {} trivial _ _ _ _ _ hb, run_arguments c.balanced]
    simp
  · rw [hcomma] at hcallee
    obtain ⟨v₁, v₂, hsplit, hv₁⟩ := hcallee
    have hprint : c.print = v₁ ++ ',' :: (v₂ ++ '(' :: (c.arguments ++ [')'])) := by
      simp [Call.print, hsplit]
    refine ⟨v₁, _, hprint, fun b => ?_⟩
    rw [hprint, List.append_assoc, List.cons_append]
    refine scan_default x (c.visible_of_prefix hsplit (by decide)) (fun value behind hb => ?_) _
    have hrun := hv₁.run {} trivial x.text.reverse value .empty behind [] hb
    rwa [List.append_nil] at hrun

/-- A set of pairs, built from a list with a bracket in a literal. -/
def pairSet : Call where
  construct := true
  callee := ⟨"Set".toList, by decide⟩
  types := [.tuple [.name ⟨['A'], by decide⟩, .name ⟨['B'], by decide⟩]]
  arguments := "[1, ')']".toList
  balanced := ⟨by decide, by decide⟩

def tagCounts : Call where
  construct := true
  callee := ⟨"Lookup".toList, by decide⟩
  types := [.name ⟨"Tag".toList, by decide⟩, .name ⟨"Count".toList, by decide⟩]
  arguments := []
  balanced := ⟨by decide, by decide⟩

theorem scan_call_pairSet :
    scan false "x = new Set<[A, B]>([1, ')']), x: y".toList =
        (OrderedMap.ofList [(['x'], some "new Set<[A, B]>([1, ')'])".toList)]).extend
          (scan false "x: y".toList) := by
  have hcall := scan_call ⟨['x'], by decide⟩ pairSet
  have hwhole := hcall.1 (by decide) "x: y".toList
  rw [hcall.2.2 (by decide)] at hwhole
  exact hwhole

/-- A comma between type arguments splits a default value. -/
theorem type_arguments_split :
    ¬ ∀ (x : Identifier) (c : Call) (b : Text),
      scan false (x.text ++ ' ' :: '=' :: ' ' :: (c.print ++ ',' :: ' ' :: b)) =
        (OrderedMap.ofList [(x.text, some (dedent c.print))]).extend (scan false b) := by
  intro hclaim
  have hsame := hclaim ⟨['x'], by decide⟩ tagCounts ['y']
  revert hsame
  decide

end Binding

end ComponentProps
