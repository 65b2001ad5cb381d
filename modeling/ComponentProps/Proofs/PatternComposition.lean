import ComponentProps.Proofs.PatternScan

/-!
# Patterns one after another

A comma that stands outside everything else ends an item of a pattern, whatever part of the item is
being read, and nothing of the item is left in the state behind it. The bindings of what follows are
therefore those that it has alone, and they are entered into the bindings before it. An item that
binds nothing can be left out.
-/

namespace ComponentProps.Binding

open Text

namespace Scan

variable (normalize : Bool)

/-- No bracket, literal, comment or quoted name is open. -/
structure IsSettled (s : Scan) : Prop where
  code : s.region = .code
  top : s.depths = {}
  unquoted : ∀ quote, s.mode ≠ .quotedName quote

/-! ### What is behind and ahead of a text -/

/-- A text that goes on neither a comment sign nor the dots of a rest item. -/
def IsApart (rest : Text) : Prop := EndsSlash rest ∧ rest.head? ≠ some '.'

theorem isApart_comma (t : Text) : IsApart (',' :: t) := ⟨endsSlash_cons (by decide) t, by simp⟩

theorem dots_append {rest : Text} (h : rest.head? ≠ some '.') (t : Text) :
    "..".toList.isPrefixOf (t ++ rest) = "..".toList.isPrefixOf t := by
  have hnone : ∀ more, ('.' :: more).isPrefixOf rest = false := by
    intro more
    cases rest with
    | nil => rfl
    | cons c rest =>
        have hc : ¬ '.' = c := fun heq => h (congrArg some heq.symm)
        simp [List.isPrefixOf, hc]
  match t with
  | [] => exact hnone ['.']
  | [c] => simpa [List.isPrefixOf] using fun _ => hnone []
  | c :: d :: t => rfl

theorem step_context {behind rest : Text} (hb : behind.head? ≠ some '\\') (hr : IsApart rest)
    (s : Scan) (front : Text) (c : Char) (t : Text) :
    s.step normalize (front ++ behind) c (t ++ rest) = s.step normalize front c t := by
  obtain ⟨mode, region, depths, name, value, m⟩ := s
  cases mode <;>
    simp only [step, stepName, stepNameCode, stepQuotedName, stepAlias, stepRest, stepValue,
      isEscaped_append hb, Region.comment?_append hr.1, Region.read_context hb hr.1,
      dots_append hr.2]

/-- A text is read alike behind any characters that do not escape its first. -/
theorem run_behind {behind : Text} (hb : behind.head? ≠ some '\\') (s : Scan) (front t : Text) :
    run normalize s (front ++ behind) t = run normalize s front t := by
  induction t generalizing s front with
  | nil => rfl
  | cons c t ih =>
      have hstep := step_context normalize hb ⟨endsSlash_nil, by simp⟩ s front c t
      rw [List.append_nil] at hstep
      rw [run, run, hstep]
      exact ih _ (c :: front)

theorem run_append {rest : Text} (hr : IsApart rest) (s : Scan) (behind t : Text) :
    run normalize s behind (t ++ rest) =
      run normalize (run normalize s behind t) (t.reverse ++ behind) rest := by
  induction t generalizing s behind with
  | nil => rfl
  | cons c t ih =>
      have hnone : ([] : Text).head? ≠ some '\\' := by simp
      have hstep := step_context normalize hnone hr s behind c t
      rw [List.append_nil] at hstep
      rw [List.cons_append, run, run, hstep, ih]
      simp

/-! ### The end of an item -/

/-- Where nothing else is open a comma ends the item. -/
theorem step_comma {s : Scan} (h : s.IsSettled) (behind rest : Text) :
    s.step normalize behind ',' rest = s.complete normalize := by
  obtain ⟨mode, region, depths, name, value, m⟩ := s
  obtain rfl : region = .code := h.code
  obtain rfl : depths = {} := h.top
  cases mode with
  | quotedName quote => exact absurd rfl (h.unquoted quote)
  | name =>
      have hident : isIdentChar ',' = false := by decide
      simp [step, stepName, stepNameCode, Region.comment?, isQuote, hident]
  | «alias» => rfl
  | rest => rfl
  | value => rfl

/-- A state whose bindings are entered into others. -/
def onto (m : OrderedMap Text (Option Text)) (s : Scan) : Scan :=
  { s with bindings := m.extend s.bindings }

/-- Completing an item enters it into any bindings, or into none. -/
theorem complete_onto (mode : Mode) (region : Region) (depths : Depths) (name value : Text)
    (m : OrderedMap Text (Option Text)) :
    complete normalize ⟨mode, region, depths, name, value, m⟩ =
      onto m (complete normalize ⟨mode, region, depths, name, value, .empty⟩) := by
  unfold complete
  dsimp only
  split <;> rfl

/-- A step does the same to any bindings: it enters what it would enter into none. -/
theorem step_onto (s : Scan) (m : OrderedMap Text (Option Text)) (behind : Text) (c : Char)
    (rest : Text) :
    step normalize { s with bindings := m } behind c rest =
      onto m (step normalize { s with bindings := .empty } behind c rest) := by
  obtain ⟨mode, region, depths, name, value, m₀⟩ := s
  cases mode <;>
    simp only [step, stepName, stepNameCode, stepQuotedName, stepAlias, stepRest, stepValue]
  all_goals repeat' split
  all_goals first
    | rfl
    | exact complete_onto normalize _ _ _ _ _ m

/-- A text enters the same items into any bindings. -/
theorem run_onto (s : Scan) (behind t : Text) :
    ∃ (s' : Scan) (es : List (Text × Option Text)), ∀ m,
      run normalize { s with bindings := m } behind t =
        { s' with bindings := m.insertAll es } := by
  induction t generalizing s behind with
  | nil => exact ⟨s, [], fun _ => rfl⟩
  | cons c t ih =>
      obtain ⟨s', es, hrun⟩ := ih (step normalize { s with bindings := .empty } behind c t)
        (c :: behind)
      refine ⟨s', (step normalize { s with bindings := .empty } behind c t).bindings.entries ++ es,
        fun m => ?_⟩
      rw [run, step_onto, onto, hrun, OrderedMap.insertAll_append]
      rfl

/-- A whole pattern enters the same bindings behind any others. -/
theorem complete_run_onto (behind t : Text) :
    ∃ es : List (Text × Option Text), ∀ m,
      ((run normalize { bindings := m } behind t).complete normalize).bindings = m.insertAll es := by
  obtain ⟨s, es, hrun⟩ := run_onto normalize {} behind t
  refine ⟨es ++ (complete normalize { s with bindings := .empty }).bindings.entries, fun m => ?_⟩
  rw [hrun, complete_onto, OrderedMap.insertAll_append]
  rfl

/-! ### Rest items -/

/-- White space before an item means nothing. -/
theorem run_blank {gap : Text} (h : isBlank gap = true) (m : OrderedMap Text (Option Text))
    (behind rest : Text) :
    run normalize { bindings := m } behind (gap ++ rest) =
      run normalize { bindings := m } (gap.reverse ++ behind) rest := by
  induction gap generalizing behind with
  | nil => rfl
  | cons c gap ih =>
      rw [isBlank, List.all_cons, Bool.and_eq_true] at h
      have hquote : isQuote c = false := by
        have hquotes : c ∉ ['"', '\'', '\x60'] := not_mem_of_kind h.1 rfl
        simpa [isQuote, and_assoc] using hquotes
      have hident := not_isIdentChar_of_isWhite h.1
      have hdot : c ≠ '.' := ne_of_kind h.1 rfl
      have hcomma : c ≠ ',' := ne_of_kind h.1 rfl
      have hslash : c ≠ '/' := ne_of_kind h.1 rfl
      have hstep : step normalize { bindings := m } behind c (gap ++ rest) = { bindings := m } := by
        simp [step, stepName, stepNameCode, Region.comment?, hquote, hident, hdot, hcomma, hslash]
      rw [List.cons_append, run, hstep, ih h.2]
      simp

/-- What a rest item takes is passed over as long as no comma stands outside its brackets. The
induction is on what is left of it, as for a value. -/
theorem run_rest_within {behind rest : Text} (hb : behind.head? ≠ some '\\') (hr : EndsSlash rest)
    {t : Text} {region : Region} {front : Text} {d : Depths} (m : OrderedMap Text (Option Text))
    (hclosed : region.after front t = .code) (hreads : d.Reads (region.roles front t) {})
    (hcovers : d.Covers (· = (',', .code)) (region.roles front t)) :
    run normalize ⟨.rest, region, d, [], [], m⟩ (front ++ behind) (t ++ rest) =
      run normalize ⟨.rest, .code, {}, [], [], m⟩ (t.reverse ++ (front ++ behind)) rest := by
  induction t generalizing region front d with
  | nil =>
      obtain rfl : region = .code := hclosed
      obtain rfl : d = {} := Depths.reads_nil hreads
      rfl
  | cons c t ih =>
      have hcontext := Region.read_context hb hr region front c t
      obtain ⟨role, region', hread⟩ : ∃ role region', region.read front c t = (role, region') :=
        ⟨_, _, rfl⟩
      simp only [Region.roles, Region.after, hread] at hclosed hreads hcovers
      rw [hread] at hcontext
      rw [List.cons_append, run]
      simp only [step, stepRest, hcontext]
      by_cases hrole : role = .code
      · subst hrole
        have hstep := Depths.reads_code_cons hreads
        have hcomma : (c == ',' && d.isTop) = false := by
          by_cases hc : c = ','
          · subst hc
            simp [hcovers.not_isTop_of_comma rfl]
          · simp [hc]
        have hnext := ih hclosed ((hstep _ _).mp hreads)
          (hcovers.tail fun front hf => (hstep front {}).mpr hf)
        simpa [hcomma] using hnext
      · have hnext := ih hclosed ((Depths.reads_inert_cons hrole).mp hreads)
          (hcovers.tail fun front hf => (Depths.reads_inert_cons hrole).mpr hf)
        cases role with
        | code => exact absurd rfl hrole
        | literal => simpa using hnext
        | comment => simpa using hnext

end Scan

/-- What may stand behind the dots of a rest item: literals and comments end in it, its brackets are
balanced, and no comma stands outside them. -/
structure IsRest (t : Text) : Prop extends IsBalanced t where
  commas : ∀ front ∈ (Region.code.roles [] t).inits,
    front.getLast? = some (',', .code) → ¬ AtTop front

/-- A rest item as it is written, behind some white space. -/
def printRest (gap t : Text) : Text := gap ++ '.' :: '.' :: '.' :: t

namespace Scan

theorem run_printRest (normalize : Bool) {gap t : Text} (hgap : isBlank gap = true)
    (ht : IsRest t) :
    run normalize {} [] (printRest gap t) = ⟨.rest, .code, {}, [], [], .empty⟩ := by
  have hdots : ∀ behind, run normalize {} behind ('.' :: '.' :: '.' :: t) =
      run normalize ⟨.rest, .code, {}, [], [], .empty⟩ ('.' :: '.' :: '.' :: behind) t := by
    intro behind
    have hfirst : step normalize {} behind '.' ('.' :: '.' :: t) =
        ⟨.rest, .code, {}, [], [], .empty⟩ := by
      simp [step, stepName, stepNameCode, Region.comment?, isQuote]
    rw [run, hfirst, run, step_rest_idle normalize (by decide), run,
      step_rest_idle normalize (by decide)]
  have hcovers : Depths.Covers (· = (',', .code)) {} (Region.code.roles [] t) := by
    rintro front hfront x hx rfl hreads
    exact ht.commas front hfront hx ((Depths.atTop_iff front).mpr hreads)
  have hbehind : ('.' :: '.' :: '.' :: gap.reverse).head? ≠ some '\\' := by simp
  have hrest := run_rest_within normalize hbehind endsSlash_nil .empty ht.closed
    ((Depths.atTop_iff _).mp ht.balanced) hcovers
  rw [List.append_nil, List.nil_append] at hrest
  rw [printRest, run_blank normalize hgap, List.append_nil, hdots, hrest]
  rfl

end Scan

/-! ### Composition -/

variable (normalize : Bool)

/-- The scanner enters the bindings of a pattern one after another. -/
theorem exists_scan_eq_ofList (pattern : Text) :
    ∃ es, scan normalize pattern = OrderedMap.ofList es := by
  obtain ⟨es, hrun⟩ := Scan.complete_run_onto normalize [] pattern
  exact ⟨es, hrun .empty⟩

/-- Behind a comma that ends an item a pattern is scanned as it is scanned alone. -/
theorem scan_append_comma {a : Text} (h : (Scan.run normalize {} [] a).IsSettled) (b : Text) :
    scan normalize (a ++ ',' :: b) = (scan normalize a).extend (scan normalize b) := by
  obtain ⟨es, ha⟩ := exists_scan_eq_ofList normalize a
  obtain ⟨es', hb⟩ := Scan.complete_run_onto normalize [] b
  have hcomplete : (Scan.run normalize {} [] a).complete normalize =
      { bindings := scan normalize a } := rfl
  have hcomma : (',' :: a.reverse).head? ≠ some '\\' := by simp
  have hbehind := Scan.run_behind normalize hcomma { bindings := scan normalize a } [] b
  rw [List.nil_append] at hbehind
  have halone : scan normalize b = OrderedMap.ofList es' := hb .empty
  calc scan normalize (a ++ ',' :: b)
      = ((Scan.run normalize { bindings := scan normalize a } (',' :: a.reverse) b).complete
          normalize).bindings := by
        rw [scan, Scan.run_append normalize (Scan.isApart_comma b), Scan.run,
          Scan.step_comma normalize h, hcomplete, List.append_nil]
    _ = (scan normalize a).insertAll es' := by rw [hbehind, hb]
    _ = (scan normalize a).extend (scan normalize b) := by
        rw [ha, halone, OrderedMap.insertAll_eq_extend]

/-- A rest item binds nothing. -/
theorem scan_printRest {gap t : Text} (hgap : isBlank gap = true) (ht : IsRest t) :
    scan normalize (printRest gap t) = .empty := by
  rw [scan, Scan.run_printRest normalize hgap ht]
  rfl

theorem isSettled_printRest {gap t : Text} (hgap : isBlank gap = true) (ht : IsRest t) :
    (Scan.run normalize {} [] (printRest gap t)).IsSettled := by
  rw [Scan.run_printRest normalize hgap ht]
  exact ⟨rfl, rfl, nofun⟩

/-- Where nothing is open at the end of a pattern, another one may follow behind a comma: its
bindings are entered into those of the first, in order and over them. A rest item between two commas
can be left out. -/
theorem scan_comma (a b : Text) (h : (Scan.run normalize {} [] a).IsSettled) :
    scan normalize (a ++ ',' :: b) = (scan normalize a).extend (scan normalize b) ∧
      ∀ gap t, isBlank gap = true → IsRest t →
        scan normalize (a ++ ',' :: (printRest gap t ++ ',' :: b)) =
          scan normalize (a ++ ',' :: b) := by
  refine ⟨scan_append_comma normalize h b, ?_⟩
  intro gap t hgap ht
  obtain ⟨es, hb⟩ := exists_scan_eq_ofList normalize b
  have hrest : scan normalize (printRest gap t ++ ',' :: b) = scan normalize b := by
    rw [scan_append_comma normalize (isSettled_printRest normalize hgap ht),
      scan_printRest normalize hgap ht, hb]
    exact OrderedMap.ofList_extend_ofList [] es
  rw [scan_append_comma normalize h, hrest, scan_append_comma normalize h]

/-- The first pattern ends in a value, outside its brackets. The second binds a name again, without
a default value. The rest item holds commas in a literal and in brackets. -/
theorem scan_comma_again :
    (Scan.run false {} [] "id: key, size = [1, 2]".toList).IsSettled ∧
      IsRest "others[',', (0, 1)]".toList ∧
      scan false ("id: key, size = [1, 2]".toList ++ ',' :: " size".toList) =
        (scan false "id: key, size = [1, 2]".toList).extend (scan false " size".toList) ∧
      scan false ("id: key, size = [1, 2]".toList ++
          ',' :: (printRest [' '] "others[',', (0, 1)]".toList ++ ',' :: " size".toList)) =
        scan false ("id: key, size = [1, 2]".toList ++ ',' :: " size".toList) := by
  have hsettled : (Scan.run false {} [] "id: key, size = [1, 2]".toList).IsSettled := by
    refine ⟨by decide, by decide, ?_⟩
    have hmode : (Scan.run false {} [] "id: key, size = [1, 2]".toList).mode = .value := by decide
    rw [hmode]
    exact nofun
  have hrest : IsRest "others[',', (0, 1)]".toList :=
    ⟨⟨by decide, by decide⟩, by decide⟩
  have hcomma := scan_comma false "id: key, size = [1, 2]".toList " size".toList hsettled
  exact ⟨hsettled, hrest, hcomma.1, hcomma.2 [' '] _ (by decide) hrest⟩

end ComponentProps.Binding
