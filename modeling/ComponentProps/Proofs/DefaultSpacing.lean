import ComponentProps.Proofs.Squeezing
import ComponentProps.Proofs.Uniting

/-!
# The spacing of default values

Settings may ask for default values with their white space collapsed. The collapse comes before the
bindable marker is taken off, so that the marker is looked for in another text. A call of the marker
is found all the same, with the collapsed text inside, unless the collapse loses the line feed at
the end of a line comment or takes a quote in front of the call for the start of a literal.
-/

namespace ComponentProps

open Text

/-! ### Calls of the marker -/

namespace Text

theorem after?_cons (c d : Char) (start t : Text) :
    after? (c :: start) (d :: t) = if c = d then after? start t else none := by
  by_cases h : c = d <;> simp [after?, List.isPrefixOf, h]

theorem collapse_trim (t : Text) : collapse (trim t) = collapse t := by
  rw [collapse, trim_trim, collapse]

/-- Squeezing keeps a start without white space and quotes. -/
theorem Squeezed.after? {start behind t t' : Text} (h : Squeezed none behind t t')
    (hstart : ∀ c ∈ start, isQuote c = false ∧ isWhite c = false) :
    (after? start t = none ∧ after? start t' = none) ∨
      ∃ rest rest', after? start t = some rest ∧ after? start t' = some rest' ∧
        Squeezed none (start.reverse ++ behind) rest rest' := by
  induction start generalizing behind t t' with
  | nil => exact .inr ⟨t, t', rfl, rfl, h⟩
  | cons c start ih =>
      rw [List.forall_mem_cons] at hstart
      cases h with
      | nil => exact .inl ⟨rfl, rfl⟩
      | @keep _ _ t t' d hd ht =>
          rw [after?_cons, after?_cons]
          by_cases hcd : c = d
          · subst hcd
            rw [OpenQuote.next_of_not_isQuote hstart.1.1] at ht
            simpa using ih ht hstart.2
          · simp [hcd]
      | @gap _ g t t' hne hg =>
          obtain ⟨d, g, rfl⟩ := List.exists_cons_of_ne_nil hne
          rw [isBlank, List.all_cons, Bool.and_eq_true] at hg
          have hd : c ≠ d := (ne_of_kind hg.1 hstart.1.2).symm
          have hspace : c ≠ ' ' := (ne_of_kind (by decide) hstart.1.2).symm
          rw [List.cons_append, after?_cons, after?_cons, if_neg hd, if_neg hspace]
          exact .inl ⟨rfl, rfl⟩

/-- A visible character is kept. -/
theorem Squeezed.of_visible {quote : OpenQuote} {behind t t' : Text} {c : Char}
    (h : Squeezed quote behind (c :: t) t') (hc : isWhite c = false) :
    ∃ rest, t' = c :: rest ∧ Squeezed (quote.next behind c) (c :: behind) t rest := by
  generalize hs : c :: t = s at h
  cases h with
  | nil => contradiction
  | keep hd ht =>
      obtain ⟨rfl, rfl⟩ := List.cons.inj hs
      exact ⟨_, rfl, ht⟩
  | gap hne hg =>
      obtain ⟨d, g, rfl⟩ := List.exists_cons_of_ne_nil hne
      obtain ⟨rfl, -⟩ := List.cons.inj hs
      rw [isBlank, List.all_cons, hc, Bool.false_and] at hg
      contradiction

end Text

/-- Two readers in step at a bracket read groups of which one is the other collapsed. -/
theorem Cursor.InStep.readGroup {p p' : Cursor} (h : InStep none .code p p')
    (hp : p.current? = some '(') :
    trim (p'.readGroup '(' ')').1 = collapse (p.readGroup '(' ')').1 ∧
      ∃ quote, InStep quote .code (p.readGroup '(' ')').2 (p'.readGroup '(' ')').2 := by
  obtain ⟨behind, ahead⟩ := p
  obtain ⟨behind', ahead'⟩ := p'
  obtain ⟨t, rfl⟩ : ∃ t, ahead = '(' :: t := List.head?_eq_some_iff.mp hp
  obtain ⟨t', rfl, ht⟩ := h.squeezed.of_visible (by decide)
  have hread : ∀ b u, Cursor.readGroup ⟨b, '(' :: u⟩ '(' ')' =
      groupFrom '(' ')' .code 1 ('(' :: b) u := by
    intro b u
    have hplain : IsPlain '(' := by decide
    simp [Cursor.readGroup, groupFrom_round, Region.read_plain hplain, depthAt, inFront]
  have hnext := (h.keep ht).2
  have hquote : OpenQuote.next none behind '(' = none :=
    OpenQuote.next_of_not_isQuote (by decide) none behind
  rw [Region.read_plain (by decide), hquote] at hnext
  obtain ⟨hinner, hstop⟩ := hnext.group 1
  rw [hread, hread]
  exact ⟨(collapse_of_squeezed hinner (by simp)).symm, hstop⟩

/-- The text inside the call whose bracket is at the cursor, if nothing but trivia follows. -/
def Cursor.callInside? (c : Cursor) : Option Text :=
  if c.current? = some '(' then
    if (c.readGroup '(' ')').2.skipTrivia.atEnd then some (trim (c.readGroup '(' ')').1) else none
  else none

theorem Cursor.InStep.callInside? {p p' : Cursor} (h : InStep none .code p p') :
    p'.callInside? = p.callInside?.map collapse := by
  have hopen : p.current? = some '(' ↔ p'.current? = some '(' :=
    h.squeezed.head?_eq_iff (by decide)
  unfold Cursor.callInside?
  by_cases hp : p.current? = some '('
  · obtain ⟨hinner, quote, hstop⟩ := h.readGroup hp
    obtain ⟨passed, -, hend⟩ := hstop.skipTrivia (by simp)
    have hat : (p'.readGroup '(' ')').2.skipTrivia.atEnd =
        (p.readGroup '(' ')').2.skipTrivia.atEnd := by
      rw [Bool.eq_iff_iff, atEnd, atEnd, List.isEmpty_iff, List.isEmpty_iff]
      exact hend.squeezed.eq_nil_iff.symm
    rw [if_pos hp, if_pos (hopen.mp hp), hat, hinner]
    split
    · rw [Option.map_some, collapse_trim]
    · rfl
  · rw [if_neg hp, if_neg (hopen.not.mp hp)]
    rfl

theorem unwrapMarker?_eq (marker value : Text) :
    unwrapMarker? marker value =
      (after? marker value).bind fun rest => (Cursor.ofText rest).skipTrivia.callInside? := by
  unfold unwrapMarker?
  cases after? marker value <;> rfl

theorem trim_of_unwrapMarker? {marker value inner : Text}
    (h : unwrapMarker? marker value = some inner) : trim inner = inner := by
  rw [unwrapMarker?_eq, Option.bind_eq_some_iff] at h
  obtain ⟨rest, -, hinside⟩ := h
  simp only [Cursor.callInside?] at hinside
  split at hinside
  · split at hinside
    · rw [← Option.some.inj hinside, trim_trim]
    · contradiction
  · contradiction

/-- Collapsing leaves a call whose marker `rest` follows: no literal is open where its bracket
stands, and line comments end where they did. -/
structure KeepsCall (rest : Text) : Prop where
  quotes : OpenQuote.after none [] (Cursor.ofText rest).skipTrivia.behind.reverse = none
  lines : keepsLines none .code [] rest = true

instance (rest : Text) : Decidable (KeepsCall rest) :=
  decidable_of_iff (OpenQuote.after none [] (Cursor.ofText rest).skipTrivia.behind.reverse = none ∧
    keepsLines none .code [] rest = true) ⟨fun h => ⟨h.1, h.2⟩, fun h => ⟨h.quotes, h.lines⟩⟩

/-- A quote or an escape behind the marker is not passed over. -/
theorem skipTrivia_of_first {c : Char} (hfirst : isQuote c = true ∨ c = '\\') (t : Text) :
    (Cursor.ofText (c :: t)).skipTrivia = ⟨[], c :: t⟩ := by
  have hstop : Cursor.isTrivia (Region.code.read [] c t).1 c = false := by
    rcases hfirst with hquote | rfl
    · simp [Region.read, hquote, isEscaped, Cursor.isTrivia]
    · have hslash : IsPlain '\\' ∧ isWhite '\\' = false := by decide
      simp [Region.read_plain hslash.1, Cursor.isTrivia, hslash.2]
  rw [Cursor.skipTrivia, Cursor.ofText, Cursor.skipTriviaFrom_cons, hstop]
  rfl

/-- The same bracket opens and closes a call in a text and in its squeezed form. -/
theorem callInside?_squeezed {behind rest rest' : Text} (hkeeps : KeepsCall rest)
    (h : Squeezed none behind rest rest') :
    (Cursor.ofText rest').skipTrivia.callInside? =
      (Cursor.ofText rest).skipTrivia.callInside?.map collapse := by
  by_cases hfirst : ∀ c ∈ rest.head?, isQuote c = false ∧ c ≠ '\\'
  · have hstart : Cursor.InStep none .code (.ofText rest) (.ofText rest') :=
      ⟨h.alone hfirst, fun _ => rfl, hkeeps.lines, by simp [Region.IsQuoted]⟩
    obtain ⟨passed, hpassed, hcall⟩ := hstart.skipTrivia (by simp)
    have hquote : OpenQuote.after none [] passed = none := by
      have hskipped : (Cursor.ofText rest).skipTrivia.behind = passed.reverse ++ [] := hpassed
      have hquotes := hkeeps.quotes
      rwa [hskipped, List.append_nil, List.reverse_reverse] at hquotes
    exact Cursor.InStep.callInside? (hquote ▸ hcall)
  · -- Behind a quote or an escape the literals of the collapse may differ, but there is no call.
    obtain ⟨c, hc, hquote⟩ : ∃ c, rest.head? = some c ∧ (isQuote c = true ∨ c = '\\') := by
      simpa [-not_and, Decidable.not_and_iff_or_not] using hfirst
    obtain ⟨t, rfl⟩ := List.head?_eq_some_iff.mp hc
    have hvisible : isWhite c = false := by
      rcases hquote with hquote | rfl
      · exact not_isWhite_of_isQuote hquote
      · decide
    have hopen : c ≠ '(' := by
      rcases hquote with hquote | rfl
      · exact ne_of_kind hquote (by decide)
      · decide
    obtain ⟨t', rfl, -⟩ := h.of_visible hvisible
    have hnone : ∀ u, (Cursor.ofText (c :: u)).skipTrivia.callInside? = none := by
      intro u
      rw [skipTrivia_of_first hquote, Cursor.callInside?, if_neg (by simpa [Cursor.current?])]
    rw [hnone, hnone]
    rfl

/-- Collapsing a value collapses the text inside a call of the marker. -/
theorem unwrapMarker?_collapse {marker value : Text}
    (hmarker : ∀ c ∈ marker, isQuote c = false ∧ isWhite c = false)
    (hkeeps : ∀ rest ∈ after? marker value, KeepsCall rest)
    (htrim : trim value = value) :
    unwrapMarker? marker (collapse value) = (unwrapMarker? marker value).map collapse := by
  rw [unwrapMarker?_eq, unwrapMarker?_eq]
  obtain ⟨hnone, hnone'⟩ | ⟨rest, rest', hrest, hrest', hsqueezed⟩ :=
    (squeezed_collapse htrim).after? hmarker
  · rw [hnone, hnone']
    rfl
  · rw [hrest, hrest']
    exact callInside?_squeezed (hkeeps rest hrest) hsqueezed

/-- Collapsing a value changes the default value in the same way, and nothing else. -/
theorem boundAs_collapse {marker value : Text}
    (hmarker : ∀ c ∈ marker, isQuote c = false ∧ isWhite c = false)
    (hkeeps : ∀ rest ∈ after? marker value, KeepsCall rest)
    (htrim : trim value = value) :
    boundAs marker (some (collapse value)) =
      ((boundAs marker (some value)).1, (boundAs marker (some value)).2.map collapse) := by
  have hunwrap := unwrapMarker?_collapse hmarker hkeeps htrim
  unfold boundAs
  dsimp only
  cases hvalue : unwrapMarker? marker value with
  | none =>
      rw [hvalue] at hunwrap
      rw [hunwrap]
      rfl
  | some inner =>
      rw [hvalue] at hunwrap
      have hempty := collapse_eq_nil_iff (trim_of_unwrapMarker? hvalue)
      rw [hunwrap]
      cases inner with
      | nil => rfl
      | cons c inner =>
          obtain ⟨d, rest, hcollapse⟩ := List.exists_cons_of_ne_nil (hempty.not.mpr (by simp))
          simp [hcollapse]

/-! ### Bindings -/

namespace Binding

/-- Default values with their white space collapsed. -/
def collapsed (bindings : OrderedMap Text (Option Text)) : OrderedMap Text (Option Text) :=
  bindings.mapValues fun _ default => default.map collapse

namespace Scan

theorem default?_true (raw : Text) :
    default? true raw = (default? false raw).map collapse := by
  have hempty := collapse_eq_nil_iff (trim_dedent raw)
  simp only [default?, if_true, Bool.false_eq_true, if_false]
  cases hvalue : dedent raw with
  | nil => rfl
  | cons c rest =>
      rw [hvalue] at hempty
      obtain ⟨d, more, hcollapse⟩ := List.exists_cons_of_ne_nil (hempty.not.mpr (by simp))
      simp [hcollapse]

/-- A state with collapsed default values. -/
def collapsed (s : Scan) : Scan := { s with bindings := Binding.collapsed s.bindings }

theorem complete_collapsed (mode : Mode) (region : Region) (depths : Depths) (name value : Text)
    (bindings : OrderedMap Text (Option Text)) :
    complete true ⟨mode, region, depths, name, value, Binding.collapsed bindings⟩ =
      (complete false ⟨mode, region, depths, name, value, bindings⟩).collapsed := by
  unfold complete collapsed
  dsimp only
  split
  · rfl
  · rw [default?_true, Binding.collapsed, Binding.collapsed, OrderedMap.mapValues_insert]

/-- A step enters the same bindings, with their default values collapsed. -/
theorem step_collapsed (s : Scan) (behind : Text) (c : Char) (rest : Text) :
    s.collapsed.step true behind c rest = (s.step false behind c rest).collapsed := by
  obtain ⟨mode, region, depths, name, value, bindings⟩ := s
  change step true ⟨mode, region, depths, name, value, Binding.collapsed bindings⟩ _ _ _ = _
  cases mode <;>
    simp only [step, stepName, stepNameCode, stepQuotedName, stepAlias, stepRest, stepValue]
  all_goals repeat' split
  all_goals first
    | rfl
    | exact complete_collapsed _ _ _ _ _ _

theorem run_collapsed (s : Scan) (behind t : Text) :
    s.collapsed.run true behind t = (s.run false behind t).collapsed := by
  induction t generalizing s behind with
  | nil => rfl
  | cons c t ih => rw [run, step_collapsed, ih, run]

/-- The default values that were taken up are trimmed. -/
def IsTrimmed (s : Scan) : Prop :=
  ∀ name value, s.bindings.get? name = some (some value) → trim value = value

theorem trim_of_default? {raw value : Text} (h : default? false raw = some value) :
    trim value = value := by
  simp only [default?, Bool.false_eq_true, if_false] at h
  split at h
  · contradiction
  · rename_i hdedent
    rw [← Option.some.inj h, ← hdedent, trim_dedent]

theorem isTrimmed_complete {s : Scan} (h : s.IsTrimmed) : (s.complete false).IsTrimmed := by
  intro name value hvalue
  simp only [complete] at hvalue
  split at hvalue
  · exact h name value hvalue
  · rw [OrderedMap.get?_insert] at hvalue
    split at hvalue
    · exact trim_of_default? (Option.some.inj hvalue)
    · exact h name value hvalue

theorem isTrimmed_step {s : Scan} (h : s.IsTrimmed) (behind : Text) (c : Char) (rest : Text) :
    (s.step false behind c rest).IsTrimmed := by
  obtain ⟨mode, region, depths, name, value, bindings⟩ := s
  cases mode <;>
    simp only [step, stepName, stepNameCode, stepQuotedName, stepAlias, stepRest, stepValue]
  all_goals repeat' split
  all_goals first
    | exact h
    | exact isTrimmed_complete h

theorem isTrimmed_run {s : Scan} (h : s.IsTrimmed) (behind t : Text) :
    (s.run false behind t).IsTrimmed := by
  induction t generalizing s behind with
  | nil => exact h
  | cons c t ih => exact ih (isTrimmed_step h behind c t) (c :: behind)

end Scan

theorem trim_of_get?_scan {pattern name value : Text}
    (h : (scan false pattern).get? name = some (some value)) : trim value = value := by
  have hstart : Scan.IsTrimmed {} := by simp [Scan.IsTrimmed]
  exact Scan.isTrimmed_complete (Scan.isTrimmed_run hstart [] pattern) name value h

theorem scan_true (pattern : Text) : scan true pattern = collapsed (scan false pattern) := by
  have hrun : Scan.run true {} [] pattern = (Scan.run false {} [] pattern).collapsed :=
    Scan.run_collapsed {} [] pattern
  rw [scan, hrun, Scan.collapsed, Scan.complete_collapsed]
  rfl

end Binding

/-! ### Sheets -/

/-- An intake statement at the start of a script. -/
theorem Intake.find?_first {call script pattern : Text} {ascription : Option Text} {p : Cursor}
    (hword : (Cursor.ofText script).nextWord? =
      some ⟨script.take 3, ⟨[], script⟩, ⟨(script.take 3).reverse, script.drop 3⟩⟩)
    (hkey : script.take 3 ∈ keywords)
    (hread : read? call ⟨(script.take 3).reverse, script.drop 3⟩ =
      some (pattern, ascription, p)) :
    find? call script = some ⟨pattern, ascription, 0, p.byteOffset⟩ := by
  rw [find?, findFrom?_nextWord, hword]
  dsimp only
  rw [if_pos hkey, hread]
  rfl

/-- A record with another default value, if it has one. -/
def PropRecord.mapDefault (f : Text → Text) (r : PropRecord) : PropRecord :=
  { r with default := r.default.map f }

/-- A sheet with other default values. -/
def PropSheet.mapDefaults (f : Text → Text) (sheet : PropSheet) : PropSheet :=
  { sheet with props := sheet.props.map (PropRecord.mapDefault f) }

/-- Collapsing the bindings of a name collapses the default value of its record. -/
theorem unitedRecord_collapsed (settings : Settings) (members : OrderedMap Text Member)
    {bound : OrderedMap Text (Option Text)} (name : Text)
    (hname : ∀ value, bound.get? name = some (some value) →
      boundAs settings.bindableMarker (some (collapse value)) =
        ((boundAs settings.bindableMarker (some value)).1,
          (boundAs settings.bindableMarker (some value)).2.map collapse)) :
    unitedRecord settings members (Binding.collapsed bound) name =
      (unitedRecord settings members bound name).mapDefault collapse := by
  have hget : (Binding.collapsed bound).get? name = (bound.get? name).map (·.map collapse) :=
    OrderedMap.get?_mapValues _ bound name
  unfold unitedRecord PropRecord.mapDefault
  rw [hget]
  cases hbound : bound.get? name with
  | none => rfl
  | some default =>
      cases default with
      | none => rfl
      | some value =>
          have hvalue := hname value hbound
          simp only [Option.map_some, Option.elim_some, hvalue]

theorem unitedNames_collapsed (members : OrderedMap Text Member)
    (bound : OrderedMap Text (Option Text)) :
    unitedNames members (Binding.collapsed bound) = unitedNames members bound := by
  rw [unitedNames, Binding.collapsed, OrderedMap.keys_mapValues, unitedNames]

namespace PropSheet

theorem props_ofIntake (settings : Settings) (scripts : List Text) (intake : Intake) :
    (ofIntake settings scripts intake).props =
      (unitedNames (intake.resolved settings scripts).members
        (Binding.scan settings.normalizeDefaults intake.pattern)).map
          (unitedRecord settings (intake.resolved settings scripts).members
            (Binding.scan settings.normalizeDefaults intake.pattern)) := by
  rw [ofIntake_eq_unite]
  exact props_unite settings _ _ _

theorem ofScripts_singleton {settings : Settings} {script : Text} {intake : Intake}
    (h : Intake.find? settings.intakeCall script = some intake) :
    ofScripts settings [script] = ofIntake settings [script] intake := by
  rw [ofScripts, List.findSome?_singleton, h]

theorem inherits_unite (settings : Settings) (members : OrderedMap Text Member)
    (inherits : List Text) (bindings : List Binding) :
    (unite settings members inherits bindings).inherits = inherits :=
  rfl

/-- Types do not depend on what is asked for default values. -/
theorem resolved_normalizeDefaults (settings : Settings) (flag : Bool) (scripts : List Text)
    (intake : Intake) : intake.resolved { settings with normalizeDefaults := flag } scripts =
      intake.resolved settings scripts := by
  unfold Intake.resolved
  rfl

/-- Settings with collapsed default values give the sheet with its default values collapsed. -/
theorem ofIntake_collapsed {settings : Settings} {intake : Intake} (scripts : List Text)
    (hmarker : ∀ c ∈ settings.bindableMarker, isQuote c = false ∧ isWhite c = false)
    (hcalls : ∀ b ∈ Binding.ofPattern false intake.pattern,
      ∀ rest ∈ b.default.bind (after? settings.bindableMarker), KeepsCall rest) :
    ofIntake { settings with normalizeDefaults := true } scripts intake =
      (ofIntake { settings with normalizeDefaults := false } scripts intake).mapDefaults
        collapse := by
  have hinherits : (ofIntake { settings with normalizeDefaults := true } scripts intake).inherits =
      (ofIntake { settings with normalizeDefaults := false } scripts intake).inherits := by
    rw [ofIntake_eq_unite, ofIntake_eq_unite, inherits_unite, inherits_unite,
      resolved_normalizeDefaults settings true, resolved_normalizeDefaults settings false]
  have hprops : (ofIntake { settings with normalizeDefaults := true } scripts intake).props =
      (ofIntake { settings with normalizeDefaults := false } scripts intake).props.map
        (PropRecord.mapDefault collapse) := by
    rw [props_ofIntake, props_ofIntake, resolved_normalizeDefaults settings true,
      resolved_normalizeDefaults settings false, Binding.scan_true, unitedNames_collapsed,
      List.map_map]
    refine List.map_congr_left fun name _ => unitedRecord_collapsed _ _ name fun value hvalue => ?_
    have hmem : ⟨name, some value⟩ ∈ Binding.ofPattern false intake.pattern :=
      List.mem_map.mpr ⟨_, OrderedMap.mem_entries_of_get? hvalue, rfl⟩
    exact boundAs_collapse hmarker (hcalls _ hmem) (Binding.trim_of_get?_scan hvalue)
  rw [mapDefaults, ← hprops, ← hinherits]

/-- Whether default values are collapsed makes a difference to their white space and to nothing
else, if the marker has neither quotes nor white space and the collapse keeps its calls. -/
theorem ofScripts_normalizing_defaults (settings : Settings) (scripts : List Text)
    (hmarker : ∀ c ∈ settings.bindableMarker, isQuote c = false ∧ isWhite c = false)
    (hcalls : ∀ intake ∈ scripts.findSome? (Intake.find? settings.intakeCall),
      ∀ b ∈ Binding.ofPattern false intake.pattern,
        ∀ rest ∈ b.default.bind (after? settings.bindableMarker), KeepsCall rest) :
    ofScripts { settings with normalizeDefaults := true } scripts =
      (ofScripts { settings with normalizeDefaults := false } scripts).mapDefaults collapse := by
  unfold ofScripts
  dsimp only
  cases hfirst : scripts.findSome? (Intake.find? settings.intakeCall) with
  | none => rfl
  | some intake => exact ofIntake_collapsed scripts hmarker (hcalls intake hfirst)

theorem bindableMarker_plain :
    ∀ c ∈ ({} : Settings).bindableMarker, isQuote c = false ∧ isWhite c = false := by
  have hall : ({} : Settings).bindableMarker.all (fun c => !isQuote c && !isWhite c) = true := by
    decide
  intro c hc
  simpa using List.all_eq_true.mp hall c hc

/-- A script whose statement receives a bindable prop and another one. -/
def spacedScript : Text :=
  "let \x7b y = $bindable([1, /* c */\n  'a  b' ]), z = f( 2 ) \x7d = $props()".toList

def spacedIntake : Intake :=
  ⟨" y = $bindable([1, /* c */\n  'a  b' ]), z = f( 2 ) ".toList, none, 0, 68⟩

theorem find?_spacedScript : Intake.find? "$props".toList spacedScript = some spacedIntake :=
  Intake.find?_first (p := ⟨spacedScript.reverse, []⟩) (by decide) (by decide) (by decide)

theorem ofScripts_normalizing_spaced :
    (∀ intake ∈ [spacedScript].findSome? (Intake.find? "$props".toList),
        ∀ b ∈ Binding.ofPattern false intake.pattern,
          ∀ rest ∈ b.default.bind (after? "$bindable".toList), KeepsCall rest) ∧
      ofScripts { normalizeDefaults := true } [spacedScript] =
        (ofScripts {} [spacedScript]).mapDefaults collapse := by
  have hcalls : ∀ intake ∈ [spacedScript].findSome? (Intake.find? "$props".toList),
      ∀ b ∈ Binding.ofPattern false intake.pattern,
        ∀ rest ∈ b.default.bind (after? "$bindable".toList), KeepsCall rest := by
    rw [List.findSome?_singleton, find?_spacedScript]
    decide
  exact ⟨hcalls, ofScripts_normalizing_defaults {} [spacedScript] bindableMarker_plain hcalls⟩

/-- A script whose statement receives a bindable prop with a line comment in its default value. -/
def commentedScript : Text :=
  "let \x7b y = $bindable([1, // c\n 2]) \x7d = $props()".toList

def commentedIntake : Intake := ⟨" y = $bindable([1, // c\n 2]) ".toList, none, 0, 46⟩

theorem find?_commentedScript :
    Intake.find? "$props".toList commentedScript = some commentedIntake :=
  Intake.find?_first (p := ⟨commentedScript.reverse, []⟩) (by decide) (by decide) (by decide)

/-- A collapse that comes before the marker is taken off can take the bracket that closes its call
into a line comment. -/
theorem line_comment_takes_bracket :
    ¬ ∀ (settings : Settings) (scripts : List Text),
      (∀ c ∈ settings.bindableMarker, isQuote c = false) →
        ofScripts { settings with normalizeDefaults := true } scripts =
          (ofScripts { settings with normalizeDefaults := false } scripts).mapDefaults
            collapse := by
  intro hclaim
  have hsame := hclaim {} [commentedScript] fun c hc => (bindableMarker_plain c hc).1
  rw [ofScripts_singleton find?_commentedScript, ofScripts_singleton find?_commentedScript] at hsame
  revert hsame
  decide

end PropSheet

end ComponentProps
