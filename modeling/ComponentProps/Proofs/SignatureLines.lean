import ComponentProps.Display
import ComponentProps.Proofs.ScriptReading
import ComponentProps.Proofs.TypeBodies
import ComponentProps.Proofs.Uniting

/-!
# Signatures on one line

The signature of a component is made of names, of types in normal form and of outside types as they
are written. Names and types have no line feed if no literal and no quoted key has one, so the
signature is on one line exactly if every outside type is. An outside type that is written on
several lines is shown on several lines.
-/

namespace ComponentProps

open Text

/-! ### Where names and types come from -/

/-- The contents of the scripts of a component. -/
def Script.contents (source : Text) : List Text := (blocks source).map content

theorem Script.contents_of_readAt? {source t : Text}
    (h : (readAt? (.ofText source)).map (fun p => (p.1.map content, p.2.ahead)) =
      some (some t, [])) : contents source = [t] := by
  obtain ⟨⟨block, behind, ahead⟩, hread, hp⟩ := Option.map_eq_some_iff.mp h
  obtain ⟨hblock, rfl⟩ := Prod.mk.inj hp
  obtain ⟨b, rfl, rfl⟩ := Option.map_eq_some_iff.mp hblock
  have hend : blocksFrom ⟨behind, []⟩ = [] := Component.blocksFrom_eq_nil (by decide) behind
  rw [contents, blocks, Component.blocksFrom_eq, hread]
  simp [hend]

namespace PropSheet

/-- The type bodies that the props of a component are taken from: those of the declarations of the
local types, and those within the annotation, that the annotation reaches. -/
inductive DrawsOn (settings : Settings) (scripts : List Text) : Text → Prop
  | declared {intake : Intake} {ascription script : Text} {n : Nat} {word : Cursor.Word}
      {declaration : TypeDeclaration} {place : Cursor} {body : Text}
      (hintake : scripts.findSome? (Intake.find? settings.intakeCall) = some intake)
      (hascription : intake.ascription = some ascription)
      (hscript : script ∈ scripts)
      (hmet : TypeDeclaration.met? settings.memberStyle script n = some word)
      (hread : TypeDeclaration.read? settings.memberStyle word = some (declaration, place))
      (hreached : ReachesLocal (TypeTable.ofScripts settings.memberStyle scripts) ascription
        declaration.name)
      (hbody : TypeDeclaration.body? word = some body) : DrawsOn settings scripts body
  | inline {intake : Intake} {ascription body : Text}
      (hintake : scripts.findSome? (Intake.find? settings.intakeCall) = some intake)
      (hascription : intake.ascription = some ascription)
      (hreached : ReachesBody (TypeTable.ofScripts settings.memberStyle scripts) ascription
        body) : DrawsOn settings scripts body

/-- The names that the pattern of the intake statement binds. -/
def Binds (settings : Settings) (scripts : List Text) (name : Text) : Prop :=
  ∃ intake, scripts.findSome? (Intake.find? settings.intakeCall) = some intake ∧
    ∃ b ∈ Binding.ofPattern settings.normalizeDefaults intake.pattern, b.name = name

/-! ### Records -/

/-- A prop whose name has no line feed and whose type has none within quotes. -/
def IsCalmRecord (r : PropRecord) : Prop := '\n' ∉ r.name ∧ IsCalm r.type

theorem every_enter {marker : Text} {props : OrderedMap Text PropRecord} {b : Binding}
    (h : props.Every fun _ r => IsCalmRecord r) (hb : '\n' ∉ b.name) :
    (enter marker props b).Every fun _ r => IsCalmRecord r := by
  have hunknown : '\n' ∉ unknownType := by decide
  have hbefore : IsCalmRecord ((props.get? b.name).getD (.untyped b.name)) := by
    cases hget : props.get? b.name with
    | none => exact ⟨hb, isCalm_of_not_mem hunknown⟩
    | some r => exact h.get? hget
  refine h.insert ?_
  rw [PropRecord.bind_eq]
  exact hbefore

theorem every_foldl_enter {marker : Text} {props : OrderedMap Text PropRecord} {bs : List Binding}
    (h : props.Every fun _ r => IsCalmRecord r) (hbs : ∀ b ∈ bs, '\n' ∉ b.name) :
    (bs.foldl (enter marker) props).Every fun _ r => IsCalmRecord r := by
  induction bs generalizing props with
  | nil => exact h
  | cons b bs ih =>
      rw [List.forall_mem_cons] at hbs
      exact ih (every_enter h hbs.1) hbs.2

theorem isCalmRecord_withFallback {fallbacks : OrderedMap Text Text} {r : PropRecord}
    (h : IsCalmRecord r) (hfallbacks : ∀ type ∈ fallbacks.values, '\n' ∉ type) :
    IsCalmRecord (r.withFallback fallbacks) := by
  unfold PropRecord.withFallback
  split
  · split
    · rename_i type hget
      have hmem : type ∈ fallbacks.values :=
        List.mem_map_of_mem (f := Prod.snd) (OrderedMap.mem_entries_of_get? hget)
      exact ⟨h.1, isCalm_of_not_mem (hfallbacks type hmem)⟩
    · exact h
  · exact h

theorem isCalmRecord_unite {settings : Settings} {members : OrderedMap Text Member}
    {inherits : List Text} {bindings : List Binding}
    (hfallbacks : ∀ type ∈ settings.fallbackTypes.values, '\n' ∉ type)
    (hmembers : members.Every Member.IsCalmEntry) (hbindings : ∀ b ∈ bindings, '\n' ∉ b.name) :
    ∀ r ∈ (unite settings members inherits bindings).props, IsCalmRecord r := by
  have hdeclared : (members.mapValues PropRecord.ofMember).Every fun _ r => IsCalmRecord r := by
    intro e he
    obtain ⟨e, hmem, rfl⟩ := List.mem_map.mp he
    exact hmembers e hmem
  intro r hr
  obtain ⟨entered, hentered, rfl⟩ := List.mem_map.mp hr
  obtain ⟨e, he, rfl⟩ := List.mem_map.mp hentered
  exact isCalmRecord_withFallback (every_foldl_enter hdeclared hbindings e he) hfallbacks

theorem newline_not_mem_record {r : PropRecord} (h : IsCalmRecord r) : '\n' ∉ r.signature := by
  have hmark : '\n' ∉ (if r.required then [] else ['?']) := by split <;> decide
  have hcolon : '\n' ∉ ": ".toList := by decide
  simp only [PropRecord.signature, List.mem_append, not_or]
  exact ⟨⟨⟨h.1, hmark⟩, hcolon⟩, newline_not_mem_normalizeType h.2⟩

theorem mem_intercalate {c : Char} {separator : Text} {ts : List Text}
    (h : c ∈ separator.intercalate ts) : c ∈ separator ∨ ∃ t ∈ ts, c ∈ t := by
  induction ts with
  | nil => simp at h
  | cons t ts ih =>
      cases ts with
      | nil => exact .inr ⟨t, List.mem_cons_self, by simpa using h⟩
      | cons u ts =>
          have hcons : separator.intercalate (t :: u :: ts) =
              t ++ separator ++ separator.intercalate (u :: ts) := by
            simp [List.intercalate, List.intersperse]
          rw [hcons, List.mem_append, List.mem_append] at h
          rcases h with (ht | hseparator) | hrest
          · exact .inr ⟨t, List.mem_cons_self, ht⟩
          · exact .inl hseparator
          · rcases ih hrest with hseparator | ⟨v, hv, hc⟩
            · exact .inl hseparator
            · exact .inr ⟨v, List.mem_cons_of_mem t hv, hc⟩

/-- A signature of calm props has the line feeds of its outside types and no others. -/
theorem newline_mem_signature_iff {s : PropSheet} (h : ∀ r ∈ s.props, IsCalmRecord r) :
    '\n' ∈ s.signature ↔ ∃ p ∈ s.inherits, '\n' ∈ p := by
  have hprops : '\n' ∉ (if s.props.isEmpty then ['{', '}']
      else ['{', ' '] ++ "; ".toList.intercalate (s.props.map PropRecord.signature) ++
        [' ', '}']) := by
    split
    · decide
    · intro hmem
      rcases List.mem_append.mp hmem with hmem | hmem
      · rcases List.mem_append.mp hmem with hmem | hmem
        · exact absurd hmem (by decide)
        · rcases mem_intercalate hmem with hseparator | ⟨t, ht, hfeed⟩
          · exact absurd hseparator (by decide)
          · obtain ⟨r, hr, rfl⟩ := List.mem_map.mp ht
            exact newline_not_mem_record (h r hr) hfeed
      · exact absurd hmem (by decide)
  have hjoin : '\n' ∉ " & ".toList := by decide
  rw [signature, List.mem_append, or_iff_right hprops, List.mem_flatMap]
  simp only [List.mem_append, hjoin, false_or]

/-! ### The props of a component -/

variable {settings : Settings} {scripts : List Text}

/-- Every member that an annotation resolves to has a name without a line feed and a calm type. -/
theorem every_resolve_calm {intake : Intake} {ascription : Text}
    (hliterals : ∀ script ∈ scripts, script.IsUnbroken)
    (hcall : ∀ c ∈ settings.intakeCall, IsPlain c)
    (hbodies : ∀ body, DrawsOn settings scripts body → body.isTameBody = true)
    (hintake : scripts.findSome? (Intake.find? settings.intakeCall) = some intake)
    (hascription : intake.ascription = some ascription) :
    (resolve settings.memberStyle (TypeTable.ofScripts settings.memberStyle scripts)
      ascription).members.Every Member.IsCalmEntry := by
  have hdeclared : ∀ script ∈ scripts, ∀ d ∈ TypeDeclaration.all settings.memberStyle script,
      ∃ n word place, TypeDeclaration.met? settings.memberStyle script n = some word ∧
        word.stop.IsUnbroken ∧
        TypeDeclaration.read? settings.memberStyle word = some (d, place) := by
    intro script hscript d hd
    obtain ⟨n, word, place, hmet, hread⟩ := TypeDeclaration.exists_met?_of_mem_all hd
    exact ⟨n, word, place, hmet,
      TypeDeclaration.isUnbroken_of_met? (hliterals script hscript) hmet, hread⟩
  have hparents : (TypeTable.ofScripts settings.memberStyle scripts).Every
      fun _ d => ∀ parent ∈ d.parents, parent.IsUnbroken := by
    refine TypeTable.every_ofScripts (by simp) ?_ ?_
    · intro name d other hd hother parent hparent
      exact (mem_foldl_addNew hparent).elim (hd parent) (hother parent)
    · intro script hscript d hd
      obtain ⟨n, word, place, -, hunbroken, hread⟩ := hdeclared script hscript d hd
      exact (TypeDeclaration.isReadFrom_read? hread).parents hunbroken
  have hunbroken : ascription.IsUnbroken := by
    obtain ⟨script, hscript, hfind⟩ := List.exists_of_findSome?_eq_some hintake
    exact Intake.isUnbroken_ascription hcall (hliterals script hscript) hfind hascription
  refine Resolution.every_resolve (TypeTable.every_ofScripts ?_ ?_ ?_) ?_
  · exact fun _ _ => OrderedMap.every_empty
  · exact fun name d other hd hother hreached => (hd hreached).extend (hother hreached)
  · intro script hscript d hd hreached
    obtain ⟨n, word, place, hmet, hplace, hread⟩ := hdeclared script hscript d hd
    rcases (TypeDeclaration.isReadFrom_read? hread).members with hempty | ⟨body, hbody, hscan⟩
    · rw [hempty]
      exact OrderedMap.every_empty
    · rw [hscan]
      exact Member.every_scan (TypeDeclaration.isUnbroken_body? hplace hbody)
        (hbodies body (.declared hintake hascription hscript hmet hread hreached hbody)) _
  · intro body hreached
    have hbody : body.IsUnbroken := by
      rcases hreached with hpart | ⟨hpart, -⟩
      · exact TypePart.isUnbroken_inside (by decide)
          (isUnbroken_of_reachable hunbroken hparents hpart)
      · exact IsUnbroken.of_sign (s := []) (isUnbroken_of_reachable hunbroken hparents hpart)
          (by decide) rfl
    exact Member.every_scan hbody (hbodies body (.inline hintake hascription hreached)) _

theorem isCalmRecord_ofScripts
    (hfallbacks : ∀ type ∈ settings.fallbackTypes.values, '\n' ∉ type)
    (hliterals : ∀ script ∈ scripts, script.IsUnbroken)
    (hkeys : ∀ name, Binds settings scripts name → '\n' ∉ name)
    (hcall : ∀ c ∈ settings.intakeCall, IsPlain c)
    (hbodies : ∀ body, DrawsOn settings scripts body → body.isTameBody = true) :
    ∀ r ∈ (ofScripts settings scripts).props, IsCalmRecord r := by
  unfold ofScripts
  split
  · simp
  · rename_i intake hintake
    have hbindings : ∀ b ∈ Binding.ofPattern settings.normalizeDefaults intake.pattern,
        '\n' ∉ b.name := fun b hb => hkeys b.name ⟨intake, hintake, b, hb, rfl⟩
    unfold ofIntake
    dsimp only
    split
    · exact isCalmRecord_unite hfallbacks OrderedMap.every_empty hbindings
    · rename_i ascription hascription
      exact isCalmRecord_unite hfallbacks
        (every_resolve_calm hliterals hcall hbodies hintake hascription) hbindings

/-! ### Components with a single script -/

section Single

variable {settings : Settings} {source script pattern : Text} {ascription : Option Text}

theorem intake_of_find (hcontents : Script.contents source = [script])
    (hfind : (Intake.find? settings.intakeCall script).map (fun i => (i.pattern, i.ascription)) =
      some (pattern, ascription)) {intake : Intake}
    (hintake : (Script.contents source).findSome? (Intake.find? settings.intakeCall) =
      some intake) : intake.pattern = pattern ∧ intake.ascription = ascription := by
  rw [hcontents, List.findSome?_singleton] at hintake
  rw [hintake] at hfind
  exact Prod.mk.inj (Option.some.inj hfind)

theorem ofComponent_of_find (settings : Settings) {type : Text} {resolved : Resolution}
    (hcontents : Script.contents source = [script])
    (hfind : (Intake.find? settings.intakeCall script).map (fun i => (i.pattern, i.ascription)) =
      some (pattern, some type))
    (hresolve : resolve settings.memberStyle (.ofScripts settings.memberStyle [script])
      type = resolved) :
    ofComponent settings source = unite settings resolved.members resolved.inherits
      (Binding.ofPattern settings.normalizeDefaults pattern) := by
  obtain ⟨intake, hintake, hp⟩ := Option.map_eq_some_iff.mp hfind
  obtain ⟨rfl, hascription⟩ := Prod.mk.inj hp
  have hsome : (Script.contents source).findSome? (Intake.find? settings.intakeCall) =
      some intake := by
    rw [hcontents, List.findSome?_singleton, hintake]
  change ofScripts settings (Script.contents source) = _
  rw [ofScripts, hsome, hcontents]
  dsimp only
  rw [ofIntake, hascription]
  dsimp only
  rw [hresolve]

theorem ofScripts_of_nextAmong? {style : Member.Style}
    (h : Cursor.nextAmong? declarationWords .code [] script = none) :
    TypeTable.ofScripts style [script] = .empty := by
  have hall : TypeDeclaration.all style script = [] := by
    rw [TypeDeclaration.all, TypeDeclaration.allFrom_eq, Cursor.ofText, h]
  simp [TypeTable.ofScripts, hall]

end Single

/-! ### Components on one line -/

/-- The signature of a component is on one line exactly if every outside type that it names is.
Assumed are components where neither literals nor quoted keys have line feeds, fallback types
without line feeds, a call name without quotes and slashes, and type bodies in which every quote and
every bracket is what it looks like. -/
theorem signature_oneLine_iff {settings : Settings} {source : Text}
    (hfallbacks : ∀ type ∈ settings.fallbackTypes.values, '\n' ∉ type)
    (hliterals : ∀ script ∈ Script.contents source, script.IsUnbroken)
    (hkeys : ∀ name, Binds settings (Script.contents source) name → '\n' ∉ name)
    (hcall : ∀ c ∈ settings.intakeCall, IsPlain c)
    (hbodies : ∀ body, DrawsOn settings (Script.contents source) body → body.isTameBody = true) :
    '\n' ∉ (ofComponent settings source).signature ↔
      ∀ p ∈ (ofComponent settings source).inherits, '\n' ∉ p := by
  have hcalm : ∀ r ∈ (ofComponent settings source).props, IsCalmRecord r :=
    isCalmRecord_ofScripts hfallbacks hliterals hkeys hcall hbodies
  rw [newline_mem_signature_iff hcalm]
  simp only [not_exists, not_and]

/-- A component with a type and an annotation on several lines, and a quote in the comment of a
member. -/
def labelledScript : Text :=
  unlines ["interface P \x7b".toList, " /** It's */".toList, " a?: \x7b".toList,
    "  b: C \x7d".toList, "\x7d".toList, "let \x7b id \x7d: P".toList,
    " & C<D> = $props()".toList]

def labelledSource : Text := "<script>".toList ++ labelledScript ++ "</script>".toList

def labelledSettings : Settings := { fallbackTypes := .ofList [("id".toList, "string".toList)] }

/-- The declared type has a tame body and no parents. -/
theorem declared_labelledScript {n : Nat} {word : Cursor.Word}
    (hmet : TypeDeclaration.met? {} labelledScript n = some word) :
    (∀ body ∈ TypeDeclaration.body? word, body.isTameBody = true) ∧
      ∀ p ∈ TypeDeclaration.read? {} word, p.1.definition.parents = [] := by
  have hend : TypeDeclaration.met? {} labelledScript 8 = none := by decide +kernel
  have hall : ∀ n < 8, ∀ word ∈ TypeDeclaration.met? {} labelledScript n,
      (∀ body ∈ TypeDeclaration.body? word, body.isTameBody = true) ∧
        ∀ p ∈ TypeDeclaration.read? {} word, p.1.definition.parents = [] := by
    decide +kernel
  exact hall n (TypeDeclaration.lt_of_met? hend hmet) word hmet

theorem reachable_labelled {part : Text}
    (h : Reachable (TypeTable.ofScripts {} [labelledScript]) "P\n & C<D>".toList part) :
    part ∈ [['P'], "C<D>".toList] := by
  have hparents : (TypeTable.ofScripts {} [labelledScript]).Every fun _ d => d.parents = [] := by
    refine TypeTable.every_ofScripts (by simp) ?_ ?_
    · intro name d other hd hother
      simp [TypeDefinition.merge, hd, hother]
    · intro script hscript d hd
      obtain rfl := List.mem_singleton.mp hscript
      obtain ⟨n, word, place, hmet, hread⟩ := TypeDeclaration.exists_met?_of_mem_all hd
      exact (declared_labelledScript hmet).2 _ hread
  have hparts : topLevelParts typeOperators "P\n & C<D>".toList = [['P'], "C<D>".toList] := by
    decide +kernel
  induction h with
  | part hpart => exact hparts ▸ hpart
  | group _ _ ih => simp at ih
  | parent _ _ hdeclared hpart _ => simp [hparents.get? hdeclared] at hpart

theorem signature_oneLine_labelled :
    ((∀ script ∈ Script.contents labelledSource, script.IsUnbroken) ∧
        (∀ name, Binds labelledSettings (Script.contents labelledSource) name → '\n' ∉ name) ∧
        ∀ body, DrawsOn labelledSettings (Script.contents labelledSource) body →
          body.isTameBody = true) ∧
      '\n' ∉ (ofComponent labelledSettings labelledSource).signature := by
  have hcontents : Script.contents labelledSource = [labelledScript] :=
    Script.contents_of_readAt? (by decide +kernel)
  have hfind : (Intake.find? "$props".toList labelledScript).map
      (fun i => (i.pattern, i.ascription)) =
        some (" id ".toList, some "P\n & C<D>".toList) := by
    rw [Intake.find?, Intake.findFrom?_eq]
    decide +kernel
  have hfallbacks : ∀ type ∈ labelledSettings.fallbackTypes.values, '\n' ∉ type := by decide
  have hliterals : ∀ script ∈ Script.contents labelledSource, script.IsUnbroken := by
    rw [hcontents]
    intro script hscript
    obtain rfl := List.mem_singleton.mp hscript
    decide +kernel
  have hkeys : ∀ name, Binds labelledSettings (Script.contents labelledSource) name →
      '\n' ∉ name := by
    rintro name ⟨intake, hintake, b, hb, rfl⟩
    have hnames : ∀ b ∈ Binding.ofPattern false " id ".toList, '\n' ∉ b.name := by decide +kernel
    rw [(intake_of_find hcontents hfind hintake).1] at hb
    exact hnames b hb
  have hcall : ∀ c ∈ labelledSettings.intakeCall, IsPlain c := by
    have hall : "$props".toList.all (fun c => decide (IsPlain c)) = true := by decide
    exact fun c hc => of_decide_eq_true (List.all_eq_true.mp hall c hc)
  have hbodies : ∀ body, DrawsOn labelledSettings (Script.contents labelledSource) body →
      body.isTameBody = true := by
    rintro body (⟨-, -, hscript, hmet, -, -, hbody⟩ | ⟨hintake, hascription, hreached⟩)
    · rw [hcontents] at hscript
      obtain rfl := List.mem_singleton.mp hscript
      exact (declared_labelledScript hmet).1 _ hbody
    · rw [(intake_of_find hcontents hfind hintake).2] at hascription
      obtain rfl := Option.some.inj hascription
      rw [hcontents] at hreached
      rcases hreached with hpart | ⟨hpart, -⟩
      · simpa using reachable_labelled hpart
      · simpa using reachable_labelled hpart
  have hinherits : ∀ p ∈ (ofComponent labelledSettings labelledSource).inherits, '\n' ∉ p := by
    have hlines : ∀ part ∈ [['P'], "C<D>".toList], '\n' ∉ part := by decide
    rw [ofComponent_of_find labelledSettings hcontents hfind rfl]
    intro p hp
    obtain ⟨hreached, -⟩ := (mem_inherits_resolve_iff _ _ _ p).mp hp
    exact hlines p (reachable_labelled hreached)
  exact ⟨⟨hliterals, hkeys, hbodies⟩,
    (signature_oneLine_iff hfallbacks hliterals hkeys hcall hbodies).mpr hinherits⟩

/-- A component whose annotation is an outside type on two lines. -/
def brokenScript : Text :=
  unlines ["let \x7b\x7d: Omit<A,".toList, " B> = $props();".toList]

def brokenSource : Text := "<script>".toList ++ brokenScript ++ "</script>".toList

/-- An outside type stands in the signature as it is written, with its line feed, in a component
without literals, keys and type bodies. -/
theorem signature_brokenSource :
    (∀ script ∈ Script.contents brokenSource, script.IsUnbroken) ∧
      (∀ name, ¬ Binds {} (Script.contents brokenSource) name) ∧
      (ofComponent {} brokenSource).signature = "\x7b\x7d & Omit<A,\n B>".toList := by
  have hcontents : Script.contents brokenSource = [brokenScript] :=
    Script.contents_of_readAt? (by decide +kernel)
  have hfind : (Intake.find? "$props".toList brokenScript).map
      (fun i => (i.pattern, i.ascription)) = some ([], some "Omit<A,\n B>".toList) := by
    rw [Intake.find?, Intake.findFrom?_eq]
    decide +kernel
  have htable : TypeTable.ofScripts {} [brokenScript] = .empty :=
    ofScripts_of_nextAmong? (by decide +kernel)
  have hparts : topLevelParts typeOperators "Omit<A,\n B>".toList = ["Omit<A,\n B>".toList] := by
    decide +kernel
  have hreference : TypePart.of "Omit<A,\n B>".toList = .reference "Omit<A,\n B>".toList := by
    decide
  have hresolve : resolve {} (.ofScripts {} [brokenScript]) "Omit<A,\n B>".toList =
      ⟨[], [], .empty, ["Omit<A,\n B>".toList]⟩ := by
    rw [htable, resolve, Resolution.start, hparts, Resolution.run, dif_neg (by simp)]
    simp only [Resolution.step, List.map_cons, List.map_nil]
    rw [Resolution.stepTask_outside hreference (by decide), Resolution.run, dif_pos rfl]
    rfl
  have hsheet : ofComponent {} brokenSource =
      unite {} .empty ["Omit<A,\n B>".toList] (Binding.ofPattern false []) :=
    ofComponent_of_find {} hcontents hfind hresolve
  refine ⟨?_, ?_, ?_⟩
  · rw [hcontents]
    intro script hscript
    obtain rfl := List.mem_singleton.mp hscript
    decide +kernel
  · rintro name ⟨intake, hintake, b, hb, -⟩
    have hnone : Binding.ofPattern false [] = [] := by decide +kernel
    rw [(intake_of_find hcontents hfind hintake).1] at hb
    exact absurd (hnone ▸ hb) List.not_mem_nil
  · rw [hsheet]
    decide +kernel

/-- A component whose annotation has a comment with a single quote, in the type of a member. -/
def remarkScript : Text :=
  unlines ["let \x7b\x7d: \x7b a: \x7b // it's".toList, "\x7d \x7d = $props();".toList]

def remarkSource : Text := "<script>".toList ++ remarkScript ++ "</script>".toList

def remarkBody : Text := "\x7b a: \x7b // it's\n\x7d \x7d".toList

/-- The normal form of a type keeps the line feed behind a quote that a comment opens: the bodies
have to be tame. -/
theorem signature_remarkSource :
    (∀ script ∈ Script.contents remarkSource, script.IsUnbroken) ∧
      (ofComponent {} remarkSource).inherits = [] ∧
      (ofComponent {} remarkSource).signature =
        "\x7b a: \x7b // it's\n\x7d \x7d".toList := by
  have hcontents : Script.contents remarkSource = [remarkScript] :=
    Script.contents_of_readAt? (by decide +kernel)
  have hfind : (Intake.find? "$props".toList remarkScript).map
      (fun i => (i.pattern, i.ascription)) = some ([], some remarkBody) := by
    rw [Intake.find?, Intake.findFrom?_eq]
    decide +kernel
  have htable : TypeTable.ofScripts {} [remarkScript] = .empty :=
    ofScripts_of_nextAmong? (by decide +kernel)
  have hparts : topLevelParts typeOperators remarkBody = [remarkBody] := by decide +kernel
  have hbody : TypePart.of remarkBody = .body " a: \x7b // it's\n\x7d ".toList := by decide
  have hscan : Member.scan {} " a: \x7b // it's\n\x7d ".toList =
      .ofList [(['a'], ⟨['a'], "\x7b // it's\n\x7d".toList, false, none⟩)] := by
    rw [Member.scan, ← Member.Scan.run_iterate {} 30, Member.Scan.run_end (by decide +kernel)]
    decide +kernel
  have hresolve : resolve {} (.ofScripts {} [remarkScript]) remarkBody =
      ⟨[], [], .ofList [(['a'], ⟨['a'], "\x7b // it's\n\x7d".toList, false, none⟩)], []⟩ := by
    rw [htable, resolve, Resolution.start, hparts, Resolution.run, dif_neg (by simp)]
    simp only [Resolution.step, List.map_cons, List.map_nil]
    rw [Resolution.stepTask_body hbody, hscan, Resolution.run, dif_pos rfl]
    rfl
  have hsheet : ofComponent {} remarkSource =
      unite {} (.ofList [(['a'], ⟨['a'], "\x7b // it's\n\x7d".toList, false, none⟩)]) []
        (Binding.ofPattern false []) :=
    ofComponent_of_find {} hcontents hfind hresolve
  rw [hsheet, hcontents]
  refine ⟨?_, rfl, by decide +kernel⟩
  intro script hscript
  obtain rfl := List.mem_singleton.mp hscript
  decide +kernel

end PropSheet

end ComponentProps
