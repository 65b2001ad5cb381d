import ComponentProps.Extraction
import ComponentProps.Proofs.KeywordSearch
import ComponentProps.Proofs.Overriding
import ComponentProps.Proofs.PatternComposition

/-!
# Uniting members and bindings

Every prop is a declared member, a name that the pattern binds, or both. The two sides say different
things about it: the member its type, whether it is required and its doc comment, the binding
whether it is bindable and its default value. So the record of a prop can be read off the two sides
by its name alone. A fallback type takes the place of a type that is not known, and of nothing else.
-/

namespace ComponentProps

open Text

/-! ### Records -/

/-- Whether a prop is bindable and its default value, by what a pattern binds it to. -/
def boundAs (marker : Text) : Option Text → Bool × Option Text
  | none => (false, none)
  | some value =>
    match unwrapMarker? marker value with
    | none => (false, some value)
    | some [] => (true, none)
    | some inner => (true, some inner)

/-- The type of a prop: the declared one, or else the fallback type if there is one. -/
def typeOrFallback (fallbacks : OrderedMap Text Text) (name declared : Text) : Text :=
  if declared = unknownType then (fallbacks.get? name).getD unknownType else declared

theorem typeOrFallback_empty (name declared : Text) :
    typeOrFallback .empty name declared = declared := by
  unfold typeOrFallback
  split
  · rename_i htype
    exact htype.symm
  · rfl

/-- The record of a prop, read off the declared members and the bindings. -/
def unitedRecord (settings : Settings) (members : OrderedMap Text Member)
    (bound : OrderedMap Text (Option Text)) (name : Text) : PropRecord where
  name := name
  type := typeOrFallback settings.fallbackTypes name
    ((members.get? name).elim unknownType Member.type)
  required := (members.get? name).elim false Member.required
  bindable := ((bound.get? name).elim (false, none) (boundAs settings.bindableMarker)).1
  default := ((bound.get? name).elim (false, none) (boundAs settings.bindableMarker)).2
  doc := (members.get? name).bind Member.doc

/-- The names of the props: the members in order, and then what only the pattern binds. -/
def unitedNames (members : OrderedMap Text Member) (bound : OrderedMap Text (Option Text)) :
    List Text :=
  members.keys ++ bound.keys.filter fun name => (members.get? name).isNone

theorem unitedNames_eq (members : OrderedMap Text Member)
    (bound : OrderedMap Text (Option Text)) :
    unitedNames members bound = members.keys ++ bound.keys.filter (· ∉ members.keys) := by
  refine congrArg (members.keys ++ ·) (List.filter_congr fun name _ => ?_)
  rw [Bool.eq_iff_iff, Option.isNone_iff_eq_none, decide_eq_true_eq, OrderedMap.get?_eq_none_iff]

namespace PropRecord

/-- What a prop has from its declaration. -/
def declaration (r : PropRecord) : Text × Text × Bool × Option Text :=
  (r.name, r.type, r.required, r.doc)

theorem bind_eq (marker : Text) (default : Option Text) (r : PropRecord) :
    r.bind marker default =
      { r with bindable := (boundAs marker default).1, default := (boundAs marker default).2 } := by
  unfold bind boundAs
  cases default with
  | none => rfl
  | some value =>
      dsimp only
      cases unwrapMarker? marker value with
      | none => rfl
      | some inner => cases inner <;> rfl

theorem withFallback_eq (fallbacks : OrderedMap Text Text) (r : PropRecord) :
    r.withFallback fallbacks = { r with type := typeOrFallback fallbacks r.name r.type } := by
  obtain ⟨name, type, required, bindable, default, doc⟩ := r
  unfold withFallback typeOrFallback isUntyped
  by_cases htype : type = unknownType
  · subst htype
    cases fallbacks.get? name <;> simp
  · simp [htype]

theorem withFallback_empty (r : PropRecord) : r.withFallback .empty = r := by
  unfold withFallback
  split <;> rfl

end PropRecord

namespace PropSheet

/-! ### Entering bindings -/

variable (marker : Text)

theorem keys_foldl_enter {props : OrderedMap Text PropRecord} {names : List Text}
    (h : props.keys = names.eraseDups) (bs : List Binding) :
    (bs.foldl (enter marker) props).keys = (names ++ bs.map Binding.name).eraseDups :=
  OrderedMap.keys_foldl_insert Binding.name
    (fun (props : OrderedMap Text PropRecord) b =>
      ((props.get? b.name).getD (.untyped b.name)).bind marker b.default) h bs

/-- A binding changes the prop of its name and no other. -/
theorem get?_foldl_enter (props : OrderedMap Text PropRecord)
    (bound : OrderedMap Text (Option Text)) (name : Text) :
    ((bound.entries.map fun e => Binding.mk e.1 e.2).foldl (enter marker) props).get? name =
      match bound.get? name with
      | none => props.get? name
      | some default => some (((props.get? name).getD (.untyped name)).bind marker default) := by
  have hbound : bound.get? name = (bound.entries.find? fun e => e.1 = name).map Prod.snd := rfl
  have hdistinct := bound.distinct
  rw [hbound]
  revert hdistinct
  induction bound.entries generalizing props with
  | nil => exact fun _ => rfl
  | cons e es ih =>
      intro hdistinct
      obtain ⟨hfirst, hrest⟩ := List.nodup_cons.mp hdistinct
      rw [List.map_cons, List.foldl_cons, ih _ hrest, enter, OrderedMap.get?_insert]
      by_cases hk : e.1 = name
      · have hnone : (es.find? fun d => d.1 = name) = none := by
          refine List.find?_eq_none.mpr fun d hd hsame => hfirst ?_
          rw [hk, ← of_decide_eq_true hsame]
          exact List.mem_map_of_mem hd
        simp [hnone, hk]
      · simp [hk]

/-! ### Uniting -/

variable {settings : Settings} {members : OrderedMap Text Member}
  {bound : OrderedMap Text (Option Text)}

/-- The props known when all bindings have been entered, before fallback types are given. -/
def entered (marker : Text) (members : OrderedMap Text Member)
    (bound : OrderedMap Text (Option Text)) : OrderedMap Text PropRecord :=
  (bound.entries.map fun e => Binding.mk e.1 e.2).foldl (enter marker)
    (members.mapValues PropRecord.ofMember)

theorem keys_entered (members : OrderedMap Text Member) (bound : OrderedMap Text (Option Text)) :
    (entered marker members bound).keys = unitedNames members bound := by
  have hdeclared : (members.mapValues PropRecord.ofMember).keys = members.keys.eraseDups := by
    rw [OrderedMap.keys_mapValues, eraseDups_of_nodup members.nodup_keys]
  have hnames : (bound.entries.map fun e => Binding.mk e.1 e.2).map Binding.name = bound.keys := by
    rw [List.map_map]
    rfl
  rw [entered, keys_foldl_enter marker hdeclared, hnames,
    eraseDups_append_of_nodup members.nodup_keys bound.nodup_keys, unitedNames_eq]

theorem nodup_unitedNames (members : OrderedMap Text Member)
    (bound : OrderedMap Text (Option Text)) : (unitedNames members bound).Nodup := by
  rw [unitedNames_eq, ← eraseDups_append_of_nodup members.nodup_keys bound.nodup_keys]
  exact nodup_eraseDups _

/-- An entered prop has the record that the two sides have for its name, but for its fallback
type. -/
theorem get?_entered (settings : Settings) {name : Text}
    (hname : name ∈ unitedNames members bound) :
    (entered settings.bindableMarker members bound).get? name =
      some (unitedRecord { settings with fallbackTypes := .empty } members bound name) := by
  rw [entered, get?_foldl_enter, OrderedMap.get?_mapValues, unitedRecord,
    typeOrFallback_empty]
  cases hmember : members.get? name with
  | none =>
      cases hbinding : bound.get? name with
      | none =>
          rcases List.mem_append.mp hname with hdeclared | hnew
          · exact absurd hdeclared (OrderedMap.get?_eq_none_iff.mp hmember)
          · exact absurd (List.mem_of_mem_filter hnew) (OrderedMap.get?_eq_none_iff.mp hbinding)
      | some default =>
          dsimp only
          rw [PropRecord.bind_eq]
          rfl
  | some member =>
      cases hbinding : bound.get? name with
      | none => rfl
      | some default =>
          dsimp only
          rw [PropRecord.bind_eq]
          rfl

theorem withFallback_unitedRecord (settings : Settings) (members : OrderedMap Text Member)
    (bound : OrderedMap Text (Option Text)) (name : Text) :
    (unitedRecord { settings with fallbackTypes := .empty } members bound name).withFallback
      settings.fallbackTypes = unitedRecord settings members bound name := by
  rw [PropRecord.withFallback_eq, unitedRecord, typeOrFallback_empty, unitedRecord]

/-- Uniting gives each name the record that the two sides have for it. -/
theorem props_unite (settings : Settings) (members : OrderedMap Text Member)
    (bound : OrderedMap Text (Option Text)) (inherits : List Text) :
    (unite settings members inherits (bound.entries.map fun e => Binding.mk e.1 e.2)).props =
      (unitedNames members bound).map (unitedRecord settings members bound) := by
  have hkeys := keys_entered settings.bindableMarker members bound
  have hvalues : (entered settings.bindableMarker members bound).values =
      (unitedNames members bound).map
        (unitedRecord { settings with fallbackTypes := .empty } members bound) := by
    rw [← hkeys]
    exact OrderedMap.values_eq_map_keys fun name hname => get?_entered settings (hkeys ▸ hname)
  calc (unite settings members inherits (bound.entries.map fun e => Binding.mk e.1 e.2)).props
      = (entered settings.bindableMarker members bound).values.map
          (·.withFallback settings.fallbackTypes) := rfl
    _ = (unitedNames members bound).map (unitedRecord settings members bound) := by
        rw [hvalues, List.map_map]
        exact List.map_congr_left fun name _ =>
          withFallback_unitedRecord settings members bound name

/-- Fallback types change the types that are not known and nothing else. -/
theorem props_unite_fallbacks (settings : Settings) (members : OrderedMap Text Member)
    (inherits : List Text) (bindings : List Binding) :
    (unite settings members inherits bindings).props =
      (unite { settings with fallbackTypes := .empty } members inherits bindings).props.map
        fun r => { r with type := typeOrFallback settings.fallbackTypes r.name r.type } := by
  have hnone : ∀ rs : List PropRecord, rs.map (·.withFallback .empty) = rs := by
    intro rs
    simp [PropRecord.withFallback_empty]
  simp only [unite, hnone]
  exact List.map_congr_left fun r _ => PropRecord.withFallback_eq settings.fallbackTypes r

/-- Bindings leave the declarations of the members as they are. -/
theorem declarations_unite (settings : Settings) (members : OrderedMap Text Member)
    (bound : OrderedMap Text (Option Text)) (inherits : List Text) :
    ((unite settings members inherits
        (bound.entries.map fun e => Binding.mk e.1 e.2)).props.take members.size).map
        PropRecord.declaration =
      (unite settings members inherits []).props.map PropRecord.declaration := by
  have hsize : members.size = members.keys.length := by simp [OrderedMap.size, OrderedMap.keys]
  have halone := props_unite settings members .empty inherits
  have hnames : unitedNames members .empty = members.keys := List.append_nil _
  rw [hnames] at halone
  rw [props_unite settings members bound, unitedNames, List.map_append, hsize,
    List.take_left' (List.length_map _), List.map_map]
  exact (congrArg (List.map PropRecord.declaration) halone).trans (List.map_map ..) |>.symm

end PropSheet

/-! ### The props of a component -/

/-- The members of the annotation of an intake statement, and the outside types that it names. -/
def Intake.resolved (settings : Settings) (scripts : List Text) (intake : Intake) : Resolution :=
  match intake.ascription with
  | none => ⟨[], [], .empty, []⟩
  | some ascription =>
    resolve settings.memberStyle (TypeTable.ofScripts settings.memberStyle scripts) ascription

namespace PropSheet

theorem ofIntake_eq_unite (settings : Settings) (scripts : List Text) (intake : Intake) :
    ofIntake settings scripts intake =
      unite settings (intake.resolved settings scripts).members
        (intake.resolved settings scripts).inherits
        (Binding.ofPattern settings.normalizeDefaults intake.pattern) := by
  unfold ofIntake Intake.resolved
  cases intake.ascription <;> rfl

theorem ofScripts_of_first {settings : Settings} {before : List Text} {script : Text}
    {intake : Intake} (after : List Text)
    (hbefore : ∀ earlier ∈ before, Intake.find? settings.intakeCall earlier = none)
    (hscript : Intake.find? settings.intakeCall script = some intake) :
    ofScripts settings (before ++ script :: after) =
      ofIntake settings (before ++ script :: after) intake := by
  have hfirst : (before ++ script :: after).findSome? (Intake.find? settings.intakeCall) =
      some intake := by
    rw [List.findSome?_append, List.findSome?_eq_none_iff.mpr hbefore, Option.none_or,
      List.findSome?_cons, hscript]
  rw [ofScripts, hfirst]

/-- The props unite declared members and bindings: the members come first, in order, then what only
the pattern binds. No name comes twice, every record is read off the two sides by its name, and the
declarations of the members are those of the members without any bindings. -/
structure Unites (settings : Settings) (members : OrderedMap Text Member)
    (bound : OrderedMap Text (Option Text)) (props : List PropRecord) : Prop where
  names : props.map PropRecord.name = members.keys ++ bound.keys.filter (· ∉ members.keys)
  distinct : (props.map PropRecord.name).Nodup
  records : ∀ r ∈ props, r = unitedRecord settings members bound r.name
  declarations : (props.take members.size).map PropRecord.declaration =
    (unite settings members [] []).props.map PropRecord.declaration

theorem unites_ofIntake (settings : Settings) (scripts : List Text) (intake : Intake) :
    Unites settings (intake.resolved settings scripts).members
      (Binding.scan settings.normalizeDefaults intake.pattern)
      (ofIntake settings scripts intake).props := by
  have hprops := props_unite settings (intake.resolved settings scripts).members
    (Binding.scan settings.normalizeDefaults intake.pattern)
    (intake.resolved settings scripts).inherits
  rw [ofIntake_eq_unite, Binding.ofPattern]
  refine ⟨?_, ?_, ?_, declarations_unite settings _ _ _⟩
  · rw [hprops, List.map_map]
    exact (List.map_id _).trans (unitedNames_eq _ _)
  · rw [hprops, List.map_map]
    exact (List.map_id _).symm ▸ nodup_unitedNames _ _
  · intro r hr
    rw [hprops] at hr
    obtain ⟨name, -, rfl⟩ := List.mem_map.mp hr
    rfl

/-- Scripts without an intake statement give no props. Otherwise the first intake statement counts:
the props unite the members that its annotation resolves to and the bindings of its pattern. In any
case fallback types change the types that are not known and nothing else. -/
theorem ofScripts_unites (settings : Settings) (scripts : List Text) :
    ((∀ script ∈ scripts, Intake.find? settings.intakeCall script = none) →
        ofScripts settings scripts = {}) ∧
      (∀ before script after intake, scripts = before ++ script :: after →
        (∀ earlier ∈ before, Intake.find? settings.intakeCall earlier = none) →
        Intake.find? settings.intakeCall script = some intake →
          Unites settings (intake.resolved settings scripts).members
            (Binding.scan settings.normalizeDefaults intake.pattern)
            (ofScripts settings scripts).props ∧
          (ofScripts settings scripts).inherits = (intake.resolved settings scripts).inherits) ∧
      (ofScripts settings scripts).inherits =
        (ofScripts { settings with fallbackTypes := .empty } scripts).inherits ∧
      (ofScripts settings scripts).props =
        (ofScripts { settings with fallbackTypes := .empty } scripts).props.map
          fun r => { r with type := typeOrFallback settings.fallbackTypes r.name r.type } := by
  refine ⟨?_, ?_, ?_⟩
  · intro hnone
    rw [ofScripts, List.findSome?_eq_none_iff.mpr hnone]
  · rintro before script after intake rfl hbefore hscript
    rw [ofScripts_of_first after hbefore hscript]
    refine ⟨unites_ofIntake settings _ intake, ?_⟩
    rw [ofIntake_eq_unite, unite]
  · unfold ofScripts
    dsimp only
    cases scripts.findSome? (Intake.find? settings.intakeCall) with
    | none => exact ⟨rfl, rfl⟩
    | some intake =>
        dsimp only
        rw [ofIntake_eq_unite, ofIntake_eq_unite]
        exact ⟨rfl, props_unite_fallbacks settings _ _ _⟩

/-- A script that declares a type. -/
def baseScript : Text := "interface Base \x7b id: string \x7d".toList

/-- A script whose pattern binds a member of the type and a name that the type does not have. -/
def openScript : Text := "let \x7bopen = $bindable(), id = 1\x7d: Base = $props()".toList

/-- The type is declared in one script, and the intake statement stands in the next. -/
theorem ofScripts_unites_two :
    ∃ intake : Intake, intake.pattern = "open = $bindable(), id = 1".toList ∧
      intake.ascription = some "Base".toList ∧
      Unites {} (intake.resolved {} [baseScript, openScript]).members
        (Binding.scan false intake.pattern) (ofScripts {} [baseScript, openScript]).props := by
  have hnone : Intake.find? ({} : Settings).intakeCall baseScript = none := by
    rw [Intake.find?, Intake.findFrom?_eq]
    rfl
  obtain ⟨intake, hfind, hpattern, hascription⟩ : ∃ intake : Intake,
      Intake.find? ({} : Settings).intakeCall openScript = some intake ∧
        intake.pattern = "open = $bindable(), id = 1".toList ∧
        intake.ascription = some "Base".toList := by
    rw [Intake.find?, Intake.findFrom?_eq]
    exact ⟨_, rfl, rfl, rfl⟩
  have hunites := (ofScripts_unites {} [baseScript, openScript]).2.1 [baseScript] openScript []
    intake rfl (List.forall_mem_singleton.mpr hnone) hfind
  exact ⟨intake, hpattern, hascription, hunites.1⟩

end PropSheet

end ComponentProps
