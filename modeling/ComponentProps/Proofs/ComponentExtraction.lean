import ComponentProps.Proofs.Gathering
import ComponentProps.Proofs.ScriptReading
import ComponentProps.Proofs.Uniting

/-!
# Extracting the props of a printed component

The props extracted from a printed component are those that its tree has, as long as nothing in the
script looks like the end of the script element.
-/

namespace ComponentProps

open Text

namespace Component

/-! ### The sheet -/

theorem get?_properties (ps : List Property) (name : Text) :
    (OrderedMap.ofList (ps.map Property.entry)).get? name =
      (property? ps name).map fun p => p.declared.toMember none := by
  rw [OrderedMap.get?_ofList, property?, ← List.map_reverse, List.find?_map, Option.map_map]
  rfl

theorem get?_bindings (items : List Item) (name : Text) :
    (OrderedMap.ofList ((bindings items).map fun b => (b.1, b.2.map Default.print))).get? name =
      ((bindings items).reverse.find? fun b => b.1 = name).map fun b => b.2.map Default.print := by
  rw [OrderedMap.get?_ofList, ← List.map_reverse, List.find?_map, Option.map_map]
  rfl

/-- The props that are known when all bindings have been entered. -/
def entered (ps : List Property) (items : List Item) : OrderedMap Text PropRecord :=
  ((OrderedMap.ofList ((bindings items).map fun b => (b.1, b.2.map Default.print))).entries.map
    fun e => Binding.mk e.1 e.2).foldl (PropSheet.enter bindableCall.text)
      ((OrderedMap.ofList (ps.map Property.entry)).mapValues PropRecord.ofMember)

theorem keys_entered (ps : List Property) (items : List Item) :
    (entered ps items).keys = (propNames ps items).eraseDups := by
  have hdeclared : ((OrderedMap.ofList (ps.map Property.entry)).mapValues
      PropRecord.ofMember).keys = (ps.map fun p => p.key.text).eraseDups := by
    rw [OrderedMap.keys_mapValues, OrderedMap.keys_ofList, List.map_map]
    rfl
  have hbound := OrderedMap.keys_ofList
    ((bindings items).map fun b => (b.1, b.2.map Default.print))
  have hnames : ∀ m : OrderedMap Text (Option Text),
      (m.entries.map fun e => Binding.mk e.1 e.2).map Binding.name = m.keys := by
    intro m
    rw [List.map_map]
    rfl
  rw [entered, PropSheet.keys_foldl_enter bindableCall.text hdeclared, hnames, hbound,
    eraseDups_append_eraseDups, List.map_map]
  rfl

/-- A prop that is known at the end has the record that the tree gives it. -/
theorem get?_entered {ps : List Property} {items : List Item} {name : Text}
    (h : name ∈ propNames ps items) :
    (entered ps items).get? name = some (record ps items name) := by
  rw [entered, PropSheet.get?_foldl_enter, get?_bindings, OrderedMap.get?_mapValues, get?_properties]
  cases hproperty : property? ps name with
  | none =>
      cases hbinding : (bindings items).reverse.find? fun b => b.1 = name with
      | none =>
          rcases List.mem_append.mp h with hmem | hmem
          · obtain ⟨p, hp, rfl⟩ := List.mem_map.mp hmem
            have hno := List.find?_eq_none.mp hproperty p (List.mem_reverse.mpr hp)
            simp at hno
          · obtain ⟨b, hb, rfl⟩ := List.mem_map.mp hmem
            have hno := List.find?_eq_none.mp hbinding b (List.mem_reverse.mpr hb)
            simp at hno
      | some b =>
          simp only [record, default?, hproperty, hbinding, Option.map_some, bind_print]
          rfl
  | some p =>
      cases hbinding : (bindings items).reverse.find? fun b => b.1 = name with
      | none =>
          simp only [record, default?, hproperty, hbinding]
          rfl
      | some b =>
          simp only [record, default?, hproperty, hbinding, Option.map_some, bind_print]
          rfl

/-- Gathered properties and the bindings of the pattern make up the sheet. -/
theorem unite_eq_sheet (g : Gathering) (r : Receiver) :
    PropSheet.unite {} (OrderedMap.ofList (g.properties.map Property.entry)) g.outside
      (Binding.ofPattern false r.pattern) = sheet g r.items := by
  have hkeys := keys_entered g.properties r.items
  have hvalues : (entered g.properties r.items).values =
      (propNames g.properties r.items).eraseDups.map (record g.properties r.items) := by
    rw [← hkeys]
    refine OrderedMap.values_eq_map_keys fun name hname => ?_
    rw [hkeys, List.mem_eraseDups] at hname
    exact get?_entered hname
  have hfallback : ∀ rs : List PropRecord, rs.map (·.withFallback .empty) = rs := by
    intro rs
    simp [PropRecord.withFallback_empty]
  rw [Binding.ofPattern, scan_pattern]
  change PropSheet.mk ((entered g.properties r.items).values.map (·.withFallback .empty))
    g.outside = _
  rw [hfallback, hvalues]
  rfl

theorem ofIntake_eq_sheet {c : Component} {g : Gathering} {intake : Intake}
    (hg : Gathers c.declarations {} c.receiver.types g)
    (hpattern : intake.pattern = c.receiver.pattern)
    (hascription : intake.ascription = some c.receiver.annotation) :
    PropSheet.ofIntake {} [c.script] intake = sheet g c.receiver.items := by
  have hstyle : ({} : Settings).memberStyle = {} := rfl
  have htable : TypeTable.ofScripts {} [c.script] = typeTable c.declarations := by
    rw [TypeTable.ofScripts, List.flatMap_singleton, all_script, typeTable]
  have hresolve : resolve {} (typeTable c.declarations) c.receiver.annotation =
      g.toResolution [] := resolve_gathers hg
  rw [PropSheet.ofIntake, hascription, hpattern]
  dsimp only
  rw [hstyle, htable, hresolve]
  exact unite_eq_sheet g c.receiver

/-- What is gathered from the types of the annotation gives the props that are extracted. -/
theorem ofComponent_eq_sheet {c : Component} (h : c.IsEnclosed) {g : Gathering}
    (hg : Gathers c.declarations {} c.receiver.types g) :
    PropSheet.ofComponent {} c.print = sheet g c.receiver.items := by
  obtain ⟨intake, hfind, hpattern, hascription⟩ := find?_script c
  have hcall : ({} : Settings).intakeCall = propsCall.text := rfl
  have hfirst : [c.script].findSome? (Intake.find? ({} : Settings).intakeCall) = some intake := by
    rw [hcall, List.findSome?_cons, hfind]
  calc PropSheet.ofComponent {} c.print
      = PropSheet.ofScripts {} [c.script] := by rw [PropSheet.ofComponent, blocks_print c h]
    _ = PropSheet.ofIntake {} [c.script] intake := by rw [PropSheet.ofScripts, hfirst]
    _ = sheet g c.receiver.items := ofIntake_eq_sheet hg hpattern hascription

/-- The props extracted from a printed component are the props of its tree. -/
theorem ofComponent_print (c : Component) (h : c.IsEnclosed) (s : PropSheet) :
    PropSheet.ofComponent {} c.print = s ↔ c.Yields s := by
  constructor
  · rintro rfl
    obtain ⟨g, hg, -⟩ := exists_gathers c.declarations {} c.receiver.types
    exact ⟨g, hg, ofComponent_eq_sheet h hg⟩
  · rintro ⟨g, hg, rfl⟩
    exact ofComponent_eq_sheet h hg

/-! ### Two components -/

def idName : Name := ⟨⟨"id".toList, by decide⟩, by decide⟩

def sizeName : Name := ⟨⟨"size".toList, by decide⟩, by decide⟩

def baseName : Name := ⟨⟨"Base".toList, by decide⟩, by decide⟩

def propsName : Name := ⟨⟨"Props".toList, by decide⟩, by decide⟩

def idProperty : Property := ⟨idName, false, .name ⟨"string".toList, by decide⟩, by decide⟩

def sizeProperty : Property := ⟨sizeName, true, .name ⟨"number".toList, by decide⟩, by decide⟩

/-- A bindable default value. -/
def bindableThree : Default where
  value := "3".toList
  bindable := true
  valid := ⟨⟨by decide, by decide⟩, by decide, by decide, by decide, by decide⟩
  oneLine := by decide
  unmarked := by decide
  free := by decide

/-- A component whose props come from an alias, its parent and an outside type. -/
def sized : Component where
  before := [.body propsName [baseName] [sizeProperty]]
  receiver := ⟨[.prop sizeName none (some bindableThree),
    .rest ⟨⟨"others".toList, by decide⟩, by decide⟩], propsName,
    [⟨⟨"Outside".toList, by decide⟩, by decide⟩]⟩
  behind := [.interface baseName [propsName] [idProperty]]

/-- The parent's property comes first, although the parent is declared last and names the alias as
its own parent. -/
theorem ofComponent_print_sized :
    sized.IsEnclosed ∧ PropSheet.ofComponent {} sized.print =
      ⟨[⟨"id".toList, "string".toList, true, false, none, none⟩,
        ⟨"size".toList, "number".toList, false, true, some "3".toList, none⟩],
        ["Outside".toList]⟩ := by
  have h : sized.IsEnclosed := by decide +kernel
  have hbase : Gathers sized.declarations { visited := ["Props".toList] }
      (parentsOf sized.declarations "Props".toList)
      { visited := ["Base".toList, "Props".toList], properties := [idProperty] } :=
    .enter (by decide) (by decide) (.again (by decide) (by decide) (.nil _)) (.nil _)
  have hgathers : Gathers sized.declarations {} sized.receiver.types
      { visited := ["Base".toList, "Props".toList]
        properties := [idProperty, sizeProperty]
        outside := ["Outside".toList] } :=
    .enter (by decide) (by decide) hbase (.outside (by decide) (.nil _))
  exact ⟨h, (ofComponent_print sized h _).mpr ⟨_, hgathers, rfl⟩⟩

/-- A component with a literal type that looks like the end of the script element. -/
def unclosed : Component where
  before := [.interface propsName [] [⟨idName, false,
    .literal ⟨'\'', "</script>".toList, by decide, by decide⟩, by simp [TypeExpr.names]⟩]]
  receiver := ⟨[.prop idName none none], propsName, []⟩
  behind := []

/-- The element ends within the literal, and what is left of the script receives no props. -/
theorem ofComponent_unclosed : PropSheet.ofComponent {} unclosed.print = {} := by
  obtain ⟨lang, isModule, start, behind, hread⟩ : ∃ lang isModule start behind,
      Script.readAt? ⟨[], unclosed.print⟩ =
        some (some ⟨"\ninterface Props \x7b id: '".toList, lang, isModule, start⟩,
          ⟨behind, "'; \x7d\nlet \x7b id \x7d: Props = $props();\n</script>".toList⟩) :=
    ⟨_, _, _, _, rfl⟩
  have hblocks : (Script.blocks unclosed.print).map Script.content =
      ["\ninterface Props \x7b id: '".toList] := by
    rw [Script.blocks, Cursor.ofText, blocksFrom_eq, hread]
    dsimp only
    rw [blocksFrom_eq_nil (by decide)]
    rfl
  have hkeyword : Cursor.nextAmong? Intake.keywords .code []
      "\ninterface Props \x7b id: '".toList = none := by decide
  have hfind : Intake.find? ({} : Settings).intakeCall
      "\ninterface Props \x7b id: '".toList = none := by
    rw [Intake.find?, Intake.findFrom?_eq, Cursor.ofText, hkeyword]
  rw [PropSheet.ofComponent, hblocks, PropSheet.ofScripts, List.findSome?_cons, hfind]
  rfl

/-- A tree has the props that its pattern binds also where the script element ends early. -/
theorem unclosed_not_yields : ¬ unclosed.Yields (PropSheet.ofComponent {} unclosed.print) := by
  rw [ofComponent_unclosed]
  rintro ⟨g, -, hsheet⟩
  have hprops := (congrArg PropSheet.props hsheet).symm
  rw [sheet, List.map_eq_nil_iff] at hprops
  have hmem : idName.text ∈ (propNames g.properties unclosed.receiver.items).eraseDups :=
    List.mem_eraseDups.mpr (List.mem_append_right _ List.mem_cons_self)
  rw [hprops] at hmem
  contradiction

end Component

end ComponentProps
