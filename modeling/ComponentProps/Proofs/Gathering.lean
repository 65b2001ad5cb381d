import ComponentProps.Proofs.DeclarationReading
import ComponentProps.Proofs.Maps
import ComponentProps.Proofs.Reachability

/-!
# Gathering the properties of declared types

The table of some declarations holds under each name the parents and properties of all declarations
of that name. Resolving an annotation works off an agenda, and gathering follows the declarations
from parent to parent. The two come to the same properties and outside types, and gathering always
comes to an end, since it enters each declared type once.
-/

namespace ComponentProps

open Text

theorem foldl_addNew (xs ys : List Text) :
    ys.foldl addNew xs.eraseDups = (xs ++ ys).eraseDups := by
  induction ys using List.reverseRecOn with
  | nil => simp
  | append_singleton ys y ih =>
      rw [List.foldl_append, ih, ← List.append_assoc, eraseDups_concat]
      simp only [List.foldl_cons, List.foldl_nil, addNew_eq, List.mem_eraseDups]

namespace TypeTable

theorem keys_foldl_declare (ds : List TypeDeclaration) :
    (ds.foldl declare .empty).keys = (ds.map TypeDeclaration.name).eraseDups := by
  have hempty : OrderedMap.keys (.empty : TypeTable) = ([] : List Text).eraseDups := rfl
  exact OrderedMap.keys_foldl_insert TypeDeclaration.name
    (fun table d => ((table.get? d.name).getD {}).merge d.definition) hempty ds

/-- A name stands for all its declarations, merged in their order. -/
theorem getD_foldl_declare (ds : List TypeDeclaration) (name : Text) :
    ((ds.foldl declare .empty).get? name).getD {} =
      (ds.filter fun d => d.name = name).foldl (fun merged d => merged.merge d.definition) {} := by
  induction ds using List.reverseRecOn with
  | nil => rfl
  | append_singleton ds d ih =>
      rw [List.foldl_append, List.foldl_cons, List.foldl_nil, declare, OrderedMap.get?_insert,
        List.filter_append, List.foldl_append]
      by_cases hname : d.name = name
      · simp [hname, ih]
      · simp [hname, ih]

/-- A change of definitions that agrees with merging may be made before declarations are entered. -/
theorem mapValues_foldl_declare {f : TypeDefinition → TypeDefinition} (hempty : f {} = {})
    (hmerge : ∀ d other, f (d.merge other) = (f d).merge (f other)) (ds : List TypeDeclaration) :
    (ds.foldl declare .empty).mapValues (fun _ d => f d) =
      (ds.map fun d => { d with definition := f d.definition }).foldl declare .empty := by
  induction ds using List.reverseRecOn with
  | nil => rfl
  | append_singleton ds d ih =>
      have hget : f (((ds.foldl declare .empty).get? d.name).getD {}) =
          (((ds.foldl declare .empty).mapValues fun _ d => f d).get? d.name).getD {} := by
        rw [OrderedMap.get?_mapValues]
        cases (ds.foldl declare .empty).get? d.name with
        | none => exact hempty
        | some definition => rfl
      rw [List.foldl_concat, declare, OrderedMap.mapValues_insert, hmerge, hget, ih, List.map_append,
        List.map_singleton, List.foldl_concat]
      rfl

end TypeTable

namespace Component

/-! ### The table of a component -/

def typeTable (ds : List Declaration) : TypeTable :=
  (ds.map Declaration.toTypeDeclaration).foldl TypeTable.declare .empty

theorem foldl_merge (ds : List Declaration) :
    (ds.map Declaration.toTypeDeclaration).foldl
        (fun (merged : TypeDefinition) d => merged.merge d.definition) {} =
      ⟨OrderedMap.ofList ((ds.flatMap Declaration.properties).map Property.entry),
        (ds.flatMap fun d => d.parents.map Name.text).eraseDups⟩ := by
  induction ds using List.reverseRecOn with
  | nil => rfl
  | append_singleton ds d ih =>
      have hparents : (d.parents.map Name.text).foldl addNew [] =
          (d.parents.map Name.text).eraseDups := foldl_addNew [] _
      rw [List.map_append, List.foldl_append, ih, List.map_singleton, List.foldl_cons,
        List.foldl_nil, TypeDefinition.merge, Declaration.toTypeDeclaration]
      dsimp only
      rw [OrderedMap.ofList_extend_ofList, hparents, foldl_addNew, eraseDups_append_eraseDups]
      simp

theorem mem_keys_typeTable {ds : List Declaration} {name : Text} :
    name ∈ (typeTable ds).keys ↔ IsDeclared ds name := by
  rw [typeTable, TypeTable.keys_foldl_declare, List.mem_eraseDups, List.map_map, List.mem_map]
  rfl

theorem get?_typeTable {ds : List Declaration} {name : Text} (h : IsDeclared ds name) :
    (typeTable ds).get? name = some
      ⟨OrderedMap.ofList ((propertiesOf ds name).map Property.entry), parentsOf ds name⟩ := by
  obtain ⟨definition, hget⟩ := OrderedMap.exists_get?_of_mem_keys (mem_keys_typeTable.mpr h)
  have hmerged := TypeTable.getD_foldl_declare (ds.map Declaration.toTypeDeclaration) name
  have hfold := foldl_merge (ds.filter fun d => d.name.text = name)
  rw [List.filter_map] at hmerged
  rw [hget]
  refine congrArg some ?_
  calc definition = ((typeTable ds).get? name).getD {} := by rw [hget]; rfl
    _ = _ := hmerged
    _ = _ := hfold

/-! ### Gathering and resolving -/

/-- The texts are names. -/
def AreNames (texts : List Text) : Prop := ∀ t ∈ texts, ∃ n : Name, n.text = t

theorem areNames_parentsOf (ds : List Declaration) (name : Text) :
    AreNames (parentsOf ds name) := by
  intro t ht
  rw [parentsOf, List.mem_eraseDups, List.mem_flatMap] at ht
  obtain ⟨d, -, hd⟩ := ht
  obtain ⟨n, -, hn⟩ := List.mem_map.mp hd
  exact ⟨n, hn⟩

theorem typePart_name (n : Name) : TypePart.of n.text = .reference n.text := by
  obtain ⟨c, more, htext, hstart, -⟩ := n.identifier.exists_cons
  have hc := isIdentChar_of_isIdentStart hstart
  have hbody : c ≠ '{' := ne_of_kind hc rfl
  have hgroup : c ≠ '(' := ne_of_kind hc rfl
  rw [Name.text, htext, TypePart.of]
  · simpa using hbody
  · simpa using hgroup

theorem withoutArguments_name (n : Name) : withoutArguments n.text = n.text := by
  have hangle : n.text.contains '<' = false := by
    rw [List.contains_eq_mem, decide_eq_false_iff_not]
    intro hmem
    exact absurd (n.identifier.isIdentChar_of_mem hmem) (by decide)
  rw [withoutArguments, hangle]
  exact Member.trim_of_hasTypeEnds n.identifier.hasTypeEnds

/-- The state of resolving where the given types have been met. -/
def Gathering.toResolution (g : Gathering) (agenda : List Task) : Resolution :=
  ⟨agenda, g.visited, OrderedMap.ofList (g.properties.map Property.entry), g.outside⟩

theorem run_task (ds : List Declaration) (g : Gathering) (task : Task) (agenda : List Task) :
    (g.toResolution (task :: agenda)).run {} (typeTable ds) =
      ((g.toResolution (task :: agenda)).stepTask {} (typeTable ds) task agenda).run {}
        (typeTable ds) := by
  have hmore : (g.toResolution (task :: agenda)).agenda ≠ [] := List.cons_ne_nil task agenda
  rw [Resolution.run, dif_neg hmore]
  rfl

/-- The own properties of a type come behind those gathered so far. -/
theorem stepTask_members {ds : List Declaration} {name : Text} (h : IsDeclared ds name)
    (g : Gathering) (task : Task) (agenda : List Task) :
    (g.toResolution (task :: agenda)).stepTask {} (typeTable ds) (.members name) agenda =
      Gathering.toResolution { g with properties := g.properties ++ propertiesOf ds name }
        agenda := by
  simp only [Resolution.stepTask, Gathering.toResolution, get?_typeTable h, Option.getD_some,
    OrderedMap.ofList_extend_ofList, List.map_append]

/-- Resolving works off the types that are gathered from, one after another. -/
theorem run_gathers {ds : List Declaration} {g g' : Gathering} {names : List Text}
    (h : Gathers ds g names g') (hnames : AreNames names) (agenda : List Task) :
    (g.toResolution (names.map .part ++ agenda)).run {} (typeTable ds) =
      (g'.toResolution agenda).run {} (typeTable ds) := by
  induction h generalizing agenda with
  | nil g => rfl
  | @outside g g' name names hout tail ih =>
      obtain ⟨⟨n, rfl⟩, hrest⟩ := List.forall_mem_cons.mp hnames
      have hkey : withoutArguments n.text ∉ (typeTable ds).keys := by
        rw [withoutArguments_name, mem_keys_typeTable]
        exact hout
      rw [List.map_cons, List.cons_append, run_task,
        Resolution.stepTask_outside (typePart_name n) hkey, addNew_eq]
      exact ih hrest agenda
  | @again g g' name names hin met tail ih =>
      obtain ⟨⟨n, rfl⟩, hrest⟩ := List.forall_mem_cons.mp hnames
      have hget := get?_typeTable hin
      rw [← withoutArguments_name n] at hget met
      rw [List.map_cons, List.cons_append, run_task,
        Resolution.stepTask_known (typePart_name n) hget met]
      exact ih hrest agenda
  | @enter g g₁ g' name names hin new parents tail ihparents ihtail =>
      obtain ⟨⟨n, rfl⟩, hrest⟩ := List.forall_mem_cons.mp hnames
      have hget := get?_typeTable hin
      have hparents := ihparents (areNames_parentsOf ds n.text)
        (.members n.text :: (names.map .part ++ agenda))
      rw [← withoutArguments_name n] at hget new
      rw [List.map_cons, List.cons_append, run_task,
        Resolution.stepTask_fresh (typePart_name n) hget new, withoutArguments_name]
      refine hparents.trans ?_
      rw [run_task, stepTask_members hin]
      exact ihtail hrest agenda

/-- Resolving an annotation gives what is gathered from its types. -/
theorem resolve_gathers {ds : List Declaration} {g : Gathering} {first : Name} {more : List Name}
    (h : Gathers ds {} ((first :: more).map Name.text) g) :
    resolve {} (typeTable ds) (first.text ++ printMore [' ', '&', ' '] more) =
      g.toResolution [] := by
  have hnames : AreNames ((first :: more).map Name.text) := by
    intro t ht
    obtain ⟨n, -, hn⟩ := List.mem_map.mp ht
    exact ⟨n, hn⟩
  have hparts : topLevelParts typeOperators (first.text ++ printMore [' ', '&', ' '] more) =
      (first :: more).map Name.text := by
    simpa using topLevelParts_intersection (by decide) (by decide) first more
      (List.forall_mem_nil _)
  have hrun := run_gathers h hnames []
  rw [List.append_nil] at hrun
  rw [resolve, Resolution.start, hparts]
  have hdone : (g.toResolution []).agenda = [] := rfl
  refine hrun.trans ?_
  rw [Resolution.run, dif_pos hdone]

/-! ### Gathering comes to an end -/

/-- How many declarations are of types that have not been met. -/
def unmet (ds : List Declaration) (visited : List Text) : Nat :=
  (ds.filter fun d => !visited.contains d.name.text).length

theorem unmet_le {ds : List Declaration} {visited visited' : List Text} (h : visited ⊆ visited') :
    unmet ds visited' ≤ unmet ds visited := by
  refine (List.monotone_filter_right ds fun d hd => ?_).length_le
  rw [Bool.not_eq_true', ← Bool.not_eq_true, List.contains_iff_mem] at hd ⊢
  exact fun hmem => hd (h hmem)

theorem unmet_lt {ds : List Declaration} {visited : List Text} {name : Text}
    (h : IsDeclared ds name) (new : name ∉ visited) :
    unmet ds (name :: visited) < unmet ds visited := by
  obtain ⟨d, hd, rfl⟩ := h
  have hothers : ds.filter (fun e => !(d.name.text :: visited).contains e.name.text) =
      (ds.filter fun e => !visited.contains e.name.text).filter
        fun e => e.name.text ≠ d.name.text := by
    simp [List.filter_filter]
  rw [unmet, unmet, hothers]
  exact List.length_filter_lt_length_iff_exists.mpr
    ⟨d, List.mem_filter.mpr ⟨hd, by simpa using new⟩, by simp⟩

/-- Gathering from types always leads to a result. The induction is on the number of types not met,
and within it on the list of types. -/
theorem exists_gathers (ds : List Declaration) (g : Gathering) (names : List Text) :
    ∃ g', Gathers ds g names g' ∧ g.visited ⊆ g'.visited := by
  obtain ⟨bound, hbound⟩ : ∃ bound, unmet ds g.visited ≤ bound := ⟨_, Nat.le_refl _⟩
  induction bound using Nat.strong_induction_on generalizing g names with
  | _ bound ihbound =>
      induction names generalizing g with
      | nil => exact ⟨g, .nil g, fun _ h => h⟩
      | cons name names ih =>
          by_cases hin : IsDeclared ds name
          · by_cases met : name ∈ g.visited
            · obtain ⟨g', hgathers, hsub⟩ := ih g hbound
              exact ⟨g', .again hin met hgathers, hsub⟩
            · have hless := Nat.lt_of_lt_of_le (unmet_lt hin met) hbound
              obtain ⟨g₁, hparents, hsub₁⟩ := ihbound _ hless
                { g with visited := name :: g.visited } (parentsOf ds name) (Nat.le_refl _)
              have hrest : unmet ds g₁.visited ≤ bound :=
                Nat.le_trans (unmet_le hsub₁) (Nat.le_of_lt hless)
              obtain ⟨g', htail, hsub⟩ :=
                ih { g₁ with properties := g₁.properties ++ propertiesOf ds name } hrest
              exact ⟨g', .enter hin met hparents htail,
                fun _ hmem => hsub (hsub₁ (List.mem_cons_of_mem _ hmem))⟩
          · obtain ⟨g', hgathers, hsub⟩ := ih
              { g with outside := if name ∈ g.outside then g.outside else g.outside ++ [name] }
              hbound
            exact ⟨g', .outside hin hgathers, hsub⟩

end Component

end ComponentProps
