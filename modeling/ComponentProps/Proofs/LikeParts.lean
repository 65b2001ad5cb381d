import ComponentProps.Proofs.Gathering
import ComponentProps.Proofs.Reachability

/-!
# Parts that are resolved alike

Two texts of a part lead to the same members if both name the same local type or if both are bodies
with the same members. A local type is taken up once, so a part that names one again may be left
out. Where a text is replaced by one that is resolved alike, in the annotation or among the parents
of types, the resolution has the same outcome.
-/

namespace ComponentProps

open Text

/-- The local type that a part names. -/
def localName? (table : TypeTable) (part : Text) : Option Text :=
  match TypePart.of part with
  | .reference reference =>
    (table.get? (withoutArguments reference)).map fun _ => withoutArguments reference
  | _ => none

theorem localName?_of_reference {table : TypeTable} {part : Text}
    (hof : TypePart.of part = .reference part) :
    localName? table part =
      if withoutArguments part ∈ table.keys then some (withoutArguments part) else none := by
  simp only [localName?, hof]
  by_cases hkey : withoutArguments part ∈ table.keys
  · obtain ⟨definition, hget⟩ := OrderedMap.exists_get?_of_mem_keys hkey
    rw [hget, if_pos hkey]
    rfl
  · rw [OrderedMap.get?_eq_none_iff.mpr hkey, if_neg hkey]
    rfl

theorem of_localName? {table : TypeTable} {part name : Text}
    (h : localName? table part = some name) :
    TypePart.of part = .reference part ∧ withoutArguments part = name ∧ name ∈ table.keys := by
  rcases TypePart.of_cases part with ⟨body, hof, -⟩ | ⟨inner, hof, -⟩ | ⟨hof, -⟩
  · simp [localName?, hof] at h
  · simp [localName?, hof] at h
  · rw [localName?_of_reference hof, Option.ite_none_right_eq_some, Option.some.injEq] at h
    exact ⟨hof, h.2, h.2 ▸ h.1⟩

/-- Two parts that are resolved alike. -/
inductive Alike (style : Member.Style) (table : TypeTable) : Text → Text → Prop
  | same (part : Text) : Alike style table part part
  | name {p q name : Text} (hp : localName? table p = some name)
      (hq : localName? table q = some name) : Alike style table p q
  | body {p q b c : Text} (hp : TypePart.of p = .body b) (hq : TypePart.of q = .body c)
      (hscan : Member.scan style b = Member.scan style c) : Alike style table p q

/-- The second agenda is the first with parts replaced by others that are resolved alike, and
without some parts that name a local type seen before. -/
inductive Thins (style : Member.Style) (table : TypeTable) :
    List Text → List Task → List Task → Prop
  | nil {seen : List Text} : Thins style table seen [] []
  | members {seen : List Text} {xs ys : List Task} (name : Text) (h : Thins style table seen xs ys) :
      Thins style table seen (.members name :: xs) (.members name :: ys)
  | part {seen : List Text} {xs ys : List Task} {p q : Text} (halike : Alike style table p q)
      (h : Thins style table ((localName? table p).toList ++ seen) xs ys) :
      Thins style table seen (.part p :: xs) (.part q :: ys)
  | skip {seen : List Text} {xs ys : List Task} {p name : Text}
      (hp : localName? table p = some name) (hname : name ∈ seen)
      (h : Thins style table seen xs ys) : Thins style table seen (.part p :: xs) ys

section Agendas

variable {style : Member.Style} {table : TypeTable} {seen : List Text} {xs ys : List Task}

theorem Alike.localName? {p q : Text} (h : Alike style table p q) :
    localName? table p = localName? table q := by
  cases h with
  | same => rfl
  | name hp hq => rw [hp, hq]
  | body hp hq => simp only [ComponentProps.localName?, hp, hq]

theorem Thins.mono (h : Thins style table seen xs ys) {seen' : List Text} (hseen : seen ⊆ seen') :
    Thins style table seen' xs ys := by
  induction h generalizing seen' with
  | nil => exact .nil
  | members name _ ih => exact .members name (ih hseen)
  | part halike _ ih => exact .part halike (ih (List.append_subset.mpr
      ⟨List.subset_append_left _ _, fun n hn => List.mem_append_right _ (hseen hn)⟩))
  | skip hp hname _ ih => exact .skip hp (hseen hname) (ih hseen)

/-- The local types that the parts of an agenda name. -/
def namesOf (table : TypeTable) (xs : List Task) : List Text :=
  xs.flatMap fun
    | .part p => (localName? table p).toList
    | .members _ => []

theorem Thins.append (h : Thins style table seen xs ys) {xs' ys' : List Task}
    (h' : Thins style table (namesOf table xs ++ seen) xs' ys') :
    Thins style table seen (xs ++ xs') (ys ++ ys') := by
  induction h with
  | nil => exact h'
  | members name _ ih => exact .members name (ih h')
  | part halike _ ih =>
      refine .part halike (ih (h'.mono fun n hn => ?_))
      simp only [namesOf, List.flatMap_cons, List.mem_append] at hn ⊢
      exact or_left_comm.mp (or_assoc.mp hn)
  | skip hp hname _ ih =>
      refine .skip hp hname (ih (h'.mono fun n hn => ?_))
      simp only [namesOf, List.flatMap_cons, hp, List.mem_append, Option.toList_some,
        List.mem_singleton] at hn ⊢
      rcases hn with (rfl | hn) | hn
      · exact Or.inr hname
      · exact Or.inl hn
      · exact Or.inr hn

theorem Thins.refl (seen : List Text) (xs : List Task) : Thins style table seen xs xs := by
  induction xs generalizing seen with
  | nil => exact .nil
  | cons task xs ih =>
      cases task with
      | members name => exact .members name (ih seen)
      | part p => exact .part (.same p) (ih _)

theorem thins_of_alike {ps qs : List Text} (h : List.Forall₂ (Alike style table) ps qs)
    (seen : List Text) : Thins style table seen (ps.map .part) (qs.map .part) := by
  induction h generalizing seen with
  | nil => exact .nil
  | cons halike _ ih => exact .part halike (ih _)

/-- Parents without repeats may be replaced by others that are resolved alike, unless that makes
repeats of parts that name no local type. -/
theorem thins_map {f : Text → Text} {ps : List Text} (hdistinct : ps.Nodup)
    (halike : ∀ p ∈ ps, Alike style table p (f p))
    (hlocal : ∀ p ∈ ps, ∀ q ∈ ps, p ≠ q → f p = f q → localName? table p ≠ none) :
    Thins style table [] (ps.map .part) ((ps.map f).eraseDups.map .part) := by
  induction ps using List.reverseRecOn with
  | nil => exact .nil
  | append_singleton ps p ih =>
      obtain ⟨hps, -, hdisjoint⟩ := List.nodup_append.mp hdistinct
      rw [List.forall_mem_append, List.forall_mem_singleton] at halike
      have hfront := ih hps halike.1 fun q hq r hr =>
        hlocal q (List.mem_append_left _ hq) r (List.mem_append_left _ hr)
      have hp : p ∈ ps ++ [p] := by simp
      rw [List.map_append, List.map_append, List.map_singleton, List.map_singleton,
        eraseDups_concat]
      split
      · rename_i hrepeat
        obtain ⟨q, hq, hsame⟩ := List.mem_map.mp hrepeat
        have hne : p ≠ q := fun heq => hdisjoint q hq p (by simp) heq.symm
        obtain ⟨name, hname⟩ := Option.ne_none_iff_exists'.mp
          (hlocal p hp q (List.mem_append_left _ hq) hne hsame.symm)
        have hqname : localName? table q = some name := by
          rw [(halike.1 q hq).localName?, hsame, ← halike.2.localName?, hname]
        have hseen : name ∈ namesOf table (ps.map .part) ++ [] := by
          rw [List.append_nil, namesOf, List.mem_flatMap]
          exact ⟨.part q, List.mem_map_of_mem hq, by simp [hqname]⟩
        have hjoined := hfront.append (.skip hname hseen .nil)
        rwa [List.append_nil] at hjoined
      · rw [List.map_append, List.map_singleton]
        exact hfront.append (.part halike.2 .nil)

end Agendas

/-! ### Resolution -/

/-- Two tables that declare the same members, with parents that are thinned out in the second. -/
structure TypeTable.Thins (style : Member.Style) (table other : TypeTable) : Prop where
  keys : other.keys = table.keys
  members : ∀ name, ((other.get? name).getD {}).members = ((table.get? name).getD {}).members
  parents : ∀ name, ComponentProps.Thins style table []
    (((table.get? name).getD {}).parents.map .part) (((other.get? name).getD {}).parents.map .part)

theorem TypeTable.Thins.refl (style : Member.Style) (table : TypeTable) :
    TypeTable.Thins style table table :=
  ⟨rfl, fun _ => rfl, fun _ => .refl _ _⟩

namespace Resolution

variable {style : Member.Style} {table other : TypeTable}

/-- Two states of a resolution that differ in their agendas only. -/
structure Corresponds (style : Member.Style) (table : TypeTable) (r r' : Resolution) : Prop where
  agenda : ComponentProps.Thins style table r.visited r.agenda r'.agenda
  visited : r'.visited = r.visited
  members : r'.members = r.members
  inherits : r'.inherits = r.inherits

theorem run_of_agenda {r : Resolution} {task : Task} {agenda : List Task}
    (h : r.agenda = task :: agenda) :
    r.run style table = (r.stepTask style table task agenda).run style table := by
  have hmore : r.agenda ≠ [] := by simp [h]
  have hstep : r.step style table = r.stepTask style table task agenda := by simp only [step, h]
  rw [run, dif_neg hmore, hstep]

/-- A reference to a local type is taken up by both or by none. -/
theorem Corresponds.stepTask_name (ht : TypeTable.Thins style table other) {r r' : Resolution}
    {p q name : Text} {xs ys : List Task} (hp : localName? table p = some name)
    (hq : localName? table q = some name)
    (h : ComponentProps.Thins style table (name :: r.visited) xs ys)
    (hvisited : r'.visited = r.visited) (hmembers : r'.members = r.members)
    (hinherits : r'.inherits = r.inherits) :
    Corresponds style table (r.stepTask style table (.part p) xs)
      (r'.stepTask style other (.part q) ys) := by
  obtain ⟨hofp, hnamep, hkey⟩ := of_localName? hp
  obtain ⟨hofq, hnameq, -⟩ := of_localName? hq
  have hkey' : name ∈ other.keys := ht.keys ▸ hkey
  obtain ⟨definition, hget⟩ := OrderedMap.exists_get?_of_mem_keys hkey
  obtain ⟨definition', hget'⟩ := OrderedMap.exists_get?_of_mem_keys hkey'
  have hparents := ht.parents name
  rw [hget, hget', Option.getD_some, Option.getD_some] at hparents
  by_cases hseen : name ∈ r.visited
  · rw [stepTask_known hofp (hnamep ▸ hget) (hnamep ▸ hseen),
      stepTask_known hofq (hnameq ▸ hget') (hnameq ▸ hvisited ▸ hseen)]
    exact ⟨h.mono (List.cons_subset.mpr ⟨hseen, List.Subset.refl _⟩), hvisited, hmembers, hinherits⟩
  · rw [stepTask_fresh hofp (hnamep ▸ hget) (hnamep ▸ hseen),
      stepTask_fresh hofq (hnameq ▸ hget') (hnameq ▸ hvisited ▸ hseen), hnamep,
      hnameq]
    refine ⟨(hparents.mono (List.nil_subset _)).append (.members name (h.mono ?_)), ?_, hmembers,
      hinherits⟩
    · exact List.subset_append_right _ _
    · rw [hvisited]

/-- Parts that are resolved alike lead to corresponding states. -/
theorem Corresponds.stepTask_part (ht : TypeTable.Thins style table other) {r r' : Resolution}
    {p q : Text} {xs ys : List Task} (halike : Alike style table p q)
    (h : ComponentProps.Thins style table ((localName? table p).toList ++ r.visited) xs ys)
    (hvisited : r'.visited = r.visited) (hmembers : r'.members = r.members)
    (hinherits : r'.inherits = r.inherits) :
    Corresponds style table (r.stepTask style table (.part p) xs)
      (r'.stepTask style other (.part q) ys) := by
  have hnone : localName? table p = none → ComponentProps.Thins style table r.visited xs ys := by
    intro hnone
    rwa [hnone, Option.toList_none, List.nil_append] at h
  cases halike with
  | name hp hq =>
      rw [hp] at h
      exact stepTask_name ht hp hq h hvisited hmembers hinherits
  | body hp hq hscan =>
      rw [stepTask_body hp, stepTask_body hq]
      refine ⟨hnone (by simp only [localName?, hp]), hvisited, ?_, hinherits⟩
      rw [hmembers, hscan]
  | same =>
      rcases TypePart.of_cases p with ⟨body, hof, -⟩ | ⟨inner, hof, -⟩ | ⟨hof, -⟩
      · rw [stepTask_body hof, stepTask_body hof]
        refine ⟨hnone (by simp only [localName?, hof]), hvisited, ?_, hinherits⟩
        rw [hmembers]
      · rw [stepTask_group hof, stepTask_group hof]
        refine ⟨(Thins.refl _ _).append ?_, hvisited, hmembers, hinherits⟩
        exact (hnone (by simp only [localName?, hof])).mono (List.subset_append_right _ _)
      · by_cases hkey : withoutArguments p ∈ table.keys
        · have hname : localName? table p = some (withoutArguments p) := by
            rw [localName?_of_reference hof, if_pos hkey]
          rw [hname] at h
          exact stepTask_name ht hname hname h hvisited hmembers hinherits
        · have hkey' : withoutArguments p ∉ other.keys := ht.keys ▸ hkey
          rw [stepTask_outside hof hkey, stepTask_outside hof hkey']
          refine ⟨hnone ?_, hvisited, hmembers, ?_⟩
          · rw [localName?_of_reference hof, if_neg hkey]
          · rw [hinherits]

/-- Corresponding states have the same outcome. A part that is left out names a local type that has
been taken up, so there is nothing to do for it. -/
theorem Corresponds.run (ht : TypeTable.Thins style table other) {r r' : Resolution}
    (h : Corresponds style table r r') :
    (r.run style table).members = (r'.run style other).members ∧
      (r.run style table).inherits = (r'.run style other).inherits := by
  induction r using Resolution.run.induct style table generalizing r' with
  | case1 r hdone =>
      have hagenda := h.agenda
      rw [hdone] at hagenda
      generalize hys : r'.agenda = ys at hagenda
      cases hagenda
      rw [Resolution.run, dif_pos hdone, Resolution.run, dif_pos hys]
      exact ⟨h.members.symm, h.inherits.symm⟩
  | case2 r hmore ih =>
      have hagenda := h.agenda
      generalize hxs : r.agenda = xs at hagenda
      generalize hys : r'.agenda = ys at hagenda
      have hstep : ∀ {task agenda}, r.agenda = task :: agenda →
          r.step style table = r.stepTask style table task agenda := by
        intro task agenda hcons
        simp only [step, hcons]
      cases hagenda with
      | nil => exact absurd hxs hmore
      | members name hrest =>
          rw [hstep hxs] at ih
          rw [run_of_agenda hxs, run_of_agenda hys]
          refine ih ⟨hrest, h.visited, ?_, h.inherits⟩
          simp only [stepTask, h.members, ht.members]
      | part halike hrest =>
          rw [hstep hxs] at ih
          rw [run_of_agenda hxs, run_of_agenda hys]
          exact ih (stepTask_part ht halike hrest h.visited h.members h.inherits)
      | @skip _ agenda _ p _ hp hname hrest =>
          obtain ⟨hof, hwithout, hkey⟩ := of_localName? hp
          obtain ⟨definition, hget⟩ := OrderedMap.exists_get?_of_mem_keys hkey
          have hdrop : r.stepTask style table (.part p) agenda = { r with agenda := agenda } :=
            stepTask_known hof (hwithout ▸ hget) (hwithout ▸ hname)
          rw [hstep hxs, hdrop] at ih
          rw [run_of_agenda hxs, hdrop]
          exact ih ⟨hys ▸ hrest, h.visited, h.members, h.inherits⟩

end Resolution

/-- An annotation is resolved alike if its parts are. -/
theorem resolve_of_alike {style : Member.Style} {table : TypeTable} {ascription other : Text}
    (h : List.Forall₂ (Alike style table) (topLevelParts typeOperators ascription)
      (topLevelParts typeOperators other)) :
    (resolve style table ascription).members = (resolve style table other).members ∧
      (resolve style table ascription).inherits = (resolve style table other).inherits :=
  Resolution.Corresponds.run (.refl style table) ⟨thins_of_alike h [], rfl, rfl, rfl⟩

/-! ### Texts replaced in a table -/

/-- One text for another. -/
def replace (p q : Text) (t : Text) : Text := if t = p then q else t

theorem replace_self (p q : Text) : replace p q p = q := if_pos rfl

theorem replace_target (p q : Text) : replace p q q = q := ite_id q

/-- Different texts that are made the same are the text replaced and the one put in its place. -/
theorem eq_or_of_replace_eq {p q s t : Text} (hne : s ≠ t) (h : replace p q s = replace p q t) :
    s = p ∧ t = q ∨ s = q ∧ t = p := by
  unfold replace at h
  split at h <;> split at h
  · rename_i hs ht
    exact absurd (hs.trans ht.symm) hne
  · rename_i hs _
    exact Or.inl ⟨hs, h.symm⟩
  · rename_i _ ht
    exact Or.inr ⟨h, ht⟩
  · exact absurd h hne

theorem eraseDups_map_foldl_addNew (f : Text → Text) (xs ys : List Text) :
    ((ys.foldl addNew xs).map f).eraseDups = ((xs ++ ys).map f).eraseDups := by
  induction ys using List.reverseRecOn with
  | nil => simp
  | append_singleton ys y ih =>
      have hmem : f y ∈ (ys.foldl addNew xs).map f ↔ f y ∈ (xs ++ ys).map f := by
        rw [← List.mem_eraseDups, ih, List.mem_eraseDups]
      rw [List.foldl_concat, ← List.append_assoc, List.map_append, List.map_singleton,
        eraseDups_concat, ← ih, addNew_eq]
      by_cases hy : y ∈ ys.foldl addNew xs
      · rw [if_pos hy, if_pos (hmem.mp (List.mem_map_of_mem hy))]
      · rw [if_neg hy, List.map_append, List.map_singleton, eraseDups_concat]
        simp only [hmem]

namespace TypeDefinition

/-- A definition with one parent for another. -/
def replaceParent (p q : Text) (d : TypeDefinition) : TypeDefinition :=
  { d with parents := (d.parents.map (replace p q)).eraseDups }

theorem replaceParent_merge (p q : Text) (d other : TypeDefinition) :
    (d.merge other).replaceParent p q =
      (d.replaceParent p q).merge (other.replaceParent p q) := by
  simp only [replaceParent, merge, TypeDefinition.mk.injEq, true_and]
  rw [eraseDups_map_foldl_addNew, foldl_addNew, eraseDups_append_eraseDups, List.map_append]

end TypeDefinition

namespace TypeDeclaration

def replaceParent (p q : Text) (d : TypeDeclaration) : TypeDeclaration :=
  { d with definition := d.definition.replaceParent p q }

end TypeDeclaration

namespace TypeTable

/-- A table with one parent for another in every definition. -/
def replaceParent (p q : Text) (table : TypeTable) : TypeTable :=
  table.mapValues fun _ d => d.replaceParent p q

theorem replaceParent_foldl_declare (p q : Text) (ds : List TypeDeclaration) :
    (ds.foldl declare .empty).replaceParent p q =
      (ds.map (·.replaceParent p q)).foldl declare .empty :=
  mapValues_foldl_declare rfl (TypeDefinition.replaceParent_merge p q) ds

/-- The parents of a type are listed without repeats. -/
theorem nodup_parents (ds : List TypeDeclaration) (name : Text) :
    (((ds.foldl declare .empty).get? name).getD {}).parents.Nodup := by
  have hadd : ∀ ys xs : List Text, xs.Nodup → (ys.foldl addNew xs).Nodup := by
    intro ys
    induction ys with
    | nil => exact fun xs h => h
    | cons y ys ih => exact fun xs h => ih _ (nodup_addNew h y)
  rw [getD_foldl_declare]
  induction ds.filter (fun d => d.name = name) using List.reverseRecOn with
  | nil => exact List.nodup_nil
  | append_singleton ds d ih =>
      rw [List.foldl_concat]
      exact hadd _ _ ih

/-- The text replaced and the one put in its place are not both parents of one type. -/
def IsApart (table : TypeTable) (p q : Text) : Prop :=
  ∀ name definition, table.get? name = some definition →
    ¬ (p ∈ definition.parents ∧ q ∈ definition.parents)

variable {style : Member.Style} {ds : List TypeDeclaration} {p q : Text}

theorem thins_replaceParent (halike : Alike style (ds.foldl declare .empty) p q)
    (happart : localName? (ds.foldl declare .empty) p ≠ none ∨
      (ds.foldl declare .empty).IsApart p q) :
    TypeTable.Thins style (ds.foldl declare .empty)
      ((ds.foldl declare .empty).replaceParent p q) := by
  have hget : ∀ name, (((ds.foldl declare .empty).replaceParent p q).get? name).getD {} =
      (((ds.foldl declare .empty).get? name).getD {}).replaceParent p q := by
    intro name
    rw [replaceParent, OrderedMap.get?_mapValues]
    cases (ds.foldl declare .empty).get? name <;> rfl
  refine ⟨OrderedMap.keys_mapValues _ _, fun name => ?_, fun name => ?_⟩
  · rw [hget]
    rfl
  · rw [hget]
    refine thins_map (nodup_parents ds name) (fun s _ => ?_) fun s hs t ht hne hsame => ?_
    · by_cases hs : s = p
      · rw [hs, replace_self]
        exact halike
      · rw [replace, if_neg hs]
        exact .same s
    · -- Only the two texts themselves are made the same, so each of them is among the parents.
      have hboth : p ∈ (((ds.foldl declare .empty).get? name).getD {}).parents ∧
          q ∈ (((ds.foldl declare .empty).get? name).getD {}).parents := by
        rcases eq_or_of_replace_eq hne hsame with ⟨rfl, rfl⟩ | ⟨rfl, rfl⟩
        · exact ⟨hs, ht⟩
        · exact ⟨ht, hs⟩
      have hp : localName? (ds.foldl declare .empty) p ≠ none := by
        refine happart.resolve_right fun hno => ?_
        cases hdefinition : (ds.foldl declare .empty).get? name with
        | none => simp [hdefinition] at hboth
        | some definition =>
            rw [hdefinition, Option.getD_some] at hboth
            exact hno name definition hdefinition hboth
      rcases eq_or_of_replace_eq hne hsame with ⟨rfl, -⟩ | ⟨rfl, -⟩
      · exact hp
      · rwa [← halike.localName?]

/-- A text may be replaced by one that is resolved alike, wherever it is a parent. -/
theorem resolve_replaceParent (halike : Alike style (ds.foldl declare .empty) p q)
    (happart : localName? (ds.foldl declare .empty) p ≠ none ∨
      (ds.foldl declare .empty).IsApart p q) (ascription : Text) :
    (resolve style (ds.foldl declare .empty) ascription).members =
        (resolve style ((ds.map (·.replaceParent p q)).foldl declare .empty) ascription).members ∧
      (resolve style (ds.foldl declare .empty) ascription).inherits =
        (resolve style ((ds.map (·.replaceParent p q)).foldl declare .empty) ascription).inherits := by
  rw [← replaceParent_foldl_declare]
  exact Resolution.Corresponds.run (thins_replaceParent halike happart)
    ⟨ComponentProps.Thins.refl [] _, rfl, rfl, rfl⟩

end TypeTable

end ComponentProps
