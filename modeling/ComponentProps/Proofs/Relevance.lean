import ComponentProps.Proofs.Searches
import ComponentProps.Proofs.Uniting
import Mathlib.Data.List.Perm.Basic

/-!
# What props depend on

The props of a component depend on its first intake statement and on the types that its annotation
reaches. A resolution looks up no other name, so neither the order of the table nor other types in it
can be seen in the outcome. Scripts may therefore change places, and scripts that declare other types
may be added.
-/

namespace ComponentProps

open Text

/-- A type name that an annotation reaches, declared or not. -/
def ReachesName (table : TypeTable) (ascription name : Text) : Prop :=
  ∃ part, Reachable table ascription part ∧ IsReference part ∧ withoutArguments part = name

/-! ### Resolution -/

namespace Resolution

variable {style : Member.Style} {table other : TypeTable} {ascription : Text}

/-- A step looks up a name that the annotation reaches, if any. -/
theorem step_of_agree
    (h : ∀ name, ReachesName table ascription name → other.get? name = table.get? name)
    {r : Resolution} (hr : Sound style table ascription r) :
    r.step style other = r.step style table := by
  unfold step
  split
  · rfl
  · rename_i task agenda hagenda
    cases task with
    | members name =>
        obtain ⟨part, hreach, href, hname, -⟩ := hr.pending name (by simp [hagenda])
        have hget := h name ⟨part, hreach, href, hname⟩
        simp only [stepTask, hget]
    | part text =>
        have hreach := hr.parts text (by simp [hagenda])
        rcases TypePart.of_cases text with ⟨body, hof, -⟩ | ⟨inner, hof, -⟩ | ⟨hof, href⟩
        · rw [stepTask_body hof, stepTask_body hof]
        · rw [stepTask_group hof, stepTask_group hof]
        · have hget := h (withoutArguments text) ⟨text, hreach, href, rfl⟩
          simp only [stepTask, hof, stepReference, hget]

theorem run_of_agree
    (h : ∀ name, ReachesName table ascription name → other.get? name = table.get? name)
    {r : Resolution} (hr : Sound style table ascription r) :
    r.run style other = r.run style table := by
  induction r using Resolution.run.induct style table with
  | case1 r hdone => rw [run, dif_pos hdone, run, dif_pos hdone]
  | case2 r hmore ih =>
      rw [run, dif_neg hmore, step_of_agree h hr, ih (hr.step style table hmore),
        run.eq_def style table r, dif_neg hmore]

end Resolution

/-- Tables that agree on the names that an annotation reaches resolve it alike. -/
theorem resolve_of_agree (style : Member.Style) {table other : TypeTable} {ascription : Text}
    (h : ∀ name, ReachesName table ascription name → other.get? name = table.get? name) :
    resolve style other ascription = resolve style table ascription :=
  Resolution.run_of_agree h (Resolution.sound_start style table ascription)

/-! ### Declarations of a name -/

namespace TypeTable

/-- What a table holds of a name is told by the declarations of that name. -/
theorem get?_of_declarations {ds ds' : List TypeDeclaration} {name : Text}
    (h : ds.filter (·.name = name) = ds'.filter (·.name = name)) :
    (ds.foldl declare .empty).get? name = (ds'.foldl declare .empty).get? name := by
  have hkeys : ∀ ds : List TypeDeclaration, name ∈ (ds.foldl declare .empty).keys ↔
      ds.filter (·.name = name) ≠ [] := by
    intro ds
    rw [keys_foldl_declare, List.mem_eraseDups, List.mem_map, ne_eq, List.filter_eq_nil_iff]
    simp
  have hmerged := getD_foldl_declare ds name
  rw [h, ← getD_foldl_declare] at hmerged
  by_cases hname : name ∈ (ds.foldl declare .empty).keys
  · have hname' := (hkeys ds').mpr (h ▸ (hkeys ds).mp hname)
    obtain ⟨definition, hget⟩ := OrderedMap.exists_get?_of_mem_keys hname
    obtain ⟨definition', hget'⟩ := OrderedMap.exists_get?_of_mem_keys hname'
    rw [hget, hget'] at hmerged ⊢
    exact congrArg some hmerged
  · have hname' : name ∉ (ds'.foldl declare .empty).keys :=
      fun hmem => hname ((hkeys ds).mpr (h ▸ (hkeys ds').mp hmem))
    rw [OrderedMap.get?_eq_none_iff.mpr hname, OrderedMap.get?_eq_none_iff.mpr hname']

/-- What the table of some scripts holds of a name is told by what each script declares of it. -/
theorem get?_ofScripts_of_declarations {style : Member.Style} {scripts others : List Text}
    {name : Text}
    (h : scripts.flatMap (fun s => (TypeDeclaration.all style s).filter (·.name = name)) =
      others.flatMap fun s => (TypeDeclaration.all style s).filter (·.name = name)) :
    (ofScripts style scripts).get? name = (ofScripts style others).get? name := by
  refine get?_of_declarations ?_
  rw [List.filter_flatMap, List.filter_flatMap]
  exact h

end TypeTable

/-! ### Lists of scripts -/

section Lists

variable {α β : Type}

/-- What is collected from a list does not depend on its order, if it comes from one element. -/
theorem flatMap_of_perm {f : α → List β} {xs ys : List α} (hperm : xs.Perm ys)
    (hone : xs.Pairwise fun x y => f x = [] ∨ f y = []) : xs.flatMap f = ys.flatMap f := by
  induction hperm with
  | nil => rfl
  | cons x _ ih =>
      rw [List.flatMap_cons, List.flatMap_cons, ih (List.pairwise_cons.mp hone).2]
  | swap x y xs =>
      obtain ⟨hfirst, -⟩ := List.pairwise_cons.mp hone
      rcases hfirst x List.mem_cons_self with hy | hx
      · simp [hy]
      · simp [hx]
  | trans hxy _ ih ih' =>
      have hsymm : ∀ {x y}, f x = [] ∨ f y = [] → f y = [] ∨ f x = [] := Or.symm
      rw [ih hone, ih' ((hxy.pairwise_iff hsymm).mp hone)]

/-- The first thing found does not depend on the order, if it is found in one element. -/
theorem findSome?_of_perm {f : α → Option β} {xs ys : List α} (hperm : xs.Perm ys)
    (hone : xs.Pairwise fun x y => f x = none ∨ f y = none) :
    xs.findSome? f = ys.findSome? f := by
  have hlists : xs.Pairwise fun x y => (f x).toList = [] ∨ (f y).toList = [] := by
    simpa only [Option.toList_eq_nil_iff] using hone
  rw [← List.head?_filterMap, ← List.head?_filterMap, List.filterMap_eq_flatMap_toList,
    List.filterMap_eq_flatMap_toList, flatMap_of_perm hperm hlists]

/-- The second list is the first with elements added that have the property. -/
inductive Adds (p : α → Prop) : List α → List α → Prop
  | nil : Adds p [] []
  | keep {xs ys : List α} (x : α) (h : Adds p xs ys) : Adds p (x :: xs) (x :: ys)
  | add {xs ys : List α} {x : α} (hx : p x) (h : Adds p xs ys) : Adds p xs (x :: ys)

theorem Adds.flatMap {p : α → Prop} {f : α → List β} {xs ys : List α} (h : Adds p xs ys)
    (hp : ∀ x, p x → f x = []) : xs.flatMap f = ys.flatMap f := by
  induction h with
  | nil => rfl
  | keep x _ ih => rw [List.flatMap_cons, List.flatMap_cons, ih]
  | add hx _ ih => rw [List.flatMap_cons, hp _ hx, List.nil_append, ih]

theorem Adds.findSome? {p : α → Prop} {f : α → Option β} {xs ys : List α} (h : Adds p xs ys)
    (hp : ∀ x, p x → f x = none) : xs.findSome? f = ys.findSome? f := by
  induction h with
  | nil => rfl
  | keep x _ ih => rw [List.findSome?_cons, List.findSome?_cons, ih]
  | add hx _ ih => rw [List.findSome?_cons, hp _ hx, ih]

end Lists

/-! ### Props -/

/-- A type name that the annotation of the first intake statement reaches. -/
def Concerns (settings : Settings) (scripts : List Text) (name : Text) : Prop :=
  ∃ intake ∈ scripts.findSome? (Intake.find? settings.intakeCall),
    ∃ ascription ∈ intake.ascription,
      ReachesName (TypeTable.ofScripts settings.memberStyle scripts) ascription name

namespace PropSheet

/-- What an intake statement receives is told by what it says and by the definitions of the names
that its annotation reaches. -/
theorem ofIntake_of_agree {settings : Settings} {scripts others : List Text}
    {intake other : Intake} (hcontent : intake.content = other.content)
    (hagree : ∀ ascription ∈ intake.ascription, ∀ name,
      ReachesName (TypeTable.ofScripts settings.memberStyle scripts) ascription name →
        (TypeTable.ofScripts settings.memberStyle others).get? name =
          (TypeTable.ofScripts settings.memberStyle scripts).get? name) :
    ofIntake settings scripts intake = ofIntake settings others other := by
  obtain ⟨hpattern, hascription⟩ := Prod.mk.inj hcontent
  have hresolved : other.resolved settings others = intake.resolved settings scripts := by
    unfold Intake.resolved
    rw [← hascription]
    cases hsome : intake.ascription with
    | none => rfl
    | some ascription => exact resolve_of_agree _ (hagree ascription hsome)
  rw [ofIntake_eq_unite, ofIntake_eq_unite, hresolved, hpattern]

theorem ofScripts_of_agree {settings : Settings} {scripts others : List Text}
    (hfirst : (scripts.findSome? (Intake.find? settings.intakeCall)).map Intake.content =
      (others.findSome? (Intake.find? settings.intakeCall)).map Intake.content)
    (hagree : ∀ name, Concerns settings scripts name →
      (TypeTable.ofScripts settings.memberStyle others).get? name =
        (TypeTable.ofScripts settings.memberStyle scripts).get? name) :
    ofScripts settings scripts = ofScripts settings others := by
  unfold ofScripts
  cases hintake : scripts.findSome? (Intake.find? settings.intakeCall) with
  | none =>
      rw [hintake, Option.map_none, eq_comm, Option.map_eq_none_iff] at hfirst
      rw [hfirst]
  | some intake =>
      rw [hintake, Option.map_some, eq_comm, Option.map_eq_some_iff] at hfirst
      obtain ⟨other, hother, hcontent⟩ := hfirst
      rw [hother]
      exact ofIntake_of_agree hcontent.symm fun ascription hascription name hreach =>
        hagree name ⟨intake, hintake, ascription, hascription, hreach⟩

/-- The props depend only on what the first intake statement says and on the definitions of the type
names that its annotation reaches. So scripts may change places if no two of them declare a type of
one name or have an intake statement, and scripts may be added that have no intake statement and
declare no type that is reached. -/
theorem ofScripts_relevant (settings : Settings) (scripts others : List Text) :
    ((scripts.findSome? (Intake.find? settings.intakeCall)).map Intake.content =
          (others.findSome? (Intake.find? settings.intakeCall)).map Intake.content →
        (∀ name, Concerns settings scripts name →
          (TypeTable.ofScripts settings.memberStyle others).get? name =
            (TypeTable.ofScripts settings.memberStyle scripts).get? name) →
        ofScripts settings scripts = ofScripts settings others) ∧
      (scripts.Perm others →
        scripts.Pairwise (fun s t => ∀ d ∈ TypeDeclaration.all settings.memberStyle s,
          ∀ e ∈ TypeDeclaration.all settings.memberStyle t, d.name ≠ e.name) →
        scripts.Pairwise (fun s t => Intake.find? settings.intakeCall s = none ∨
          Intake.find? settings.intakeCall t = none) →
        ofScripts settings scripts = ofScripts settings others) ∧
      (Adds (fun s => Intake.find? settings.intakeCall s = none ∧
          ∀ d ∈ TypeDeclaration.all settings.memberStyle s, ¬ Concerns settings scripts d.name)
          scripts others →
        ofScripts settings scripts = ofScripts settings others) := by
  refine ⟨ofScripts_of_agree, fun hperm hnames hintakes => ?_, fun hadds => ?_⟩
  · refine ofScripts_of_agree (congrArg _ (findSome?_of_perm hperm hintakes)) fun name _ => ?_
    refine (TypeTable.get?_ofScripts_of_declarations (flatMap_of_perm hperm ?_)).symm
    refine hnames.imp fun {s t} hdistinct => ?_
    by_contra hboth
    rw [not_or] at hboth
    obtain ⟨d, hd⟩ := List.exists_mem_of_ne_nil _ hboth.1
    obtain ⟨e, he⟩ := List.exists_mem_of_ne_nil _ hboth.2
    rw [List.mem_filter, decide_eq_true_eq] at hd he
    exact hdistinct d hd.1 e he.1 (hd.2.trans he.2.symm)
  · refine ofScripts_of_agree (congrArg _ (hadds.findSome? fun s hs => hs.1)) fun name hname => ?_
    refine (TypeTable.get?_ofScripts_of_declarations (hadds.flatMap fun s hs => ?_)).symm
    rw [List.filter_eq_nil_iff]
    intro d hd hsame
    exact hs.2 d hd (of_decide_eq_true hsame ▸ hname)

/-- A script that declares a type of another name. -/
def otherScript : Text := "type Other = \x7b id: Base \x7d".toList

/-- The annotation of the open script reaches the base type only. -/
theorem eq_base_of_concerns {name : Text} (h : Concerns {} [baseScript, openScript] name) :
    name = "Base".toList := by
  have hfirst : ([baseScript, openScript].findSome? (Intake.find? "$props".toList)).bind
      Intake.ascription = some "Base".toList := by decide +kernel
  have hparents : ((TypeTable.ofScripts ({} : Settings).memberStyle [baseScript, openScript]).get?
      "Base".toList).map TypeDefinition.parents = some [] := by decide +kernel
  obtain ⟨intake, hintake, ascription, hascription, part, hreach, -, rfl⟩ := h
  rw [hintake, Option.bind_some, hascription, Option.some.injEq] at hfirst
  have hpart : part = "Base".toList := by
    induction hreach with
    | part hmem =>
        rw [hfirst] at hmem
        exact List.mem_singleton.mp hmem
    | group _ _ ih => simp at ih
    | parent _ _ declared hmem ih =>
        have hname : withoutArguments "Base".toList = "Base".toList := by decide
        rw [ih, hname] at declared
        rw [declared, Option.map_some, Option.some.injEq] at hparents
        rw [hparents] at hmem
        contradiction
  rw [hpart]
  decide

theorem ofScripts_relevant_moved :
    ofScripts {} [baseScript, openScript] = ofScripts {} [openScript, otherScript, baseScript] ∧
      ofScripts {} [baseScript, openScript] = ofScripts {} [openScript, baseScript] ∧
      ofScripts {} [baseScript, openScript] = ofScripts {} [otherScript, baseScript, openScript] := by
  refine ⟨(ofScripts_relevant {} _ _).1 ?_ ?_, (ofScripts_relevant {} _ _).2.1 ?_ ?_ ?_,
    (ofScripts_relevant {} _ _).2.2 (.add ⟨?_, ?_⟩ (.keep _ (.keep _ .nil)))⟩
  · decide +kernel
  · intro name hname
    rw [eq_base_of_concerns hname]
    decide +kernel
  · exact List.Perm.swap _ _ _
  · decide +kernel
  · decide +kernel
  · decide +kernel
  · intro d hd hname
    have hother : ∀ d ∈ TypeDeclaration.all {} otherScript, d.name ≠ "Base".toList := by
      decide +kernel
    exact hother d hd (eq_base_of_concerns hname)

end PropSheet

end ComponentProps
