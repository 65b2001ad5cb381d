import ComponentProps.Proofs.MemberComposition
import ComponentProps.Proofs.Reachability
import Mathlib.Logic.Relation

/-!
# Own members count

The members of an annotation are collected task by task, and a declaration made later takes the
place of an earlier one. The own members of a local type stand on the agenda behind all its parents.
When their turn comes, each parent has been taken up, and unless types inherit from themselves its
own members have been collected too. So no type is overridden by what it inherits, in whatever order
and however often an annotation comes by it. A type that is the whole annotation comes last in any
case.
-/

namespace ComponentProps

open Text

/-! ### Inheritance between local types -/

/-- A part stands for a local type by its name, or it holds in round brackets a part that does. -/
inductive LeadsTo (table : TypeTable) : Text → Text → Prop
  | name {part : Text} (isName : IsReference part)
      (declared : withoutArguments part ∈ table.keys) : LeadsTo table part (withoutArguments part)
  | group {inner part name : Text} (h : part ∈ topLevelParts typeOperators inner)
      (leads : LeadsTo table part name) : LeadsTo table ('(' :: (inner ++ [')'])) name

/-- The parents of a local type lead to another one. -/
def InheritsFrom (table : TypeTable) (child parent : Text) : Prop :=
  ∃ definition, table.get? child = some definition ∧
    ∃ part ∈ definition.parents, LeadsTo table part parent

/-- A local type inherits from another one, directly or through others. -/
def HasAncestor (table : TypeTable) : Text → Text → Prop :=
  Relation.TransGen (InheritsFrom table)

/-- No local type inherits from itself. -/
def TypeTable.IsAcyclic (table : TypeTable) : Prop := ∀ name, ¬ HasAncestor table name name

theorem LeadsTo.eq_of_isReference {table : TypeTable} {part name : Text}
    (h : LeadsTo table part name) (href : IsReference part) :
    name = withoutArguments part ∧ name ∈ table.keys := by
  cases h with
  | name isName declared => exact ⟨rfl, declared⟩
  | group => exact absurd rfl (href.2 _)

theorem LeadsTo.exists_of_group {table : TypeTable} {inner name : Text}
    (h : LeadsTo table ('(' :: (inner ++ [')'])) name) :
    ∃ part ∈ topLevelParts typeOperators inner, LeadsTo table part name := by
  generalize hpart : '(' :: (inner ++ [')']) = outer at h
  cases h with
  | name isName => exact absurd hpart.symm (isName.2 inner)
  | group h leads =>
      obtain ⟨rfl, -⟩ := List.append_inj' (List.cons.inj hpart).2 rfl
      exact ⟨_, h, leads⟩

theorem not_leadsTo_of_body {table : TypeTable} {part body name : Text}
    (hof : TypePart.of part = .body body) : ¬ LeadsTo table part name := by
  intro h
  cases h with
  | name isName =>
      rw [TypePart.of_reference isName] at hof
      contradiction
  | group =>
      rw [TypePart.of_group] at hof
      contradiction

/-- Types that inherit from lower ones only do not inherit from themselves. -/
theorem TypeTable.isAcyclic_of_rank {table : TypeTable} (rank : Text → Nat)
    (h : ∀ entry ∈ table.entries, ∀ part ∈ entry.2.parents,
      IsReference part ∧ rank (withoutArguments part) < rank entry.1) : table.IsAcyclic := by
  have hstep : ∀ child parent, InheritsFrom table child parent → rank parent < rank child := by
    rintro child parent ⟨definition, hd, part, hpart, hleads⟩
    obtain ⟨hname, hlower⟩ := h _ (OrderedMap.mem_entries_of_get? hd) part hpart
    rw [(hleads.eq_of_isReference hname).1]
    exact hlower
  have hlower : ∀ {child ancestor}, HasAncestor table child ancestor →
      rank ancestor < rank child := by
    intro child ancestor hancestor
    induction hancestor with
    | single hinherits => exact hstep _ _ hinherits
    | tail _ hinherits ih => exact (hstep _ _ hinherits).trans ih
  exact fun name hself => Nat.lt_irrefl _ (hlower hself)

/-! ### The order of tasks -/

namespace Task

/-- The members that resolving a task adds by itself. -/
def own (style : Member.Style) (table : TypeTable) : Task → OrderedMap Text Member
  | .members name => ((table.get? name).getD {}).members
  | .part text =>
    match TypePart.of text with
    | .body body => Member.scan style body
    | _ => .empty

/-- The members of a list of tasks, added one task after the other. -/
def addAll (style : Member.Style) (table : TypeTable) (tasks : List Task) :
    OrderedMap Text Member :=
  tasks.foldl (fun members task => members.extend (task.own style table)) .empty

/-- The local types that a task is about. -/
def Names (table : TypeTable) : Task → Text → Prop
  | .part text, name => LeadsTo table text name
  | .members own, name => own = name

end Task

namespace Resolution

variable (style : Member.Style) (table : TypeTable)

/-- The tasks of a run in the order in which they are resolved. -/
def trace (r : Resolution) : List Task :=
  if h : r.agenda = [] then [] else r.agenda.head h :: trace (r.step style table)
termination_by (r.fresh table, weight r.agenda)
decreasing_by exact step_decreases style table (by assumption)

theorem trace_cons {r : Resolution} {task : Task} {agenda : List Task}
    (h : r.agenda = task :: agenda) :
    r.trace style table = task :: (r.stepTask style table task agenda).trace style table := by
  have hne : r.agenda ≠ [] := by simp [h]
  have hstep : r.step style table = r.stepTask style table task agenda := by simp only [step, h]
  rw [trace, dif_neg hne, hstep]
  simp only [h, List.head_cons]

/-- What every step keeps, given the tasks done before it, holds when all tasks are done. -/
theorem run_trace_preserves {P : List Task → Resolution → Prop}
    (keep : ∀ done r task agenda, r.agenda = task :: agenda → P done r →
      P (done ++ [task]) (r.stepTask style table task agenda)) {done : List Task} {r : Resolution}
    (h : P done r) : P (done ++ r.trace style table) (r.run style table) := by
  induction r using Resolution.run.induct style table generalizing done with
  | case1 r hdone =>
      rw [trace, dif_pos hdone, run, dif_pos hdone, List.append_nil]
      exact h
  | case2 r hmore ih =>
      obtain ⟨task, agenda, hagenda⟩ := List.exists_cons_of_ne_nil hmore
      have hstep : r.step style table = r.stepTask style table task agenda := by
        simp only [step, hagenda]
      have hnext := ih (hstep ▸ keep done r task agenda hagenda h)
      rw [trace_cons style table hagenda, run, dif_neg hmore]
      rw [hstep, List.append_assoc, List.singleton_append] at hnext
      rw [hstep]
      exact hnext

/-- A step adds the own members of its task. -/
theorem members_stepTask (r : Resolution) (task : Task) (agenda : List Task) :
    (r.stepTask style table task agenda).members = r.members.extend (task.own style table) := by
  cases task with
  | members name => rfl
  | part text =>
      rcases TypePart.of_cases text with ⟨body, hof, -⟩ | ⟨inner, hof, -⟩ | ⟨hof, -⟩
      · simp only [stepTask, Task.own, hof]
      · simp only [stepTask, Task.own, hof]
        rfl
      · simp only [stepTask, Task.own, hof, stepReference]
        split
        · rfl
        · split <;> rfl

/-- A task may stand before the own members of a type only if it is about ancestors of the type. -/
def Below (task later : Task) : Prop :=
  ∀ name, later = .members name → ∀ target, task.Names table target → HasAncestor table name target

theorem pairwise_below_parts (parts : List Text) :
    (parts.map Task.part).Pairwise (Below table) := by
  refine List.pairwise_map.mpr (List.pairwise_of_forall_mem_list fun part _ later _ => ?_)
  intro name hname
  contradiction

theorem count_members_parts (done : List Task) (parts : List Text) (tasks : List Task)
    (name : Text) :
    (done ++ (parts.map Task.part ++ tasks)).count (.members name) =
      (done ++ tasks).count (.members name) := by
  have hnone : Task.members name ∉ parts.map Task.part := by simp
  rw [List.count_append, List.count_append, List.count_eq_zero_of_not_mem hnone, Nat.zero_add,
    List.count_append]

theorem count_members_part (done : List Task) (part : Text) (tasks : List Task) (name : Text) :
    (done ++ .part part :: tasks).count (.members name) = (done ++ tasks).count (.members name) :=
  count_members_parts done [part] tasks name

/-- The local types taken up are those whose own members have been added or will be. A parent
that has not been taken up waits before the own members of its child. -/
structure Ordered (done : List Task) (r : Resolution) : Prop where
  visited : ∀ name, name ∈ r.visited ↔ .members name ∈ done ++ r.agenda
  once : ∀ name, (done ++ r.agenda).count (.members name) ≤ 1
  below : r.agenda.Pairwise (Below table)
  parents : ∀ name ∈ r.visited, ∀ parent, InheritsFrom table name parent →
    parent ∈ r.visited ∨ ∃ part, List.Sublist [.part part, .members name] r.agenda ∧
      LeadsTo table part parent

variable {style table} {done agenda : List Task} {r : Resolution}

/-- A part that leads to nothing new is left out. -/
theorem Ordered.leave {part : Text} {r' : Resolution} (ha : r.agenda = .part part :: agenda)
    (h : Ordered table done r) (hagenda : r'.agenda = agenda) (hvisited : r'.visited = r.visited)
    (hknown : ∀ name, LeadsTo table part name → name ∈ r.visited) :
    Ordered table (done ++ [.part part]) r' where
  visited := by
    intro name
    rw [hvisited, hagenda, h.visited, ha]
    simp
  once := by
    intro name
    have honce := h.once name
    rw [ha] at honce
    rw [hagenda, List.append_assoc]
    exact honce
  below := by
    have hbelow := h.below
    rw [ha] at hbelow
    rw [hagenda]
    exact hbelow.of_cons
  parents := by
    intro name hname parent hparent
    rw [hvisited] at hname ⊢
    rcases h.parents name hname parent hparent with hv | ⟨part', hsub, hleads⟩
    · exact Or.inl hv
    · rw [ha] at hsub
      rw [hagenda]
      cases hsub with
      | cons _ hsub => exact Or.inr ⟨part', hsub, hleads⟩
      | cons_cons _ hsub => exact Or.inl (hknown parent hleads)

theorem Ordered.stepTask_members {name : Text} (ha : r.agenda = .members name :: agenda)
    (h : Ordered table done r) :
    Ordered table (done ++ [.members name]) (r.stepTask style table (.members name) agenda) where
  visited := by
    intro other
    rw [stepTask, h.visited, ha]
    simp
  once := by
    intro other
    have honce := h.once other
    rw [ha] at honce
    rw [stepTask, List.append_assoc]
    exact honce
  below := by
    have hbelow := h.below
    rw [ha] at hbelow
    exact hbelow.of_cons
  parents := by
    intro child hchild parent hparent
    rcases h.parents child hchild parent hparent with hv | ⟨part, hsub, hleads⟩
    · exact Or.inl hv
    · rw [ha] at hsub
      cases hsub with
      | cons _ hsub => exact Or.inr ⟨part, hsub, hleads⟩

theorem Ordered.stepTask_group {inner : Text}
    (ha : r.agenda = .part ('(' :: (inner ++ [')'])) :: agenda) (h : Ordered table done r) :
    Ordered table (done ++ [.part ('(' :: (inner ++ [')']))])
      { r with agenda := (topLevelParts typeOperators inner).map .part ++ agenda } := by
  have hbelow := h.below
  rw [ha, List.pairwise_cons] at hbelow
  refine ⟨?_, ?_, ?_, ?_⟩
  · intro name
    rw [h.visited, ha]
    simp
  · intro name
    have honce := h.once name
    rw [ha, count_members_part] at honce
    rw [List.append_assoc, List.singleton_append, count_members_part, count_members_parts]
    exact honce
  · refine List.pairwise_append.mpr ⟨pairwise_below_parts table _, hbelow.2, ?_⟩
    rintro task htask later hlater name hname target htarget
    obtain ⟨part, hpart, rfl⟩ := List.mem_map.mp htask
    exact hbelow.1 later hlater name hname target (LeadsTo.group hpart htarget)
  · intro name hname parent hparent
    rcases h.parents name hname parent hparent with hv | ⟨part, hsub, hleads⟩
    · exact Or.inl hv
    · right
      rw [ha] at hsub
      cases hsub with
      | cons _ hsub => exact ⟨part, hsub.trans (List.sublist_append_right _ _), hleads⟩
      | cons_cons _ hsub =>
          obtain ⟨part', hpart', hleads'⟩ := hleads.exists_of_group
          have hfirst : List.Sublist [Task.part part']
              ((topLevelParts typeOperators inner).map Task.part) :=
            List.singleton_sublist.mpr (List.mem_map_of_mem hpart')
          exact ⟨part', hfirst.append hsub, hleads'⟩

section Fresh

variable {part : Text} {definition : TypeDefinition} (ha : r.agenda = .part part :: agenda)
  (h : Ordered table done r)

include ha h

/-- The own members of a type that has not been taken up are neither added nor waiting. -/
theorem Ordered.count_fresh (hv : withoutArguments part ∉ r.visited) (parents : List Text)
    (name : Text) :
    (done ++ .part part :: (parents.map Task.part ++
      .members (withoutArguments part) :: agenda)).count (.members name) ≤ 1 := by
  have honce := h.once name
  rw [ha, count_members_part, List.count_append] at honce
  rw [count_members_part, count_members_parts, List.count_append]
  by_cases hname : name = withoutArguments part
  · have hnew : (done ++ r.agenda).count (.members (withoutArguments part)) = 0 :=
      List.count_eq_zero_of_not_mem fun hmem => hv ((h.visited _).mpr hmem)
    rw [ha, count_members_part, List.count_append] at hnew
    rw [hname, List.count_cons_self]
    omega
  · rw [List.count_cons_of_ne fun heq => hname (Task.members.inj heq).symm]
    exact honce

/-- What a parent leads to is an ancestor of the type, and so of all types that the part itself
stood before. -/
theorem Ordered.below_fresh (href : IsReference part)
    (hd : table.get? (withoutArguments part) = some definition) :
    (definition.parents.map Task.part ++ .members (withoutArguments part) :: agenda).Pairwise
      (Below table) := by
  have hbelow := h.below
  rw [ha, List.pairwise_cons] at hbelow
  have hself : LeadsTo table part (withoutArguments part) :=
    LeadsTo.name href (OrderedMap.mem_keys_of_get? hd)
  refine List.pairwise_append.mpr ⟨pairwise_below_parts table _,
    List.pairwise_cons.mpr ⟨?_, hbelow.2⟩, ?_⟩
  · rintro later hlater name hname target rfl
    exact hbelow.1 later hlater name hname _ hself
  · rintro task htask later hlater name rfl target htarget
    obtain ⟨p, hp, rfl⟩ := List.mem_map.mp htask
    have hinherits : InheritsFrom table (withoutArguments part) target :=
      ⟨definition, hd, p, hp, htarget⟩
    rcases List.mem_cons.mp hlater with heq | hlater
    · rw [Task.members.inj heq]
      exact Relation.TransGen.single hinherits
    · exact (hbelow.1 _ hlater name rfl _ hself).tail hinherits

/-- A parent waits before the own members of its child, unless it has been taken up. -/
theorem Ordered.parents_fresh (href : IsReference part)
    (hd : table.get? (withoutArguments part) = some definition) {name parent : Text}
    (hname : name ∈ withoutArguments part :: r.visited)
    (hinherits : InheritsFrom table name parent) :
    parent ∈ withoutArguments part :: r.visited ∨
      ∃ p, List.Sublist [.part p, .members name]
        (definition.parents.map .part ++ .members (withoutArguments part) :: agenda) ∧
          LeadsTo table p parent := by
  rcases List.mem_cons.mp hname with rfl | hname
  · obtain ⟨definition', hd', p, hp, hleads⟩ := hinherits
    obtain rfl : definition = definition' := Option.some.inj (hd.symm.trans hd')
    have hfirst : List.Sublist [Task.part p] (definition.parents.map Task.part) :=
      List.singleton_sublist.mpr (List.mem_map_of_mem hp)
    exact Or.inr ⟨p, hfirst.append (List.singleton_sublist.mpr List.mem_cons_self), hleads⟩
  · rcases h.parents name hname parent hinherits with hknown | ⟨p, hsub, hleads⟩
    · exact Or.inl (List.mem_cons_of_mem _ hknown)
    · rw [ha] at hsub
      cases hsub with
      | cons _ hsub =>
          exact Or.inr ⟨p, (hsub.trans (List.sublist_cons_self _ _)).trans
            (List.sublist_append_right _ _), hleads⟩
      | cons_cons _ hsub =>
          -- The child waited for the part that has just been taken up.
          left
          rw [(hleads.eq_of_isReference href).1]
          exact List.mem_cons_self

/-- The parents of a type that is taken up come before its own members. -/
theorem Ordered.stepTask_fresh (href : IsReference part)
    (hd : table.get? (withoutArguments part) = some definition)
    (hv : withoutArguments part ∉ r.visited) :
    Ordered table (done ++ [.part part])
      { r with
        agenda := definition.parents.map .part ++ .members (withoutArguments part) :: agenda
        visited := withoutArguments part :: r.visited } where
  visited := by
    intro name
    rw [List.mem_cons, h.visited, ha]
    simp only [List.mem_append, List.mem_cons, List.mem_map, List.not_mem_nil, reduceCtorEq,
      and_false, exists_false, or_false, false_or, Task.members.injEq]
    tauto
  once := by
    intro name
    rw [List.append_assoc]
    exact h.count_fresh ha hv definition.parents name
  below := h.below_fresh ha href hd
  parents := fun _ hname _ => h.parents_fresh ha href hd hname

end Fresh

theorem Ordered.stepTask {task : Task} (ha : r.agenda = task :: agenda)
    (h : Ordered table done r) :
    Ordered table (done ++ [task]) (r.stepTask style table task agenda) := by
  cases task with
  | members name => exact h.stepTask_members ha
  | part part =>
      have hstep := partStep style table r part agenda
      generalize r.stepTask style table (.part part) agenda = r' at hstep ⊢
      cases hstep with
      | body isBody _ =>
          exact h.leave ha rfl rfl fun name hleads => absurd hleads (not_leadsTo_of_body isBody)
      | group inner => exact h.stepTask_group ha
      | outside isName undeclared =>
          refine h.leave ha rfl rfl fun name hleads => ?_
          obtain ⟨rfl, hmem⟩ := hleads.eq_of_isReference isName
          exact absurd hmem undeclared
      | known isName visited _ =>
          refine h.leave ha rfl rfl fun name hleads => ?_
          rw [(hleads.eq_of_isReference isName).1]
          exact visited
      | fresh isName new declared => exact h.stepTask_fresh ha isName declared new

theorem ordered_start (ascription : Text) : Ordered table [] (start ascription) where
  visited := by
    intro name
    simp [start]
  once := by
    intro name
    have hnone := count_members_parts [] (topLevelParts typeOperators ascription) [] name
    rw [List.append_nil] at hnone
    exact hnone.trans_le (Nat.zero_le 1)
  below := pairwise_below_parts table _
  parents := by
    intro name hname
    simp [start] at hname

/-! ### Parents come first -/

/-- The own members of a type stand behind those of its parents. -/
def ParentsFirst (table : TypeTable) (tasks : List Task) : Prop :=
  ∀ before name after, tasks = before ++ .members name :: after →
    ∀ parent, InheritsFrom table name parent → .members parent ∈ before

/-- What stands first on an ordered agenda has no parents further down, unless it is among its own
ancestors. -/
theorem Ordered.members_mem_done {name parent : Text} (hacyclic : table.IsAcyclic)
    (h : Ordered table done r) (ha : r.agenda = .members name :: agenda)
    (hinherits : InheritsFrom table name parent) : .members parent ∈ done := by
  have honce := h.once name
  rw [ha, List.count_append, List.count_cons_self] at honce
  have hlater : Task.members name ∉ agenda := List.count_eq_zero.mp (by omega)
  have hbelow := h.below
  rw [ha, List.pairwise_cons] at hbelow
  have hname : name ∈ r.visited := by
    rw [h.visited, ha]
    simp
  rcases h.parents name hname parent hinherits with hparent | ⟨part, hsub, -⟩
  · rw [h.visited, ha, List.mem_append, List.mem_cons] at hparent
    rcases hparent with hdone | heq | hwaits
    · exact hdone
    · rw [Task.members.inj heq] at hinherits
      exact absurd (Relation.TransGen.single hinherits) (hacyclic name)
    · -- A parent that waits behind its child has the child among its ancestors.
      have hback : HasAncestor table parent name := hbelow.1 _ hwaits parent rfl name rfl
      exact absurd (hback.head hinherits) (hacyclic name)
  · rw [ha] at hsub
    cases hsub with
    | cons _ hsub => exact absurd (hsub.subset (by simp)) hlater

theorem ParentsFirst.stepTask {task : Task} (hacyclic : table.IsAcyclic)
    (h : Ordered table done r) (hfirst : ParentsFirst table done) (ha : r.agenda = task :: agenda) :
    ParentsFirst table (done ++ [task]) := by
  intro before name after hsplit parent hinherits
  rcases List.eq_nil_or_concat after with rfl | ⟨after, last, rfl⟩
  · obtain ⟨rfl, heq⟩ := List.append_inj' hsplit rfl
    rw [List.singleton_inj] at heq
    subst heq
    exact h.members_mem_done hacyclic ha hinherits
  · rw [List.concat_eq_append, ← List.cons_append, ← List.append_assoc] at hsplit
    exact hfirst before name after (List.append_inj' hsplit rfl).1 parent hinherits

/-- Where the own members of a type stand behind those of its parents, they stand behind those of
all its ancestors. -/
theorem ParentsFirst.ancestor_mem {tasks before after : List Task} {name ancestor : Text}
    (h : ParentsFirst table tasks) (hsplit : tasks = before ++ .members name :: after)
    (hancestor : HasAncestor table name ancestor) : .members ancestor ∈ before := by
  induction hancestor using Relation.TransGen.head_induction_on generalizing before after with
  | single hinherits => exact h _ _ _ hsplit _ hinherits
  | head hinherits _ ih =>
      obtain ⟨first, second, rfl⟩ := List.append_of_mem (h _ _ _ hsplit _ hinherits)
      rw [List.append_assoc, List.cons_append] at hsplit
      exact List.mem_append_left _ (ih hsplit)

/-! ### The last task -/

/-- A step puts new tasks before the others. Adding the own members of a type puts none. -/
theorem agenda_stepTask (style : Member.Style) (table : TypeTable) (r : Resolution) (task : Task)
    (agenda : List Task) :
    ∃ new, (r.stepTask style table task agenda).agenda = new ++ agenda ∧
      ∀ name, task = .members name → new = [] := by
  cases task with
  | members name => exact ⟨[], rfl, fun _ _ => rfl⟩
  | part text =>
      simp only [Resolution.stepTask, stepReference, reduceCtorEq, false_implies, implies_true,
        and_true]
      split
      · exact ⟨[], rfl⟩
      · exact ⟨_, rfl⟩
      · split
        · exact ⟨[], rfl⟩
        · split
          · exact ⟨[], rfl⟩
          · exact ⟨_, List.append_cons _ _ _⟩

/-- The own members of a type stay last once they are. -/
theorem getLast?_stepTask {task : Task} {name : Text} (ha : r.agenda = task :: agenda)
    (h : (done ++ r.agenda).getLast? = some (.members name)) :
    (done ++ [task] ++ (r.stepTask style table task agenda).agenda).getLast? =
      some (.members name) := by
  obtain ⟨new, hnew, hnone⟩ := agenda_stepTask style table r task agenda
  rw [ha] at h
  rw [hnew]
  rcases List.eq_nil_or_concat agenda with rfl | ⟨agenda, last, rfl⟩
  · have htask : task = .members name := by simpa using h
    simp [hnone name htask, htask]
  · rw [List.concat_eq_append] at h ⊢
    rw [← List.cons_append, ← List.append_assoc, List.getLast?_concat] at h
    rw [← List.append_assoc new, ← List.append_assoc, List.getLast?_concat, h]

end Resolution

/-! ### Resolving an annotation -/

section

variable (style : Member.Style) (table : TypeTable) (ascription : Text)

/-- The tasks of an annotation in the order in which they are resolved. -/
def resolveTrace : List Task := (Resolution.start ascription).trace style table

/-- The last task that adds a member of the given name. -/
def lastWriter? (key : Text) : Option Task :=
  (resolveTrace style table ascription).reverse.find? fun task =>
    ((task.own style table).get? key).isSome

/-- The annotation is the name of a local type and nothing else. -/
def IsLocalName (name : Text) : Prop :=
  ∃ part, topLevelParts typeOperators ascription = [part] ∧ IsReference part ∧
    withoutArguments part = name ∧ name ∈ table.keys

variable {table}

theorem addAll_concat (tasks : List Task) (task : Task) :
    Task.addAll style table (tasks ++ [task]) =
      (Task.addAll style table tasks).extend (task.own style table) := by
  rw [Task.addAll, List.foldl_append, List.foldl_cons, List.foldl_nil, Task.addAll]

/-- Of members that are added task by task, those of the last task that has them remain. -/
theorem get?_addAll (tasks : List Task) (key : Text) :
    (Task.addAll style table tasks).get? key =
      (tasks.reverse.find? fun task => ((task.own style table).get? key).isSome).bind fun task =>
        (task.own style table).get? key := by
  induction tasks using List.reverseRecOn with
  | nil => rfl
  | append_singleton tasks task ih =>
      rw [addAll_concat, OrderedMap.get?_extend, ih,
        List.reverse_append, List.reverse_singleton, List.singleton_append, List.find?_cons]
      cases hmember : (task.own style table).get? key <;> simp [hmember]

variable (table)

theorem members_resolve_eq_addAll :
    (resolve style table ascription).members =
      Task.addAll style table (resolveTrace style table ascription) := by
  refine Resolution.run_trace_preserves style table
    (P := fun done r => r.members = Task.addAll style table done) (fun done r task agenda _ h => ?_)
    (show (Resolution.start ascription).members = Task.addAll style table [] from rfl)
  rw [Resolution.members_stepTask, h, addAll_concat]

theorem ordered_resolve :
    Resolution.Ordered table (resolveTrace style table ascription)
      (resolve style table ascription) :=
  Resolution.run_trace_preserves style table (P := Resolution.Ordered table)
    (fun _ _ _ _ ha h => h.stepTask ha) (Resolution.ordered_start ascription)

/-- The own members of a type are added once at most. -/
theorem count_resolveTrace_le_one (name : Text) :
    (resolveTrace style table ascription).count (.members name) ≤ 1 := by
  have honce := (ordered_resolve style table ascription).once name
  have hdone : (resolve style table ascription).agenda = [] := Resolution.agenda_run _ _ _
  rwa [hdone, List.append_nil] at honce

variable {table ascription}

theorem parentsFirst_resolve (hacyclic : table.IsAcyclic) :
    Resolution.ParentsFirst table (resolveTrace style table ascription) := by
  have hnone : Resolution.ParentsFirst table [] := by
    intro before name after hsplit
    simp at hsplit
  refine (Resolution.run_trace_preserves style table
    (P := fun done r => Resolution.Ordered table done r ∧ Resolution.ParentsFirst table done) ?_
    ⟨Resolution.ordered_start ascription, hnone⟩).2
  rintro done r task agenda ha ⟨h, hfirst⟩
  exact ⟨h.stepTask ha, hfirst.stepTask hacyclic h ha⟩

theorem mem_resolveTrace_of_reachesLocal {type : Text}
    (hreach : ReachesLocal table ascription type) :
    .members type ∈ resolveTrace style table ascription := by
  obtain ⟨part, hpart, href, rfl, hkey⟩ := hreach
  have hdone : (resolve style table ascription).agenda = [] := Resolution.agenda_run _ _ _
  obtain ⟨left, hcomplete⟩ := complete_resolve style table ascription
  have hleft := hcomplete.left_of_reachable style table hdone hpart
  have hvisited := hcomplete.locals part hleft href hkey
  rwa [(ordered_resolve style table ascription).visited, hdone, List.append_nil] at hvisited

/-- Every local type that an annotation reaches adds its own members, and only once. -/
theorem exists_split_of_reachesLocal {type : Text} (hreach : ReachesLocal table ascription type) :
    ∃ before after, resolveTrace style table ascription = before ++ .members type :: after ∧
      .members type ∉ before ∧ .members type ∉ after := by
  obtain ⟨before, after, hsplit⟩ :=
    List.append_of_mem (mem_resolveTrace_of_reachesLocal style hreach)
  have honce := count_resolveTrace_le_one style table ascription type
  rw [hsplit, List.count_append, List.count_cons_self] at honce
  exact ⟨before, after, hsplit, List.count_eq_zero.mp (by omega), List.count_eq_zero.mp (by omega)⟩

/-- What remains of a member is added by a task that has it, or by a later one. -/
theorem exists_lastWriter?_of_split {before after : List Task} {task : Task} {key : Text}
    (hsplit : resolveTrace style table ascription = before ++ task :: after)
    (hkey : key ∈ (task.own style table).keys) :
    ∃ writer ∈ task :: after, lastWriter? style table ascription key = some writer := by
  rw [lastWriter?, hsplit, List.reverse_append, List.reverse_cons, List.append_assoc,
    List.find?_append]
  cases hlater : after.reverse.find? fun later => ((later.own style table).get? key).isSome with
  | none =>
      obtain ⟨member, hmember⟩ := OrderedMap.exists_get?_of_mem_keys hkey
      exact ⟨task, List.mem_cons_self, by simp [hmember]⟩
  | some writer =>
      have hmem := List.mem_reverse.mp (List.mem_of_find?_eq_some hlater)
      exact ⟨writer, List.mem_cons_of_mem _ hmem, rfl⟩

/-- What an ancestor adds is not what remains of a member that a type has itself. -/
theorem lastWriter?_ne_ancestor (hacyclic : table.IsAcyclic) {type key : Text}
    (hreach : ReachesLocal table ascription type)
    (hkey : key ∈ (Task.own style table (.members type)).keys) :
    ∃ writer, lastWriter? style table ascription key = some writer ∧
      ∀ ancestor, HasAncestor table type ancestor → writer ≠ .members ancestor := by
  obtain ⟨before, after, hsplit, hbefore, -⟩ := exists_split_of_reachesLocal style hreach
  obtain ⟨writer, hwriter, hlast⟩ := exists_lastWriter?_of_split style hsplit hkey
  refine ⟨writer, hlast, ?_⟩
  rintro ancestor hancestor rfl
  have hfirst := (parentsFirst_resolve style hacyclic).ancestor_mem hsplit hancestor
  rcases List.mem_cons.mp hwriter with heq | hlater
  · exact hbefore (heq ▸ hfirst)
  · have honce := count_resolveTrace_le_one style table ascription ancestor
    rw [hsplit, List.count_append, List.count_cons] at honce
    have hpos := List.count_pos_iff.mpr hfirst
    have hpos' := List.count_pos_iff.mpr hlater
    omega

/-- A type that is the whole annotation adds its own members last. -/
theorem exists_resolveTrace_eq_concat {type : Text} (h : IsLocalName table ascription type) :
    ∃ before, resolveTrace style table ascription = before ++ [.members type] := by
  obtain ⟨part, hparts, href, rfl, hkey⟩ := h
  obtain ⟨definition, hd⟩ := OrderedMap.exists_get?_of_mem_keys hkey
  have hstart : (Resolution.start ascription).agenda = [.part part] := by
    rw [Resolution.start, hparts]
    rfl
  -- When the first step is done the own members of the type are last, and they stay there.
  have hbegin : ([Task.part part] ++
      ((Resolution.start ascription).stepTask style table (.part part) []).agenda).getLast? =
        some (.members (withoutArguments part)) := by
    rw [Resolution.stepTask_fresh (TypePart.of_reference href) hd (by simp [Resolution.start]),
      ← List.append_assoc, List.getLast?_concat]
  have hlast := Resolution.run_trace_preserves style table
    (P := fun done r => (done ++ r.agenda).getLast? = some (.members (withoutArguments part)))
    (fun _ _ _ _ ha h => Resolution.getLast?_stepTask ha h) hbegin
  rw [Resolution.agenda_run, List.append_nil, List.singleton_append,
    ← Resolution.trace_cons style table hstart] at hlast
  exact List.getLast?_eq_some_iff.mp hlast

/-- The members of an annotation are added task by task, and of each member the declaration added
last remains. Where no type inherits from itself, every local type that is reached adds its own
members once, behind those of all its ancestors, and what an ancestor adds never remains of a member
that the type has itself. A type that is the whole annotation keeps its own members in any case. -/
theorem own_members_override_inherited (table : TypeTable) (ascription : Text) :
    (resolve style table ascription).members =
        Task.addAll style table (resolveTrace style table ascription) ∧
      (∀ key, (resolve style table ascription).members.get? key =
        (lastWriter? style table ascription key).bind fun task =>
          (task.own style table).get? key) ∧
      (table.IsAcyclic → ∀ type, ReachesLocal table ascription type →
        (∃ before after, resolveTrace style table ascription = before ++ .members type :: after ∧
          .members type ∉ before ∧ .members type ∉ after ∧
          ∀ ancestor, HasAncestor table type ancestor → .members ancestor ∈ before) ∧
        ∀ definition, table.get? type = some definition → ∀ key ∈ definition.members.keys,
          ∃ writer, lastWriter? style table ascription key = some writer ∧
            ∀ ancestor, HasAncestor table type ancestor → writer ≠ .members ancestor) ∧
      ∀ type definition, IsLocalName table ascription type → table.get? type = some definition →
        ∀ key ∈ definition.members.keys,
          lastWriter? style table ascription key = some (.members type) ∧
            (resolve style table ascription).members.get? key = definition.members.get? key := by
  have hmembers := members_resolve_eq_addAll style table ascription
  have hget : ∀ key, (resolve style table ascription).members.get? key =
      (lastWriter? style table ascription key).bind fun task =>
        (task.own style table).get? key := by
    intro key
    rw [hmembers, get?_addAll, lastWriter?]
  have hown : ∀ {type definition}, table.get? type = some definition →
      Task.own style table (.members type) = definition.members := by
    intro type definition hd
    rw [Task.own, hd, Option.getD_some]
  refine ⟨hmembers, hget, ?_, ?_⟩
  · intro hacyclic type hreach
    refine ⟨?_, fun definition hd key hkey => ?_⟩
    · obtain ⟨before, after, hsplit, hbefore, hafter⟩ := exists_split_of_reachesLocal style hreach
      exact ⟨before, after, hsplit, hbefore, hafter, fun ancestor hancestor =>
        (parentsFirst_resolve style hacyclic).ancestor_mem hsplit hancestor⟩
    · exact lastWriter?_ne_ancestor style hacyclic hreach (hown hd ▸ hkey)
  · intro type definition hname hd key hkey
    obtain ⟨before, hsplit⟩ := exists_resolveTrace_eq_concat style hname
    obtain ⟨writer, hwriter, hlast⟩ := exists_lastWriter?_of_split style hsplit (hown hd ▸ hkey)
    rw [List.mem_singleton.mp hwriter] at hlast
    refine ⟨hlast, ?_⟩
    rw [hget, hlast, Option.bind_some, hown hd]

end

/-- A type that inherits a member along two ways, once as it was declared and once anew. -/
def diamondTable : TypeTable :=
  let base : Member := ⟨"size".toList, "number".toList, true, none⟩
  let left : Member := ⟨"size".toList, "string".toList, false, none⟩
  .ofList [("Base".toList, ⟨.ofList [("size".toList, base)], []⟩),
    ("Left".toList, ⟨.ofList [("size".toList, left)], ["Base".toList]⟩),
    ("Right".toList, ⟨.empty, ["Base".toList]⟩),
    ("Both".toList, ⟨.empty, ["Left".toList, "Right".toList]⟩)]

theorem own_members_override_inherited_diamond :
    diamondTable.IsAcyclic ∧
      HasAncestor diamondTable "Left".toList "Base".toList ∧
      ∃ writer, lastWriter? {} diamondTable "Both".toList "size".toList = some writer ∧
        writer ≠ .members "Base".toList := by
  have hname : ∀ {part : Text}, part.head? ≠ some '{' → part.head? ≠ some '(' →
      IsReference part := by
    intro part hbody hgroup
    refine ⟨hbody, ?_⟩
    rintro inner rfl
    simp at hgroup
  have hacyclic : diamondTable.IsAcyclic := by
    refine TypeTable.isAcyclic_of_rank (fun name => diamondTable.keys.idxOf name) ?_
    have hall : ∀ entry ∈ diamondTable.entries, ∀ part ∈ entry.2.parents,
        (part.head? ≠ some '{' ∧ part.head? ≠ some '(') ∧
          diamondTable.keys.idxOf (withoutArguments part) < diamondTable.keys.idxOf entry.1 := by
      decide
    intro entry hentry part hpart
    obtain ⟨⟨hbody, hgroup⟩, hlower⟩ := hall entry hentry part hpart
    exact ⟨hname hbody hgroup, hlower⟩
  have hancestor : HasAncestor diamondTable "Left".toList "Base".toList :=
    Relation.TransGen.single ⟨_, rfl, "Base".toList, List.mem_singleton_self _,
      LeadsTo.name (hname (by decide) (by decide)) (by decide)⟩
  have hreach : ReachesLocal diamondTable "Both".toList "Left".toList := by
    have hboth : Reachable diamondTable "Both".toList "Both".toList := Reachable.part (by decide)
    have hleft : Reachable diamondTable "Both".toList "Left".toList :=
      Reachable.parent hboth (hname (by decide) (by decide)) rfl (by decide)
    exact ⟨_, hleft, hname (by decide) (by decide), by decide, by decide⟩
  obtain ⟨-, -, hoverride, -⟩ := own_members_override_inherited {} diamondTable "Both".toList
  obtain ⟨writer, hlast, hne⟩ :=
    (hoverride hacyclic _ hreach).2 _ rfl "size".toList (by decide)
  exact ⟨hacyclic, hancestor, writer, hlast, hne _ hancestor⟩

end ComponentProps
