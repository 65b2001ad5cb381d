import ComponentProps.Resolution
import ComponentProps.Proofs.Maps
import Mathlib.Logic.Function.Iterate

/-!
# What an annotation reaches

The parts of an annotation, the parts within its groups and the parents of the local types that it
names form the least set closed under these steps. Working off the agenda of a resolution visits
exactly this set: nothing else comes on the agenda, and a part is left behind only when all that
follows from it is on the agenda or has been left behind too.
-/

namespace ComponentProps

open Text

/-- A part that is neither an inline body nor a group stands for a type by its name. -/
def IsReference (part : Text) : Prop :=
  part.head? ≠ some '{' ∧ ∀ inner : Text, part ≠ '(' :: (inner ++ [')'])

/-- The parts that an annotation reaches through groups and through the parents of local types. -/
inductive Reachable (table : TypeTable) (ascription : Text) : Text → Prop
  | part {part : Text} (h : part ∈ topLevelParts typeOperators ascription) :
      Reachable table ascription part
  | group {inner part : Text} (outer : Reachable table ascription ('(' :: (inner ++ [')'])))
      (h : part ∈ topLevelParts typeOperators inner) : Reachable table ascription part
  | parent {child part : Text} {definition : TypeDefinition}
      (named : Reachable table ascription child) (isName : IsReference child)
      (declared : table.get? (withoutArguments child) = some definition)
      (h : part ∈ definition.parents) : Reachable table ascription part

/-- A local type that an annotation reaches, by its name. -/
def ReachesLocal (table : TypeTable) (ascription name : Text) : Prop :=
  ∃ part, Reachable table ascription part ∧ IsReference part ∧ withoutArguments part = name ∧
    name ∈ table.keys

/-- An outside type that an annotation reaches, as it is written. -/
def ReachesOutside (table : TypeTable) (ascription part : Text) : Prop :=
  Reachable table ascription part ∧ IsReference part ∧ withoutArguments part ∉ table.keys

/-- An inline body that an annotation reaches, without its curly brackets. A body that is cut off
has no closing bracket. -/
def ReachesBody (table : TypeTable) (ascription body : Text) : Prop :=
  Reachable table ascription ('{' :: (body ++ ['}'])) ∨
    (Reachable table ascription ('{' :: body) ∧ body.getLast? ≠ some '}')

/-- A member that an annotation reaches, by its name: of a local type or of an inline body. -/
def ReachesMember (style : Member.Style) (table : TypeTable) (ascription name : Text) : Prop :=
  (∃ type definition, ReachesLocal table ascription type ∧ table.get? type = some definition ∧
      name ∈ definition.members.keys) ∨
    ∃ body, ReachesBody table ascription body ∧ name ∈ (Member.scan style body).keys

namespace TypePart

theorem dropLast?_concat (c : Char) (t : Text) : dropLast? c (t ++ [c]) = some t := by
  simp [dropLast?]

theorem eq_concat_of_dropLast? {c : Char} {t u : Text} (h : dropLast? c t = some u) :
    t = u ++ [c] := by
  unfold dropLast? at h
  split at h
  · rename_i hl
    obtain ⟨start, rfl⟩ := List.getLast?_eq_some_iff.mp hl
    simpa using h
  · contradiction

theorem getLast?_ne_of_dropLast? {c : Char} {t : Text} (h : dropLast? c t = none) :
    t.getLast? ≠ some c := by
  intro hl
  simp [dropLast?, hl] at h

theorem of_group (inner : Text) : of ('(' :: (inner ++ [')'])) = .group inner := by
  simp [of, dropLast?_concat]

theorem of_body (body : Text) : of ('{' :: (body ++ ['}'])) = .body body := by
  simp [of, dropLast?_concat]

theorem of_openBody {body : Text} (h : body.getLast? ≠ some '}') :
    of ('{' :: body) = .body body := by
  simp [of, dropLast?, h]

theorem of_reference {part : Text} (h : IsReference part) : of part = .reference part := by
  unfold of
  split
  · exact absurd rfl h.1
  · rename_i rest
    split
    · rename_i inner hd
      exact absurd (congrArg ('(' :: ·) (eq_concat_of_dropLast? hd)) (h.2 inner)
    · rfl
  · rfl

/-- Every part is a body, a group or a reference, and is told apart by its ends. -/
theorem of_cases (part : Text) :
    (∃ body, of part = .body body ∧ (part = '{' :: (body ++ ['}']) ∨
        (part = '{' :: body ∧ body.getLast? ≠ some '}'))) ∨
      (∃ inner, of part = .group inner ∧ part = '(' :: (inner ++ [')'])) ∨
      (of part = .reference part ∧ IsReference part) := by
  unfold of
  split
  · rename_i rest
    cases hd : dropLast? '}' rest with
    | none => exact Or.inl ⟨rest, rfl, Or.inr ⟨rfl, getLast?_ne_of_dropLast? hd⟩⟩
    | some body =>
        exact Or.inl ⟨body, rfl, Or.inl (congrArg ('{' :: ·) (eq_concat_of_dropLast? hd))⟩
  · rename_i rest
    cases hd : dropLast? ')' rest with
    | none =>
        refine Or.inr (Or.inr ⟨rfl, by simp, ?_⟩)
        intro inner heq
        have hrest : rest = inner ++ [')'] := List.cons.inj heq |>.2
        rw [hrest, dropLast?_concat] at hd
        contradiction
    | some inner =>
        exact Or.inr (Or.inl ⟨inner, rfl, congrArg ('(' :: ·) (eq_concat_of_dropLast? hd)⟩)
  · rename_i hbody hgroup
    refine Or.inr (Or.inr ⟨rfl, ?_, ?_⟩)
    · intro hhead
      cases part with
      | nil => simp at hhead
      | cons c rest =>
          have hc : c = '{' := by simpa using hhead
          exact hbody rest (by rw [hc])
    · intro inner heq
      exact hgroup _ heq

end TypePart

theorem addNew_eq (xs : List Text) (x : Text) :
    addNew xs x = if x ∈ xs then xs else xs ++ [x] := by
  simp only [addNew, List.contains_iff_mem]

theorem mem_addNew {xs : List Text} {x y : Text} : y ∈ addNew xs x ↔ y ∈ xs ∨ y = x := by
  rw [addNew_eq]
  split
  · rename_i hx
    constructor
    · exact Or.inl
    · rintro (h | rfl)
      · exact h
      · exact hx
  · rw [List.mem_append, List.mem_singleton]

theorem nodup_addNew {xs : List Text} (h : xs.Nodup) (x : Text) : (addNew xs x).Nodup := by
  rw [addNew_eq]
  split
  · exact h
  · rename_i hx
    rw [List.nodup_append]
    refine ⟨h, by simp, ?_⟩
    intro a ha b hb hab
    exact hx (List.mem_singleton.mp hb ▸ hab ▸ ha)

namespace Resolution

variable (style : Member.Style) (table : TypeTable)

/-! ### Runs -/

/-- What every step keeps holds when the agenda has been worked off. -/
theorem run_preserves {P : Resolution → Prop}
    (keep : ∀ r : Resolution, r.agenda ≠ [] → P r → P (r.step style table)) {r : Resolution}
    (h : P r) : P (r.run style table) := by
  induction r using Resolution.run.induct style table with
  | case1 r hdone =>
      rw [run, dif_pos hdone]
      exact h
  | case2 r hmore ih =>
      rw [run, dif_neg hmore]
      exact ih (keep r hmore h)

theorem agenda_run (r : Resolution) : (r.run style table).agenda = [] := by
  induction r using Resolution.run.induct style table with
  | case1 r hdone =>
      rw [run, dif_pos hdone]
      exact hdone
  | case2 r hmore ih =>
      rw [run, dif_neg hmore]
      exact ih

/-- A run is a finite number of steps. -/
theorem run_eq_iterate (r : Resolution) :
    ∃ n, (step style table)^[n] r = r.run style table := by
  refine run_preserves style table (P := fun r' => ∃ n, (step style table)^[n] r = r') ?_ ⟨0, rfl⟩
  rintro r' - ⟨n, rfl⟩
  exact ⟨n + 1, Function.iterate_succ_apply' _ n r⟩

/-! ### One step -/

variable {style table} {r : Resolution} {agenda : List Task}

theorem stepTask_body {part body : Text} (h : TypePart.of part = .body body) :
    r.stepTask style table (.part part) agenda =
      { r with agenda := agenda, members := r.members.extend (Member.scan style body) } := by
  simp only [stepTask, h]

theorem stepTask_group {part inner : Text} (h : TypePart.of part = .group inner) :
    r.stepTask style table (.part part) agenda =
      { r with agenda := (topLevelParts typeOperators inner).map .part ++ agenda } := by
  simp only [stepTask, h]

theorem stepTask_outside {part : Text} (h : TypePart.of part = .reference part)
    (hk : withoutArguments part ∉ table.keys) :
    r.stepTask style table (.part part) agenda =
      { r with agenda := agenda, inherits := addNew r.inherits part } := by
  simp only [stepTask, h, stepReference, OrderedMap.get?_eq_none_iff.mpr hk]

theorem stepTask_known {part : Text} {definition : TypeDefinition}
    (h : TypePart.of part = .reference part)
    (hd : table.get? (withoutArguments part) = some definition)
    (hv : withoutArguments part ∈ r.visited) :
    r.stepTask style table (.part part) agenda = { r with agenda := agenda } := by
  simp only [stepTask, h, stepReference, hd, if_pos (List.contains_iff_mem.mpr hv)]

theorem stepTask_fresh {part : Text} {definition : TypeDefinition}
    (h : TypePart.of part = .reference part)
    (hd : table.get? (withoutArguments part) = some definition)
    (hv : withoutArguments part ∉ r.visited) :
    r.stepTask style table (.part part) agenda =
      { r with
        agenda := definition.parents.map .part ++ .members (withoutArguments part) :: agenda
        visited := withoutArguments part :: r.visited } := by
  simp only [stepTask, h, stepReference, hd,
    if_neg (mt List.contains_iff_mem.mp hv)]

/-- What resolving a part does to the state. -/
inductive PartStep (style : Member.Style) (table : TypeTable) (r : Resolution)
    (agenda : List Task) : Text → Resolution → Prop
  | body {part body : Text} (isBody : TypePart.of part = .body body)
      (written : part = '{' :: (body ++ ['}']) ∨ (part = '{' :: body ∧ body.getLast? ≠ some '}')) :
      PartStep style table r agenda part
        { r with agenda := agenda, members := r.members.extend (Member.scan style body) }
  | group (inner : Text) : PartStep style table r agenda ('(' :: (inner ++ [')']))
      { r with agenda := (topLevelParts typeOperators inner).map .part ++ agenda }
  | outside {part : Text} (isName : IsReference part)
      (undeclared : withoutArguments part ∉ table.keys) : PartStep style table r agenda part
        { r with agenda := agenda, inherits := addNew r.inherits part }
  | known {part : Text} (isName : IsReference part) (visited : withoutArguments part ∈ r.visited)
      (declared : withoutArguments part ∈ table.keys) :
      PartStep style table r agenda part { r with agenda := agenda }
  | fresh {part : Text} {definition : TypeDefinition} (isName : IsReference part)
      (new : withoutArguments part ∉ r.visited)
      (declared : table.get? (withoutArguments part) = some definition) :
      PartStep style table r agenda part
        { r with
          agenda := definition.parents.map .part ++ .members (withoutArguments part) :: agenda
          visited := withoutArguments part :: r.visited }

theorem partStep (style : Member.Style) (table : TypeTable) (r : Resolution) (part : Text)
    (agenda : List Task) :
    PartStep style table r agenda part (r.stepTask style table (.part part) agenda) := by
  rcases TypePart.of_cases part with ⟨body, hof, hbody⟩ | ⟨inner, hof, rfl⟩ | ⟨hof, href⟩
  · rw [stepTask_body hof]
    exact .body hof hbody
  · rw [stepTask_group hof]
    exact .group inner
  · by_cases hkey : withoutArguments part ∈ table.keys
    · obtain ⟨definition, hd⟩ := OrderedMap.exists_get?_of_mem_keys hkey
      by_cases hv : withoutArguments part ∈ r.visited
      · rw [stepTask_known hof hd hv]
        exact .known href hv hkey
      · rw [stepTask_fresh hof hd hv]
        exact .fresh href hv hd
    · rw [stepTask_outside hof hkey]
      exact .outside href hkey

/-! ### Nothing else is reached -/

variable (style table) {ascription : Text}

/-- Everything that is recorded or still to be resolved follows from the annotation. -/
structure Sound (ascription : Text) (r : Resolution) : Prop where
  parts : ∀ part, Task.part part ∈ r.agenda → Reachable table ascription part
  pending : ∀ name, Task.members name ∈ r.agenda → ReachesLocal table ascription name
  inherits : ∀ part ∈ r.inherits, ReachesOutside table ascription part
  distinct : r.inherits.Nodup
  members : ∀ name ∈ r.members.keys, ReachesMember style table ascription name

theorem sound_start (ascription : Text) : Sound style table ascription (start ascription) where
  parts := by
    intro part h
    simp only [start, List.mem_map, Task.part.injEq, exists_eq_right] at h
    exact Reachable.part h
  pending := by
    intro name h
    simp [start] at h
  inherits := by
    intro part h
    simp [start] at h
  distinct := List.nodup_nil
  members := by
    intro name h
    simp [start, OrderedMap.keys, OrderedMap.empty] at h

theorem Sound.stepTask_members {r : Resolution} {name : Text} {agenda : List Task}
    (ha : r.agenda = .members name :: agenda) (h : Sound style table ascription r) :
    Sound style table ascription (r.stepTask style table (.members name) agenda) where
  parts := fun part hp => h.parts part (ha ▸ List.mem_cons_of_mem _ hp)
  pending := fun other hp => h.pending other (ha ▸ List.mem_cons_of_mem _ hp)
  inherits := h.inherits
  distinct := h.distinct
  members := by
    intro k hk
    have hlocal := h.pending name (by rw [ha]; exact List.mem_cons_self)
    rcases OrderedMap.mem_keys_extend.mp hk with hk | hk
    · exact h.members k hk
    · obtain ⟨part, hreach, href, hname, hkey⟩ := hlocal
      obtain ⟨definition, hd⟩ := OrderedMap.exists_get?_of_mem_keys hkey
      rw [hd] at hk
      exact Or.inl ⟨name, definition, ⟨part, hreach, href, hname, hkey⟩, hd, hk⟩

theorem Sound.stepTask_part {r : Resolution} {part : Text} {agenda : List Task}
    (ha : r.agenda = .part part :: agenda) (h : Sound style table ascription r) :
    Sound style table ascription (r.stepTask style table (.part part) agenda) := by
  have hpart : Reachable table ascription part :=
    h.parts part (by rw [ha]; exact List.mem_cons_self)
  have hparts : ∀ p, Task.part p ∈ agenda → Reachable table ascription p :=
    fun p hp => h.parts p (ha ▸ List.mem_cons_of_mem _ hp)
  have hpending : ∀ n, Task.members n ∈ agenda → ReachesLocal table ascription n :=
    fun n hn => h.pending n (ha ▸ List.mem_cons_of_mem _ hn)
  have hstep := partStep style table r part agenda
  generalize r.stepTask style table (.part part) agenda = r' at hstep ⊢
  cases hstep with
  | @body _ body _ written =>
      refine ⟨hparts, hpending, h.inherits, h.distinct, ?_⟩
      intro k hk
      rcases OrderedMap.mem_keys_extend.mp hk with hk | hk
      · exact h.members k hk
      · refine Or.inr ⟨body, ?_, hk⟩
        rcases written with rfl | ⟨rfl, hl⟩
        · exact Or.inl hpart
        · exact Or.inr ⟨hpart, hl⟩
  | group inner =>
      refine ⟨?_, ?_, h.inherits, h.distinct, h.members⟩
      · intro p hp
        rcases List.mem_append.mp hp with hp | hp
        · simp only [List.mem_map, Task.part.injEq, exists_eq_right] at hp
          exact Reachable.group hpart hp
        · exact hparts p hp
      · intro n hn
        rcases List.mem_append.mp hn with hn | hn
        · simp at hn
        · exact hpending n hn
  | outside isName undeclared =>
      refine ⟨hparts, hpending, ?_, nodup_addNew h.distinct part, h.members⟩
      intro p hp
      rcases mem_addNew.mp hp with hp | rfl
      · exact h.inherits p hp
      · exact ⟨hpart, isName, undeclared⟩
  | known => exact ⟨hparts, hpending, h.inherits, h.distinct, h.members⟩
  | fresh isName _ declared =>
      refine ⟨?_, ?_, h.inherits, h.distinct, h.members⟩
      · intro p hp
        rcases List.mem_append.mp hp with hp | hp
        · simp only [List.mem_map, Task.part.injEq, exists_eq_right] at hp
          exact Reachable.parent hpart isName declared hp
        · exact hparts p (by simpa using hp)
      · intro n hn
        rcases List.mem_append.mp hn with hn | hn
        · simp at hn
        · rcases List.mem_cons.mp hn with hn | hn
          · rw [Task.members.injEq] at hn
            exact ⟨part, hpart, isName, hn.symm, hn ▸ OrderedMap.mem_keys_of_get? declared⟩
          · exact hpending n hn

theorem Sound.step {r : Resolution} (hne : r.agenda ≠ []) (h : Sound style table ascription r) :
    Sound style table ascription (r.step style table) := by
  unfold Resolution.step
  split
  · contradiction
  · rename_i task agenda ha
    cases task with
    | part part => exact Sound.stepTask_part style table ha h
    | members name => exact Sound.stepTask_members style table ha h

/-! ### Everything is reached -/

/-- The parts that have been left behind, `left`, leave nothing open but what is on the agenda. -/
structure Complete (ascription : Text) (r : Resolution) (left : Text → Prop) : Prop where
  start : ∀ part ∈ topLevelParts typeOperators ascription, left part ∨ Task.part part ∈ r.agenda
  groups : ∀ inner, left ('(' :: (inner ++ [')'])) → ∀ part ∈ topLevelParts typeOperators inner,
    left part ∨ Task.part part ∈ r.agenda
  locals : ∀ part, left part → IsReference part → withoutArguments part ∈ table.keys →
    withoutArguments part ∈ r.visited
  parents : ∀ name ∈ r.visited, ∀ definition, table.get? name = some definition →
    ∀ part ∈ definition.parents, left part ∨ Task.part part ∈ r.agenda
  members : ∀ name ∈ r.visited, ∀ definition, table.get? name = some definition →
    Task.members name ∈ r.agenda ∨ ∀ k ∈ definition.members.keys, k ∈ r.members.keys
  bodies : ∀ part body, left part → TypePart.of part = .body body →
    ∀ k ∈ (Member.scan style body).keys, k ∈ r.members.keys
  outside : ∀ part, left part → IsReference part → withoutArguments part ∉ table.keys →
    part ∈ r.inherits

theorem complete_start (ascription : Text) :
    Complete style table ascription (Resolution.start ascription) fun _ => False where
  start := by
    intro part h
    right
    simpa [Resolution.start] using h
  groups := fun _ h => h.elim
  locals := fun _ h => h.elim
  parents := by
    intro name h
    simp [Resolution.start] at h
  members := by
    intro name h
    simp [Resolution.start] at h
  bodies := fun _ _ h => h.elim
  outside := fun _ h => h.elim

theorem Complete.stepTask_members {r : Resolution} {left : Text → Prop} {name : Text}
    {agenda : List Task} (ha : r.agenda = .members name :: agenda)
    (h : Complete style table ascription r left) :
    Complete style table ascription (r.stepTask style table (.members name) agenda) left := by
  have seen : ∀ {p}, left p ∨ Task.part p ∈ r.agenda → left p ∨ Task.part p ∈ agenda := by
    intro p hp
    simpa [ha] using hp
  refine ⟨?_, ?_, h.locals, ?_, ?_, ?_, h.outside⟩
  · exact fun p hp => seen (h.start p hp)
  · exact fun inner hl p hp => seen (h.groups inner hl p hp)
  · exact fun n hn d hd p hp => seen (h.parents n hn d hd p hp)
  · intro n hn d hd
    rcases h.members n hn d hd with hpend | hdone
    · rw [ha] at hpend
      rcases List.mem_cons.mp hpend with heq | hpend
      · right
        intro k hk
        rw [Task.members.injEq] at heq
        refine OrderedMap.mem_keys_extend.mpr (Or.inr ?_)
        rw [← heq, hd]
        exact hk
      · exact Or.inl hpend
    · exact Or.inr fun k hk => OrderedMap.mem_keys_extend.mpr (Or.inl (hdone k hk))
  · exact fun p b hl hof k hk => OrderedMap.mem_keys_extend.mpr (Or.inl (h.bodies p b hl hof k hk))

/-- A part may be left behind when the next state holds what follows from it. -/
theorem Complete.leave {r r' : Resolution} {left : Text → Prop} {part : Text} {agenda : List Task}
    (ha : r.agenda = .part part :: agenda) (h : Complete style table ascription r left)
    (hagenda : ∀ task ∈ agenda, task ∈ r'.agenda)
    (hvisited : ∀ name ∈ r.visited, name ∈ r'.visited)
    (hmembers : ∀ k ∈ r.members.keys, k ∈ r'.members.keys)
    (hinherits : ∀ p ∈ r.inherits, p ∈ r'.inherits)
    (hgroup : ∀ inner, TypePart.of part = .group inner →
      ∀ p ∈ topLevelParts typeOperators inner, Task.part p ∈ r'.agenda)
    (hbody : ∀ body, TypePart.of part = .body body →
      ∀ k ∈ (Member.scan style body).keys, k ∈ r'.members.keys)
    (hlocal : IsReference part → withoutArguments part ∈ table.keys →
      withoutArguments part ∈ r'.visited)
    (houtside : IsReference part → withoutArguments part ∉ table.keys → part ∈ r'.inherits)
    (hfresh : ∀ name ∈ r'.visited, name ∉ r.visited → ∀ definition,
      table.get? name = some definition →
        Task.members name ∈ r'.agenda ∧ ∀ p ∈ definition.parents, Task.part p ∈ r'.agenda) :
    Complete style table ascription r' fun p => left p ∨ p = part := by
  -- The part itself goes from the agenda to those left behind, so nothing seen is lost.
  have seen : ∀ {p}, left p ∨ Task.part p ∈ r.agenda →
      (left p ∨ p = part) ∨ Task.part p ∈ r'.agenda := by
    rintro p (hp | hp)
    · exact Or.inl (Or.inl hp)
    · rw [ha] at hp
      rcases List.mem_cons.mp hp with heq | hp
      · exact Or.inl (Or.inr (Task.part.inj heq))
      · exact Or.inr (hagenda _ hp)
  refine ⟨fun p hp => seen (h.start p hp), ?_, ?_, ?_, ?_, ?_, ?_⟩
  · rintro inner (hl | rfl) p hp
    · exact seen (h.groups inner hl p hp)
    · exact Or.inr (hgroup inner (TypePart.of_group inner) p hp)
  · rintro p (hl | rfl) hp hk
    · exact hvisited _ (h.locals p hl hp hk)
    · exact hlocal hp hk
  · intro name hn definition hd p hp
    by_cases hv : name ∈ r.visited
    · exact seen (h.parents name hv definition hd p hp)
    · exact Or.inr ((hfresh name hn hv definition hd).2 p hp)
  · intro name hn definition hd
    by_cases hv : name ∈ r.visited
    · rcases h.members name hv definition hd with hm | hm
      · exact Or.inl (hagenda _ (by simpa [ha] using hm))
      · exact Or.inr fun k hk => hmembers k (hm k hk)
    · exact Or.inl (hfresh name hn hv definition hd).1
  · rintro p body (hl | rfl) hb k hk
    · exact hmembers k (h.bodies p body hl hb k hk)
    · exact hbody body hb k hk
  · rintro p (hl | rfl) hp hk
    · exact hinherits p (h.outside p hl hp hk)
    · exact houtside hp hk

section Leaving

variable {r : Resolution} {left : Text → Prop} {part : Text} {agenda : List Task}
  (ha : r.agenda = .part part :: agenda) (h : Complete style table ascription r left)

include ha h

theorem Complete.leave_body {body : Text} (hof : TypePart.of part = .body body) :
    Complete style table ascription
      { r with agenda := agenda, members := r.members.extend (Member.scan style body) }
      fun p => left p ∨ p = part := by
  have notName : ¬ IsReference part := by
    intro hr
    rw [TypePart.of_reference hr] at hof
    contradiction
  apply Complete.leave style table ha h
  · exact fun _ ht => ht
  · exact fun _ hn => hn
  · exact fun k hk => OrderedMap.mem_keys_extend.mpr (Or.inl hk)
  · exact fun _ hp => hp
  · intro inner hg
    rw [hof] at hg
    contradiction
  · intro body' hb k hk
    rw [hof, TypePart.body.injEq] at hb
    exact OrderedMap.mem_keys_extend.mpr (Or.inr (hb ▸ hk))
  · exact fun hr => absurd hr notName
  · exact fun hr => absurd hr notName
  · exact fun n hn hv => absurd hn hv

theorem Complete.leave_group {inner : Text} (hpart : part = '(' :: (inner ++ [')'])) :
    Complete style table ascription
      { r with agenda := (topLevelParts typeOperators inner).map .part ++ agenda }
      fun p => left p ∨ p = part := by
  have hof : TypePart.of part = .group inner := hpart ▸ TypePart.of_group inner
  have notName : ¬ IsReference part := fun hr => hr.2 inner hpart
  apply Complete.leave style table ha h
  · exact fun _ ht => List.mem_append_right _ ht
  · exact fun _ hn => hn
  · exact fun _ hk => hk
  · exact fun _ hp => hp
  · intro inner' hg p hp
    rw [hof, TypePart.group.injEq] at hg
    exact List.mem_append_left _ (List.mem_map_of_mem (hg ▸ hp))
  · intro body hb
    rw [hof] at hb
    contradiction
  · exact fun hr => absurd hr notName
  · exact fun hr => absurd hr notName
  · exact fun n hn hv => absurd hn hv

/-- A reference may be left behind when it is recorded by its kind. -/
theorem Complete.leave_reference {r' : Resolution} (href : IsReference part)
    (hagenda : ∀ task ∈ agenda, task ∈ r'.agenda) (hvisited : ∀ n ∈ r.visited, n ∈ r'.visited)
    (hmembers : r'.members = r.members) (hinherits : ∀ p ∈ r.inherits, p ∈ r'.inherits)
    (hlocal : withoutArguments part ∈ table.keys → withoutArguments part ∈ r'.visited)
    (houtside : withoutArguments part ∉ table.keys → part ∈ r'.inherits)
    (hfresh : ∀ name ∈ r'.visited, name ∉ r.visited → ∀ definition,
      table.get? name = some definition →
        Task.members name ∈ r'.agenda ∧ ∀ p ∈ definition.parents, Task.part p ∈ r'.agenda) :
    Complete style table ascription r' fun p => left p ∨ p = part := by
  have hof := TypePart.of_reference href
  refine Complete.leave style table ha h hagenda hvisited ?_ hinherits ?_ ?_ (fun _ => hlocal)
    (fun _ => houtside) hfresh
  · exact fun k hk => hmembers ▸ hk
  · intro inner hg
    rw [hof] at hg
    contradiction
  · intro body hb
    rw [hof] at hb
    contradiction

theorem Complete.leave_fresh {definition : TypeDefinition} (href : IsReference part)
    (hd : table.get? (withoutArguments part) = some definition) :
    Complete style table ascription
      { r with
        agenda := definition.parents.map .part ++ .members (withoutArguments part) :: agenda
        visited := withoutArguments part :: r.visited }
      fun p => left p ∨ p = part := by
  apply Complete.leave_reference style table ha h href
  · exact fun _ ht => List.mem_append_right _ (List.mem_cons_of_mem _ ht)
  · exact fun _ hn => List.mem_cons_of_mem _ hn
  · rfl
  · exact fun _ hp => hp
  · exact fun _ => List.mem_cons_self
  · exact fun hk => absurd (OrderedMap.mem_keys_of_get? hd) hk
  · intro name hn hnew definition' hd'
    obtain rfl : name = withoutArguments part := (List.mem_cons.mp hn).resolve_right hnew
    obtain rfl : definition = definition' := Option.some.inj (hd.symm.trans hd')
    exact ⟨List.mem_append_right _ List.mem_cons_self,
      fun p hp => List.mem_append_left _ (List.mem_map_of_mem hp)⟩

theorem Complete.stepTask_part :
    Complete style table ascription (r.stepTask style table (.part part) agenda)
      fun p => left p ∨ p = part := by
  have hstep := partStep style table r part agenda
  generalize r.stepTask style table (.part part) agenda = r' at hstep ⊢
  cases hstep with
  | body isBody _ => exact Complete.leave_body style table ha h isBody
  | group inner => exact Complete.leave_group style table ha h rfl
  | outside isName undeclared =>
      refine Complete.leave_reference style table ha h isName (fun _ ht => ht) (fun _ hn => hn) rfl
        ?_ (fun hk => absurd hk undeclared) ?_ fun n hn hv => absurd hn hv
      · exact fun p hp => mem_addNew.mpr (Or.inl hp)
      · exact fun _ => mem_addNew.mpr (Or.inr rfl)
  | known isName visited declared =>
      exact Complete.leave_reference style table ha h isName (fun _ ht => ht) (fun _ hn => hn) rfl
        (fun _ hp => hp) (fun _ => visited) (fun hk => absurd declared hk)
        fun n hn hv => absurd hn hv
  | fresh isName _ declared => exact Complete.leave_fresh style table ha h isName declared

end Leaving

theorem Complete.step {r : Resolution} {left : Text → Prop} (hne : r.agenda ≠ [])
    (h : Complete style table ascription r left) :
    ∃ left', Complete style table ascription (r.step style table) left' := by
  unfold Resolution.step
  split
  · contradiction
  · rename_i task agenda ha
    cases task with
    | part part => exact ⟨_, Complete.stepTask_part style table ha h⟩
    | members name => exact ⟨left, Complete.stepTask_members style table ha h⟩

/-- When nothing is on the agenda, every part that is reached has been left behind. -/
theorem Complete.left_of_reachable {r : Resolution} {left : Text → Prop} {part : Text}
    (h : Complete style table ascription r left) (hdone : r.agenda = [])
    (hreach : Reachable table ascription part) : left part := by
  have seen : ∀ {p}, left p ∨ Task.part p ∈ r.agenda → left p := by
    intro p hp
    simpa [hdone] using hp
  induction hreach with
  | part hp => exact seen (h.start _ hp)
  | group _ hp ih => exact seen (h.groups _ ih _ hp)
  | parent _ href hd hp ih =>
      have hv := h.locals _ ih href (OrderedMap.mem_keys_of_get? hd)
      exact seen (h.parents _ hv _ hd _ hp)

end Resolution

theorem sound_resolve (style : Member.Style) (table : TypeTable) (ascription : Text) :
    Resolution.Sound style table ascription (resolve style table ascription) :=
  Resolution.run_preserves style table (fun _ hne h => h.step style table hne)
    (Resolution.sound_start style table ascription)

theorem complete_resolve (style : Member.Style) (table : TypeTable) (ascription : Text) :
    ∃ left, Resolution.Complete style table ascription (resolve style table ascription) left := by
  refine Resolution.run_preserves style table
    (P := fun r => ∃ left, Resolution.Complete style table ascription r left) ?_
    ⟨_, Resolution.complete_start style table ascription⟩
  rintro r hne ⟨left, h⟩
  exact h.step style table hne

theorem mem_inherits_resolve_iff (style : Member.Style) (table : TypeTable)
    (ascription part : Text) :
    part ∈ (resolve style table ascription).inherits ↔ ReachesOutside table ascription part := by
  constructor
  · exact (sound_resolve style table ascription).inherits part
  · rintro ⟨hreach, href, hkey⟩
    obtain ⟨left, h⟩ := complete_resolve style table ascription
    exact h.outside part (h.left_of_reachable style table (Resolution.agenda_run _ _ _) hreach)
      href hkey

theorem mem_members_resolve_iff (style : Member.Style) (table : TypeTable)
    (ascription name : Text) :
    name ∈ (resolve style table ascription).members.keys ↔
      ReachesMember style table ascription name := by
  constructor
  · exact (sound_resolve style table ascription).members name
  · obtain ⟨left, h⟩ := complete_resolve style table ascription
    have hdone : (resolve style table ascription).agenda = [] := Resolution.agenda_run _ _ _
    rintro (⟨type, definition, ⟨part, hreach, href, rfl, hkey⟩, hd, hname⟩ | ⟨body, hreach, hname⟩)
    · have hv := h.locals part (h.left_of_reachable style table hdone hreach) href hkey
      rcases h.members _ hv definition hd with hm | hm
      · simp [hdone] at hm
      · exact hm name hname
    · obtain ⟨part, hpart, hof⟩ :
          ∃ part, Reachable table ascription part ∧ TypePart.of part = .body body := by
        rcases hreach with hr | ⟨hr, hl⟩
        · exact ⟨_, hr, TypePart.of_body body⟩
        · exact ⟨_, hr, TypePart.of_openBody hl⟩
      exact h.bodies part body (h.left_of_reachable style table hdone hpart) hof name hname

/-- Resolving an annotation ends after finitely many steps with nothing left to do. The outside
types found are, without repeats, exactly those that the annotation reaches, and the members found
are exactly those of the local types and inline bodies that it reaches. -/
theorem resolve_iff_reachable (style : Member.Style) (table : TypeTable) (ascription : Text) :
    (∃ n, (Resolution.step style table)^[n] (Resolution.start ascription) =
        resolve style table ascription) ∧
      (resolve style table ascription).agenda = [] ∧
      (resolve style table ascription).inherits.Nodup ∧
      (∀ part, part ∈ (resolve style table ascription).inherits ↔
        ReachesOutside table ascription part) ∧
      ∀ name, name ∈ (resolve style table ascription).members.keys ↔
        ReachesMember style table ascription name := by
  refine ⟨Resolution.run_eq_iterate style table _, Resolution.agenda_run style table _, ?_, ?_, ?_⟩
  · exact (sound_resolve style table ascription).distinct
  · exact mem_inherits_resolve_iff style table ascription
  · exact mem_members_resolve_iff style table ascription

end ComponentProps
