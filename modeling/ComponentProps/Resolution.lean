import ComponentProps.TypeTable

/-!
# Resolving an annotation

An annotation is a union or intersection of parts: inline bodies, groups in round brackets and
names. A name that is declared locally stands for its parents and its own members, in this order, so
that the own members count. Any other name is an outside type. The parts still to be resolved stand
on an agenda, and each local type is taken up once.
-/

namespace ComponentProps

open Text

/-- What a part of an annotation is. -/
inductive TypePart
  /-- An inline body, without its curly brackets. -/
  | body (text : Text)
  /-- An annotation in round brackets, without them. -/
  | group (text : Text)
  /-- A reference to a type, arguments included. -/
  | reference (text : Text)
  deriving DecidableEq, Repr

namespace TypePart

/-- A text without its last character, if that is `c`. -/
def dropLast? (c : Char) (t : Text) : Option Text :=
  if t.getLast? = some c then some t.dropLast else none

def of (part : Text) : TypePart :=
  match part with
  | '{' :: rest => body ((dropLast? '}' rest).getD rest)
  | '(' :: rest =>
    match dropLast? ')' rest with
    | some inner => group inner
    | none => reference part
  | _ => reference part

end TypePart

/-- The operators between the parts of an annotation. -/
def typeOperators : List Char := ['|', '&']

/-- Something to be resolved. -/
inductive Task
  | part (text : Text)
  /-- The own members of a local type, after its parents. -/
  | members (name : Text)
  deriving DecidableEq, Repr

/-- The state of resolving an annotation. -/
structure Resolution where
  agenda : List Task
  /-- The local types taken up. -/
  visited : List Text := []
  members : OrderedMap Text Member := .empty
  /-- Types that are not declared locally, in order of encounter. -/
  inherits : List Text := []
  deriving DecidableEq, Repr

namespace Resolution

variable (style : Member.Style) (table : TypeTable)

def start (ascription : Text) : Resolution :=
  ⟨(topLevelParts typeOperators ascription).map .part, [], .empty, []⟩

/-- Resolve a reference, with `agenda` to follow. -/
def stepReference (r : Resolution) (reference : Text) (agenda : List Task) : Resolution :=
  let name := withoutArguments reference
  match table.get? name with
  | none => { r with agenda := agenda, inherits := addNew r.inherits reference }
  | some definition =>
    if r.visited.contains name then { r with agenda := agenda }
    else
      { r with
        agenda := definition.parents.map .part ++ .members name :: agenda
        visited := name :: r.visited }

/-- Resolve a task, with `agenda` to follow. -/
def stepTask (r : Resolution) (task : Task) (agenda : List Task) : Resolution :=
  match task with
  | .members name =>
    { r with
      agenda := agenda
      members := r.members.extend ((table.get? name).getD {}).members }
  | .part text =>
    match TypePart.of text with
    | .body body =>
      { r with agenda := agenda, members := r.members.extend (Member.scan style body) }
    | .group inner =>
      { r with agenda := (topLevelParts typeOperators inner).map .part ++ agenda }
    | .reference reference => r.stepReference table reference agenda

/-- Resolve the first task of the agenda. -/
def step (r : Resolution) : Resolution :=
  match r.agenda with
  | [] => r
  | task :: agenda => r.stepTask style table task agenda

/-! ### The agenda is worked off -/

/-- The local types that have not been taken up. -/
def fresh (r : Resolution) : Nat := (table.keys.filter (!r.visited.contains ·)).length

def taskWeight : Task → Nat
  | .part text => text.length + 1
  | .members _ => 1

/-- The amount of text on an agenda. -/
def weight : List Task → Nat
  | [] => 0
  | task :: agenda => taskWeight task + weight agenda

theorem weight_filterMap_trimmed?_le (ps : List Text) :
    weight ((ps.filterMap trimmed?).map .part) ≤ totalLength ps := by
  induction ps with
  | nil => exact Nat.le_refl 0
  | cons p ps ih =>
    cases hp : trimmed? p with
    | none =>
      simp only [List.filterMap_cons, hp, totalLength]
      omega
    | some q =>
      have := length_trimmed?_le hp
      simp only [weight, List.filterMap_cons, hp, List.map_cons, totalLength, taskWeight]
      omega

theorem weight_parts_le (t : Text) :
    weight ((topLevelParts typeOperators t).map .part) ≤ t.length + 1 :=
  Nat.le_trans (weight_filterMap_trimmed?_le _) (Nat.le_of_eq (totalLength_piecesFrom _ _ _ _ _))

theorem weight_append (xs ys : List Task) : weight (xs ++ ys) = weight xs + weight ys := by
  induction xs with
  | nil => simp [weight]
  | cons task xs ih => simp [weight, ih, Nat.add_assoc]

theorem length_of_group {text inner : Text} (h : TypePart.of text = .group inner) :
    text.length = inner.length + 2 := by
  unfold TypePart.of at h
  split at h
  · contradiction
  · rename_i rest
    split at h
    · rename_i hd
      injection h with h
      subst h
      unfold TypePart.dropLast? at hd
      split at hd
      · rename_i hl
        injection hd with hd
        subst hd
        have hr : rest ≠ [] := by
          intro hr
          simp [hr] at hl
        have := List.length_pos_iff.mpr hr
        simp only [List.length_cons, List.length_dropLast]
        omega
      · contradiction
    · contradiction
  · contradiction

/-- Taking up a local type leaves fewer to be taken up. -/
theorem fresh_visit_lt {r r' : Resolution} {name : Text} (hk : name ∈ table.keys)
    (hv : name ∉ r.visited) (h : r'.visited = name :: r.visited) :
    r'.fresh table < r.fresh table := by
  have others : table.keys.filter (!(name :: r.visited).contains ·) =
      (table.keys.filter (!r.visited.contains ·)).filter (· ≠ name) := by
    simp [List.filter_filter]
  rw [fresh, fresh, h, others]
  exact List.length_filter_lt_length_iff_exists.mpr
    ⟨name, List.mem_filter.mpr ⟨hk, by simpa using hv⟩, by simp⟩

/-- A step takes up a local type or leaves less on the agenda. -/
theorem step_decreases {r : Resolution} (h : r.agenda ≠ []) :
    Prod.Lex (· < ·) (· < ·) ((r.step style table).fresh table, weight (r.step style table).agenda)
      (r.fresh table, weight r.agenda) := by
  have lighter : ∀ r' : Resolution, r'.visited = r.visited → weight r'.agenda < weight r.agenda →
      Prod.Lex (· < ·) (· < ·) (r'.fresh table, weight r'.agenda)
        (r.fresh table, weight r.agenda) := by
    intro r' hv hw
    have : r'.fresh table = r.fresh table := by rw [fresh, fresh, hv]
    rw [this]
    exact Prod.Lex.right _ hw
  unfold step
  split
  · contradiction
  rename_i task agenda ha
  have hw : weight r.agenda = taskWeight task + weight agenda := by simp [ha, weight]
  unfold stepTask
  split
  · exact lighter _ rfl (by rw [hw]; simp [taskWeight])
  rename_i text
  split
  · exact lighter _ rfl (by rw [hw]; simp only [taskWeight]; omega)
  · rename_i inner hg
    have h1 := weight_parts_le inner
    have h2 := length_of_group hg
    refine lighter _ rfl ?_
    rw [hw]
    simp only [weight_append, taskWeight]
    omega
  · rename_i reference _
    unfold stepReference
    dsimp only
    split
    · exact lighter _ rfl (by rw [hw]; simp only [taskWeight]; omega)
    · rename_i d hd
      split
      · exact lighter _ rfl (by rw [hw]; simp only [taskWeight]; omega)
      · rename_i hv
        exact Prod.Lex.left _ _
          (fresh_visit_lt table (OrderedMap.mem_keys_of_get? hd) (by simpa using hv) rfl)

/-- Work off the agenda. -/
def run (r : Resolution) : Resolution :=
  if _ : r.agenda = [] then r else run (r.step style table)
termination_by (r.fresh table, weight r.agenda)
decreasing_by exact step_decreases style table (by assumption)

end Resolution

/-- Resolve an annotation against the local types: its members, and the outside types it names. -/
def resolve (style : Member.Style) (table : TypeTable) (ascription : Text) : Resolution :=
  (Resolution.start ascription).run style table

end ComponentProps
