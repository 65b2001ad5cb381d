/-!
# Maps that remember order

Keys stand in the order of their first insertion. Inserting a key again changes its value and
leaves its place.
-/

namespace ComponentProps

universe u v

/-- A finite map with its keys in order of first insertion. -/
@[ext]
structure OrderedMap (κ : Type u) (α : Type v) where
  entries : List (κ × α)
  distinct : (entries.map Prod.fst).Nodup
  deriving Repr, DecidableEq

namespace OrderedMap

variable {κ : Type u} {α β : Type v}

def empty : OrderedMap κ α := ⟨[], List.nodup_nil⟩

instance : Inhabited (OrderedMap κ α) := ⟨empty⟩

def keys (m : OrderedMap κ α) : List κ := m.entries.map Prod.fst

theorem nodup_keys (m : OrderedMap κ α) : m.keys.Nodup := m.distinct

def values (m : OrderedMap κ α) : List α := m.entries.map Prod.snd

def size (m : OrderedMap κ α) : Nat := m.entries.length

/-- The entries whose keys are to be kept. -/
def filterKeys (keep : κ → Bool) (m : OrderedMap κ α) : OrderedMap κ α :=
  ⟨m.entries.filter fun e => keep e.1, m.distinct.sublist (List.filter_sublist.map Prod.fst)⟩

theorem map_fst_mapEntries (f : κ → α → β) (es : List (κ × α)) :
    (es.map fun e => (e.1, f e.1 e.2)).map Prod.fst = es.map Prod.fst := by
  rw [List.map_map]
  rfl

/-- Change every value, given its key. -/
def mapValues (f : κ → α → β) (m : OrderedMap κ α) : OrderedMap κ β :=
  ⟨m.entries.map fun e => (e.1, f e.1 e.2), (map_fst_mapEntries f m.entries).symm ▸ m.distinct⟩

variable [DecidableEq κ]

/-! ### Insertion -/

/-- The entries with `k` set to `a`, in place if the key is there and at the end otherwise. -/
def setEntry (k : κ) (a : α) : List (κ × α) → List (κ × α)
  | [] => [(k, a)]
  | e :: rest => if e.1 = k then (k, a) :: rest else e :: setEntry k a rest

theorem map_fst_setEntry (k : κ) (a : α) (es : List (κ × α)) :
    (setEntry k a es).map Prod.fst =
      if k ∈ es.map Prod.fst then es.map Prod.fst else es.map Prod.fst ++ [k] := by
  induction es with
  | nil => simp [setEntry]
  | cons e rest ih =>
    by_cases he : e.1 = k
    · simp [setEntry, he]
    · have he' : ¬ k = e.1 := fun h => he h.symm
      by_cases hk : k ∈ rest.map Prod.fst
      · simp only [setEntry, he, if_false, List.map_cons, ih, hk, if_true]
        rw [if_pos (List.mem_cons_of_mem _ hk)]
      · simp only [setEntry, he, if_false, List.map_cons, ih, hk]
        rw [if_neg (by simp only [List.mem_cons, not_or]; exact ⟨he', hk⟩)]
        rfl

theorem nodup_setEntry {es : List (κ × α)} (h : (es.map Prod.fst).Nodup) (k : κ) (a : α) :
    ((setEntry k a es).map Prod.fst).Nodup := by
  rw [map_fst_setEntry]
  split
  · exact h
  · rename_i hk
    refine List.nodup_append.mpr ⟨h, by simp, ?_⟩
    rintro x hx y hy rfl
    exact hk (List.mem_singleton.mp hy ▸ hx)

def insert (m : OrderedMap κ α) (k : κ) (a : α) : OrderedMap κ α :=
  ⟨setEntry k a m.entries, nodup_setEntry m.distinct k a⟩

theorem entries_insert (m : OrderedMap κ α) (k : κ) (a : α) :
    (m.insert k a).entries = setEntry k a m.entries := rfl

/-- Insert entries in their order. -/
def insertAll (m : OrderedMap κ α) (es : List (κ × α)) : OrderedMap κ α :=
  es.foldl (fun acc e => acc.insert e.1 e.2) m

/-- Insert the entries of `other` in their order. -/
def extend (m other : OrderedMap κ α) : OrderedMap κ α := m.insertAll other.entries

/-- The map of a list of entries, inserted in order. -/
def ofList (es : List (κ × α)) : OrderedMap κ α := empty.insertAll es

/-! ### Keys -/

def get? (m : OrderedMap κ α) (k : κ) : Option α :=
  (m.entries.find? fun e => e.1 = k).map Prod.snd

def contains (m : OrderedMap κ α) (k : κ) : Bool := (m.get? k).isSome

def erase (m : OrderedMap κ α) (k : κ) : OrderedMap κ α := m.filterKeys (· ≠ k)

theorem find?_setEntry (k k' : κ) (a : α) (es : List (κ × α)) :
    ((setEntry k a es).find? fun e => e.1 = k').map Prod.snd =
      if k = k' then some a else (es.find? fun e => e.1 = k').map Prod.snd := by
  induction es with
  | nil => by_cases h : k = k' <;> simp [setEntry, h]
  | cons e rest ih =>
    by_cases he : e.1 = k
    · by_cases h : k = k' <;> simp [setEntry, he, h]
    · by_cases h : k = k'
      · subst h; simp [setEntry, he, ih]
      · have h' : ¬ k' = k := fun x => h x.symm
        by_cases he' : e.1 = k' <;> simp [setEntry, he, he', h, h', ih]

theorem get?_insert (m : OrderedMap κ α) (k k' : κ) (a : α) :
    (m.insert k a).get? k' = if k = k' then some a else m.get? k' :=
  find?_setEntry k k' a m.entries

@[simp] theorem get?_empty (k : κ) : (empty : OrderedMap κ α).get? k = none := rfl

theorem get?_filterKeys (keep : κ → Bool) (m : OrderedMap κ α) (k : κ) :
    (m.filterKeys keep).get? k = if keep k then m.get? k else none := by
  simp only [get?, filterKeys, List.find?_filter]
  split
  · rename_i hk
    congr 2
    funext e
    by_cases he : e.1 = k
    · simp [he, hk]
    · simp [he]
  · rename_i hk
    rw [Option.map_eq_none_iff, List.find?_eq_none]
    intro e _ he
    simp only [decide_eq_true_eq] at he
    exact hk (he.2 ▸ he.1)

theorem get?_erase (m : OrderedMap κ α) (k k' : κ) :
    (m.erase k).get? k' = if k = k' then none else m.get? k' := by
  rw [erase, get?_filterKeys]
  by_cases h : k = k'
  · simp [h]
  · simp [h, Ne.symm h]

/-- A new key comes last, a known one stays where it is. -/
theorem keys_insert (m : OrderedMap κ α) (k : κ) (a : α) :
    (m.insert k a).keys = if k ∈ m.keys then m.keys else m.keys ++ [k] :=
  map_fst_setEntry k a m.entries

theorem mem_keys_of_get? {m : OrderedMap κ α} {k : κ} {a : α} (h : m.get? k = some a) :
    k ∈ m.keys := by
  unfold get? at h
  obtain ⟨e, he, _⟩ := Option.map_eq_some_iff.mp h
  have hn := List.find?_some he
  simp only [decide_eq_true_eq] at hn
  rw [keys, ← hn]
  exact List.mem_map_of_mem (List.mem_of_find?_eq_some he)

end OrderedMap

end ComponentProps
