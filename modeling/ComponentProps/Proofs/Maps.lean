import ComponentProps.OrderedMap
import Mathlib.Data.List.Induction
import Mathlib.Data.List.Nodup

/-!
# Filling maps

Entries inserted one after another leave the keys in the order of their first occurrence, and each
key with the value of its last occurrence.
-/

namespace ComponentProps

universe u v w

/-! ### Lists without repeats -/

section Distinct

variable {κ : Type u} [BEq κ] [LawfulBEq κ]

theorem eraseDups_concat [DecidableEq κ] (xs : List κ) (x : κ) :
    (xs ++ [x]).eraseDups = if x ∈ xs then xs.eraseDups else xs.eraseDups ++ [x] := by
  rw [List.eraseDups_append]
  split
  · rename_i hx
    simp [List.removeAll, hx]
  · rename_i hx
    simp [List.removeAll, hx, List.eraseDups_cons]

theorem nodup_eraseDups [DecidableEq κ] (xs : List κ) : xs.eraseDups.Nodup := by
  induction xs using List.reverseRecOn with
  | nil => exact List.nodup_nil
  | append_singleton xs x ih =>
      rw [eraseDups_concat]
      split
      · exact ih
      · rename_i hx
        refine List.nodup_append.mpr ⟨ih, by simp, ?_⟩
        rintro y hy z hz rfl
        exact hx (List.mem_singleton.mp hz ▸ List.mem_eraseDups.mp hy)

/-- Repeats may be left out before lists are joined. -/
theorem eraseDups_append_eraseDups [DecidableEq κ] (xs ys : List κ) :
    (xs ++ ys.eraseDups).eraseDups = (xs ++ ys).eraseDups := by
  induction ys using List.reverseRecOn with
  | nil => rfl
  | append_singleton ys y ih =>
      rw [eraseDups_concat, ← List.append_assoc, eraseDups_concat]
      by_cases hy : y ∈ ys
      · rw [if_pos hy, ih, if_pos (List.mem_append_right xs hy)]
      · rw [if_neg hy, ← List.append_assoc, eraseDups_concat, ih]
        simp only [List.mem_append, List.mem_eraseDups]

theorem eraseDups_of_nodup [DecidableEq κ] {xs : List κ} (h : xs.Nodup) : xs.eraseDups = xs := by
  induction xs using List.reverseRecOn with
  | nil => rfl
  | append_singleton xs x ih =>
      obtain ⟨hxs, -, hdisjoint⟩ := List.nodup_append.mp h
      have hx : x ∉ xs := fun hx => hdisjoint x hx x (List.mem_singleton_self x) rfl
      rw [eraseDups_concat, if_neg hx, ih hxs]

/-- Of two lists without repeats the second adds what the first does not have. -/
theorem eraseDups_append_of_nodup [DecidableEq κ] {xs ys : List κ} (hxs : xs.Nodup)
    (hys : ys.Nodup) : (xs ++ ys).eraseDups = xs ++ ys.filter (· ∉ xs) := by
  have hnew : ys.removeAll xs = ys.filter (· ∉ xs) := by simp [List.removeAll]
  rw [List.eraseDups_append, eraseDups_of_nodup hxs, hnew, eraseDups_of_nodup (hys.filter _)]

end Distinct

/-! ### Maps -/

namespace OrderedMap

variable {κ : Type u} {α : Type v} [DecidableEq κ]

theorem mem_keys_insert {m : OrderedMap κ α} {k k' : κ} {a : α} :
    k' ∈ (m.insert k a).keys ↔ k' = k ∨ k' ∈ m.keys := by
  rw [keys_insert]
  split
  · rename_i hk
    constructor
    · exact Or.inr
    · rintro (rfl | h)
      · exact hk
      · exact h
  · rw [List.mem_append, List.mem_singleton, or_comm]

theorem get?_eq_none_iff {m : OrderedMap κ α} {k : κ} : m.get? k = none ↔ k ∉ m.keys := by
  simp only [get?, keys, Option.map_eq_none_iff, List.find?_eq_none, decide_eq_true_eq,
    List.mem_map, not_exists, not_and]

theorem exists_get?_of_mem_keys {m : OrderedMap κ α} {k : κ} (h : k ∈ m.keys) :
    ∃ a, m.get? k = some a := by
  cases hg : m.get? k with
  | none => exact absurd h (get?_eq_none_iff.mp hg)
  | some a => exact ⟨a, rfl⟩

theorem mem_entries_of_get? {m : OrderedMap κ α} {k : κ} {a : α} (h : m.get? k = some a) :
    (k, a) ∈ m.entries := by
  obtain ⟨e, he, rfl⟩ := Option.map_eq_some_iff.mp h
  have hkey : e.1 = k := by simpa using List.find?_some he
  rw [← hkey]
  exact List.mem_of_find?_eq_some he

/-- Among entries with distinct keys the one of a key is found. -/
theorem find?_eq_some_iff {es : List (κ × α)} (h : (es.map Prod.fst).Nodup) {k : κ} {e : κ × α} :
    (es.find? fun e => e.1 = k) = some e ↔ e ∈ es ∧ e.1 = k := by
  constructor
  · intro hfound
    exact ⟨List.mem_of_find?_eq_some hfound, by simpa using List.find?_some hfound⟩
  · rintro ⟨hmem, rfl⟩
    cases hfound : es.find? fun x => x.1 = e.1 with
    | none => exact absurd (decide_eq_true rfl) (List.find?_eq_none.mp hfound e hmem)
    | some e' =>
        have hkey : e'.1 = e.1 := by simpa using List.find?_some hfound
        rw [List.inj_on_of_nodup_map h (List.mem_of_find?_eq_some hfound) hmem hkey]

theorem mem_entries_iff {m : OrderedMap κ α} {k : κ} {a : α} :
    (k, a) ∈ m.entries ↔ m.get? k = some a := by
  refine ⟨fun hmem => ?_, mem_entries_of_get?⟩
  rw [get?, (find?_eq_some_iff m.distinct).mpr ⟨hmem, rfl⟩]
  rfl

@[simp] theorem insertAll_nil (m : OrderedMap κ α) : m.insertAll [] = m := rfl

/-- One more entry is inserted last. -/
theorem insertAll_concat (m : OrderedMap κ α) (es : List (κ × α)) (e : κ × α) :
    m.insertAll (es ++ [e]) = (m.insertAll es).insert e.1 e.2 := by
  simp [insertAll, List.foldl_append]

theorem insertAll_append (m : OrderedMap κ α) (es es' : List (κ × α)) :
    m.insertAll (es ++ es') = (m.insertAll es).insertAll es' := by
  simp [insertAll, List.foldl_append]

theorem ofList_append (es es' : List (κ × α)) :
    ofList (es ++ es') = (ofList es).insertAll es' :=
  insertAll_append empty es es'

theorem mem_keys_insertAll {m : OrderedMap κ α} {es : List (κ × α)} {k : κ} :
    k ∈ (m.insertAll es).keys ↔ k ∈ m.keys ∨ k ∈ es.map Prod.fst := by
  induction es using List.reverseRecOn with
  | nil => simp
  | append_singleton es e ih =>
      rw [insertAll_concat, mem_keys_insert, ih]
      simp only [List.map_append, List.mem_append, List.map_cons, List.map_nil, List.mem_singleton]
      tauto

theorem mem_keys_extend {m other : OrderedMap κ α} {k : κ} :
    k ∈ (m.extend other).keys ↔ k ∈ m.keys ∨ k ∈ other.keys :=
  mem_keys_insertAll

/-- Entries whose values may depend on the map so far are inserted in the order of their keys. -/
theorem keys_foldl_insert [BEq κ] [LawfulBEq κ] {β : Type w} (key : β → κ)
    (value : OrderedMap κ α → β → α) {m : OrderedMap κ α} {ks : List κ} (hm : m.keys = ks.eraseDups)
    (xs : List β) :
    (xs.foldl (fun m x => m.insert (key x) (value m x)) m).keys = (ks ++ xs.map key).eraseDups := by
  induction xs using List.reverseRecOn with
  | nil => simpa using hm
  | append_singleton xs x ih =>
      rw [List.foldl_append, List.foldl_cons, List.foldl_nil, keys_insert, ih, List.map_append,
        ← List.append_assoc, List.map_singleton, eraseDups_concat]
      simp only [List.mem_eraseDups]

theorem keys_insertAll [BEq κ] [LawfulBEq κ] (m : OrderedMap κ α) (es : List (κ × α)) :
    (m.insertAll es).keys = (m.keys ++ es.map Prod.fst).eraseDups :=
  keys_foldl_insert Prod.fst (fun _ e => e.2) (eraseDups_of_nodup m.nodup_keys).symm es

theorem keys_ofList [BEq κ] [LawfulBEq κ] (es : List (κ × α)) :
    (ofList es).keys = (es.map Prod.fst).eraseDups :=
  keys_insertAll empty es

/-- A key has the value that it was given last. -/
theorem get?_insertAll (m : OrderedMap κ α) (es : List (κ × α)) (k : κ) :
    (m.insertAll es).get? k =
      ((es.reverse.find? fun e => e.1 = k).map Prod.snd).or (m.get? k) := by
  induction es using List.reverseRecOn with
  | nil => rfl
  | append_singleton es e ih =>
      rw [insertAll_concat, get?_insert, ih]
      by_cases he : e.1 = k
      · simp [he]
      · simp [he]

theorem get?_ofList (es : List (κ × α)) (k : κ) :
    (ofList es).get? k = (es.reverse.find? fun e => e.1 = k).map Prod.snd := by
  rw [ofList, get?_insertAll, get?_empty, Option.or_none]

/-- A map is the list of its keys with their values. -/
theorem entries_eq_map_keys (m : OrderedMap κ α) :
    m.entries.map (fun e => (e.1, some e.2)) = m.keys.map fun k => (k, m.get? k) := by
  rw [keys, List.map_map]
  exact List.map_congr_left fun e he => congrArg (e.1, ·) (mem_entries_iff.mp he).symm

/-- Maps with the same keys in the same order and the same values are equal. -/
theorem ext_of_keys {m m' : OrderedMap κ α} (hkeys : m.keys = m'.keys)
    (hget : ∀ k, m.get? k = m'.get? k) : m = m' := by
  have hinjective : Function.Injective fun e : κ × α => (e.1, some e.2) := by
    rintro ⟨k, a⟩ ⟨k', a'⟩ heq
    obtain ⟨hk, ha⟩ := Prod.mk.inj heq
    exact Prod.ext hk (Option.some.inj ha)
  have hentries : m.entries.map (fun e => (e.1, some e.2)) =
      m'.entries.map fun e => (e.1, some e.2) := by
    rw [entries_eq_map_keys, entries_eq_map_keys, hkeys]
    exact List.map_congr_left fun k _ => by rw [hget]
  exact OrderedMap.ext (List.map_inj_right hinjective |>.mp hentries)

theorem find?_reverse_of_nodup {es : List (κ × α)} (h : (es.map Prod.fst).Nodup) (k : κ) :
    (es.reverse.find? fun e => e.1 = k) = es.find? fun e => e.1 = k := by
  have hreverse : (es.reverse.map Prod.fst).Nodup := by
    rwa [List.map_reverse, List.nodup_reverse]
  refine Option.ext fun e => ?_
  rw [find?_eq_some_iff hreverse, find?_eq_some_iff h, List.mem_reverse]

/-- The entries of another map count. -/
theorem get?_extend (m other : OrderedMap κ α) (k : κ) :
    (m.extend other).get? k = (other.get? k).or (m.get? k) := by
  rw [extend, get?_insertAll, find?_reverse_of_nodup other.distinct]
  rfl

/-- Entries may be collected before they are inserted. -/
theorem insertAll_eq_extend (m : OrderedMap κ α) (es : List (κ × α)) :
    m.insertAll es = m.extend (ofList es) := by
  refine ext_of_keys ?_ fun k => ?_
  · have hkeys : (ofList es).entries.map Prod.fst = (es.map Prod.fst).eraseDups := keys_ofList es
    rw [extend, keys_insertAll, keys_insertAll, hkeys, eraseDups_append_eraseDups]
  · rw [get?_extend, get?_insertAll, get?_ofList]

theorem ofList_extend_ofList (es es' : List (κ × α)) :
    (ofList es).extend (ofList es') = ofList (es ++ es') := by
  rw [← insertAll_eq_extend, ofList_append]

/-! ### Renamed keys -/

theorem setEntry_map {κ' : Type u} {β : Type v} [DecidableEq κ'] {f : κ × α → κ' × β}
    {e : κ × α} {es : List (κ × α)} (h : ∀ e' ∈ es, (f e').1 = (f e).1 ↔ e'.1 = e.1) :
    setEntry (f e).1 (f e).2 (es.map f) = (setEntry e.1 e.2 es).map f := by
  induction es with
  | nil => rfl
  | cons e' es ih =>
      have hsame := h e' List.mem_cons_self
      have hrest := ih fun x hx => h x (List.mem_cons_of_mem _ hx)
      by_cases hk : e'.1 = e.1
      · simp [setEntry, hk, hsame.mpr hk]
      · simp [setEntry, hk, mt hsame.mp hk, hrest]

/-- Where distinct keys stay distinct, entries may be changed before they are inserted. -/
theorem entries_ofList_map {κ' : Type u} {β : Type v} [DecidableEq κ'] {f : κ × α → κ' × β}
    {g : κ → κ'} (hf : ∀ e, (f e).1 = g e.1) {es : List (κ × α)}
    (hg : ∀ k ∈ es.map Prod.fst, ∀ k' ∈ es.map Prod.fst, g k = g k' → k = k') :
    (ofList (es.map f)).entries = (ofList es).entries.map f := by
  induction es using List.reverseRecOn with
  | nil => rfl
  | append_singleton es e ih =>
      have hfront : ∀ k ∈ es.map Prod.fst, k ∈ (es ++ [e]).map Prod.fst := fun k hk => by
        rw [List.map_append]
        exact List.mem_append_left _ hk
      have hrest := ih fun k hk k' hk' => hg k (hfront k hk) k' (hfront k' hk')
      have hconcat : ofList (es ++ [e]) = (ofList es).insert e.1 e.2 := insertAll_concat empty es e
      have hmapped : ofList ((es ++ [e]).map f) = (ofList (es.map f)).insert (f e).1 (f e).2 := by
        rw [List.map_append]
        exact insertAll_concat empty (es.map f) (f e)
      have hkeys : ∀ e' ∈ (ofList es).entries, (f e').1 = (f e).1 ↔ e'.1 = e.1 := by
        intro e' he'
        have hmem : e'.1 ∈ es.map Prod.fst := by
          have hkey : e'.1 ∈ (ofList es).keys := List.mem_map_of_mem he'
          rwa [keys_ofList, List.mem_eraseDups] at hkey
        rw [hf, hf]
        exact ⟨hg _ (hfront _ hmem) _ (by simp), congrArg g⟩
      rw [hmapped, hconcat, entries_insert, entries_insert, hrest, setEntry_map hkeys]

/-! ### Values -/

theorem ofList_entries (m : OrderedMap κ α) : ofList m.entries = m := by
  refine ext_of_keys ?_ fun k => ?_
  · exact (keys_ofList m.entries).trans (eraseDups_of_nodup m.nodup_keys)
  · rw [get?_ofList, find?_reverse_of_nodup m.distinct]
    rfl

/-- Entries with distinct keys are kept as they are. -/
theorem entries_ofList_of_nodup {es : List (κ × α)} (h : (es.map Prod.fst).Nodup) :
    (ofList es).entries = es :=
  congrArg entries (ofList_entries ⟨es, h⟩)

theorem get?_mapValues {β : Type v} (f : κ → α → β) (m : OrderedMap κ α) (k : κ) :
    (m.mapValues f).get? k = (m.get? k).map (f k) := by
  have hentries : (m.mapValues f).entries = m.entries.map fun e => (e.1, f e.1 e.2) := rfl
  rw [get?, get?, hentries]
  induction m.entries with
  | nil => rfl
  | cons e es ih =>
      by_cases hk : e.1 = k
      · simp [hk]
      · simpa [hk] using ih

omit [DecidableEq κ] in
@[simp] theorem keys_mapValues {β : Type v} (f : κ → α → β) (m : OrderedMap κ α) :
    (m.mapValues f).keys = m.keys := by
  simp [mapValues, keys]

theorem mapValues_insert {β : Type v} (f : κ → α → β) (m : OrderedMap κ α) (k : κ) (a : α) :
    (m.insert k a).mapValues f = (m.mapValues f).insert k (f k a) := by
  refine ext_of_keys ?_ fun k' => ?_
  · simp only [keys_mapValues, keys_insert]
  · rw [get?_mapValues, get?_insert, get?_insert, get?_mapValues]
    split
    · rename_i hk
      rw [Option.map_some, hk]
    · rfl

theorem mapValues_extend {β : Type v} (f : κ → α → β) (m other : OrderedMap κ α) :
    (m.extend other).mapValues f = (m.mapValues f).extend (other.mapValues f) := by
  refine ext_of_keys ?_ fun k => ?_
  · have hkeys : (other.mapValues f).entries.map Prod.fst = other.entries.map Prod.fst :=
      keys_mapValues f other
    rw [keys_mapValues, extend, extend, keys_insertAll, keys_insertAll, keys_mapValues, hkeys]
  · rw [get?_mapValues, get?_extend, get?_extend, get?_mapValues, get?_mapValues]
    cases other.get? k <;> rfl

/-- The values of a map in the order of the keys. -/
theorem values_eq_map_keys {m : OrderedMap κ α} {f : κ → α}
    (hf : ∀ k ∈ m.keys, m.get? k = some (f k)) : m.values = m.keys.map f := by
  have hvalues : m.values.map some = (m.keys.map f).map some := by
    have hsnd := congrArg (List.map Prod.snd) (entries_eq_map_keys m)
    rw [List.map_map, List.map_map] at hsnd
    rw [values, List.map_map, List.map_map]
    exact hsnd.trans (List.map_congr_left hf)
  exact (List.map_inj_right fun _ _ => Option.some.inj).mp hvalues

end OrderedMap

end ComponentProps
