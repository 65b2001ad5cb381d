import ComponentProps.Proofs.Coherence
import Mathlib.Data.List.Perm.Basic

/-!
# Warming the cache

Asking for a path looks at one cell of the cache, that of the components of the path, and at what
the path leads to. Two spellings of one place agree about what stands there or one of them is
refused whatever is kept, so requests for one cell can be exchanged. Main statement: warming does not
depend on the order of the paths, its errors stand in the order of the paths, and warming again
changes nothing.
-/

namespace ComponentProps

theorem FilePath.extension?_congr {p q : FilePath} (h : p.components = q.components) :
    p.extension? = q.extension? := by
  simp only [extension?, fileName?, h]

/-- Paths with the same components are component files or not alike. -/
theorem FilePath.isComponent_congr {p q : FilePath} (h : p.components = q.components) :
    p.isComponent = q.isComponent := by
  rw [isComponent, isComponent, extension?_congr h]

/-- Two spellings that lead somewhere lead to the same entry. -/
theorem FileTree.stat_congr {tree : FileTree} {p q : FilePath} {entry entry' : FileEntry}
    (hkey : p.components = q.components) (hp : tree.stat p = .ok entry)
    (hq : tree.stat q = .ok entry') : entry = entry' := by
  have hplace := entry?_of_stat hp
  rw [hkey, entry?_of_stat hq] at hplace
  exact (Option.some.inj hplace).symm

/-- Two spellings that lead somewhere lead to the same text. -/
theorem FileTree.readComponent_congr {tree : FileTree} {p q : FilePath} {found : FileEntry}
    {source : Text} (hkey : p.components = q.components) (hq : tree.stat q = .ok found)
    (hread : tree.readComponent p = .ok source) : tree.readComponent q = .ok source := by
  rw [readComponent_eq_ok_iff] at hread ⊢
  obtain ⟨hextension, content, modified, s, hstat, hutf, hsource⟩ := hread
  obtain rfl := stat_congr hkey hstat hq
  exact ⟨FilePath.extension?_congr hkey ▸ hextension, content, modified, s, hq, hutf, hsource⟩

namespace PropCache

/-! ### One cell -/

/-- Why something was refused, if it was. -/
def refusal? {α : Type} : Except ProjectError α → Option ProjectError
  | .ok _ => none
  | .error e => some e

/-- The entry of a path that has been asked for, given what was kept before. -/
def ask (settings : Settings) (tree : FileTree) (p : FilePath) (kept : Option CacheEntry) :
    Except ProjectError CacheEntry :=
  if p.isComponent then
    match tree.stat p with
    | .error failure => .error (.unreadable p failure)
    | .ok found =>
      match kept.filter (·.modified = found.modified) with
      | some entry => .ok entry
      | none => (tree.readComponent p).map fun source =>
          ⟨found.modified, .ofComponent settings source⟩
  else .error (.unsupportedExtension p)

/-- What is kept in the cell of a path that has been asked for. -/
def renew (settings : Settings) (tree : FileTree) (p : FilePath) (kept : Option CacheEntry) :
    Option CacheEntry :=
  match ask settings tree p kept with
  | .ok entry => some entry
  | .error _ => kept

section Cell

variable {settings : Settings} {tree : FileTree} {p q : FilePath} {kept : Option CacheEntry}
  {entry : CacheEntry} {e : ProjectError}

theorem renew_of_ok (h : ask settings tree p kept = .ok entry) :
    renew settings tree p kept = some entry := by
  rw [renew, h]

theorem renew_of_error (h : ask settings tree p kept = .error e) :
    renew settings tree p kept = kept := by
  rw [renew, h]

/-- A path whose entry is found or made has the name of a component and leads to something of the
time of the entry. -/
theorem ask_eq_ok (h : ask settings tree p kept = .ok entry) :
    p.isComponent = true ∧ ∃ found, tree.stat p = .ok found ∧ entry.modified = found.modified := by
  unfold ask at h
  split at h
  · rename_i hp
    split at h
    · contradiction
    · rename_i found hstat
      refine ⟨hp, found, hstat, ?_⟩
      split at h
      · rename_i hkept
        obtain rfl := Except.ok.inj h
        exact of_decide_eq_true (Option.filter_eq_some_iff.mp hkept).2
      · cases hread : tree.readComponent p with
        | error e =>
            rw [hread] at h
            contradiction
        | ok source =>
            rw [hread] at h
            obtain rfl := Except.ok.inj h
            rfl
  · contradiction

/-- An entry of the time of what stands there is found again. -/
theorem ask_kept {found : FileEntry} (hp : p.isComponent = true) (hstat : tree.stat p = .ok found)
    (htime : entry.modified = found.modified) : ask settings tree p (some entry) = .ok entry := by
  have hkept : (some entry).filter (·.modified = found.modified) = some entry :=
    Option.filter_eq_some_iff.mpr ⟨rfl, decide_eq_true htime⟩
  simp only [ask, hp, hstat, hkept, if_true]

/-- Another spelling of a path with an entry is given the same entry, or it is refused for a reason
that lies in the tree alone. -/
theorem ask_respelled (hkey : p.components = q.components)
    (h : ask settings tree p kept = .ok entry) :
    (ask settings tree q kept = .ok entry ∧ ask settings tree q (some entry) = .ok entry) ∨
      ∃ e, ask settings tree q kept = .error e ∧ ask settings tree q (some entry) = .error e := by
  obtain ⟨hp, found, hstat, htime⟩ := ask_eq_ok h
  have hq : q.isComponent = true := FilePath.isComponent_congr hkey ▸ hp
  cases hplace : tree.stat q with
  | error failure => exact .inr ⟨.unreadable q failure, by simp [ask, hq, hplace]⟩
  | ok found' =>
      obtain rfl := FileTree.stat_congr hkey hstat hplace
      refine .inl ⟨?_, ask_kept hq hplace htime⟩
      rw [← h]
      simp only [ask, hp, hq, hstat, hplace, if_true]
      -- only the text of a refusal tells the spellings apart
      cases hkept : kept.filter (·.modified = found.modified) with
      | some entry => rfl
      | none =>
          cases hread : tree.readComponent p with
          | ok source => rw [FileTree.readComponent_congr hkey hplace hread]
          | error e => simp [ask, hp, hstat, hkept, hread, Except.map] at h

/-- Asking for one spelling does not change what is answered to another. -/
theorem refusal?_ask_renew (hkey : p.components = q.components) :
    refusal? (ask settings tree q (renew settings tree p kept)) =
      refusal? (ask settings tree q kept) := by
  cases h : ask settings tree p kept with
  | error e => rw [renew_of_error h]
  | ok entry =>
      rw [renew_of_ok h]
      obtain ⟨hbefore, hafter⟩ | ⟨e, hbefore, hafter⟩ := ask_respelled hkey h <;>
        rw [hbefore, hafter]

theorem renew_renew_of_ok (hkey : p.components = q.components)
    (h : ask settings tree p kept = .ok entry) :
    renew settings tree q (renew settings tree p kept) = some entry ∧
      renew settings tree p (renew settings tree q kept) = some entry := by
  have hagain : ask settings tree p (some entry) = .ok entry := by
    obtain ⟨hp, found, hstat, htime⟩ := ask_eq_ok h
    exact ask_kept hp hstat htime
  rw [renew_of_ok h]
  obtain ⟨hbefore, hafter⟩ | ⟨e, hbefore, hafter⟩ := ask_respelled hkey h
  · rw [renew_of_ok hafter, renew_of_ok hbefore, renew_of_ok hagain]
    exact ⟨rfl, rfl⟩
  · rw [renew_of_error hafter, renew_of_error hbefore, renew_of_ok h]
    exact ⟨rfl, rfl⟩

/-- Requests for one cell can be exchanged. -/
theorem renew_comm (hkey : p.components = q.components) :
    renew settings tree q (renew settings tree p kept) =
      renew settings tree p (renew settings tree q kept) := by
  cases hp : ask settings tree p kept with
  | ok entry =>
      obtain ⟨hleft, hright⟩ := renew_renew_of_ok hkey hp
      rw [hleft, hright]
  | error e =>
      cases hq : ask settings tree q kept with
      | ok entry =>
          obtain ⟨hleft, hright⟩ := renew_renew_of_ok hkey.symm hq
          rw [hleft, hright]
      | error e' => rw [renew_of_error hp, renew_of_error hq, renew_of_error hp]

theorem renew_renew : renew settings tree p (renew settings tree p kept) =
    renew settings tree p kept := by
  cases h : ask settings tree p kept with
  | ok entry => rw [(renew_renew_of_ok rfl h).1, renew_of_ok h]
  | error e => rw [renew_of_error h, renew_of_error h]

variable {ps qs : List FilePath} {key : List PathComponent}

theorem foldl_renew_perm (h : ps.Perm qs) (hkey : ∀ p ∈ ps, p.components = key)
    (kept : Option CacheEntry) :
    ps.foldl (fun kept p => renew settings tree p kept) kept =
      qs.foldl (fun kept p => renew settings tree p kept) kept :=
  h.foldl_eq' (fun p hp q hq _ => renew_comm ((hkey p hp).trans (hkey q hq).symm)) kept

/-- A path of the list has nothing more to change. -/
theorem renew_foldl_renew (hkey : ∀ p ∈ ps, p.components = key) (hp : p ∈ ps)
    (kept : Option CacheEntry) :
    renew settings tree p (ps.foldl (fun kept p => renew settings tree p kept) kept) =
      ps.foldl (fun kept p => renew settings tree p kept) kept := by
  have hlast : ps.Perm (ps.erase p ++ [p]) :=
    (List.perm_cons_erase hp).trans (List.perm_append_singleton p _).symm
  rw [foldl_renew_perm hlast hkey, List.foldl_append, List.foldl_cons, List.foldl_nil, renew_renew]

end Cell

/-! ### Requests -/

variable {cache : PropCache} {tree : FileTree} {p q : FilePath} {ps qs : List FilePath}

/-- A request is refused, answered by the entry of its cell, or answered by a new entry for it. -/
theorem get_ask (cache : PropCache) (tree : FileTree) (p : FilePath) :
    (∃ e, ask cache.settings tree p (cache.entries.get? p.components) = .error e ∧
      cache.get tree p = (.error e, cache)) ∨
    ∃ entry, ask cache.settings tree p (cache.entries.get? p.components) = .ok entry ∧
      (cache.entries.get? p.components = some entry ∧
          cache.get tree p = (.ok ⟨entry.sheet, true⟩, cache) ∨
        cache.entries.get? p.components ≠ some entry ∧
          cache.get tree p = (.ok ⟨entry.sheet, false⟩, cache.keep p entry)) := by
  unfold get
  split
  · rename_i hp
    cases hstat : tree.stat p with
    | error failure => exact .inl ⟨_, by simp [ask, hp, hstat], rfl⟩
    | ok found =>
        cases hkept : (cache.entries.get? p.components).filter (·.modified = found.modified) with
        | some entry =>
            obtain ⟨hentry, htime⟩ := Option.filter_eq_some_iff.mp hkept
            have hfresh : cache.fresh? p found.modified = some entry.sheet := by
              simp [fresh?, hentry, of_decide_eq_true htime]
            refine .inr ⟨entry, by simp [ask, hp, hstat, hkept], .inl ⟨hentry, ?_⟩⟩
            simp only [hfresh]
        | none =>
            have hstale : ∀ entry, cache.entries.get? p.components = some entry →
                entry.modified ≠ found.modified := by
              intro entry hentry
              simpa [hentry] using hkept
            have hfresh : cache.fresh? p found.modified = none := by
              cases hentry : cache.entries.get? p.components with
              | none => simp [fresh?, hentry]
              | some entry => simp [fresh?, hentry, hstale entry hentry]
            simp only [hfresh, extract]
            cases hread : tree.readComponent p with
            | error e => exact .inl ⟨e, by simp [ask, hp, hstat, hkept, hread, Except.map], rfl⟩
            | ok source =>
                refine .inr ⟨⟨found.modified, .ofComponent cache.settings source⟩,
                  by simp [ask, hp, hstat, hkept, hread, Except.map], .inr ⟨fun hentry => ?_, rfl⟩⟩
                exact hstale _ hentry rfl
  · rename_i hp
    exact .inl ⟨_, by simp [ask, hp], rfl⟩

/-- A request that fails leaves the cache as it is. -/
theorem get_of_error {e : ProjectError} (h : (cache.get tree p).1 = .error e) :
    (cache.get tree p).2 = cache := by
  obtain ⟨e', -, hget⟩ | ⟨entry, -, ⟨-, hget⟩ | ⟨-, hget⟩⟩ := cache.get_ask tree p
  · rw [hget]
  · rw [hget]
  · rw [hget] at h
    contradiction

theorem refusal?_get (cache : PropCache) (tree : FileTree) (p : FilePath) :
    refusal? (cache.get tree p).1 =
      refusal? (ask cache.settings tree p (cache.entries.get? p.components)) := by
  obtain ⟨e, hask, hget⟩ | ⟨entry, hask, ⟨-, hget⟩ | ⟨-, hget⟩⟩ := cache.get_ask tree p <;>
    rw [hask, hget] <;> rfl

/-- A request renews its own cell and no other. -/
theorem get?_get (cache : PropCache) (tree : FileTree) (p : FilePath) (key : List PathComponent) :
    (cache.get tree p).2.entries.get? key =
      if p.components = key then renew cache.settings tree p (cache.entries.get? key)
      else cache.entries.get? key := by
  obtain ⟨e, hask, hget⟩ | ⟨entry, hask, ⟨hkept, hget⟩ | ⟨-, hget⟩⟩ := cache.get_ask tree p
  · rw [hget]
    split
    · rename_i hkey
      subst hkey
      rw [renew_of_error hask]
    · rfl
  · rw [hget]
    split
    · rename_i hkey
      subst hkey
      rw [renew_of_ok hask, hkept]
    · rfl
  · rw [hget, get?_keep]
    split
    · rename_i hkey
      subst hkey
      rw [renew_of_ok hask]
    · rfl

/-- A path whose cell needs no renewal leaves the cache as it is. -/
theorem get_of_renewed (h : renew cache.settings tree p (cache.entries.get? p.components) =
    cache.entries.get? p.components) : (cache.get tree p).2 = cache := by
  obtain ⟨e, -, hget⟩ | ⟨entry, hask, ⟨-, hget⟩ | ⟨hnew, -⟩⟩ := cache.get_ask tree p
  · rw [hget]
  · rw [hget]
  · rw [renew_of_ok hask] at h
    exact absurd h.symm hnew

/-- A request does not change whether another one is refused. -/
theorem refusal?_get_get (cache : PropCache) (tree : FileTree) (p q : FilePath) :
    refusal? ((cache.get tree p).2.get tree q).1 = refusal? (cache.get tree q).1 := by
  rw [refusal?_get, refusal?_get, settings_get, get?_get]
  split
  · rename_i hkey
    exact refusal?_ask_renew hkey
  · rfl

/-! ### Many requests -/

theorem settings_warm (cache : PropCache) (tree : FileTree) (ps : List FilePath) :
    (cache.warm tree ps).2.settings = cache.settings := by
  induction ps generalizing cache with
  | nil => rfl
  | cons p ps ih => rw [warm_cons, ih, settings_get]

/-- The errors of warming are those of the single requests, in the order of the paths. -/
theorem errors_warm (cache : PropCache) (tree : FileTree) (ps : List FilePath) :
    (cache.warm tree ps).1 = ps.filterMap fun p => refusal? (cache.get tree p).1 := by
  induction ps generalizing cache with
  | nil => rfl
  | cons p ps ih =>
      have hrest := ih (cache.get tree p).2
      simp only [refusal?_get_get] at hrest
      rw [warm, List.filterMap_cons]
      cases hanswer : (cache.get tree p).1 <;> simp [refusal?, hanswer, hrest]

theorem refusal?_warm_get (cache : PropCache) (tree : FileTree) (ps : List FilePath)
    (q : FilePath) :
    refusal? ((cache.warm tree ps).2.get tree q).1 = refusal? (cache.get tree q).1 := by
  induction ps generalizing cache with
  | nil => rfl
  | cons p ps ih => rw [warm_cons, ih, refusal?_get_get]

/-- Each cell is renewed by the paths that lead to it. -/
theorem get?_warm (cache : PropCache) (tree : FileTree) (ps : List FilePath)
    (key : List PathComponent) :
    (cache.warm tree ps).2.entries.get? key =
      (ps.filter (·.components = key)).foldl (fun kept p => renew cache.settings tree p kept)
        (cache.entries.get? key) := by
  induction ps generalizing cache with
  | nil => rfl
  | cons p ps ih =>
      rw [warm_cons, ih, settings_get, get?_get]
      by_cases hkey : p.components = key <;> simp [hkey]

theorem components_of_mem_filter {key : List PathComponent} :
    ∀ p ∈ ps.filter (·.components = key), p.components = key :=
  fun _ hp => of_decide_eq_true (List.mem_filter.mp hp).2

theorem get?_warm_perm (h : ps.Perm qs) (key : List PathComponent) :
    (cache.warm tree ps).2.entries.get? key = (cache.warm tree qs).2.entries.get? key := by
  rw [get?_warm, get?_warm]
  exact foldl_renew_perm (h.filter _) components_of_mem_filter _

/-- Requests that leave the cache as it is do so one after another. -/
theorem warm_of_unchanged (h : ∀ p ∈ ps, (cache.get tree p).2 = cache) :
    (cache.warm tree ps).2 = cache := by
  induction ps with
  | nil => rfl
  | cons p ps ih =>
      rw [List.forall_mem_cons] at h
      rw [warm_cons, h.1, ih h.2]

/-- A cache that has been warmed stays as it is when it is warmed with the same paths. -/
theorem warm_warm (cache : PropCache) (tree : FileTree) (ps : List FilePath) :
    (cache.warm tree ps).2.warm tree ps = cache.warm tree ps := by
  refine Prod.ext ?_ (warm_of_unchanged fun p hp => get_of_renewed ?_)
  · simp only [errors_warm, refusal?_warm_get]
  · have hmem : p ∈ ps.filter (·.components = p.components) :=
      List.mem_filter.mpr ⟨hp, decide_eq_true rfl⟩
    rw [settings_warm, get?_warm]
    exact renew_foldl_renew components_of_mem_filter hmem _

/-- A request changes at most the entry of its own path, and nothing if it fails. Warming gives the
errors of the single requests in the order of the paths; the entries that it leaves and its errors
apart from their order do not depend on the order of the paths; and warming again changes nothing
and gives the same errors. -/
theorem warm_order_irrelevant (cache : PropCache) (tree : FileTree) (ps : List FilePath) :
    (∀ p e, (cache.get tree p).1 = .error e → (cache.get tree p).2 = cache) ∧
    (∀ p key, key ≠ p.components →
      (cache.get tree p).2.entries.get? key = cache.entries.get? key) ∧
    (cache.warm tree ps).1 = ps.filterMap (fun p => refusal? (cache.get tree p).1) ∧
    (∀ qs, ps.Perm qs →
      (∀ key, (cache.warm tree ps).2.entries.get? key = (cache.warm tree qs).2.entries.get? key) ∧
        (cache.warm tree ps).1.Perm (cache.warm tree qs).1) ∧
    (cache.warm tree ps).2.warm tree ps = cache.warm tree ps := by
  refine ⟨fun p e => get_of_error, fun p key hkey => ?_, errors_warm cache tree ps, ?_,
    warm_warm cache tree ps⟩
  · rw [get?_get, if_neg hkey.symm]
  · intro qs hperm
    refine ⟨get?_warm_perm hperm, ?_⟩
    rw [errors_warm, errors_warm]
    exact hperm.filterMap _

/-- Several spellings of one component file, from the working directory, from the root and over the
directory above, one of which takes it for a directory, and two paths that lead to none. -/
def spellings : List FilePath :=
  [⟨"a/B.svelte/".toList⟩, ⟨"a//B.svelte".toList⟩, ⟨"/work/a/B.svelte".toList⟩,
    ⟨"a/C.svelte".toList⟩, ⟨"a/B.svelte".toList⟩, ⟨"../work/a/B.svelte".toList⟩,
    ⟨"a/B.md".toList⟩]

/-- A tree with that one file. -/
def oneFile : FileTree :=
  FileTree.initial.write ⟨"a/B.svelte".toList⟩ "<script>let {x} = $props()</script>".toUTF8 20

/-- A cache that keeps an older state of the file. -/
def outdated : PropCache :=
  ({} : PropCache).keep ⟨"a/B.svelte".toList⟩ ⟨10, {}⟩

theorem warm_order_irrelevant_spellings :
    (outdated.get oneFile ⟨"a/B.svelte/".toList⟩).1 =
      .error (.unreadable ⟨"a/B.svelte/".toList⟩ .notADirectory) ∧
    (outdated.get oneFile ⟨"a/B.svelte/".toList⟩).2 = outdated ∧
    ([.name "a".toList, .name "B.svelte".toList] ≠
        FilePath.components ⟨"/work/a/B.svelte".toList⟩ ∧
      (outdated.get oneFile ⟨"/work/a/B.svelte".toList⟩).2.entries.get?
        [.name "a".toList, .name "B.svelte".toList] = some ⟨10, {}⟩) ∧
    spellings.Perm spellings.reverse ∧
    (∀ key, (outdated.warm oneFile spellings).2.entries.get? key =
      (outdated.warm oneFile spellings.reverse).2.entries.get? key) ∧
    (outdated.warm oneFile spellings).1.Perm (outdated.warm oneFile spellings.reverse).1 ∧
    (outdated.warm oneFile spellings).2.warm oneFile spellings =
      outdated.warm oneFile spellings := by
  have hfails : (outdated.get oneFile ⟨"a/B.svelte/".toList⟩).1 =
      .error (.unreadable ⟨"a/B.svelte/".toList⟩ .notADirectory) := by rfl
  have hother : [.name "a".toList, .name "B.svelte".toList] ≠
      FilePath.components ⟨"/work/a/B.svelte".toList⟩ := by decide
  have hperm : spellings.Perm spellings.reverse := by decide
  obtain ⟨hfailed, hkeeps, -, horder, hagain⟩ := warm_order_irrelevant outdated oneFile spellings
  exact ⟨hfails, hfailed _ _ hfails, ⟨hother, hkeeps _ _ hother⟩, hperm, (horder _ hperm).1,
    (horder _ hperm).2, hagain⟩

end PropCache

end ComponentProps
