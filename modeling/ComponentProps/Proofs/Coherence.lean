import ComponentProps.Proofs.TreeChanges

/-!
# Coherence of the cache

A run changes files and asks for props in any order. As long as no two contents of one file carry
the same time and no directory in its place does, an answer is what the file says at that moment,
even if times go backwards, files disappear and come back, or a path is spelled in another way. What
the cache keeps for a path is decided by the last event that concerns it.
-/

namespace ComponentProps

/-! ### What files say -/

namespace FileTree

variable {tree : FileTree} {p : FilePath}

/-- A path leads to a component file with this text. -/
def Holds (tree : FileTree) (p : FilePath) (source : Text) : Prop :=
  p.extension? = some "svelte".toList ∧ ∃ content modified s,
    tree.stat p = .ok (.file content modified) ∧ String.fromUTF8? content = some s ∧
      source = s.toList

theorem holds_iff {content : ByteArray} {modified : Nat} {s : String} {source : Text}
    (hp : p.extension? = some "svelte".toList) (hstat : tree.stat p = .ok (.file content modified))
    (hutf : String.fromUTF8? content = some s) : tree.Holds p source ↔ source = s.toList := by
  constructor
  · rintro ⟨-, content', modified', s', hfile, hutf', rfl⟩
    rw [hstat] at hfile
    obtain ⟨rfl, rfl⟩ := FileEntry.file.inj (Except.ok.inj hfile)
    rw [Option.some.inj (hutf.symm.trans hutf')]
  · rintro rfl
    exact ⟨hp, content, modified, s, hstat, hutf, rfl⟩

theorem readComponent_eq_ok_iff {source : Text} :
    tree.readComponent p = .ok source ↔ tree.Holds p source := by
  have hread : tree.read p = .ok source ↔ ∃ content modified s,
      tree.stat p = .ok (.file content modified) ∧ String.fromUTF8? content = some s ∧
        source = s.toList := by
    unfold read
    cases hstat : tree.stat p with
    | error e => simp
    | ok entry =>
        cases entry with
        | directory => simp
        | file content modified =>
            cases hutf : String.fromUTF8? content with
            | none => simp [hutf]
            | some s => simp [hutf, eq_comm (a := source)]
  have hcomponent : p.isComponent = true ↔ p.extension? = some "svelte".toList := beq_iff_eq
  rw [Holds, ← hread, ← hcomponent, readComponent]
  split
  · rename_i hp
    rw [readFile]
    cases tree.read p <;> simp [hp, Except.mapError]
  · rename_i hp
    simp [hp]

/-- The time of a file tells its content: what stands at its place at this time, in any of the
trees, is no directory and has no other content. -/
def TimesTell (trees : List FileTree) : Prop :=
  ∀ t ∈ trees, ∀ u ∈ trees, ∀ (place : Location) (content : ByteArray) (found : FileEntry),
    t.entry? place = some (.file content found.modified) → u.entry? place = some found →
      found = .file content found.modified

/-- Whether an entry bears out that the time of a file in its place tells the content. -/
def Bears : Option FileEntry → Option FileEntry → Bool
  | some (.file content modified), some found =>
    decide (found.modified = modified → found = .file content modified)
  | _, _ => true

theorem bears_iff {e e' : Option FileEntry} : Bears e e' = true ↔
    ∀ (content : ByteArray) (found : FileEntry), e = some (.file content found.modified) →
      e' = some found → found = .file content found.modified := by
  unfold Bears
  split
  · rename_i content modified found
    simp only [decide_eq_true_eq, Option.some.injEq, FileEntry.file.injEq]
    constructor
    · rintro h content' found' ⟨rfl, rfl⟩ rfl
      exact h rfl
    · rintro h rfl
      exact h content found ⟨rfl, rfl⟩ rfl
  · rename_i hfiles
    exact iff_of_true rfl fun content found he he' => absurd he' (hfiles content _ found he)

theorem timesTell_iff {trees : List FileTree} : TimesTell trees ↔
    ∀ t ∈ trees, ∀ u ∈ trees, ∀ place ∈ t.entries.keys,
      Bears (t.entry? place) (u.entry? place) = true := by
  constructor
  · intro h t ht u hu place _
    exact bears_iff.mpr (h t ht u hu place)
  · intro h t ht u hu place content found hentry
    have hplace := mem_keys_iff.mpr (Option.isSome_of_eq_some hentry)
    exact bears_iff.mp (h t ht u hu place hplace) content found hentry

instance (trees : List FileTree) : Decidable (TimesTell trees) := decidable_of_iff' _ timesTell_iff

end FileTree

/-! ### Events -/

/-- Something that happens to a cache. -/
inductive CacheEvent
  /-- The props of a path were asked for. -/
  | asked (path : FilePath) (answer : Except ProjectError PropCache.Answer)
  | forgotten (path : FilePath)
  /-- Everything was forgotten. -/
  | emptied

namespace CacheEvent

/-- The event decides what is kept for the path of these components. -/
def Decides (key : List PathComponent) : CacheEvent → Prop
  | asked p (.ok _) => p.components = key
  | asked _ (.error _) => False
  | forgotten p => p.components = key
  | emptied => True

/-- Props were the last answer for the path of these components, and nothing has been decided for it
since. -/
def Recalls (key : List PathComponent) (events : List CacheEvent) (sheet : PropSheet) : Prop :=
  ∃ earlier p kept later, events = earlier ++ asked p (.ok ⟨sheet, kept⟩) :: later ∧
    p.components = key ∧ ∀ e ∈ later, ¬ e.Decides key

/-- What is kept for a key behind an event. -/
def keptAfter (key : List PathComponent) (before : Option PropSheet) :
    CacheEvent → Option PropSheet
  | asked p (.ok answer) => if p.components = key then some answer.sheet else before
  | asked _ (.error _) => before
  | forgotten p => if p.components = key then none else before
  | emptied => none

section

variable {key : List PathComponent} {events : List CacheEvent} {e : CacheEvent} {sheet : PropSheet}

/-- A recalled answer is the last event or stands among the others, and then the last event does not
decide. -/
theorem recalls_concat : Recalls key (events ++ [e]) sheet ↔
    (e.Decides key ∧ ∃ p kept, e = asked p (.ok ⟨sheet, kept⟩)) ∨
      (¬ e.Decides key ∧ Recalls key events sheet) := by
  constructor
  · rintro ⟨earlier, p, kept, later, hevents, hkey, hlater⟩
    rcases List.eq_nil_or_concat later with rfl | ⟨later, d, rfl⟩
    · obtain ⟨rfl, heq⟩ := List.append_inj' hevents rfl
      obtain rfl := List.singleton_inj.mp heq
      exact .inl ⟨hkey, p, kept, rfl⟩
    · rw [List.concat_eq_append] at hevents hlater
      rw [← List.cons_append, ← List.append_assoc] at hevents
      obtain ⟨rfl, heq⟩ := List.append_inj' hevents rfl
      obtain rfl := List.singleton_inj.mp heq
      rw [List.forall_mem_append] at hlater
      exact .inr ⟨hlater.2 e (List.mem_singleton_self e), earlier, p, kept, later, rfl, hkey,
        hlater.1⟩
  · rintro (⟨hdecides, p, kept, rfl⟩ | ⟨hdecides, earlier, p, kept, later, rfl, hkey, hlater⟩)
    · exact ⟨events, p, kept, [], rfl, hdecides, by simp⟩
    · refine ⟨earlier, p, kept, later ++ [e], by simp, hkey, ?_⟩
      exact List.forall_mem_append.mpr ⟨hlater, by simpa using hdecides⟩

theorem keptAfter_eq_some_iff {before : Option PropSheet} :
    keptAfter key before e = some sheet ↔
      (e.Decides key ∧ ∃ p kept, e = asked p (.ok ⟨sheet, kept⟩)) ∨
        (¬ e.Decides key ∧ before = some sheet) := by
  cases e with
  | asked p answer =>
      cases answer with
      | error failure => simp [keptAfter, Decides]
      | ok answer =>
          obtain ⟨sheet', kept⟩ := answer
          by_cases hkey : p.components = key <;> simp [keptAfter, Decides, hkey]
  | forgotten p => by_cases hkey : p.components = key <;> simp [keptAfter, Decides, hkey]
  | emptied => simp [keptAfter, Decides]

/-- What is kept behind events is what they recall. -/
theorem foldl_keptAfter_eq_some_iff :
    events.foldl (keptAfter key) none = some sheet ↔ Recalls key events sheet := by
  induction events using List.reverseRecOn with
  | nil => simp [Recalls]
  | append_singleton events e ih =>
      rw [List.foldl_append, List.foldl_cons, List.foldl_nil, keptAfter_eq_some_iff, ih,
        recalls_concat]

end

end CacheEvent

namespace PropCache

variable {cache : PropCache} {tree : FileTree} {p : FilePath}

/-- Ask for the props of many paths in order. -/
def asks (cache : PropCache) (tree : FileTree) : List FilePath → List CacheEvent
  | [] => []
  | p :: ps => .asked p (cache.get tree p).1 :: (cache.get tree p).2.asks tree ps

/-- Keep an entry for a path. -/
def keep (cache : PropCache) (p : FilePath) (entry : CacheEntry) : PropCache :=
  { cache with entries := cache.entries.insert p.components entry }

theorem get?_keep (cache : PropCache) (p : FilePath) (entry : CacheEntry)
    (key : List PathComponent) :
    (cache.keep p entry).entries.get? key =
      if p.components = key then some entry else cache.entries.get? key :=
  OrderedMap.get?_insert _ _ _ _

/-- A path is refused, found in the cache or read from its file. What stands there is not looked at
if its time is that of the cache. -/
theorem get_cases (cache : PropCache) (tree : FileTree) (p : FilePath) :
    (∃ e, cache.get tree p = (.error e, cache) ∧ ∀ source, ¬ tree.Holds p source) ∨
    (∃ found entry, p.extension? = some "svelte".toList ∧ tree.stat p = .ok found ∧
      cache.entries.get? p.components = some entry ∧ entry.modified = found.modified ∧
      cache.get tree p = (.ok ⟨entry.sheet, true⟩, cache)) ∨
    ∃ content modified s, p.extension? = some "svelte".toList ∧
      tree.stat p = .ok (.file content modified) ∧ String.fromUTF8? content = some s ∧
      cache.get tree p = (.ok ⟨.ofComponent cache.settings s.toList, false⟩,
        cache.keep p ⟨modified, .ofComponent cache.settings s.toList⟩) := by
  have hcomponent : p.isComponent = true ↔ p.extension? = some "svelte".toList := beq_iff_eq
  unfold get
  split
  · rename_i hp
    split
    · rename_i failure hstat
      refine .inl ⟨_, rfl, ?_⟩
      rintro source ⟨-, content, modified, s, hfile, -, -⟩
      rw [hstat] at hfile
      contradiction
    · rename_i found hstat
      split
      · rename_i sheet hfresh
        obtain ⟨entry, hentry, hsheet⟩ := Option.bind_eq_some_iff.mp hfresh
        split at hsheet
        · rename_i htime
          obtain rfl := Option.some.inj hsheet
          exact .inr (.inl ⟨found, entry, hcomponent.mp hp, hstat, hentry, htime, rfl⟩)
        · contradiction
      · unfold extract
        split
        · rename_i e hread
          refine .inl ⟨_, rfl, fun source hsource => ?_⟩
          rw [FileTree.readComponent_eq_ok_iff.mpr hsource] at hread
          contradiction
        · rename_i source hread
          obtain ⟨-, content, modified, s, hfile, hutf, rfl⟩ :=
            FileTree.readComponent_eq_ok_iff.mp hread
          obtain rfl := Except.ok.inj (hstat.symm.trans hfile)
          exact .inr (.inr ⟨content, modified, s, hcomponent.mp hp, hstat, hutf, rfl⟩)
  · rename_i hp
    exact .inl ⟨_, rfl, fun source hsource => hp (hcomponent.mpr hsource.1)⟩

/-- What the cache keeps was read from a file in one of the trees, with the settings of the
cache. -/
def Backed (trees : List FileTree) (cache : PropCache) : Prop :=
  ∀ key entry, cache.entries.get? key = some entry → ∃ tree ∈ trees, ∃ content s,
    tree.entry? (Location.ofComponents tree.base key) = some (.file content entry.modified) ∧
      String.fromUTF8? content = some s ∧
        entry.sheet = .ofComponent cache.settings s.toList

variable {trees : List FileTree}

theorem backed_empty (trees : List FileTree) (settings : Settings) :
    (PropCache.ofSettings settings).Backed trees := by
  intro key entry hentry
  cases hentry

theorem settings_get (cache : PropCache) (tree : FileTree) (p : FilePath) :
    (cache.get tree p).2.settings = cache.settings := by
  obtain ⟨e, hget, -⟩ | ⟨found, entry, -, -, -, -, hget⟩ | ⟨content, modified, s, -, -, -, hget⟩ :=
    cache.get_cases tree p <;> rw [hget]
  rfl

/-- Reading a file of one of the trees keeps the cache backed. -/
theorem Backed.get (h : cache.Backed trees) (htree : tree ∈ trees) (p : FilePath) :
    (cache.get tree p).2.Backed trees := by
  obtain ⟨e, hget, -⟩ | ⟨found, entry, -, -, -, -, hget⟩ |
    ⟨content, modified, s, -, hstat, hutf, hget⟩ := cache.get_cases tree p
  · rwa [hget]
  · rwa [hget]
  · rw [hget]
    intro key entry hentry
    rw [get?_keep] at hentry
    split at hentry
    · rename_i hkey
      subst hkey
      obtain rfl := Option.some.inj hentry
      exact ⟨tree, htree, content, s, FileTree.entry?_of_stat hstat, hutf, rfl⟩
    · exact h key entry hentry

/-- An answer is what the file says. -/
theorem Backed.get_eq_ok_iff (h : cache.Backed trees) (htimes : FileTree.TimesTell trees)
    (hbase : ∀ t ∈ trees, ∀ u ∈ trees, t.base = u.base) (htree : tree ∈ trees)
    {sheet : PropSheet} :
    (∃ kept, (cache.get tree p).1 = .ok ⟨sheet, kept⟩) ↔
      ∃ source, tree.Holds p source ∧ sheet = .ofComponent cache.settings source := by
  obtain ⟨e, hget, hnone⟩ | ⟨found, entry, hp, hstat, hentry, htime, hget⟩ |
    ⟨content, modified, s, hp, hstat, hutf, hget⟩ := cache.get_cases tree p
  · simp [hget, hnone]
  · -- what is found has the time of the file that the entry was read from, so it is this file
    obtain ⟨past, hpast, content, s, hplace, hutf, hsheet⟩ := h _ _ hentry
    rw [htime, hbase past hpast tree htree] at hplace
    rw [htimes past hpast tree htree _ _ _ hplace (FileTree.entry?_of_stat hstat)] at hstat
    have hheld : ∀ source, tree.Holds p source ↔ source = s.toList :=
      fun source => FileTree.holds_iff hp hstat hutf
    simp [hget, hheld, hsheet, eq_comm (a := sheet)]
  · have hheld : ∀ source, tree.Holds p source ↔ source = s.toList :=
      fun source => FileTree.holds_iff hp hstat hutf
    simp [hget, hheld, eq_comm (a := sheet)]

/-- Asking for many paths keeps the settings and the cache backed, and every answer is what the file
says. -/
theorem Backed.asks (h : cache.Backed trees) (htimes : FileTree.TimesTell trees)
    (hbase : ∀ t ∈ trees, ∀ u ∈ trees, t.base = u.base) (htree : tree ∈ trees)
    {ps : List FilePath} {answer : Except ProjectError Answer}
    (hasked : .asked p answer ∈ cache.asks tree ps) {sheet : PropSheet} :
    (∃ kept, answer = .ok ⟨sheet, kept⟩) ↔
      ∃ source, tree.Holds p source ∧ sheet = .ofComponent cache.settings source := by
  induction ps generalizing cache with
  | nil => cases hasked
  | cons q ps ih =>
      obtain heq | hmem := List.mem_cons.mp hasked
      · obtain ⟨rfl, rfl⟩ := CacheEvent.asked.inj heq
        exact h.get_eq_ok_iff htimes hbase htree
      · rw [← settings_get cache tree q]
        exact ih (h.get htree q) hmem

theorem warm_cons (cache : PropCache) (tree : FileTree) (p : FilePath) (ps : List FilePath) :
    (cache.warm tree (p :: ps)).2 = ((cache.get tree p).2.warm tree ps).2 := by
  rw [warm]
  dsimp only
  split <;> rfl

theorem Backed.warm (h : cache.Backed trees) (htree : tree ∈ trees) (ps : List FilePath) :
    (cache.warm tree ps).2.Backed trees := by
  induction ps generalizing cache with
  | nil => exact h
  | cons p ps ih =>
      rw [warm_cons]
      exact ih (h.get htree p)

theorem cached?_get (cache : PropCache) (tree : FileTree) (p q : FilePath) :
    (cache.get tree p).2.cached? q =
      CacheEvent.keptAfter q.components (cache.cached? q) (.asked p (cache.get tree p).1) := by
  obtain ⟨e, hget, -⟩ | ⟨found, entry, -, -, hentry, -, hget⟩ |
    ⟨content, modified, s, -, -, -, hget⟩ := cache.get_cases tree p
  · rw [hget]
    rfl
  · rw [hget, CacheEvent.keptAfter]
    split
    · rename_i hkey
      rw [cached?, ← hkey, hentry]
      rfl
    · rfl
  · rw [hget, CacheEvent.keptAfter, cached?, get?_keep]
    split <;> rfl

theorem cached?_invalidate (cache : PropCache) (p q : FilePath) :
    (cache.invalidate p).2.cached? q =
      CacheEvent.keptAfter q.components (cache.cached? q) (.forgotten p) := by
  rw [invalidate, cached?, OrderedMap.get?_erase, CacheEvent.keptAfter]
  split <;> rfl

theorem cached?_warm (cache : PropCache) (tree : FileTree) (ps : List FilePath) (q : FilePath) :
    (cache.warm tree ps).2.cached? q =
      (cache.asks tree ps).foldl (CacheEvent.keptAfter q.components) (cache.cached? q) := by
  induction ps generalizing cache with
  | nil => rfl
  | cons p ps ih => rw [warm_cons, ih, asks, List.foldl_cons, cached?_get]

end PropCache

namespace Workspace

/-- The events of an action. -/
def events (w : Workspace) : Action → List CacheEvent
  | .get p => w.cache.asks w.tree [p]
  | .warm ps => w.cache.asks w.tree ps
  | .warmBelow root => w.cache.asks w.tree (w.tree.components root)
  | .invalidate p => [.forgotten p]
  | .clear => [.emptied]
  | .restart _ => [.emptied]
  | .configure p =>
    match w.tree.readSettings p with
    | .ok _ => [.emptied]
    | .error _ => []
  | _ => []

/-- An action answers what the files say: props are given for a path if and only if it leads to a
component file, and they are those of its text. -/
def AnswersHold (w : Workspace) (a : Action) : Prop :=
  ∀ (p : FilePath) (answer : Except ProjectError PropCache.Answer), .asked p answer ∈ w.events a →
    ∀ sheet : PropSheet, (∃ kept, answer = .ok ⟨sheet, kept⟩) ↔
      ∃ source, w.tree.Holds p source ∧ sheet = .ofComponent w.cache.settings source

/-- The trees of files in a run. -/
def trees (w : Workspace) (actions : List Action) : List FileTree :=
  (w.history actions).map fun moment => moment.1.tree

/-- A run has one working directory. -/
theorem base_of_mem_trees (w : Workspace) (actions : List Action) :
    ∀ t ∈ w.trees actions, ∀ u ∈ w.trees actions, t.base = u.base := by
  have hsame : ∀ t ∈ w.trees actions, t.base = w.tree.base := by
    intro t ht
    obtain ⟨moment, hmoment, rfl⟩ := List.mem_map.mp ht
    exact w.base_history actions moment hmoment
  intro t ht u hu
  rw [hsame t ht, hsame u hu]

/-- The events of a run. -/
def allEvents (w : Workspace) (actions : List Action) : List CacheEvent :=
  (w.history actions).flatMap fun moment => moment.1.events moment.2

theorem asks_of_mem_events {w : Workspace} {a : Action} {p : FilePath}
    {answer : Except ProjectError PropCache.Answer} (h : .asked p answer ∈ w.events a) :
    ∃ ps, .asked p answer ∈ w.cache.asks w.tree ps := by
  cases a with
  | get q => exact ⟨_, h⟩
  | warm ps => exact ⟨_, h⟩
  | warmBelow root => exact ⟨_, h⟩
  | configure q =>
      rw [events] at h
      split at h <;> simp at h
  | invalidate | clear | restart | tick | write | makeDirectory | remove | readComponent |
      components | readSettings | settings | cached => simp [events] at h

variable {trees : List FileTree}

/-- An action keeps the cache backed. -/
theorem backed_perform {w : Workspace} (h : w.cache.Backed trees) (htree : w.tree ∈ trees)
    (a : Action) : (w.perform a).2.cache.Backed trees := by
  cases a with
  | get p => exact h.get htree p
  | warm ps => exact h.warm htree ps
  | warmBelow root => exact h.warm htree (w.tree.components root)
  | clear => exact fun _ _ hentry => nomatch hentry
  | restart settings => exact PropCache.backed_empty trees settings
  | invalidate p =>
      intro key entry hentry
      have hkept : (w.cache.entries.erase p.components).get? key = some entry := hentry
      rw [OrderedMap.get?_erase] at hkept
      split at hkept
      · contradiction
      · exact h key entry hkept
  | configure p =>
      rw [perform]
      split
      · exact PropCache.backed_empty trees _
      · exact h
  | tick | write | makeDirectory | remove | readComponent | components | readSettings | settings |
      cached => exact h

/-- The cache is backed throughout a run. -/
theorem backed_history {w : Workspace} (h : w.cache.Backed trees) {actions : List Action}
    (htrees : ∀ moment ∈ w.history actions, moment.1.tree ∈ trees) :
    ∀ moment ∈ w.history actions, moment.1.cache.Backed trees := by
  induction actions generalizing w with
  | nil => simp [history]
  | cons a more ih =>
      rw [history, List.forall_mem_cons] at htrees ⊢
      exact ⟨h, ih (backed_perform h htrees.1 a) htrees.2⟩

theorem cached?_perform (w : Workspace) (a : Action) (p : FilePath) :
    (w.perform a).2.cache.cached? p =
      (w.events a).foldl (CacheEvent.keptAfter p.components) (w.cache.cached? p) := by
  cases a with
  | get q => exact PropCache.cached?_get w.cache w.tree q p
  | warm ps => exact PropCache.cached?_warm w.cache w.tree ps p
  | warmBelow root => exact PropCache.cached?_warm w.cache w.tree _ p
  | clear | restart => rfl
  | invalidate q => exact PropCache.cached?_invalidate w.cache q p
  | configure q => cases hread : w.tree.readSettings q <;> simp only [perform, events, hread] <;> rfl
  | tick | write | makeDirectory | remove | readComponent | components | readSettings | settings |
      cached => rfl

theorem cached?_run (w : Workspace) (actions : List Action) (p : FilePath) :
    (w.run actions).2.cache.cached? p =
      (w.allEvents actions).foldl (CacheEvent.keptAfter p.components) (w.cache.cached? p) := by
  induction actions generalizing w with
  | nil => rfl
  | cons a more ih =>
      have hevents : w.allEvents (a :: more) = w.events a ++ (w.perform a).2.allEvents more := rfl
      rw [hevents, List.foldl_append, ← cached?_perform]
      exact ih (w.perform a).2

/-- The workspace before anything is kept. -/
def start (tree : FileTree) (settings : Settings) : Workspace := ⟨tree, .ofSettings settings⟩

/-- In a run whose times tell the contents of files, every answer is what the files say at that
moment, and what is kept for a path is the last answer for it that has not been forgotten. -/
theorem cache_coherent (tree : FileTree) (settings : Settings) (actions : List Action)
    (htimes : FileTree.TimesTell ((start tree settings).trees actions)) :
    (∀ moment ∈ (start tree settings).history actions, moment.1.AnswersHold moment.2) ∧
    ∀ (p : FilePath) (sheet : PropSheet),
      ((start tree settings).run actions).2.cache.cached? p = some sheet ↔
        CacheEvent.Recalls p.components ((start tree settings).allEvents actions) sheet := by
  constructor
  · intro moment hmoment p answer hasked sheet
    have htrees : ∀ m ∈ (start tree settings).history actions,
        m.1.tree ∈ (start tree settings).trees actions := fun m hm => List.mem_map_of_mem hm
    have hbacked := backed_history (PropCache.backed_empty _ settings) htrees moment hmoment
    obtain ⟨ps, hps⟩ := asks_of_mem_events hasked
    exact hbacked.asks htimes (base_of_mem_trees _ actions) (htrees moment hmoment) hps
  · intro p sheet
    rw [cached?_run]
    exact CacheEvent.foldl_keptAfter_eq_some_iff

/-- A file is written, written again with an older time, removed and replaced by a directory, and
asked for in between under several spellings, which lead to it from the root, from the working
directory and over the directory above. -/
def turns : List Action :=
  let file : FilePath := ⟨"a/B.svelte".toList⟩
  [.write file "<script>let {x} = $props()</script>".toUTF8 20, .get file,
    .write ⟨"../work/a/B.svelte".toList⟩ "<script>let {y} = $props()</script>".toUTF8 10,
    .get ⟨"a//B.svelte".toList⟩, .get ⟨"/work/a/B.svelte".toList⟩, .remove file,
    .get ⟨"a/./B.svelte".toList⟩, .tick 15, .makeDirectory file, .get file]

theorem cache_coherent_turns :
    FileTree.TimesTell ((start .initial {}).trees turns) ∧
    (∀ moment ∈ (start .initial {}).history turns, moment.1.AnswersHold moment.2) ∧
    ∀ (p : FilePath) (sheet : PropSheet),
      ((start .initial {}).run turns).2.cache.cached? p = some sheet ↔
        CacheEvent.Recalls p.components ((start .initial {}).allEvents turns) sheet := by
  have htimes : FileTree.TimesTell ((start .initial {}).trees turns) := by decide +kernel
  exact ⟨htimes, cache_coherent .initial {} turns htimes⟩

end Workspace

end ComponentProps
