import ComponentProps.Workspace
import ComponentProps.Proofs.Maps

/-!
# Changes keep trees of files well formed

A tree of files is well formed when every place bears names and lies in a directory, the working
directory among them. A change follows its path as a request does, so it makes something only in a
directory, it removes a directory only with everything in it, and what is written under a path is
found under it. Main statement: from a well-formed tree a run reaches only well-formed trees, with
the same working directory.
-/

namespace ComponentProps

/-! ### Names -/

/-- A text that is one component of a path and names something. -/
def IsName (n : Text) : Prop := n ≠ [] ∧ n ≠ ['.'] ∧ n ≠ ['.', '.'] ∧ '/' ∉ n

instance (n : Text) : Decidable (IsName n) := inferInstanceAs (Decidable (_ ∧ _))

namespace FilePath

theorem slash_not_mem_segmentsOf (t : Text) : ∀ s ∈ segmentsOf t, '/' ∉ s := by
  induction t with
  | nil => simp [segmentsOf]
  | cons c t ih =>
      rw [segmentsOf]
      split
      · simpa using ih
      · rename_i hc
        cases hs : segmentsOf t with
        | nil => simpa using Ne.symm hc
        | cons first rest =>
            rw [hs, List.forall_mem_cons] at ih
            rw [List.forall_mem_cons, List.mem_cons, not_or]
            exact ⟨⟨Ne.symm hc, ih.1⟩, ih.2⟩

theorem slash_not_mem_segments (p : FilePath) : ∀ s ∈ p.segments, '/' ∉ s :=
  slash_not_mem_segmentsOf p.text

end FilePath

/-! ### The place of a path -/

namespace Location

/-- Go one component further. -/
def move : Location → PathComponent → Location
  | _, .root => []
  | place, .here => place
  | place, .parent => place.dropLast
  | place, .name n => place ++ [n]

/-- The place that components lead to from a working directory, if they lead anywhere. -/
def ofComponents (base : Location) (components : List PathComponent) : Location :=
  components.foldl move base

end Location

namespace FileTree

variable {tree : FileTree} {place next : Location} {segment : Text} {entry : FileEntry}
  {p : FilePath}

/-- A segment that can be followed leads where its component does. -/
theorem follow_eq_ok (h : tree.follow place segment = .ok next) :
    next = (FilePath.component? segment).elim place place.move := by
  unfold follow at h
  split at h
  · split at h
    · rename_i hsame
      rw [FilePath.component?, if_pos hsame]
      exact (Except.ok.inj h).symm
    · rename_i hsame
      split at h
      · rename_i hparent
        rw [FilePath.component?, if_neg hsame, if_pos hparent]
        exact (Except.ok.inj h).symm
      · rename_i hname
        rw [FilePath.component?, if_neg hsame, if_neg hname]
        split at h
        · exact (Except.ok.inj h).symm
        · contradiction
  · contradiction

theorem foldlM_follow_eq_ok {segments : List Text}
    (h : segments.foldlM tree.follow place = .ok next) :
    next = (segments.filterMap FilePath.component?).foldl Location.move place := by
  induction segments generalizing place with
  | nil => exact (Except.ok.inj h).symm
  | cons segment segments ih =>
      rw [List.foldlM_cons] at h
      cases hstep : tree.follow place segment with
      | error e =>
          rw [hstep] at h
          contradiction
      | ok middle =>
          rw [hstep] at h
          rw [ih h, follow_eq_ok hstep]
          cases hcomponent : FilePath.component? segment <;> simp [hcomponent]

/-- The tree decides whether a path leads anywhere, its components decide where. -/
theorem locate_eq_ok (h : tree.locate p = .ok place) :
    place = Location.ofComponents tree.base p.components := by
  have horigin : tree.origin p = p.lead?.toList.foldl Location.move tree.base := by
    rw [origin, FilePath.lead?]
    split
    · rfl
    · split <;> rfl
  unfold locate at h
  split at h
  · contradiction
  · rw [foldlM_follow_eq_ok h, Location.ofComponents, FilePath.components, List.foldl_append,
      horigin]

theorem stat_eq_ok_iff : tree.stat p = .ok entry ↔
    ∃ place, tree.locate p = .ok place ∧ tree.entry? place = some entry := by
  unfold stat
  cases tree.locate p with
  | error e => simp
  | ok place => cases hentry : tree.entry? place <;> simp [hentry]

theorem entry?_of_stat (h : tree.stat p = .ok entry) :
    tree.entry? (Location.ofComponents tree.base p.components) = some entry := by
  obtain ⟨place, hplace, hentry⟩ := stat_eq_ok_iff.mp h
  rwa [← locate_eq_ok hplace]

/-! ### What stands at a place -/

theorem mem_keys_iff : place ∈ tree.entries.keys ↔ (tree.entry? place).isSome := by
  rw [Option.isSome_iff_ne_none, ne_eq, entry?, OrderedMap.get?_eq_none_iff, not_not]

theorem isSome_of_isDirectory (h : tree.isDirectory place = true) : (tree.entry? place).isSome :=
  Option.isSome_of_any h

theorem isDirectory_of_entry (h : tree.entry? place = some entry) :
    tree.isDirectory place = entry.isDirectory := by
  rw [isDirectory, h]
  rfl

theorem entry?_set (tree : FileTree) (place other : Location) (entry : FileEntry) :
    FileTree.entry? (tree.set place entry) other =
      if place = other then some entry else tree.entry? other :=
  OrderedMap.get?_insert _ _ _ _

theorem isDirectory_set (tree : FileTree) (place other : Location) (entry : FileEntry) :
    (tree.set place entry).isDirectory other =
      if place = other then entry.isDirectory else tree.isDirectory other := by
  rw [isDirectory, entry?_set]
  split <;> rfl

theorem isDirectory_prune (tree : FileTree) (place other : Location) :
    (tree.prune place).isDirectory other = (!place.isPrefixOf other && tree.isDirectory other) := by
  rw [isDirectory, entry?, prune, OrderedMap.get?_filterKeys]
  cases place.isPrefixOf other <;> rfl

theorem follow_of_isName {n : Text} (hn : IsName n) (hplace : tree.isDirectory place = true) :
    tree.follow place n =
      if (tree.entry? (place ++ [n])).isSome then .ok (place ++ [n]) else .error .notFound := by
  simp [follow, hplace, hn.1, hn.2.1, hn.2.2.1]

/-- A name is missing in a directory. -/
theorem of_follow_eq_notFound (h : tree.follow place segment = .error .notFound) :
    tree.isDirectory place = true ∧ (segment ≠ [] ∧ segment ≠ ['.'] ∧ segment ≠ ['.', '.']) ∧
      tree.entry? (place ++ [segment]) = none := by
  unfold follow at h
  split at h
  · rename_i hplace
    split at h
    · contradiction
    · rename_i hsame
      rw [Bool.or_eq_true, decide_eq_true_eq, decide_eq_true_eq, not_or] at hsame
      split at h
      · contradiction
      · rename_i hparent
        split at h
        · contradiction
        · rename_i hnone
          exact ⟨hplace, ⟨hsame.1, hsame.2, hparent⟩, by simpa using hnone⟩
  · contradiction

/-- A tree with more entries, in which directories are still directories. -/
structure Grows (tree grown : FileTree) : Prop where
  entry : ∀ {place}, (tree.entry? place).isSome → (grown.entry? place).isSome
  directory : ∀ {place}, tree.isDirectory place = true → grown.isDirectory place = true

namespace Grows

variable {grown other : FileTree}

theorem refl (tree : FileTree) : tree.Grows tree := ⟨id, id⟩

theorem trans (h : tree.Grows grown) (h' : grown.Grows other) : tree.Grows other :=
  ⟨fun hentry => h'.entry (h.entry hentry), fun hplace => h'.directory (h.directory hplace)⟩

/-- A segment that can be followed can still be followed. -/
theorem follow (h : tree.Grows grown) (hfollow : tree.follow place segment = .ok next) :
    grown.follow place segment = .ok next := by
  unfold FileTree.follow at hfollow ⊢
  split at hfollow
  · rename_i hplace
    rw [if_pos (h.directory hplace)]
    split
    · rename_i hsame
      rwa [if_pos hsame] at hfollow
    · rename_i hsame
      rw [if_neg hsame] at hfollow
      split
      · rename_i hparent
        rwa [if_pos hparent] at hfollow
      · rename_i hparent
        rw [if_neg hparent] at hfollow
        split at hfollow
        · rename_i hnext
          rwa [if_pos (h.entry hnext)]
        · contradiction
  · contradiction

theorem foldlM_follow (h : tree.Grows grown) {segments : List Text}
    (hwalk : segments.foldlM tree.follow place = .ok next) :
    segments.foldlM grown.follow place = .ok next := by
  induction segments generalizing place with
  | nil => exact hwalk
  | cons segment rest ih =>
      rw [List.foldlM_cons] at hwalk ⊢
      cases hstep : tree.follow place segment with
      | error e =>
          rw [hstep] at hwalk
          contradiction
      | ok middle =>
          rw [hstep] at hwalk
          rw [h.follow hstep]
          exact ih hwalk

end Grows

/-- An entry may be put anywhere, but a directory stays one. -/
theorem grows_set (hkind : tree.isDirectory place = true → entry.isDirectory = true) :
    tree.Grows (tree.set place entry) := by
  constructor
  · intro other hother
    rw [entry?_set]
    split
    · rfl
    · exact hother
  · intro other hother
    rw [isDirectory_set]
    split
    · rename_i heq
      exact hkind (heq ▸ hother)
    · exact hother

theorem grows_touch (tree : FileTree) (place : Location) : tree.Grows (tree.touch place) := by
  rw [touch]
  split
  · exact grows_set fun _ => rfl
  · exact .refl tree

theorem isDirectory_touch (tree : FileTree) (place other : Location) :
    (tree.touch place).isDirectory other = tree.isDirectory other := by
  rw [touch]
  split
  · rename_i hplace
    rw [isDirectory_set]
    split
    · rename_i heq
      rw [← heq, hplace]
      rfl
    · rfl
  · rfl

theorem grows_add (hnone : tree.entry? place = none) (entry : FileEntry) :
    tree.Grows (tree.add place entry) := by
  refine (grows_touch tree place.dropLast).trans (grows_set fun hplace => ?_)
  rw [isDirectory_touch, isDirectory, hnone] at hplace
  contradiction

theorem entry?_add (tree : FileTree) (place : Location) (entry : FileEntry) :
    FileTree.entry? (tree.add place entry) place = some entry := by
  rw [add, entry?_set, if_pos rfl]

/-! ### Well-formed trees -/

/-- A tree in which every place bears names and lies in a directory. -/
structure IsTree (tree : FileTree) : Prop where
  named : ∀ place ∈ tree.entries.keys, ∀ n ∈ place, IsName n
  parent : ∀ place ∈ tree.entries.keys, tree.isDirectory place.dropLast = true
  base : tree.isDirectory tree.base = true

theorem isTree_iff : tree.IsTree ↔
    (∀ place ∈ tree.entries.keys, ∀ n ∈ place, IsName n) ∧
      (∀ place ∈ tree.entries.keys, tree.isDirectory place.dropLast = true) ∧
        tree.isDirectory tree.base = true :=
  ⟨fun h => ⟨h.named, h.parent, h.base⟩, fun h => ⟨h.1, h.2.1, h.2.2⟩⟩

instance (tree : FileTree) : Decidable tree.IsTree := decidable_of_iff' _ isTree_iff

theorem isTree_ofBase {base : Location} (h : ∀ n ∈ base, IsName n) (clock : Nat) :
    (ofBase base clock).IsTree := by
  have hkeys : ∀ place, place ∈ (ofBase base clock).entries.keys ↔ place <+: base := by
    intro place
    rw [ofBase, OrderedMap.keys_ofList, List.mem_eraseDups, List.map_map, List.mem_map]
    constructor
    · rintro ⟨n, -, rfl⟩
      exact List.take_prefix n base
    · intro hprefix
      refine ⟨place.length, ?_, (List.prefix_iff_eq_take.mp hprefix).symm⟩
      exact List.mem_range.mpr (Nat.lt_succ_of_le hprefix.length_le)
  have hdirectory : ∀ place, place <+: base → (ofBase base clock).isDirectory place = true := by
    intro place hprefix
    obtain ⟨entry, hentry⟩ := OrderedMap.exists_get?_of_mem_keys ((hkeys place).mpr hprefix)
    rw [isDirectory_of_entry hentry]
    rw [ofBase, OrderedMap.get?_ofList] at hentry
    obtain ⟨e, he, rfl⟩ := Option.map_eq_some_iff.mp hentry
    obtain ⟨n, -, rfl⟩ := List.mem_map.mp (List.mem_reverse.mp (List.mem_of_find?_eq_some he))
    rfl
  refine ⟨fun place hplace n hn => ?_, fun place hplace => ?_, hdirectory base (List.prefix_refl _)⟩
  · exact h n (((hkeys place).mp hplace).subset hn)
  · exact hdirectory _ ((List.dropLast_prefix place).trans ((hkeys place).mp hplace))

/-! ### Changes -/

/-- An entry may be put into a directory, unless it is a file in the place of a directory. -/
theorem IsTree.set (h : tree.IsTree) (hparent : tree.isDirectory place.dropLast = true)
    (hnames : ∀ n ∈ place, IsName n)
    (hkind : tree.isDirectory place = true → entry.isDirectory = true) :
    (tree.set place entry).IsTree := by
  have hgrows := grows_set hkind
  refine ⟨fun other hother => ?_, fun other hother => ?_, hgrows.directory h.base⟩
  · rcases OrderedMap.mem_keys_insert.mp hother with rfl | hmem
    · exact hnames
    · exact h.named other hmem
  · rcases OrderedMap.mem_keys_insert.mp hother with rfl | hmem
    · exact hgrows.directory hparent
    · exact hgrows.directory (h.parent other hmem)

/-- What stands somewhere may be replaced. -/
theorem IsTree.replace (h : tree.IsTree) (hplace : (tree.entry? place).isSome)
    (hkind : tree.isDirectory place = true → entry.isDirectory = true) :
    (tree.set place entry).IsTree :=
  h.set (h.parent place (mem_keys_iff.mpr hplace)) (h.named place (mem_keys_iff.mpr hplace)) hkind

theorem IsTree.touch (h : tree.IsTree) (place : Location) : (tree.touch place).IsTree := by
  rw [FileTree.touch]
  split
  · rename_i hplace
    exact h.replace (isSome_of_isDirectory hplace) fun _ => rfl
  · exact h

/-- A missing name of a directory may be given to anything. -/
theorem IsTree.add (h : tree.IsTree) (hsegment : '/' ∉ segment)
    (hmissing : tree.follow place segment = .error .notFound) (entry : FileEntry) :
    (tree.add (place ++ [segment]) entry).IsTree := by
  obtain ⟨hplace, hname, hnone⟩ := of_follow_eq_notFound hmissing
  refine (h.touch _).set ?_ ?_ fun hdirectory => ?_
  · rw [isDirectory_touch, List.dropLast_concat, hplace]
  · rw [List.forall_mem_append, List.forall_mem_singleton]
    have hkey := mem_keys_iff.mpr (isSome_of_isDirectory hplace)
    exact ⟨h.named place hkey, hname.1, hname.2.1, hname.2.2, hsegment⟩
  · rw [isDirectory_touch, isDirectory, hnone] at hdirectory
    contradiction

theorem IsTree.makeDirectories (h : tree.IsTree) {segments : List Text}
    (hsegments : ∀ s ∈ segments, '/' ∉ s) (place : Location) :
    (tree.makeDirectories place segments).1.IsTree := by
  induction segments generalizing tree place with
  | nil => exact h
  | cons segment rest ih =>
      rw [List.forall_mem_cons] at hsegments
      rw [FileTree.makeDirectories]
      split
      · exact ih h hsegments.2 _
      · rename_i hmissing
        exact ih (h.add hsegments.1 hmissing _) hsegments.2 _
      · exact h

theorem IsTree.makeDirectory (h : tree.IsTree) (p : FilePath) : (tree.makeDirectory p).IsTree :=
  h.makeDirectories p.slash_not_mem_segments _

/-- A segment that can be followed leads to something. -/
theorem IsTree.isSome_of_follow (h : tree.IsTree) (hfollow : tree.follow place segment = .ok next) :
    (tree.entry? next).isSome := by
  unfold follow at hfollow
  split at hfollow
  · rename_i hplace
    have hstands := isSome_of_isDirectory hplace
    split at hfollow
    · obtain rfl := Except.ok.inj hfollow
      exact hstands
    · split at hfollow
      · obtain rfl := Except.ok.inj hfollow
        exact isSome_of_isDirectory (h.parent place (mem_keys_iff.mpr hstands))
      · split at hfollow
        · rename_i hnext
          obtain rfl := Except.ok.inj hfollow
          exact hnext
        · contradiction
  · contradiction

theorem IsTree.writeIn (h : tree.IsTree) (hsegment : '/' ∉ segment) (place : Location)
    (file : FileEntry) : (tree.writeIn place segment file).IsTree := by
  rw [FileTree.writeIn]
  split
  · rename_i next hnext
    split
    · exact h
    · rename_i hfile
      exact h.replace (h.isSome_of_follow hnext) fun hdirectory => absurd hdirectory hfile
  · rename_i hmissing
    exact h.add hsegment hmissing file
  · exact h

theorem IsTree.write (h : tree.IsTree) (p : FilePath) (content : ByteArray) (modified : Nat) :
    (tree.write p content modified).IsTree := by
  have hslash := p.slash_not_mem_segments
  have hmade := h.makeDirectories (fun s hs => hslash s (List.dropLast_subset _ hs))
    (tree.origin p)
  have hlast : '/' ∉ p.segments.getLastD [] := by
    rw [List.getLastD_eq_getLast?]
    cases hlast : p.segments.getLast? with
    | none => exact List.not_mem_nil
    | some last => exact hslash last (List.mem_of_getLast? hlast)
  rw [FileTree.write]
  split
  · rename_i made place hwalk
    rw [hwalk] at hmade
    exact hmade.writeIn hlast place _
  · rename_i made failure hwalk
    rwa [hwalk] at hmade

/-- A place may be left out with everything below it. -/
theorem IsTree.prune (h : tree.IsTree) (hbase : place.isPrefixOf tree.base = false) :
    (tree.prune place).IsTree := by
  have hmem : ∀ {other}, other ∈ (tree.prune place).entries.keys →
      place.isPrefixOf other = false ∧ other ∈ tree.entries.keys := by
    intro other hother
    obtain ⟨e, he, rfl⟩ := List.mem_map.mp hother
    obtain ⟨hentry, hkept⟩ := List.mem_filter.mp he
    exact ⟨by simpa using hkept, List.mem_map_of_mem hentry⟩
  refine ⟨fun other hother => h.named other (hmem hother).2, fun other hother => ?_, ?_⟩
  · obtain ⟨hbeside, hkey⟩ := hmem hother
    have hparent : place.isPrefixOf other.dropLast = false := by
      rw [← Bool.not_eq_true, List.isPrefixOf_iff_prefix] at hbeside ⊢
      exact fun hbelow => hbeside (hbelow.trans (List.dropLast_prefix other))
    rw [isDirectory_prune, hparent, h.parent other hkey]
    rfl
  · have hkept : (tree.prune place).base = tree.base := rfl
    rw [hkept, isDirectory_prune, hbase, h.base]
    rfl

theorem base_touch (tree : FileTree) (place : Location) : (tree.touch place).base = tree.base := by
  rw [touch]
  split <;> rfl

theorem IsTree.remove (h : tree.IsTree) (p : FilePath) : (tree.remove p).IsTree := by
  rw [FileTree.remove]
  split
  · rename_i place _
    split
    · exact h
    · rename_i hbase
      refine (h.touch _).prune ?_
      rw [base_touch]
      exact Bool.not_eq_true _ ▸ hbase
  · exact h

/-! ### The working directory -/

theorem base_add (tree : FileTree) (place : Location) (entry : FileEntry) :
    (tree.add place entry).base = tree.base :=
  base_touch tree place.dropLast

theorem base_makeDirectories (tree : FileTree) (place : Location) (segments : List Text) :
    (tree.makeDirectories place segments).1.base = tree.base := by
  induction segments generalizing tree place with
  | nil => rfl
  | cons segment rest ih =>
      rw [makeDirectories]
      split
      · exact ih tree _
      · rw [ih, base_add]
      · rfl

theorem base_write (tree : FileTree) (p : FilePath) (content : ByteArray) (modified : Nat) :
    (tree.write p content modified).base = tree.base := by
  have hmade := base_makeDirectories tree (tree.origin p) p.segments.dropLast
  rw [write]
  split
  · rename_i made place hwalk
    rw [hwalk] at hmade
    rw [writeIn]
    split
    · split
      · exact hmade
      · exact hmade
    · rw [base_add, hmade]
    · exact hmade
  · rename_i made failure hwalk
    rwa [hwalk] at hmade

theorem base_remove (tree : FileTree) (p : FilePath) : (tree.remove p).base = tree.base := by
  rw [remove]
  split
  · rename_i place _
    split
    · rfl
    · exact base_touch tree place.dropLast
  · rfl

/-! ### What is written is found -/

theorem grows_makeDirectories (tree : FileTree) (place : Location) (segments : List Text) :
    tree.Grows (tree.makeDirectories place segments).1 := by
  induction segments generalizing tree place with
  | nil => exact .refl tree
  | cons segment rest ih =>
      rw [makeDirectories]
      split
      · exact ih tree _
      · rename_i hmissing
        exact (grows_add (of_follow_eq_notFound hmissing).2.2 _).trans (ih _ _)
      · exact .refl tree

/-- The directories that have been made lie where their path leads. -/
theorem foldlM_follow_makeDirectories {made : FileTree} {segments : List Text}
    (h : tree.makeDirectories place segments = (made, .ok next)) :
    segments.foldlM made.follow place = .ok next := by
  induction segments generalizing tree place with
  | nil =>
      obtain ⟨-, hnext⟩ := Prod.mk.inj h
      exact hnext
  | cons segment rest ih =>
      rw [makeDirectories] at h
      rw [List.foldlM_cons]
      split at h
      · rename_i middle hstep
        have hmade := grows_makeDirectories tree middle rest
        rw [h] at hmade
        rw [hmade.follow hstep]
        exact ih h
      · rename_i hmissing
        obtain ⟨hplace, hname, hnone⟩ := of_follow_eq_notFound hmissing
        have hadded : (tree.add (place ++ [segment]) (.directory tree.clock)).follow place segment =
            .ok (place ++ [segment]) := by
          have hkept := (grows_add hnone (.directory tree.clock)).directory hplace
          simp [follow, hkept, hname, entry?_add]
        have hmade := grows_makeDirectories
          (tree.add (place ++ [segment]) (.directory tree.clock)) (place ++ [segment]) rest
        rw [h] at hmade
        rw [hmade.follow hadded]
        exact ih h
      · cases (Prod.mk.inj h).2

theorem grows_writeIn {n : Text} (hn : IsName n) (hplace : tree.isDirectory place = true)
    (hfree : tree.isDirectory (place ++ [n]) = false) (file : FileEntry) :
    tree.Grows (tree.writeIn place n file) ∧
      FileTree.entry? (tree.writeIn place n file) (place ++ [n]) = some file := by
  rw [writeIn, follow_of_isName hn hplace]
  split
  · rename_i next hnext
    split at hnext
    · obtain rfl := Except.ok.inj hnext
      rw [if_neg (by simp [hfree]), entry?_set, if_pos rfl]
      exact ⟨grows_set (by simp [hfree]), rfl⟩
    · contradiction
  · rename_i hmissing
    split at hmissing
    · contradiction
    · rename_i hnone
      exact ⟨grows_add (by simpa using hnone) file, entry?_add _ _ _⟩
  · rename_i failure hnot hfailure
    split at hfailure
    · contradiction
    · exact absurd (Except.error.inj hfailure).symm hnot

/-- What is written under a path is found under it, if the path leads to a directory on the way and
no directory bears the name of the file. -/
theorem stat_write {made : FileTree} {n : Text} (hlast : p.segments.getLast? = some n)
    (hn : IsName n)
    (hwalk : tree.makeDirectories (tree.origin p) p.segments.dropLast = (made, .ok place))
    (hplace : made.isDirectory place = true) (hfree : made.isDirectory (place ++ [n]) = false)
    (content : ByteArray) (modified : Nat) :
    (tree.write p content modified).stat p = .ok (.file content modified) := by
  obtain ⟨front, hsegments⟩ := List.getLast?_eq_some_iff.mp hlast
  have hwritten : tree.write p content modified =
      made.writeIn place n (.file content modified) := by
    rw [write, hwalk, List.getLastD_eq_getLast?, hlast]
    rfl
  have horigin : (tree.write p content modified).origin p = tree.origin p := by
    rw [origin, base_write]
    rfl
  have htext : ¬ p.text.isEmpty := by
    intro hempty
    rw [FilePath.segments, List.isEmpty_iff.mp hempty] at hlast
    exact hn.1 (Option.some.inj hlast).symm
  rw [hsegments, List.dropLast_concat] at hwalk
  rw [stat_eq_ok_iff, locate, if_neg htext, horigin, hwritten, hsegments, List.foldlM_append]
  obtain ⟨hgrows, hentry⟩ := grows_writeIn hn hplace hfree (.file content modified)
  rw [hgrows.foldlM_follow (foldlM_follow_makeDirectories hwalk)]
  refine ⟨place ++ [n], ?_, hentry⟩
  have hnext := follow_of_isName hn (hgrows.directory hplace)
  rw [if_pos (Option.isSome_of_eq_some hentry)] at hnext
  exact congrArg (· >>= pure) hnext

/-- What is removed is found no more. -/
theorem stat_remove (hplace : tree.locate p = .ok place)
    (hbase : place.isPrefixOf tree.base = false) (entry : FileEntry) :
    (tree.remove p).stat p ≠ .ok entry := by
  intro hstat
  have hself : place.isPrefixOf place = true := List.isPrefixOf_iff_prefix.mpr (List.prefix_refl _)
  have hentry := entry?_of_stat hstat
  rw [base_remove, ← locate_eq_ok hplace, remove, hplace] at hentry
  simp [hbase, hself, entry?, prune, OrderedMap.get?_filterKeys] at hentry

end FileTree

/-! ### Runs -/

namespace Workspace

variable {w : Workspace}

/-- An action leaves the tree as it is or changes it. -/
theorem tree_perform (w : Workspace) (a : Action) : (w.perform a).2.tree =
    match a with
    | .tick now => w.tree.tick now
    | .write p content modified => w.tree.write p content modified
    | .makeDirectory p => w.tree.makeDirectory p
    | .remove p => w.tree.remove p
    | _ => w.tree := by
  cases a with
  | configure p =>
      rw [perform]
      split <;> rfl
  | _ => rfl

theorem isTree_perform (h : w.tree.IsTree) (a : Action) : (w.perform a).2.tree.IsTree := by
  rw [tree_perform]
  split
  · exact ⟨h.named, h.parent, h.base⟩
  · exact h.write _ _ _
  · exact h.makeDirectory _
  · exact h.remove _
  · exact h

theorem base_perform (w : Workspace) (a : Action) : (w.perform a).2.tree.base = w.tree.base := by
  rw [tree_perform]
  split
  · rfl
  · exact FileTree.base_write _ _ _ _
  · exact FileTree.base_makeDirectories _ _ _
  · exact FileTree.base_remove _ _
  · rfl

/-- The actions of a run, each with the workspace it was done in. -/
def history (w : Workspace) : List Action → List (Workspace × Action)
  | [] => []
  | a :: more => (w, a) :: (w.perform a).2.history more

/-- What every action keeps holds throughout a run. -/
theorem forall_mem_history {P : Workspace → Prop} (hkept : ∀ w a, P w → P (w.perform a).2)
    (h : P w) (actions : List Action) :
    (∀ moment ∈ w.history actions, P moment.1) ∧ P (w.run actions).2 := by
  induction actions generalizing w with
  | nil => exact ⟨by simp [history], h⟩
  | cons a more ih =>
      obtain ⟨hmoments, hend⟩ := ih (hkept w a h)
      exact ⟨List.forall_mem_cons.mpr ⟨h, hmoments⟩, hend⟩

/-- A run that begins with a well-formed tree goes through well-formed trees only. -/
theorem isTree_run (h : w.tree.IsTree) (actions : List Action) :
    (∀ moment ∈ w.history actions, moment.1.tree.IsTree) ∧ (w.run actions).2.tree.IsTree :=
  forall_mem_history (P := fun w => w.tree.IsTree) (fun _ a h => isTree_perform h a) h actions

/-- The working directory stays the same. -/
theorem base_history (w : Workspace) (actions : List Action) :
    ∀ moment ∈ w.history actions, moment.1.tree.base = w.tree.base :=
  (forall_mem_history (P := fun v => v.tree.base = w.tree.base)
    (fun v a h => (base_perform v a).trans h) rfl actions).1

end Workspace

end ComponentProps
