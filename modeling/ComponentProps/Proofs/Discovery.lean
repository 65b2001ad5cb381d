import ComponentProps.Proofs.Coherence
import ComponentProps.Proofs.Encoding
import Mathlib.Data.List.Sort

/-!
# Discovery of components

In a well-formed tree of files a path that is joined to a root leads where its names do, and the
files found below a root are those that a walk comes to which enters every directory but the skipped
ones. They stand in the order of their components, each compared byte by byte.
-/

namespace ComponentProps

open Text

/-! ### Names and paths -/

namespace FilePath

theorem segmentsOf_ne_nil (t : Text) : segmentsOf t ≠ [] := by
  cases t with
  | nil => simp [segmentsOf]
  | cons c t =>
      rw [segmentsOf]
      split
      · simp
      · split <;> simp

/-- A slash parts the segments on its two sides. -/
theorem segmentsOf_append (s t : Text) :
    segmentsOf (s ++ '/' :: t) = segmentsOf s ++ segmentsOf t := by
  induction s with
  | nil => rfl
  | cons c s ih =>
      rw [List.cons_append, segmentsOf, segmentsOf, ih]
      split
      · rfl
      · cases hs : segmentsOf s with
        | nil => exact absurd hs (segmentsOf_ne_nil s)
        | cons first rest => rfl

theorem segmentsOf_name {n : Text} (h : '/' ∉ n) : segmentsOf n = [n] := by
  induction n with
  | nil => rfl
  | cons c n ih =>
      rw [List.mem_cons, not_or] at h
      rw [segmentsOf, if_neg (Ne.symm h.1), ih h.2]

theorem segmentsOf_intercalate {names : List Text} (hne : names ≠ [])
    (h : ∀ n ∈ names, '/' ∉ n) : segmentsOf (['/'].intercalate names) = names := by
  induction names with
  | nil => exact absurd rfl hne
  | cons n names ih =>
      rw [List.forall_mem_cons] at h
      cases names with
      | nil => rw [List.intercalate_singleton, segmentsOf_name h.1]
      | cons m names =>
          rw [List.intercalate_cons_cons, List.append_assoc, List.singleton_append,
            segmentsOf_append, segmentsOf_name h.1, ih (by simp) h.2, List.singleton_append]

theorem component?_of_isName {n : Text} (h : IsName n) : component? n = some (.name n) := by
  simp [component?, h.1, h.2.1, h.2.2.1]

theorem head?_join {p : FilePath} (hp : p.text ≠ []) (names : List Text) :
    (p.join names).text.head? = p.text.head? := by
  rw [join]
  split
  · rfl
  · dsimp only
    split <;> rw [List.head?_append_of_ne_nil _ hp]

theorem segments_join_of_nil {p : FilePath} (hp : p.text = []) {names : List Text}
    (hne : names ≠ []) (h : ∀ n ∈ names, IsName n) : (p.join names).segments = names := by
  rw [join, if_neg (by simpa using hne), segments]
  simp only [hp, List.getLast?_nil, Option.all_none, if_true, List.nil_append]
  exact segmentsOf_intercalate hne fun n hn => (h n hn).2.2.2

/-- The segments of a joined path are the names behind those of the root, but for an empty one at
its end. -/
theorem exists_segments_join {p : FilePath} (hp : p.text ≠ []) {names : List Text}
    (hne : names ≠ []) (h : ∀ n ∈ names, IsName n) :
    ∃ front, front ≠ [] ∧ (p.join names).segments = front ++ names ∧
      (p.segments = front ∨ p.segments = front ++ [[]]) := by
  have hinner := segmentsOf_intercalate hne fun n hn => (h n hn).2.2.2
  obtain ⟨front, last, htext⟩ := (List.eq_nil_or_concat' p.text).resolve_left hp
  rw [join, if_neg (by simpa using hne), segments, segments, htext, List.getLast?_concat,
    Option.all_some]
  dsimp only
  split
  · rename_i hlast
    obtain rfl : last = '/' := by simpa using hlast
    refine ⟨segmentsOf front, segmentsOf_ne_nil front, ?_, .inr ?_⟩
    · rw [List.append_assoc, List.singleton_append, segmentsOf_append, hinner]
    · rw [segmentsOf_append, segmentsOf]
  · exact ⟨_, segmentsOf_ne_nil _, by rw [segmentsOf_append, hinner], .inl rfl⟩

theorem lead?_congr {p q : FilePath} (htext : p.text.head? = q.text.head?)
    (hsegments : p.segments.head? = q.segments.head?) : p.lead? = q.lead? := by
  rw [lead?, lead?, isAbsolute, isAbsolute, htext, hsegments]

/-- A path that begins with a name begins with nothing else. -/
theorem lead?_of_isName {p : FilePath} {n : Text} {rest : List Text} (h : p.segments = n :: rest)
    (hn : IsName n) : p.lead? = none := by
  have hrelative : p.isAbsolute = false := by
    cases htext : p.text with
    | nil => rw [isAbsolute, htext]; rfl
    | cons c t =>
        by_cases hc : c = '/'
        · rw [segments, htext, segmentsOf, if_pos hc] at h
          exact absurd (List.cons.inj h).1.symm hn.1
        · simp [isAbsolute, htext, hc]
  simp [lead?, hrelative, h, hn.2.1]

theorem filterMap_component? {names : List Text} (h : ∀ n ∈ names, IsName n) :
    names.filterMap component? = names.map .name := by
  rw [← List.filterMap_eq_map]
  exact List.filterMap_congr fun n hn => component?_of_isName (h n hn)

/-- The components of a joined path are those of the root and the names. -/
theorem components_join (p : FilePath) {names : List Text} (h : ∀ n ∈ names, IsName n) :
    (p.join names).components = p.components ++ names.map .name := by
  by_cases hne : names = []
  · subst hne
    simp [join]
  by_cases hp : p.text = []
  · have hjoin := segments_join_of_nil hp hne h
    obtain ⟨n, rest, rfl⟩ := List.exists_cons_of_ne_nil hne
    have hnone : p.components = [] := by
      rw [components, lead?, isAbsolute, segments, hp]
      rfl
    rw [components, lead?_of_isName hjoin (h n List.mem_cons_self), hjoin, filterMap_component? h,
      hnone]
    rfl
  · obtain ⟨front, hfront, hjoin, hsegments⟩ := exists_segments_join hp hne h
    have hlead : (p.join names).lead? = p.lead? := by
      refine lead?_congr (head?_join hp names) ?_
      rw [hjoin, List.head?_append_of_ne_nil _ hfront]
      rcases hsegments with hsegments | hsegments
      · rw [hsegments]
      · rw [hsegments, List.head?_append_of_ne_nil _ hfront]
    rw [components, components, hlead, hjoin, List.filterMap_append, filterMap_component? h,
      ← List.append_assoc]
    rcases hsegments with hsegments | hsegments
    · rw [hsegments]
    · rw [hsegments, List.filterMap_append]
      simp [component?]

/-- The components of a joined path tell the names. -/
theorem eq_of_components_join {p : FilePath} {names others : List Text}
    (hnames : ∀ n ∈ names, IsName n) (hothers : ∀ n ∈ others, IsName n)
    (h : (p.join names).components = (p.join others).components) : names = others := by
  rw [components_join p hnames, components_join p hothers, List.append_cancel_left_eq] at h
  exact List.map_injective_iff.mpr (fun _ _ => PathComponent.name.inj) h

end FilePath

/-- The order of components: names stand behind the others and are compared byte by byte. -/
def PathComponent.Precedes : PathComponent → PathComponent → Prop
  | .root, .here => True
  | .root, .parent => True
  | .root, .name _ => True
  | .here, .parent => True
  | .here, .name _ => True
  | .parent, .name _ => True
  | .name a, .name b => Text.bytes a < Text.bytes b
  | _, _ => False

/-- The order of paths, component by component. -/
def FilePath.Precedes (p q : FilePath) : Prop :=
  List.Lex PathComponent.Precedes p.components q.components

/-! ### Following names -/

namespace FileTree

variable {tree : FileTree} {root : FilePath} {names below : List Text}

/-- What stands at a place stands in a directory, and so does this. -/
theorem IsTree.directory_of_entry (h : tree.IsTree) (hne : below ≠ [])
    (hentry : (tree.entry? (names ++ below)).isSome) :
    tree.isDirectory names = true := by
  induction below using List.reverseRecOn with
  | nil => exact absurd rfl hne
  | append_singleton below n ih =>
      have hparent := h.parent _ (mem_keys_iff.mpr hentry)
      rw [← List.append_assoc, List.dropLast_concat] at hparent
      by_cases hbelow : below = []
      · rwa [hbelow, List.append_nil] at hparent
      · exact ih hbelow (isSome_of_isDirectory hparent)

theorem IsTree.isName_of_entry (h : tree.IsTree)
    (hentry : (tree.entry? (names ++ below)).isSome) : ∀ n ∈ below, IsName n := by
  intro n hn
  exact h.named _ (mem_keys_iff.mpr hentry) n (List.mem_append_right names hn)

/-- In a tree the names of a place lead to it. -/
theorem IsTree.foldlM_follow (h : tree.IsTree)
    (hentry : (tree.entry? (names ++ below)).isSome) :
    below.foldlM tree.follow names = .ok (names ++ below) := by
  induction below generalizing names with
  | nil => rw [List.append_nil]; rfl
  | cons n below ih =>
      have hname := h.isName_of_entry hentry n List.mem_cons_self
      have hdirectory := h.directory_of_entry (List.cons_ne_nil n below) hentry
      rw [← List.singleton_append, ← List.append_assoc] at hentry
      have hnext : (tree.entry? (names ++ [n])).isSome := by
        cases below with
        | nil => simpa using hentry
        | cons m below =>
            exact isSome_of_isDirectory (h.directory_of_entry (List.cons_ne_nil m below) hentry)
      rw [List.foldlM_cons, follow_of_isName hname hdirectory, if_pos hnext]
      exact (ih hentry).trans (by simp)

theorem follow_nil {place next : Location} (h : tree.follow place [] = .ok next) : next = place :=
  follow_eq_ok h

theorem origin_congr {p q : FilePath} (h : p.text.head? = q.text.head?) :
    tree.origin p = tree.origin q := by
  rw [origin, origin, FilePath.isAbsolute, FilePath.isAbsolute, h]

/-- A joined path leads on from where the root leads. -/
theorem locate_join (hroot : tree.locate root = .ok names) (hne : below ≠ [])
    (hbelow : ∀ n ∈ below, IsName n) :
    tree.locate (root.join below) = below.foldlM tree.follow names := by
  unfold locate at hroot
  split at hroot
  · contradiction
  rename_i hempty
  have hp : root.text ≠ [] := by simpa using hempty
  have horigin : tree.origin (root.join below) = tree.origin root :=
    origin_congr (FilePath.head?_join hp below)
  have htext : ¬ (root.join below).text.isEmpty := by
    rw [List.isEmpty_iff, ← List.head?_eq_none_iff, FilePath.head?_join hp, List.head?_eq_none_iff]
    exact hp
  obtain ⟨front, -, hjoin, hsegments⟩ := FilePath.exists_segments_join hp hne hbelow
  have hplace : front.foldlM tree.follow (tree.origin root) = .ok names := by
    rcases hsegments with hsegments | hsegments
    · rwa [hsegments] at hroot
    · rw [hsegments, List.foldlM_append] at hroot
      cases hplace : front.foldlM tree.follow (tree.origin root) with
      | error e =>
          rw [hplace] at hroot
          contradiction
      | ok place =>
          rw [hplace] at hroot
          cases hlast : tree.follow place [] with
          | error e =>
              simp [hlast, bind, Except.bind] at hroot
          | ok next =>
              obtain rfl : next = names := by
                simpa [hlast, bind, Except.bind, pure, Except.pure] using hroot
              rw [follow_nil hlast]
  rw [locate, if_neg htext, horigin, hjoin, List.foldlM_append, hplace]
  rfl

theorem foldl_move_names (names below : List Text) :
    (below.map PathComponent.name).foldl Location.move names = names ++ below := by
  induction below generalizing names with
  | nil => simp
  | cons n below ih =>
      rw [List.map_cons, List.foldl_cons]
      exact (ih (names ++ [n])).trans (by simp)

/-- What a joined path leads to is what stands at its names. -/
theorem IsTree.stat_join (h : tree.IsTree) (hroot : tree.locate root = .ok names)
    (hbelow : ∀ n ∈ below, IsName n) {entry : FileEntry} :
    tree.stat (root.join below) = .ok entry ↔
      tree.entry? (names ++ below) = some entry := by
  rw [stat_eq_ok_iff]
  by_cases hne : below = []
  · subst hne
    simp [FilePath.join, hroot]
  rw [locate_join hroot hne hbelow]
  constructor
  · rintro ⟨place, hplace, hentry⟩
    rwa [foldlM_follow_eq_ok hplace, FilePath.filterMap_component? hbelow, foldl_move_names]
      at hentry
  · intro hentry
    exact ⟨_, h.foldlM_follow (Option.isSome_of_eq_some hentry), hentry⟩

/-! ### The walk -/

/-- The names below a root that a walk comes to which leaves out the skipped directories. -/
inductive Visits (tree : FileTree) (names : List Text) : List Text → Prop
  | root : Visits tree names []
  | child {below : List Text} {n : Text} {entry : FileEntry} (hbelow : Visits tree names below)
      (hdirectory : tree.isDirectory (names ++ below) = true)
      (hentry : tree.entry? (names ++ (below ++ [n])) = some entry)
      (hkept : entry.isDirectory = true → isSkipped n = false) : Visits tree names (below ++ [n])

theorem isSearched_iff : isSearched below = true ↔ ∀ n ∈ below.dropLast, isSkipped n = false := by
  simp [isSearched]

theorem isSkipped_eq_false_iff {n : Text} : isSkipped n = false ↔
    n.head? ≠ some '.' ∧ n ∉ skippedNames := by
  simp [isSkipped]

theorem visits_concat_iff {n : Text} : tree.Visits names (below ++ [n]) ↔
    tree.Visits names below ∧ tree.isDirectory (names ++ below) = true ∧
      ∃ entry, tree.entry? (names ++ (below ++ [n])) = some entry ∧
        (entry.isDirectory = true → isSkipped n = false) := by
  constructor
  · generalize hpath : below ++ [n] = path
    intro hvisits
    cases hvisits with
    | root => simp at hpath
    | child hbelow hdirectory hentry hkept =>
        obtain ⟨rfl, hname⟩ := List.append_inj' hpath rfl
        cases hname
        exact ⟨hbelow, hdirectory, _, hentry, hkept⟩
  · rintro ⟨hbelow, hdirectory, entry, hentry, hkept⟩
    exact .child hbelow hdirectory hentry hkept

theorem IsTree.visits_concat_iff_of_entry (h : tree.IsTree) {n : Text} {entry : FileEntry}
    (hentry : tree.entry? (names ++ (below ++ [n])) = some entry) :
    tree.Visits names (below ++ [n]) ↔
      tree.Visits names below ∧ (entry.isDirectory = true → isSkipped n = false) := by
  have hdirectory : tree.isDirectory (names ++ below) = true :=
    h.directory_of_entry (List.cons_ne_nil n []) (by rw [List.append_assoc, hentry]; rfl)
  simp [visits_concat_iff, hdirectory, hentry]

/-- A walk comes to a directory below the root if it and those on the way are kept. -/
theorem IsTree.visits_directory_iff (h : tree.IsTree)
    (hplace : tree.isDirectory (names ++ below) = true) :
    tree.Visits names below ↔ ∀ n ∈ below, isSkipped n = false := by
  induction below using List.reverseRecOn with
  | nil => exact ⟨fun _ n hn => absurd hn List.not_mem_nil, fun _ => .root⟩
  | append_singleton below n ih =>
      obtain ⟨entry, hentry⟩ := Option.isSome_iff_exists.mp (isSome_of_isDirectory hplace)
      have hdirectory : tree.isDirectory (names ++ below) = true :=
        h.directory_of_entry (List.cons_ne_nil n []) (by rw [List.append_assoc, hentry]; rfl)
      rw [isDirectory_of_entry hentry] at hplace
      rw [h.visits_concat_iff_of_entry hentry, ih hdirectory, List.forall_mem_append,
        List.forall_mem_singleton, hplace]
      simp

/-- A walk comes to a file below the root if the directories on the way are kept. -/
theorem IsTree.visits_file_iff (h : tree.IsTree) {content : ByteArray} {modified : Nat}
    (hentry : tree.entry? (names ++ below) = some (.file content modified)) :
    tree.Visits names below ↔ ∀ n ∈ below.dropLast, isSkipped n = false := by
  rcases below.eq_nil_or_concat' with rfl | ⟨front, n, rfl⟩
  · exact ⟨fun _ n hn => absurd hn List.not_mem_nil, fun _ => .root⟩
  have hdirectory : tree.isDirectory (names ++ front) = true :=
    h.directory_of_entry (List.cons_ne_nil n []) (by rw [List.append_assoc, hentry]; rfl)
  rw [List.dropLast_concat, h.visits_concat_iff_of_entry hentry, h.visits_directory_iff hdirectory]
  simp [FileEntry.isDirectory]

theorem IsTree.isName_of_visits (h : tree.IsTree) (hvisits : tree.Visits names below) :
    ∀ n ∈ below, IsName n := by
  cases hvisits with
  | root => simp
  | child _ _ hentry _ => exact h.isName_of_entry (Option.isSome_of_eq_some hentry)

/-! ### The files below a root -/

/-- The names found below a root lead to files on whose way no directory is skipped. -/
theorem mem_filesBelow : below ∈ tree.filesBelow names ↔
    (∃ content modified, tree.entry? (names ++ below) = some (.file content modified)) ∧
      ∀ n ∈ below.dropLast, isSkipped n = false := by
  rw [← isSearched_iff, filesBelow, List.mem_filterMap]
  constructor
  · rintro ⟨⟨place, entry⟩, hmem, hfound⟩
    cases entry with
    | directory => cases hfound
    | file content modified =>
        dsimp only at hfound
        split at hfound
        · rename_i hsearched
          rw [Bool.and_eq_true, List.isPrefixOf_iff_prefix] at hsearched
          obtain ⟨⟨rest, rfl⟩, hsearched⟩ := hsearched
          rw [List.drop_left] at hfound hsearched
          cases hfound
          exact ⟨⟨content, modified, OrderedMap.mem_entries_iff.mp hmem⟩, hsearched⟩
        · cases hfound
  · rintro ⟨⟨content, modified, hentry⟩, hsearched⟩
    refine ⟨(names ++ below, .file content modified), OrderedMap.mem_entries_iff.mpr hentry, ?_⟩
    simp [hsearched]

theorem filesBelow_sublist (tree : FileTree) (names : List Text) :
    ((tree.filesBelow names).map (names ++ ·)).Sublist tree.entries.keys := by
  rw [filesBelow, OrderedMap.keys]
  induction tree.entries.entries with
  | nil => exact .slnil
  | cons e entries ih =>
      rw [List.map_cons, List.filterMap_cons]
      split
      · exact ih.cons _
      · rename_i below hbelow
        split at hbelow
        · contradiction
        split at hbelow
        · rename_i hfound
          rw [Bool.and_eq_true, List.isPrefixOf_iff_prefix] at hfound
          rw [← Option.some.inj hbelow, List.map_cons, List.prefix_iff_eq_append.mp hfound.1]
          exact ih.cons_cons _
        · contradiction

theorem nodup_filesBelow (tree : FileTree) (names : List Text) : (tree.filesBelow names).Nodup :=
  (tree.entries.nodup_keys.sublist (tree.filesBelow_sublist names)).of_map _

/-! ### Order -/

/-- The order of names below a root is that of their characters. -/
theorem namesLe_iff {a b : List Text} : namesLe a b = true ↔ ¬ b < a := by
  induction a generalizing b with
  | nil => simp [namesLe]
  | cons n a ih =>
      cases b with
      | nil => simp [namesLe]
      | cons m b =>
          rw [namesLe, List.cons_lt_cons_iff]
          by_cases hsame : n = m
          · simp [hsame, ih]
          · rw [if_neg hsame, decide_eq_true_eq, not_or]
            constructor
            · intro hlt
              exact ⟨List.lt_asymm hlt, fun h => hsame h.1.symm⟩
            · intro h
              exact (List.le_iff_lt_or_eq.mp h.1).resolve_right hsame

theorem namesLe_trans (a b c : List Text) (hab : namesLe a b = true) (hbc : namesLe b c = true) :
    namesLe a c = true :=
  namesLe_iff.mpr (List.le_trans (namesLe_iff.mp hab) (namesLe_iff.mp hbc))

theorem namesLe_total (a b : List Text) : (namesLe a b || namesLe b a) = true := by
  rw [Bool.or_eq_true, namesLe_iff, namesLe_iff]
  exact List.le_total a b

/-- The names below a root that lead to the components, in order. -/
def componentNames (tree : FileTree) (root : FilePath) (names : List Text) : List (List Text) :=
  ((tree.filesBelow names).filter fun below => (root.join below).isComponent).mergeSort namesLe

theorem components_eq_map (hroot : tree.locate root = .ok names) :
    tree.components root = (tree.componentNames root names).map root.join := by
  unfold components
  rw [hroot, componentNames]
  dsimp only
  rw [List.filter_map, ← List.map_mergeSort (r := namesLe) (s := fun a b => namesLe a.1 b.1)
    (f := fun below => (below, root.join below)) fun _ _ _ _ => rfl, List.map_map]
  rfl

theorem mem_componentNames : below ∈ tree.componentNames root names ↔
    ((∃ content modified, tree.entry? (names ++ below) = some (.file content modified)) ∧
      ∀ n ∈ below.dropLast, isSkipped n = false) ∧
      (root.join below).extension? = some FilePath.componentExtension := by
  rw [componentNames, (List.mergeSort_perm _ _).mem_iff, List.mem_filter, mem_filesBelow,
    FilePath.isComponent, beq_iff_eq]

theorem nodup_componentNames (tree : FileTree) (root : FilePath) (names : List Text) :
    (tree.componentNames root names).Nodup :=
  (List.mergeSort_perm _ _).nodup_iff.mpr ((tree.nodup_filesBelow names).filter _)

theorem pairwise_componentNames (tree : FileTree) (root : FilePath) (names : List Text) :
    (tree.componentNames root names).Pairwise (· < ·) := by
  have hle : (tree.componentNames root names).Pairwise fun a b => namesLe a b = true :=
    List.pairwise_mergeSort namesLe_trans namesLe_total _
  refine (hle.and (tree.nodup_componentNames root names)).imp fun {a b} hab => ?_
  exact (List.le_iff_lt_or_eq.mp (namesLe_iff.mp hab.1)).resolve_right hab.2

theorem precedes_join {a b : List Text} (ha : ∀ n ∈ a, IsName n) (hb : ∀ n ∈ b, IsName n)
    (hlt : a < b) : (root.join a).Precedes (root.join b) := by
  rw [FilePath.Precedes, FilePath.components_join root ha, FilePath.components_join root hb]
  refine List.Lex.append_left _ ?_ _
  induction hlt with
  | nil => exact .nil
  | rel h => exact .rel (Text.bytes_lt_bytes h)
  | cons _ ih => exact .cons (ih (fun n hn => ha n (List.mem_cons_of_mem _ hn))
      fun n hn => hb n (List.mem_cons_of_mem _ hn))

theorem IsTree.isName_of_componentNames (h : tree.IsTree)
    (hbelow : below ∈ tree.componentNames root names) : ∀ n ∈ below, IsName n := by
  obtain ⟨⟨⟨content, modified, hentry⟩, -⟩, -⟩ := mem_componentNames.mp hbelow
  exact h.isName_of_entry (Option.isSome_of_eq_some hentry)

/-- The components below a root are the component files on whose way no directory is skipped. -/
theorem IsTree.mem_components (h : tree.IsTree) (hroot : tree.locate root = .ok names)
    {p : FilePath} : p ∈ tree.components root ↔
      ∃ below : List Text, (∀ n ∈ below, IsName n) ∧ p = root.join below ∧
        (∃ content modified, tree.stat p = .ok (.file content modified)) ∧
        p.extension? = some FilePath.componentExtension ∧
        ∀ n ∈ below.dropLast, isSkipped n = false := by
  rw [components_eq_map hroot, List.mem_map]
  constructor
  · rintro ⟨below, hmem, rfl⟩
    have hnames := h.isName_of_componentNames hmem
    obtain ⟨⟨⟨content, modified, hentry⟩, hkept⟩, hextension⟩ := mem_componentNames.mp hmem
    exact ⟨below, hnames, rfl, ⟨content, modified, (h.stat_join hroot hnames).mpr hentry⟩,
      hextension, hkept⟩
  · rintro ⟨below, hnames, rfl, ⟨content, modified, hstat⟩, hextension, hkept⟩
    have hentry := (h.stat_join hroot hnames).mp hstat
    exact ⟨below, mem_componentNames.mpr ⟨⟨⟨content, modified, hentry⟩, hkept⟩, hextension⟩, rfl⟩

/-- The components found below a root of a tree stand strictly in the order of their components,
compared byte by byte. They are the component files on whose way no directory below the root is
skipped, which are those that a walk comes to. -/
theorem components_exact (h : tree.IsTree) (hroot : tree.locate root = .ok names) :
    (tree.components root).Pairwise FilePath.Precedes ∧
      ((tree.components root).map FilePath.components).Nodup ∧
      (∀ p, p ∈ tree.components root ↔
        ∃ below : List Text, (∀ n ∈ below, IsName n) ∧ p = root.join below ∧
          (∃ content modified, tree.stat p = .ok (.file content modified)) ∧
          p.extension? = some "svelte".toList ∧
          ∀ directory ∈ below.dropLast, directory.head? ≠ some '.' ∧
            directory ∉ ["node_modules".toList, "target".toList, "build".toList, "dist".toList]) ∧
      ∀ p, p ∈ tree.components root ↔
        ∃ below, tree.Visits names below ∧ p = root.join below ∧
          (∃ content modified, tree.stat p = .ok (.file content modified)) ∧
          p.extension? = some "svelte".toList := by
  refine ⟨?_, ?_, fun p => ?_, fun p => ?_⟩
  · rw [components_eq_map hroot]
    refine List.pairwise_map.mpr ((tree.pairwise_componentNames root names).imp_of_mem ?_)
    intro a b ha hb hlt
    exact precedes_join (h.isName_of_componentNames ha) (h.isName_of_componentNames hb) hlt
  · rw [components_eq_map hroot, List.map_map]
    refine (tree.nodup_componentNames root names).map_on fun a ha b hb hsame => ?_
    exact FilePath.eq_of_components_join (h.isName_of_componentNames ha)
      (h.isName_of_componentNames hb) hsame
  · simp only [h.mem_components hroot, isSkipped_eq_false_iff]
    rfl
  · rw [h.mem_components hroot]
    constructor
    · rintro ⟨below, hnames, rfl, ⟨content, modified, hstat⟩, hextension, hkept⟩
      have hentry := (h.stat_join hroot hnames).mp hstat
      have hvisits := (h.visits_file_iff hentry).mpr hkept
      exact ⟨below, hvisits, rfl, ⟨content, modified, hstat⟩, hextension⟩
    · rintro ⟨below, hvisits, rfl, ⟨content, modified, hstat⟩, hextension⟩
      have hnames := h.isName_of_visits hvisits
      have hentry := (h.stat_join hroot hnames).mp hstat
      exact ⟨below, hnames, rfl, ⟨content, modified, hstat⟩, hextension,
        (h.visits_file_iff hentry).mp hvisits⟩

/-- Components beside and below directories that are skipped or bear the name of a component, as a
run has written them. -/
def nested : FileTree :=
  ((Workspace.start .initial {}).run (["src/a.svelte".toList, "src/a/b.svelte".toList,
    "src/.git/c.svelte".toList, "src/x.svelte/build/d.svelte".toList,
    "/work/src/x.svelte/e.svelte".toList, "src/dist".toList].map
      fun text => .write ⟨text⟩ .empty 0)).2.tree

theorem isTree_nested : nested.IsTree :=
  (Workspace.isTree_run (isTree_ofBase (by decide) _) _).2

theorem components_exact_nested :
    nested.IsTree ∧ nested.locate ⟨"./src/".toList⟩ = .ok ["work".toList, "src".toList] ∧
      (nested.components ⟨"./src/".toList⟩).Pairwise FilePath.Precedes ∧
      ⟨"./src/x.svelte/e.svelte".toList⟩ ∈ nested.components ⟨"./src/".toList⟩ ∧
      ⟨"./src/.git/c.svelte".toList⟩ ∉ nested.components ⟨"./src/".toList⟩ := by
  have hroot : nested.locate ⟨"./src/".toList⟩ = .ok ["work".toList, "src".toList] := by
    decide +kernel
  obtain ⟨hsorted, -, hfound, -⟩ := components_exact isTree_nested hroot
  refine ⟨isTree_nested, hroot, hsorted, ?_, ?_⟩
  · refine (hfound _).mpr ⟨["x.svelte".toList, "e.svelte".toList], ?_, ?_, ⟨.empty, 0, ?_⟩, ?_, ?_⟩
    all_goals decide +kernel
  · intro hmem
    obtain ⟨below, hnames, hjoin, -, -, hkept⟩ := (hfound _).mp hmem
    rw [show (⟨"./src/.git/c.svelte".toList⟩ : FilePath) =
      FilePath.join ⟨"./src/".toList⟩ [".git".toList, "c.svelte".toList] by decide +kernel] at hjoin
    obtain rfl : [".git".toList, "c.svelte".toList] = below :=
      FilePath.eq_of_components_join (by decide +kernel) hnames (congrArg FilePath.components hjoin)
    exact (hkept ".git".toList (by decide +kernel)).1 (by decide +kernel)

end FileTree

end ComponentProps
