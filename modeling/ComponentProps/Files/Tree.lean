import ComponentProps.OrderedMap
import ComponentProps.Files.Path

/-!
# Trees of files

Files and directories, each under the list of names that leads to it from the root. A path is
followed segment by segment, from the root or from the working directory, and what a segment is
taken from has to be a directory. Changes follow their paths in the same way. A file bears the time
that it is written with, and a directory the time of the last change in it.
-/

namespace ComponentProps

/-- What stands at a place of the tree, with its time of modification. -/
inductive FileEntry
  | directory (modified : Nat)
  | file (content : ByteArray) (modified : Nat)

namespace FileEntry

theorem file_inj_iff {content content' : ByteArray} {modified modified' : Nat} :
    content.data = content'.data ∧ modified = modified' ↔
      file content modified = file content' modified' := by
  rw [file.injEq, ByteArray.ext_iff]

/-- Entries are compared byte by byte. -/
instance : DecidableEq FileEntry
  | directory _, directory _ => decidable_of_iff _ (directory.injEq ..).symm.to_iff
  | file .., file .. => decidable_of_iff _ file_inj_iff
  | directory _, file .. => isFalse FileEntry.noConfusion
  | file .., directory _ => isFalse FileEntry.noConfusion

def modified : FileEntry → Nat
  | directory modified => modified
  | file _ modified => modified

def isDirectory : FileEntry → Bool
  | directory _ => true
  | file .. => false

end FileEntry

/-- Why something could not be read. -/
inductive ReadFailure
  | notFound
  | notADirectory
  | isADirectory
  | notUtf8
  deriving DecidableEq, Repr

namespace ReadFailure

def message : ReadFailure → Text
  | notFound => "No such file or directory (os error 2)".toList
  | notADirectory => "Not a directory (os error 20)".toList
  | isADirectory => "Is a directory (os error 21)".toList
  | notUtf8 => "stream did not contain valid UTF-8".toList

end ReadFailure

/-- A place in a tree of files: the names that lead to it from the root. -/
abbrev Location := List Text

/-- Files and directories with the root among them, seen from a working directory. -/
structure FileTree where
  entries : OrderedMap Location FileEntry
  /-- The working directory. -/
  base : Location
  /-- The time that directories take, in nanoseconds after the beginning of 1970. -/
  clock : Nat

namespace FileTree

/-- A working directory and the directories that it lies in. -/
def ofBase (base : Location) (clock : Nat) : FileTree where
  entries := .ofList ((List.range (base.length + 1)).map fun n => (base.take n, .directory clock))
  base := base
  clock := clock

/-- An empty working directory. The clock shows a time that no file is given by hand. -/
def initial : FileTree := ofBase ["work".toList] 1763347219583046127

/-- What stands at a place. -/
def entry? (tree : FileTree) (place : Location) : Option FileEntry := tree.entries.get? place

def isDirectory (tree : FileTree) (place : Location) : Bool :=
  (tree.entry? place).any FileEntry.isDirectory

/-! ### Paths -/

/-- Follow one segment of a path. An empty segment stands for the directory itself, and nothing lies
above the root. -/
def follow (tree : FileTree) (place : Location) (segment : Text) : Except ReadFailure Location :=
  if tree.isDirectory place then
    if segment = [] || segment = ['.'] then .ok place
    else if segment = ['.', '.'] then .ok place.dropLast
    else if (tree.entry? (place ++ [segment])).isSome then .ok (place ++ [segment])
    else .error .notFound
  else .error .notADirectory

/-- Where a path begins. -/
def origin (tree : FileTree) (p : FilePath) : Location := if p.isAbsolute then [] else tree.base

/-- The place that a path leads to. -/
def locate (tree : FileTree) (p : FilePath) : Except ReadFailure Location :=
  if p.text.isEmpty then .error .notFound
  else p.segments.foldlM tree.follow (tree.origin p)

/-- What a path leads to. -/
def stat (tree : FileTree) (p : FilePath) : Except ReadFailure FileEntry :=
  match tree.locate p with
  | .error e => .error e
  | .ok place =>
    match tree.entry? place with
    | some entry => .ok entry
    | none => .error .notFound

/-- The text of the file that a path leads to. -/
def read (tree : FileTree) (p : FilePath) : Except ReadFailure Text :=
  match tree.stat p with
  | .error e => .error e
  | .ok (.directory _) => .error .isADirectory
  | .ok (.file content _) =>
    match String.fromUTF8? content with
    | some s => .ok s.toList
    | none => .error .notUtf8

/-! ### Changes -/

/-- The system's clock is read. It may have been set back. -/
def tick (tree : FileTree) (now : Nat) : FileTree := { tree with clock := now }

def set (tree : FileTree) (place : Location) (entry : FileEntry) : FileTree :=
  { tree with entries := tree.entries.insert place entry }

/-- Something has been made or removed in a directory. -/
def touch (tree : FileTree) (place : Location) : FileTree :=
  if tree.isDirectory place then tree.set place (.directory tree.clock) else tree

/-- Put an entry where nothing stands. -/
def add (tree : FileTree) (place : Location) (entry : FileEntry) : FileTree :=
  (tree.touch place.dropLast).set place entry

/-- Follow segments and make the directories that are missing, as far as the way does not lead
through a file. -/
def makeDirectories (tree : FileTree) (place : Location) :
    List Text → FileTree × Except ReadFailure Location
  | [] => (tree, .ok place)
  | segment :: rest =>
    match tree.follow place segment with
    | .ok next => tree.makeDirectories next rest
    | .error .notFound =>
      (tree.add (place ++ [segment]) (.directory tree.clock)).makeDirectories
        (place ++ [segment]) rest
    | .error failure => (tree, .error failure)

/-- Make a directory and those on the way to it. -/
def makeDirectory (tree : FileTree) (p : FilePath) : FileTree :=
  (tree.makeDirectories (tree.origin p) p.segments).1

/-- Write a file in a directory, unless the name is that of a directory. -/
def writeIn (tree : FileTree) (place : Location) (name : Text) (file : FileEntry) : FileTree :=
  match tree.follow place name with
  | .ok next => if tree.isDirectory next then tree else tree.set next file
  | .error .notFound => tree.add (place ++ [name]) file
  | .error _ => tree

/-- Write a file, with the directories on the way to it. -/
def write (tree : FileTree) (p : FilePath) (content : ByteArray) (modified : Nat) : FileTree :=
  match tree.makeDirectories (tree.origin p) p.segments.dropLast with
  | (tree, .ok place) => tree.writeIn place (p.segments.getLastD []) (.file content modified)
  | (tree, .error _) => tree

/-- Leave out a place and everything below it. -/
def prune (tree : FileTree) (place : Location) : FileTree :=
  { tree with entries := tree.entries.filterKeys fun names => !place.isPrefixOf names }

/-- Remove a file, or a directory with everything in it. The working directory and what it lies in
stay. -/
def remove (tree : FileTree) (p : FilePath) : FileTree :=
  match tree.locate p with
  | .ok place =>
    if place.isPrefixOf tree.base then tree else (tree.touch place.dropLast).prune place
  | .error _ => tree

/-! ### Discovery -/

/-- The names of directories that are never searched. -/
def skippedNames : List Text :=
  ["node_modules".toList, "target".toList, "build".toList, "dist".toList]

def isSkipped (name : Text) : Bool := name.head? == some '.' || skippedNames.contains name

/-- Whether a file at these names below the root of a search is found. -/
def isSearched (names : List Text) : Bool := names.dropLast.all fun n => !isSkipped n

/-- The names below `root` that lead to files which are searched. -/
def filesBelow (tree : FileTree) (root : Location) : List (List Text) :=
  tree.entries.entries.filterMap fun e =>
    match e.2 with
    | .directory _ => none
    | .file .. =>
      if root.isPrefixOf e.1 && isSearched (e.1.drop root.length) then
        some (e.1.drop root.length)
      else none

/-- The order of paths below a root: by components, each by its characters. -/
def namesLe : List Text → List Text → Bool
  | [], _ => true
  | _ :: _, [] => false
  | a :: as, b :: bs => if a = b then namesLe as bs else decide (a < b)

/-- The component files below a root, in order. A root that is a component file is found itself. -/
def components (tree : FileTree) (root : FilePath) : List FilePath :=
  match tree.locate root with
  | .ok names =>
    (((tree.filesBelow names).map fun below => (below, root.join below)).filter
      fun e => e.2.isComponent).mergeSort (fun a b => namesLe a.1 b.1) |>.map Prod.snd
  | .error _ => []

end FileTree

end ComponentProps
