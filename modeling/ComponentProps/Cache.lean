import ComponentProps.Extraction
import ComponentProps.Project

/-!
# Cached props

The props of component files by path, with the time of the file that they were read from. A file is
read again when its time has changed.
-/

namespace ComponentProps

/-- Props with the time of their file. -/
structure CacheEntry where
  modified : Nat
  sheet : PropSheet
  deriving DecidableEq, Repr

/-- The props of component files, as found with one choice of settings. -/
structure PropCache where
  settings : Settings := {}
  entries : OrderedMap (List PathComponent) CacheEntry := .empty
  deriving DecidableEq, Repr

namespace PropCache

def ofSettings (settings : Settings) : PropCache := { settings := settings }

def size (cache : PropCache) : Nat := cache.entries.size

/-- The props kept for a path, whatever has become of the file. -/
def cached? (cache : PropCache) (p : FilePath) : Option PropSheet :=
  (cache.entries.get? p.components).map CacheEntry.sheet

/-- The props kept for a path, if they were read from a file of this time. -/
def fresh? (cache : PropCache) (p : FilePath) (modified : Nat) : Option PropSheet :=
  (cache.entries.get? p.components).bind fun e =>
    if e.modified = modified then some e.sheet else none

/-- Props that were asked for, and whether they had been kept. -/
structure Answer where
  sheet : PropSheet
  kept : Bool
  deriving DecidableEq, Repr

/-- Read a component file and keep its props. -/
def extract (cache : PropCache) (tree : FileTree) (p : FilePath) (modified : Nat) :
    Except ProjectError Answer × PropCache :=
  match tree.readComponent p with
  | .error e => (.error e, cache)
  | .ok source =>
    let sheet := PropSheet.ofComponent cache.settings source
    (.ok ⟨sheet, false⟩,
      { cache with entries := cache.entries.insert p.components ⟨modified, sheet⟩ })

/-- The props of a component file, read anew unless they are kept and the time of what stands there
has not changed. -/
def get (cache : PropCache) (tree : FileTree) (p : FilePath) :
    Except ProjectError Answer × PropCache :=
  if p.isComponent then
    match tree.stat p with
    | .error failure => (.error (.unreadable p failure), cache)
    | .ok found =>
      match cache.fresh? p found.modified with
      | some sheet => (.ok ⟨sheet, true⟩, cache)
      | none => cache.extract tree p found.modified
  else (.error (.unsupportedExtension p), cache)

/-- Forget a path, and say whether it was known. -/
def invalidate (cache : PropCache) (p : FilePath) : Bool × PropCache :=
  (cache.entries.contains p.components,
    { cache with entries := cache.entries.erase p.components })

def clear (cache : PropCache) : PropCache := { cache with entries := .empty }

/-- Look at many files, and give the errors in their order. -/
def warm (cache : PropCache) (tree : FileTree) : List FilePath → List ProjectError × PropCache
  | [] => ([], cache)
  | p :: ps =>
    let (answer, cache) := cache.get tree p
    let (errors, cache) := cache.warm tree ps
    match answer with
    | .error e => (e :: errors, cache)
    | .ok _ => (errors, cache)

/-- Look at every component file below a root. -/
def warmBelow (cache : PropCache) (tree : FileTree) (root : FilePath) :
    List ProjectError × PropCache :=
  cache.warm tree (tree.components root)

end PropCache

end ComponentProps
