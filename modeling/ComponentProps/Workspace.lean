import ComponentProps.Cache

/-!
# Workspaces

A tree of files with a cache over it, and what can be done with the two.
-/

namespace ComponentProps

/-- A tree of files and the props kept of them. -/
structure Workspace where
  tree : FileTree := .initial
  cache : PropCache := {}

/-- Something done with a workspace. -/
inductive Action
  /-- The system's clock is read. -/
  | tick (now : Nat)
  | write (path : FilePath) (content : ByteArray) (modified : Nat)
  | makeDirectory (path : FilePath)
  | remove (path : FilePath)
  | readComponent (path : FilePath)
  | components (root : FilePath)
  | readSettings (path : FilePath)
  /-- Start a new cache. -/
  | restart (settings : Settings)
  /-- Start a new cache with the settings of a file. -/
  | configure (path : FilePath)
  | settings
  | get (path : FilePath)
  | cached (path : FilePath)
  | invalidate (path : FilePath)
  | clear
  | warm (paths : List FilePath)
  | warmBelow (root : FilePath)

/-- What an action answers. -/
inductive Reply
  | done
  | failure (error : ProjectError)
  | text (t : Text)
  | paths (ps : List FilePath)
  | settings (s : Settings)
  | answer (a : PropCache.Answer)
  | sheet (s : Option PropSheet)
  | flag (b : Bool)
  | failures (errors : List ProjectError)
  deriving DecidableEq, Repr

namespace Reply

/-- The reply of something that may go wrong. -/
def ofExcept {α : Type} (f : α → Reply) : Except ProjectError α → Reply
  | .ok a => f a
  | .error e => failure e

end Reply

namespace Workspace

/-- Do something with a workspace. -/
def perform (w : Workspace) : Action → Reply × Workspace
  | .tick now => (.done, { w with tree := w.tree.tick now })
  | .write path content modified => (.done, { w with tree := w.tree.write path content modified })
  | .makeDirectory path => (.done, { w with tree := w.tree.makeDirectory path })
  | .remove path => (.done, { w with tree := w.tree.remove path })
  | .readComponent path => (.ofExcept .text (w.tree.readComponent path), w)
  | .components root => (.paths (w.tree.components root), w)
  | .readSettings path => (.ofExcept .settings (w.tree.readSettings path), w)
  | .restart settings => (.done, { w with cache := .ofSettings settings })
  | .configure path =>
    match w.tree.readSettings path with
    | .ok settings => (.done, { w with cache := .ofSettings settings })
    | .error e => (.failure e, w)
  | .settings => (.settings w.cache.settings, w)
  | .get path =>
    let (answer, cache) := w.cache.get w.tree path
    (.ofExcept .answer answer, { w with cache := cache })
  | .cached path => (.sheet (w.cache.cached? path), w)
  | .invalidate path =>
    let (known, cache) := w.cache.invalidate path
    (.flag known, { w with cache := cache })
  | .clear => (.done, { w with cache := w.cache.clear })
  | .warm paths =>
    let (errors, cache) := w.cache.warm w.tree paths
    (.failures errors, { w with cache := cache })
  | .warmBelow root =>
    let (errors, cache) := w.cache.warmBelow w.tree root
    (.failures errors, { w with cache := cache })

/-- Do many things in order. -/
def run (w : Workspace) : List Action → List Reply × Workspace
  | [] => ([], w)
  | a :: more =>
    let (reply, w) := w.perform a
    let (replies, w) := w.run more
    (reply :: replies, w)

end Workspace

end ComponentProps
