import ComponentProps.Files.Tree
import ComponentProps.Interchange

/-!
# Component files and settings files

Reading components and settings from a tree of files, and what may go wrong.
-/

namespace ComponentProps

/-- What may go wrong with a project. -/
inductive ProjectError
  | unreadable (path : FilePath) (failure : ReadFailure)
  | unsupportedExtension (path : FilePath)
  | settings (error : Json.Error)
  deriving DecidableEq, Repr

namespace ProjectError

def message : ProjectError → Text
  | unreadable path failure =>
    "IO error for ".toList ++ path.text ++ ": ".toList ++ failure.message
  | unsupportedExtension path => "Unsupported file extension: ".toList ++ path.text
  | settings error => "Invalid settings: ".toList ++ error.message

end ProjectError

namespace FileTree

/-- Read a file, with the path in the error. -/
def readFile (tree : FileTree) (p : FilePath) : Except ProjectError Text :=
  (tree.read p).mapError (.unreadable p)

/-- Read a component file. -/
def readComponent (tree : FileTree) (p : FilePath) : Except ProjectError Text :=
  if p.isComponent then tree.readFile p else .error (.unsupportedExtension p)

/-- Read a settings file. -/
def readSettings (tree : FileTree) (p : FilePath) : Except ProjectError Settings :=
  match tree.readFile p with
  | .error e => .error e
  | .ok text => (Settings.ofJson? text).mapError .settings

end FileTree

end ComponentProps
