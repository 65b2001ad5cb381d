import ComponentProps.Text.Basic

/-!
# Paths of files

A path is kept as written. Its components identify it: repeated and trailing slashes and inner `.`
components make no difference, a leading slash and a leading `.` do, and `..` is a component like
any other.
-/

namespace ComponentProps

/-- A path as written, from the root or from a working directory. -/
structure FilePath where
  text : Text
  deriving DecidableEq, Repr

/-- A component of a path. -/
inductive PathComponent
  /-- A leading slash. -/
  | root
  /-- A leading `.`. -/
  | here
  /-- A `..`. -/
  | parent
  | name (text : Text)
  deriving DecidableEq, Repr

namespace FilePath

/-- The path leads from the root. -/
def isAbsolute (p : FilePath) : Bool := p.text.head? == some '/'

/-- The texts between the slashes of a path. -/
def segmentsOf : Text → List Text
  | [] => [[]]
  | c :: rest =>
    if c = '/' then [] :: segmentsOf rest
    else
      match segmentsOf rest with
      | [] => [[c]]
      | s :: ss => (c :: s) :: ss

def segments (p : FilePath) : List Text := segmentsOf p.text

/-- What a path begins with, unless that is a segment like any other. -/
def lead? (p : FilePath) : Option PathComponent :=
  if p.isAbsolute then some .root
  else if p.segments.head? = some ['.'] then some .here
  else none

/-- The component that a segment stands for, wherever it stands, if any. -/
def component? (segment : Text) : Option PathComponent :=
  if segment = [] || segment = ['.'] then none
  else if segment = ['.', '.'] then some .parent
  else some (.name segment)

/-- The components of a path. Two paths with the same components are the same place. -/
def components (p : FilePath) : List PathComponent :=
  p.lead?.toList ++ p.segments.filterMap component?

/-- The last component, if it is a name. -/
def fileName? (p : FilePath) : Option Text :=
  match p.components.getLast? with
  | some (.name n) => some n
  | _ => none

/-- What follows the last dot of a file name, unless that is its first character. -/
def extensionOf? (name : Text) : Option Text :=
  let tail := (name.reverse.takeWhile (· != '.')).reverse
  -- the name is `stem`, a dot and `tail`
  if tail.length + 1 < name.length then some tail else none

def extension? (p : FilePath) : Option Text := p.fileName?.bind extensionOf?

/-- The extension of component files. -/
def componentExtension : Text := "svelte".toList

def isComponent (p : FilePath) : Bool := p.extension? == some componentExtension

/-- The path of something inside a directory. -/
def join (p : FilePath) (names : List Text) : FilePath :=
  if names.isEmpty then p
  else
    let inner := ['/'].intercalate names
    ⟨if p.text.getLast?.all (· = '/') then p.text ++ inner else p.text ++ '/' :: inner⟩

end FilePath

end ComponentProps
