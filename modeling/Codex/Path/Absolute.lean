import Codex.Text.Basic

namespace Codex

open Text

/-!
# Absolute paths

`AbsolutePathBuf` is an absolute path without `.`, `..` or empty components; it need not
exist.  Since its components are names that carry the proof of being plain names, a path
that is not normalized cannot be built.

* `pathComponents` — `Path::components` on Unix;
* `normalizePath` — run the components through a stack, `..` taking off the last name;
* `resolvePathAgainstBase` — expand a leading `~`, put a relative path behind the base
  path, and normalize;
* `fromAbsolutePath` — the same with the working directory of the process as the base,
  which the operating system may fail to give.

The home directory and the working directory of the process are arguments.
-/

/-! ### Components -/

/-- A name that can stand as a component of a normalized path. -/
def IsNormalName (name : Text) : Prop := name ≠ [] ∧ '/' ∉ name ∧ name ≠ ['.'] ∧ name ≠ ['.', '.']

instance (name : Text) : Decidable (IsNormalName name) := by unfold IsNormalName; infer_instance

/-- The names of normalized paths. -/
abbrev NormalName := { name : Text // IsNormalName name }

/-- A component of a Unix path. -/
inductive PathComponent
  | rootDir
  | curDir
  | parentDir
  | normal (name : NormalName)
deriving DecidableEq

/-- The component that one piece between slashes stands for.  Empty pieces and `.` stand
    for none. -/
def pathComponent (piece : Text) : Option PathComponent :=
  if h : IsNormalName piece then some (.normal ⟨piece, h⟩)
  else if piece = ['.', '.'] then some .parentDir
  else none

/-- `Path::is_absolute` on Unix. -/
def isAbsolute (path : Text) : Bool := path.head? = some '/'

/-- The components of a path.  A `.` is kept in front of a relative path only. -/
def pathComponents (path : Text) : List PathComponent :=
  let pieces := path.splitOn '/'
  let body := pieces.filterMap pathComponent
  if isAbsolute path then .rootDir :: body
  else if pieces.head? = some ['.'] then .curDir :: body
  else body

/-! ### Normalized absolute paths -/

/-- A path that is absolute and normalized. -/
structure AbsolutePathBuf where
  names : List NormalName
deriving DecidableEq

namespace AbsolutePathBuf

variable (path : AbsolutePathBuf)

/-- The components of an absolute path. -/
def components : List PathComponent := .rootDir :: path.names.map .normal

/-- The path as text (`Path::display`). -/
def display : Text := '/' :: ['/'].intercalate (path.names.map Subtype.val)

/-- The directory that holds the path; the root has none. -/
def parent : Option AbsolutePathBuf :=
  if path.names = [] then none else some ⟨path.names.dropLast⟩

/-- The last name of the path (`Path::file_name`). -/
def fileName : Option Text := path.names.getLast?.map Subtype.val

end AbsolutePathBuf

/-- Push one component on the names collected so far (`PathBuf::push` / `PathBuf::pop`). -/
def pushComponent (names : List NormalName) : PathComponent → List NormalName
  | .rootDir => []
  | .curDir => names
  | .parentDir => names.dropLast
  | .normal name => names ++ [name]

/-- Normalize the components of an absolute path. -/
def normalizePath (components : List PathComponent) : AbsolutePathBuf :=
  ⟨components.foldl pushComponent []⟩

/-- A normalized path is left as it is. -/
@[simp] theorem normalizePath_components (path : AbsolutePathBuf) :
    normalizePath path.components = path := by
  have hpush : ∀ names acc : List NormalName,
      (names.map PathComponent.normal).foldl pushComponent acc = acc ++ names := by
    intro names
    induction names with
    | nil => simp
    | cons name names ih => intro acc; simp [pushComponent, ih]
  simp [normalizePath, AbsolutePathBuf.components, pushComponent, hpush]

/-! ### Resolution -/

/-- `Path::join` on texts: an absolute second path replaces the first. -/
def joinPath (base rel : Text) : Text :=
  if isAbsolute rel then rel
  else if base = [] ∨ base.getLast? = some '/' then base ++ rel
  else base ++ '/' :: rel

variable (home : Option Text)

/-- Expand `~` and `~/…` to the home directory, if there is one. -/
def maybeExpandHomeDirectory (path : Text) : Text :=
  match home, stripPrefix ['~'] path with
  | some home, some [] => home
  | some home, some ('/' :: rest) => joinPath home (rest.dropWhile (· = '/'))
  | _, _ => path

/-- The components of `path` seen from `base`. -/
def pathWithBase (path : Text) (base : AbsolutePathBuf) : List PathComponent :=
  if isAbsolute path then pathComponents path else base.components ++ pathComponents path

/-- `AbsolutePathBuf::resolve_path_against_base`. -/
def resolvePathAgainstBase (path : Text) (base : AbsolutePathBuf) :
    AbsolutePathBuf := normalizePath (pathWithBase (maybeExpandHomeDirectory home path) base)

/-- `AbsolutePathBuf::from_absolute_path`: a relative path is read from the working
    directory of the process, if the system gives it. -/
def fromAbsolutePath (currentDir : Option AbsolutePathBuf) (path : Text) :
    Option AbsolutePathBuf :=
  let expanded := maybeExpandHomeDirectory home path
  if isAbsolute expanded then some (normalizePath (pathComponents expanded))
  else currentDir.map fun dir => normalizePath (pathWithBase expanded dir)

end Codex
