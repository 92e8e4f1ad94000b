import Codex.Path.Absolute

namespace Codex.ApplyPatch

/-!
# Patches

The data of a parsed patch: a list of hunks, each of which adds, deletes or updates one
file, the last with chunks that say which lines to replace.  A path in a hunk is the text
that stands in the patch; `Hunk.resolvePath` reads it from a working directory.
-/

/-- One region of an update: the lines to find and the lines to put in their place. -/
structure UpdateFileChunk where
  /-- A single line used to narrow down the position of the chunk. -/
  changeContext : Option Text
  /-- A contiguous block of lines to be replaced with `newLines`. -/
  oldLines : List Text
  newLines : List Text
  /-- If set, `oldLines` must occur at the end of the source file. -/
  isEndOfFile : Bool
deriving DecidableEq

/-- One file operation of a patch. -/
inductive Hunk
  | addFile (path contents : Text)
  | deleteFile (path : Text)
  | updateFile (path : Text) (movePath : Option Text) (chunks : List UpdateFileChunk)
deriving DecidableEq

namespace Hunk

/-- The path shown for the hunk: the move destination of an update that has one. -/
def path : Hunk → Text
  | addFile path _ => path
  | deleteFile path => path
  | updateFile _ (some path) _ => path
  | updateFile path none _ => path

/-- The file the hunk is about, read from `cwd`.  For an update this is the file that is
    updated, not the destination of its move. -/
def resolvePath (home : Option Text) (cwd : AbsolutePathBuf) : Hunk → AbsolutePathBuf
  | updateFile path _ _ => resolvePathAgainstBase home path cwd
  | hunk => resolvePathAgainstBase home hunk.path cwd

/-- The destination of the hunk's move, if it has one, read from `cwd`. -/
def resolveMovePath (home : Option Text) (cwd : AbsolutePathBuf) : Hunk → Option AbsolutePathBuf
  | updateFile _ movePath _ => movePath.map fun dest => resolvePathAgainstBase home dest cwd
  | _ => none

end Hunk

/-- Both the raw patch and the hunks it was parsed into. -/
structure ApplyPatchArgs where
  patch : Text
  hunks : List Hunk
  workdir : Option Text
  environmentId : Option Text

/-! ### Errors -/

/-- The kinds of I/O error that the sources tell apart. -/
inductive ErrorKind
  | notFound
  | invalidInput
  | invalidData
  | other
deriving DecidableEq

/-- An I/O error of the file system. -/
structure IoError where
  kind : ErrorKind
  message : Text
deriving DecidableEq

/-- What stops the application of a patch. -/
inductive ApplyPatchError
  /-- An I/O error with what was attempted. -/
  | ioError (context : Text) (source : IoError)
  /-- The chunks of an update do not fit the file. -/
  | computeReplacements (message : Text)
  /-- There was nothing to apply. -/
  | noFilesModified
deriving DecidableEq

end Codex.ApplyPatch
