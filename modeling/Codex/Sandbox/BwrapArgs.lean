import Codex.Sandbox.WritableRoots
import Codex.Data.StableSort

namespace Codex.Sandbox

open Text Data

/-!
# Arguments for bubblewrap

On Linux the view of the file system that a command gets is built by bubblewrap, from a list of
mounts that are made in order.

* `BwrapOp` — the mounts and what goes with them;
* `createFilesystemArgs` — the mounts for a policy: a base that may be read, masks over denied
  folders with writable roots in them, then the writable roots from the outside in, each with its
  read-only paths and the denied paths below it, and at last the remaining masks.
-/

/-! ### The file system of the host -/

inductive CodexErr
  | fatal (message : Text)
  | io (message : Text)

structure FileIdentity where
  dev : Nat
  ino : Nat

/-- What the set-up of the sandbox asks besides what policies ask. -/
structure LinuxHost extends Host where
  isSymlink : AbsolutePathBuf → Bool
  /-- `symlink_metadata` fails because there is nothing at the path. -/
  isNotFound : AbsolutePathBuf → Bool
  canonicalize : AbsolutePathBuf → Option AbsolutePathBuf
  /-- The length of a file. -/
  len : AbsolutePathBuf → Nat
  directoryIsEmpty : AbsolutePathBuf → Bool
  identity : AbsolutePathBuf → FileIdentity
  /-- The files below a folder that `rg` lists for some globs. -/
  ripgrepFiles : AbsolutePathBuf → List Text → Option Nat → Except CodexErr (List AbsolutePathBuf)
  /-- The error of opening `/dev/null`, if it fails. -/
  devNullError : Option CodexErr

/-! ### Arguments -/

/-- What bubblewrap is told to do.  `roBindData` mounts an empty file. -/
inductive BwrapOp
  | bind (source target : AbsolutePathBuf)
  | roBind (source target : AbsolutePathBuf)
  | roBindData (target : AbsolutePathBuf)
  | tmpfs (target : AbsolutePathBuf)
  | dev (target : AbsolutePathBuf)
  | dir (target : AbsolutePathBuf)
  | remountRo (target : AbsolutePathBuf)
  | perms (mode : Text)

inductive SyntheticMountTargetKind
  | emptyFile
  | emptyDirectory
deriving DecidableEq

/-- A path that bubblewrap creates on the host because something is mounted there. -/
structure SyntheticMountTarget where
  path : AbsolutePathBuf
  kind : SyntheticMountTargetKind
  preExistingPath : Option FileIdentity

structure BwrapArgs where
  args : List BwrapOp
  /-- Whether the empty file has been opened. -/
  nullFileOpen : Bool
  syntheticMountTargets : List SyntheticMountTarget
  protectedCreateTargets : List AbsolutePathBuf

variable (host : LinuxHost) (bwrapArgs : BwrapArgs) (path : AbsolutePathBuf)
  (paths : List AbsolutePathBuf)

/-- Append mounts. -/
def BwrapArgs.push (ops : List BwrapOp) : BwrapArgs :=
  { bwrapArgs with args := bwrapArgs.args ++ ops }

/-- Append a path that the mounts create. -/
def BwrapArgs.pushSynthetic (target : SyntheticMountTarget) : BwrapArgs :=
  { bwrapArgs with syntheticMountTargets := bwrapArgs.syntheticMountTargets ++ [target] }

/-! ### Orders on paths -/

/-- `Ord` on paths: the names one by one. -/
def pathOrder (path path' : AbsolutePathBuf) : Prop :=
  path.names.map Subtype.val ≤ path'.names.map Subtype.val

instance : DecidableRel pathOrder := fun _ _ => inferInstanceAs (Decidable (_ ≤ _))

def depthOrder (path path' : AbsolutePathBuf) : Prop := path.depth ≤ path'.depth

instance : DecidableRel depthOrder := fun _ _ => inferInstanceAs (Decidable (_ ≤ _))

/-- `sort` and `dedup`, or the order of a `BTreeSet`. -/
def sortedPaths : List AbsolutePathBuf := (paths.insertionSort pathOrder).eraseDups

/-- `sort_by_key` with `path_depth`. -/
def sortByDepth : List AbsolutePathBuf := paths.insertionSort depthOrder

/-! ### Symbolic links and missing paths -/

/-- The path with the names in front of each of its names, the shortest first. -/
def componentPaths : List AbsolutePathBuf := path.names.inits.tail.map AbsolutePathBuf.mk

/-- The target of a path if one of its components is a symbolic link. -/
def canonicalTargetIfSymlinkedPath : Option AbsolutePathBuf :=
  -- the walk ends at the first component that is missing or a link
  match (componentPaths path).find? fun current =>
      !host.hasSymlinkMetadata current || host.isSymlink current with
  | none => none
  | some current =>
    if host.hasSymlinkMetadata current then
      (host.canonicalize path).bind fun target => if target = path then none else some target
    else none

def isWithinAllowedWritePaths (allowedWritePaths : List AbsolutePathBuf) : Bool :=
  allowedWritePaths.any (· ≤ path)

def firstWritableSymlinkComponentInPath (targetPath : AbsolutePathBuf)
    (allowedWritePaths : List AbsolutePathBuf) : Option AbsolutePathBuf :=
  ((componentPaths targetPath).takeWhile host.hasSymlinkMetadata).find? fun current =>
    host.isSymlink current && isWithinAllowedWritePaths current allowedWritePaths

def findFirstNonExistentComponent (targetPath : AbsolutePathBuf) : Option AbsolutePathBuf :=
  (componentPaths targetPath).find? fun current => !host.pathExists current

def remapPathsForSymlinkTarget (root target : AbsolutePathBuf) : List AbsolutePathBuf :=
  paths.map fun path =>
    match stripDir root path with
    | some relative => ⟨target.names ++ relative⟩
    | none => path

/-! ### Read-only and denied paths -/

def appendMountTargetParentDirArgs (mountTarget anchor : AbsolutePathBuf) : BwrapArgs :=
  let mountTargetDir := if host.isDir mountTarget then some mountTarget else mountTarget.parent
  match mountTargetDir with
  | none => bwrapArgs
  | some mountTargetDir =>
    bwrapArgs.push (((ancestors mountTargetDir).takeWhile (· ≠ anchor)).reverse.map .dir)

def appendEmptyFileBindDataArgs : Except CodexErr BwrapArgs :=
  match if bwrapArgs.nullFileOpen then none else host.devNullError with
  | some err => .error err
  | none => .ok ({ bwrapArgs with nullFileOpen := true }.push [.roBindData path])

def appendEmptyDirectoryArgs : BwrapArgs :=
  bwrapArgs.push [.perms "555", .tmpfs path, .remountRo path]

def appendMissingEmptyFileBindDataArgs : Except CodexErr BwrapArgs :=
  (appendEmptyFileBindDataArgs host bwrapArgs path).map (·.pushSynthetic ⟨path, .emptyFile, none⟩)

def isProtectedMetadataName : Bool := path.names.getLast?.any protectedMetadataPathNames.contains

def appendMissingReadOnlySubpathArgs : Except CodexErr BwrapArgs :=
  if isProtectedMetadataName path then
    .ok ((appendEmptyDirectoryArgs bwrapArgs path).pushSynthetic ⟨path, .emptyDirectory, none⟩)
  else appendMissingEmptyFileBindDataArgs host bwrapArgs path

/-- An empty file or folder with a protected name: another sandbox may have made it. -/
def transientEmptyMetadataPath : Option SyntheticMountTargetKind :=
  if !isProtectedMetadataName path then none
  else if !host.hasSymlinkMetadata path || host.isSymlink path then none
  else if host.isFile path && host.len path = 0 then some .emptyFile
  else if host.isDir path && host.directoryIsEmpty path then some .emptyDirectory
  else none

/-- The message about a path that crosses a link the command could replace. -/
def crossesWritableSymlink (rule : String) (path symlink : AbsolutePathBuf) : CodexErr :=
  .fatal ("cannot enforce sandbox " ++ rule.toList ++ " path " ++ path.display ++
    " because it crosses writable symlink " ++ symlink.display)

def appendReadOnlySubpathArgs (subpath : AbsolutePathBuf)
    (allowedWritePaths : List AbsolutePathBuf) : Except CodexErr BwrapArgs :=
  match firstWritableSymlinkComponentInPath host subpath allowedWritePaths with
  | some symlink => .error (crossesWritableSymlink "read-only" subpath symlink)
  | none =>
    let within := isWithinAllowedWritePaths subpath allowedWritePaths
    match if within then transientEmptyMetadataPath host subpath else none with
    | some .emptyFile =>
      (appendEmptyFileBindDataArgs host bwrapArgs subpath).map
        (·.pushSynthetic ⟨subpath, .emptyFile, some (host.identity subpath)⟩)
    | some .emptyDirectory =>
      .ok ((appendEmptyDirectoryArgs bwrapArgs subpath).pushSynthetic
        ⟨subpath, .emptyDirectory, some (host.identity subpath)⟩)
    | none =>
      if host.pathExists subpath then
        .ok (if within then bwrapArgs.push [.roBind subpath subpath] else bwrapArgs)
      else
        match (findFirstNonExistentComponent host subpath).filter
            (isWithinAllowedWritePaths · allowedWritePaths) with
        | some firstMissingComponent =>
          appendMissingReadOnlySubpathArgs host bwrapArgs firstMissingComponent
        | none => .ok bwrapArgs

/-- A mask over a denied folder keeps the folders that lead to writable roots in it. -/
def appendExistingUnreadablePathArgs (unreadableRoot : AbsolutePathBuf)
    (allowedWritePaths : List AbsolutePathBuf) : Except CodexErr BwrapArgs :=
  if host.isDir unreadableRoot then
    let writableDescendants := allowedWritePaths.filter (unreadableRoot < ·)
    let mode := if writableDescendants.isEmpty then "000".toList else "111".toList
    let masked := (sortByDepth writableDescendants).foldl
      (fun bwrapArgs descendant =>
        appendMountTargetParentDirArgs host bwrapArgs descendant unreadableRoot)
      (bwrapArgs.push [.perms mode, .tmpfs unreadableRoot])
    .ok (masked.push [.remountRo unreadableRoot])
  else appendEmptyFileBindDataArgs host (bwrapArgs.push [.perms "000"]) unreadableRoot

def appendUnreadableRootArgs (allowedWritePaths : List AbsolutePathBuf) (bwrapArgs : BwrapArgs)
    (unreadableRoot : AbsolutePathBuf) : Except CodexErr BwrapArgs :=
  match firstWritableSymlinkComponentInPath host unreadableRoot allowedWritePaths with
  | some symlink => .error (crossesWritableSymlink "deny-read" unreadableRoot symlink)
  | none =>
    if host.pathExists unreadableRoot then
      appendExistingUnreadablePathArgs host bwrapArgs unreadableRoot allowedWritePaths
    else
      match (findFirstNonExistentComponent host unreadableRoot).filter
          (isWithinAllowedWritePaths · allowedWritePaths) with
      | some firstMissingComponent =>
        appendMissingEmptyFileBindDataArgs host bwrapArgs firstMissingComponent
      | none => .ok bwrapArgs

/-! ### Protected names of writable roots -/

def ancestorHasGitMetadata (ancestor : AbsolutePathBuf) : Bool :=
  let gitPath := childPath ancestor protectedMetadataGitPathName
  if !host.hasSymlinkMetadata gitPath || host.isSymlink gitPath then false
  else if host.isDir gitPath then
    host.hasSymlinkMetadata (childPath gitPath ⟨"HEAD", by decide⟩)
  else if host.isFile gitPath then
    (host.readToString gitPath).any fun contents =>
      "gitdir:".toList.isPrefixOf (trimStart contents)
  else false

def shouldLeaveMissingGitForParentRepoDiscovery (mountRoot : AbsolutePathBuf) (name : NormalName) :
    Bool := name = protectedMetadataGitPathName && host.isNotFound (childPath mountRoot name) &&
    (ancestors mountRoot).tail.any (ancestorHasGitMetadata host)

def appendMetadataPathMasksForWritableRoot (readOnlySubpaths : List AbsolutePathBuf)
    (root mountRoot : AbsolutePathBuf) (protectedMetadataNames : List NormalName) :
    List AbsolutePathBuf := protectedMetadataNames.foldl
    (fun readOnlySubpaths name =>
      let path := childPath root name
      if shouldLeaveMissingGitForParentRepoDiscovery host mountRoot name then readOnlySubpaths
      else if readOnlySubpaths.contains path then readOnlySubpaths
      else readOnlySubpaths ++ [path])
    readOnlySubpaths

/-- The protected names that are missing and not masked. -/
def appendProtectedCreateTargetsForWritableRoot (protectedMetadataNames : List NormalName)
    (root : AbsolutePathBuf) (symlinkTarget : Option AbsolutePathBuf)
    (readOnlySubpaths : List AbsolutePathBuf) : BwrapArgs :=
  let paths := protectedMetadataNames.map fun name => childPath (symlinkTarget.getD root) name
  { bwrapArgs with
    protectedCreateTargets := bwrapArgs.protectedCreateTargets ++
      paths.filter fun path => !readOnlySubpaths.contains path && !host.pathExists path }

/-! ### Readable and unreadable roots of a policy -/

def globPatternOf : FileSystemPath → Option Text
  | .globPattern pattern => some pattern
  | _ => none

namespace FileSystemSandboxPolicy

variable (policy : FileSystemSandboxPolicy) (host : Host) (cwd : AbsolutePathBuf)

def includePlatformDefaults : Bool :=
  !policy.hasFullDiskReadAccess && policy.kind = .restricted && policy.entries.any fun entry =>
    match entry.path with
    | .special .minimal => entry.access.canRead
    | _ => false

def getReadableRootsWithCwd : List AbsolutePathBuf :=
  if policy.hasFullDiskReadAccess then []
  else
    dedupAbsolutePaths host
      (((policy.resolvedEntriesWithCwd host cwd).filter fun entry =>
        entry.access.canRead && policy.canReadPathWithCwd host entry.path cwd).map (·.path)) true

/-- The denied paths.  The root of the file system is not among them: what is not allowed is not
    mounted anyway. -/
def getUnreadableRootsWithCwd : List AbsolutePathBuf :=
  if policy.kind ≠ .restricted then []
  else
    dedupAbsolutePaths host
      (((policy.resolvedEntriesWithCwd host cwd).filter fun entry =>
        entry.access = .deny && !policy.canReadPathWithCwd host entry.path cwd &&
          entry.path ≠ rootPath).map (·.path)) true

def getUnreadableGlobsWithCwd : List Text :=
  if policy.kind ≠ .restricted then []
  else
    let patterns := (policy.entries.filter (·.access = .deny)).filterMap fun entry =>
      (globPatternOf entry.path).map fun pattern =>
        (resolvePathAgainstBase host.home pattern cwd).display
    (patterns.insertionSort (· ≤ ·)).eraseDups

end FileSystemSandboxPolicy

/-! ### Denied patterns -/

/-- In a class that is not closed, the bracket stands for itself. -/
def escapeUnclosedGlobClasses : Text → Text
  | [] => []
  | c :: rest =>
    if c = '[' then
      if rest.contains ']' then
        '[' :: rest.takeWhile (· ≠ ']') ++ ']' ::
          escapeUnclosedGlobClasses ((rest.dropWhile (· ≠ ']')).drop 1)
      else '\\' :: '[' :: rest
    else c :: escapeUnclosedGlobClasses rest
termination_by text => text.length
decreasing_by
  · have hle := (List.dropWhile_suffix (l := rest) (· ≠ ']')).length_le
    simp only [List.length_drop, List.length_cons]
    omega
  · simp

def isGlobChar (c : Char) : Bool := c = '*' || c = '?' || c = '[' || c = ']'

/-- The folder to search and the pattern for what is below it. -/
def splitPatternForRipgrep (host : Host) (pattern : Text) (cwd : AbsolutePathBuf) :
    Option (AbsolutePathBuf × Text) :=
  let pattern := (resolvePathAgainstBase host.home pattern cwd).display
  let staticPrefix := pattern.takeWhile (!isGlobChar ·)
  if staticPrefix = pattern then none
  else if staticPrefix = [] ∨ staticPrefix = ['/'] then none
  else
    -- up to the last slash in front of the first wildcard
    let searchRoot := staticPrefix.rdropWhile (· ≠ '/')
    let glob := escapeUnclosedGlobClasses (pattern.drop searchRoot.length)
    if glob = [] then none else some (normalizePath (pathComponents searchRoot), glob)

def maxUnreadableGlobMatches : Nat := 8192

variable (policy : FileSystemSandboxPolicy) (host : LinuxHost) (cwd : AbsolutePathBuf)
  (writableRoots : List WritableRoot)

/-- Add one match, and the target of links in it. -/
def addExpandedPath (searchRoot : AbsolutePathBuf) (expanded : List AbsolutePathBuf)
    (path : AbsolutePathBuf) : Except CodexErr (List AbsolutePathBuf) :=
  let expanded := ((canonicalTargetIfSymlinkedPath host path).toList ++ path :: expanded).eraseDups
  if maxUnreadableGlobMatches < expanded.length then
    .error (.fatal ("unreadable glob expansion for " ++ searchRoot.display ++
      " matched more than " ++ (toString maxUnreadableGlobMatches).toList ++ " paths"))
  else .ok expanded

def expandUnreadableGlobsWithRipgrep (patterns : List Text) (cwd : AbsolutePathBuf)
    (maxDepth : Option Nat) : Except CodexErr (List AbsolutePathBuf) :=
  if patterns = [] ∨ maxDepth = some 0 then .ok []
  else do
    let split := (patterns.filterMap (splitPatternForRipgrep host.toHost · cwd)).filter
      fun (searchRoot, _) => host.isDir searchRoot
    let expanded ← (sortedPaths (split.map (·.1))).foldlM
      (fun expanded searchRoot => do
        let globs := (split.filter (·.1 = searchRoot)).map (·.2)
        let paths ← host.ripgrepFiles searchRoot globs maxDepth
        paths.foldlM (addExpandedPath host searchRoot) expanded) []
    return sortedPaths expanded

/-! ### The mounts for a policy -/

def linuxPlatformDefaultReadRoots : List AbsolutePathBuf :=
  ["/bin", "/sbin", "/usr", "/etc", "/lib", "/lib64", "/nix/store", "/run/current-system/sw"].map
    fun path => absolutePath path.toList

def devPath : AbsolutePathBuf := ⟨[⟨"dev", by decide⟩]⟩

/-- The names under a project root whose automatic rules are left to the handling of protected
    names if nothing is there. -/
def missingAutoMetadataReadOnlyProjectRootSubpaths : List AbsolutePathBuf :=
  (policy.entries.filter (·.access = .read)).filterMap fun entry =>
    match entry.path with
    | .special (.projectRoots (some subpath)) =>
      if [".git", ".agents", ".codex"].any fun name =>
          pathComponents subpath = pathComponents name.toList then
        let resolved := resolvePathAgainstBase host.home subpath cwd
        if host.pathExists resolved then none else some resolved
      else none
    | _ => none

/-- The part of the view that may be read, without regard to denied paths. -/
def baseArgs : List BwrapOp :=
  let readEverything := [.roBind rootPath rootPath, .dev devPath]
  if policy.hasFullDiskReadAccess then readEverything
  else
    let platformRoots := if policy.includePlatformDefaults then
      linuxPlatformDefaultReadRoots.filter host.pathExists else []
    let readableRoots :=
      sortedPaths (policy.getReadableRootsWithCwd host.toHost cwd ++ platformRoots)
    if readableRoots.contains rootPath then readEverything
    else
      [.tmpfs rootPath, .dev devPath] ++ (readableRoots.filter host.pathExists).map fun root =>
        let mountRoot := if writableRoots.any (·.root ≤ root) then
          (canonicalTargetIfSymlinkedPath host root).getD root else root
        .roBind mountRoot mountRoot

/-- What stays the same while the mounts are put together. -/
structure BwrapContext where
  allowedWritePaths : List AbsolutePathBuf
  unreadableRoots : List AbsolutePathBuf
  missingAutoMetadata : List AbsolutePathBuf

variable (context : BwrapContext)

/-- The read-only paths of a writable root, as they are mounted. -/
def readOnlySubpathsToMount (writableRoot : WritableRoot)
    (symlinkTarget : Option AbsolutePathBuf) : List AbsolutePathBuf :=
  let root := writableRoot.root
  let readOnlySubpaths := writableRoot.readOnlySubpaths.filter fun path =>
    !context.unreadableRoots.contains path && !context.missingAutoMetadata.contains path
  let readOnlySubpaths := appendMetadataPathMasksForWritableRoot host readOnlySubpaths root
    (symlinkTarget.getD root) writableRoot.protectedMetadataNames
  match symlinkTarget with
  | some target => remapPathsForSymlinkTarget readOnlySubpaths root target
  | none => readOnlySubpaths

/-- The folders from the nearest denied folder above a writable root to the root. -/
def appendMaskedRootDirArgs (bwrapArgs : BwrapArgs) (root : AbsolutePathBuf) : BwrapArgs :=
  match maxByKey AbsolutePathBuf.depth (context.unreadableRoots.filter (· ≤ root)) with
  | some maskingRoot => appendMountTargetParentDirArgs host bwrapArgs root maskingRoot
  | none => bwrapArgs

/-- One writable root, with what is not writable in it. -/
def appendWritableRootArgs (bwrapArgs : BwrapArgs)
    (writableRoot : WritableRoot) : Except CodexErr BwrapArgs := do
  let root := writableRoot.root
  let symlinkTarget := canonicalTargetIfSymlinkedPath host root
  let bwrapArgs := appendMaskedRootDirArgs host context bwrapArgs root
  let mountRoot := symlinkTarget.getD root
  let bwrapArgs := bwrapArgs.push [.bind mountRoot mountRoot]
  let readOnlySubpaths := readOnlySubpathsToMount host context writableRoot symlinkTarget
  let bwrapArgs := appendProtectedCreateTargetsForWritableRoot host bwrapArgs
    writableRoot.protectedMetadataNames root symlinkTarget readOnlySubpaths
  let bwrapArgs ← (sortByDepth readOnlySubpaths).foldlM
    (fun bwrapArgs subpath =>
      appendReadOnlySubpathArgs host bwrapArgs subpath context.allowedWritePaths) bwrapArgs
  let nestedUnreadableRoots := context.unreadableRoots.filter (root ≤ ·)
  let nestedUnreadableRoots := match symlinkTarget with
    | some target => remapPathsForSymlinkTarget nestedUnreadableRoots root target
    | none => nestedUnreadableRoots
  (sortByDepth nestedUnreadableRoots).foldlM
    (appendUnreadableRootArgs host context.allowedWritePaths) bwrapArgs

/-- The writable roots that exist; with a policy that lets everything be written and denied
    patterns, the root of the file system. -/
def existingWritableRoots : List WritableRoot :=
  let writableRoots :=
    (policy.getWritableRootsWithCwd host.toHost cwd).filter (host.pathExists ·.root)
  if writableRoots.isEmpty && policy.hasFullDiskWriteAccess &&
      !(policy.getUnreadableGlobsWithCwd host.toHost cwd).isEmpty then
    [⟨rootPath, [], []⟩]
  else writableRoots

/-- The roots in the order in which they are mounted. -/
def sortWritableRoots : List WritableRoot :=
  writableRoots.insertionSort fun root root' => depthOrder root.root root'.root

def allowedWritePathsOf : List AbsolutePathBuf :=
  writableRoots.flatMap fun writableRoot =>
    writableRoot.root :: (canonicalTargetIfSymlinkedPath host writableRoot.root).toList

/-- Build the bubblewrap mounts for a policy. -/
def createFilesystemArgs (globScanMaxDepth : Option Nat) : Except CodexErr BwrapArgs := do
  let writableRoots := existingWritableRoots policy host cwd
  let expandedGlobs ← expandUnreadableGlobsWithRipgrep host
    (policy.getUnreadableGlobsWithCwd host.toHost cwd) cwd globScanMaxDepth
  let context : BwrapContext :=
    { allowedWritePaths := allowedWritePathsOf host writableRoots
      unreadableRoots :=
        sortedPaths (policy.getUnreadableRootsWithCwd host.toHost cwd ++ expandedGlobs)
      missingAutoMetadata := missingAutoMetadataReadOnlyProjectRootSubpaths policy host cwd }
  let bwrapArgs : BwrapArgs := ⟨baseArgs policy host cwd writableRoots, false, [], []⟩
  let unreadableAncestorsOfWritableRoots := context.unreadableRoots.filter fun unreadableRoot =>
    !context.allowedWritePaths.any (· ≤ unreadableRoot) &&
      context.allowedWritePaths.any (unreadableRoot ≤ ·)
  let bwrapArgs ← (sortByDepth unreadableAncestorsOfWritableRoots).foldlM
    (appendUnreadableRootArgs host context.allowedWritePaths) bwrapArgs
  let bwrapArgs ← (sortWritableRoots writableRoots).foldlM (appendWritableRootArgs host context)
    bwrapArgs
  let rootlessUnreadableRoots := context.unreadableRoots.filter fun unreadableRoot =>
    !context.allowedWritePaths.any fun root =>
      decide (root ≤ unreadableRoot) || decide (unreadableRoot ≤ root)
  (sortByDepth rootlessUnreadableRoots).foldlM
    (appendUnreadableRootArgs host context.allowedWritePaths) bwrapArgs

end Codex.Sandbox
