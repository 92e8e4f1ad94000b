import Codex.Data.MaxByKey
import Codex.Path.Tree
import Mathlib.Data.Prod.Lex

namespace Codex.Sandbox

open Text Data AbsolutePathBuf List Option

/-!
# File system policies of the sandbox

A policy has entries that give an access mode to a path and to everything below it.  The entry with
the most components decides; of several entries for one path the one with the strictest mode in the
order `read`, `write`, `deny`.  Below an entry that may be written, some names are protected: they
may only be written if there is an entry for writing them.

* `FileSystemSandboxPolicy`, `resolvedEntriesWithCwd` — policies, and their entries as paths;
* `resolveAccessWithCwd`, `canReadPathWithCwd`, `canWritePathWithCwd` — what may be done with a path;
* `metadataChildOfWritableRoot_eq` — which entry for writing protects a path.
-/

/-! ### Policies -/

/-- Access modes, in the order in which they win over each other. -/
inductive FileSystemAccessMode
  | read
  | write
  | deny
deriving DecidableEq

namespace FileSystemAccessMode

def rank : FileSystemAccessMode → Nat
  | read => 0
  | write => 1
  | deny => 2

theorem rank_injective : Function.Injective rank := by
  intro mode mode' h
  cases mode <;> cases mode' <;> first | rfl | exact absurd h (by decide)

instance : LinearOrder FileSystemAccessMode := LinearOrder.lift' rank rank_injective

def canRead (mode : FileSystemAccessMode) : Bool := mode ≠ deny

def canWrite (mode : FileSystemAccessMode) : Bool := mode = write

end FileSystemAccessMode

inductive FileSystemSpecialPath
  | root
  | minimal
  | projectRoots (subpath : Option Text)
  | tmpdir
  | slashTmp
  | unknown (path : Text) (subpath : Option Text)

inductive FileSystemPath
  | path (path : AbsolutePathBuf)
  | globPattern (pattern : Text)
  | special (value : FileSystemSpecialPath)

structure FileSystemSandboxEntry where
  path : FileSystemPath
  access : FileSystemAccessMode

inductive FileSystemSandboxKind
  | restricted
  | unrestricted
  | externalSandbox
deriving DecidableEq

structure FileSystemSandboxPolicy where
  kind : FileSystemSandboxKind
  globScanMaxDepth : Option Nat
  entries : List FileSystemSandboxEntry

structure ResolvedFileSystemEntry where
  path : AbsolutePathBuf
  access : FileSystemAccessMode
deriving DecidableEq

/-- What the process asks its environment and the file system. -/
structure Host where
  home : Option Text
  currentDir : Option AbsolutePathBuf
  /-- The variable `TMPDIR`. -/
  tmpdir : Option Text
  isDir : AbsolutePathBuf → Bool
  isFile : AbsolutePathBuf → Bool
  pathExists : AbsolutePathBuf → Bool
  readToString : AbsolutePathBuf → Option Text
  /-- `symlink_metadata` succeeds. -/
  hasSymlinkMetadata : AbsolutePathBuf → Bool
  canonicalizePreservingSymlinks : AbsolutePathBuf → Option AbsolutePathBuf

/-! ### Entries as paths -/

def rootPath : AbsolutePathBuf := ⟨[]⟩

theorem rootPath_le (path : AbsolutePathBuf) : rootPath ≤ path := nil_prefix

def slashTmpPath : AbsolutePathBuf := ⟨[⟨"tmp", by decide⟩]⟩

def resolveFileSystemSpecialPath (host : Host) (value : FileSystemSpecialPath)
    (cwd : AbsolutePathBuf) : Option AbsolutePathBuf :=
  match value with
  | .root | .minimal | .unknown _ _ => none
  | .projectRoots (some subpath) => some (resolvePathAgainstBase host.home subpath cwd)
  | .projectRoots none => some cwd
  | .tmpdir => do
    let tmpdir ← host.tmpdir
    if tmpdir.isEmpty then none else fromAbsolutePath host.home host.currentDir tmpdir
  | .slashTmp => if host.isDir slashTmpPath then some slashTmpPath else none

def resolveFileSystemPath (host : Host) (path : FileSystemPath) (cwd : AbsolutePathBuf) :
    Option AbsolutePathBuf :=
  match path with
  | .path path => some path
  | .globPattern _ => none
  | .special value => resolveFileSystemSpecialPath host value cwd

/-- The path of an entry.  On Unix all working directories have the same root. -/
def resolveEntryPath (host : Host) (path : FileSystemPath) (cwd : AbsolutePathBuf) :
    Option AbsolutePathBuf :=
  match path with
  | .special .root => some rootPath
  | _ => resolveFileSystemPath host path cwd

/-! ### Full access -/

def specialPathsShareTarget : FileSystemSpecialPath → FileSystemSpecialPath → Bool
  | .root, .root | .minimal, .minimal | .tmpdir, .tmpdir | .slashTmp, .slashTmp => true
  | .projectRoots left, .projectRoots right => left.map pathComponents = right.map pathComponents
  | .unknown left leftSubpath, .unknown right rightSubpath =>
    left = right && leftSubpath.map pathComponents = rightSubpath.map pathComponents
  | _, _ => false

def specialPathMatchesAbsolutePath (value : FileSystemSpecialPath) (path : AbsolutePathBuf) : Bool :=
  match value with
  | .root => path.parent.isNone
  | .slashTmp => path = slashTmpPath
  | _ => false

def fileSystemPathsShareTarget : FileSystemPath → FileSystemPath → Bool
  | .path left, .path right => left = right
  | .special left, .special right => specialPathsShareTarget left right
  | .path path, .special value => specialPathMatchesAbsolutePath value path
  | .special value, .path path => specialPathMatchesAbsolutePath value path
  | .globPattern left, .globPattern right => left = right
  | .globPattern _, _ => false
  | _, .globPattern _ => false

namespace FileSystemSandboxPolicy

variable (policy : FileSystemSandboxPolicy)

def hasRootAccess (predicate : FileSystemAccessMode → Bool) : Bool :=
  policy.kind = .restricted && policy.entries.any fun entry =>
    match entry.path with
    | .special .root => predicate entry.access
    | _ => false

def hasDeniedReadRestrictions : Bool :=
  policy.kind = .restricted && policy.entries.any (·.access = .deny)

def hasSameTargetWriteOverride (entry : FileSystemSandboxEntry) : Bool :=
  policy.entries.any fun candidate =>
    candidate.access.canWrite && candidate.access > entry.access &&
      fileSystemPathsShareTarget candidate.path entry.path

def hasWriteNarrowingEntries : Bool :=
  policy.kind = .restricted && policy.entries.any fun entry =>
    if entry.access.canWrite then false
    else
      match entry.path with
      | .path _ => !policy.hasSameTargetWriteOverride entry
      | .globPattern _ => true
      | .special .root => entry.access = .deny
      | .special .minimal | .special (.unknown _ _) => false
      | .special _ => !policy.hasSameTargetWriteOverride entry

def hasFullDiskReadAccess : Bool :=
  match policy.kind with
  | .unrestricted | .externalSandbox => true
  | .restricted =>
    policy.hasRootAccess FileSystemAccessMode.canRead && !policy.hasDeniedReadRestrictions

def hasFullDiskWriteAccess : Bool :=
  match policy.kind with
  | .unrestricted | .externalSandbox => true
  | .restricted =>
    policy.hasRootAccess FileSystemAccessMode.canWrite && !policy.hasWriteNarrowingEntries

/-! ### Access to a path -/

def resolvedEntriesWithCwd (host : Host) (cwd : AbsolutePathBuf) : List ResolvedFileSystemEntry :=
  policy.entries.filterMap fun entry =>
    (resolveEntryPath host entry.path cwd).map fun path => ⟨path, entry.access⟩

end FileSystemSandboxPolicy

/-- More components first, and then the access mode. -/
def resolvedEntryPrecedence (entry : ResolvedFileSystemEntry) : Nat ×ₗ FileSystemAccessMode :=
  toLex (entry.path.components.length, entry.access)

namespace FileSystemSandboxPolicy

variable (policy : FileSystemSandboxPolicy) (host : Host)

def resolveAccessWithCwd (path cwd : AbsolutePathBuf) : FileSystemAccessMode :=
  match policy.kind with
  | .unrestricted | .externalSandbox => .write
  | .restricted =>
    ((maxByKey resolvedEntryPrecedence
      ((policy.resolvedEntriesWithCwd host cwd).filter fun entry => entry.path ≤ path)).map
        ResolvedFileSystemEntry.access).getD .deny

def canReadPathWithCwd (path cwd : AbsolutePathBuf) : Bool :=
  (policy.resolveAccessWithCwd host path cwd).canRead

end FileSystemSandboxPolicy

/-! ### Protected names -/

def protectedMetadataGitPathName : NormalName := ⟨".git", by decide⟩

def protectedMetadataAgentsPathName : NormalName := ⟨".agents", by decide⟩

def protectedMetadataCodexPathName : NormalName := ⟨".codex", by decide⟩

def protectedMetadataPathNames : List NormalName :=
  [protectedMetadataGitPathName, protectedMetadataAgentsPathName, protectedMetadataCodexPathName]

/-- The components of a path behind a folder that it is in (`strip_prefix`). -/
def stripDir (dir path : AbsolutePathBuf) : Option (List NormalName) :=
  if dir ≤ path then some (path.names.drop dir.depth) else none

def metadataPathName (name : NormalName) : Option NormalName :=
  protectedMetadataPathNames.find? (name = ·)

/-- The protected name of a folder that the path is in. -/
def metadataChild (dir target : AbsolutePathBuf) : Option (AbsolutePathBuf × NormalName) := do
  let relativePath ← stripDir dir target
  let firstComponent ← relativePath.head?
  let metadataName ← metadataPathName firstComponent
  return (childPath dir metadataName, metadataName)

namespace FileSystemSandboxPolicy

variable (policy : FileSystemSandboxPolicy) (host : Host)

/-- The first entry for writing that has the path in one of its protected names. -/
def metadataChildOfWritableRoot (target cwd : AbsolutePathBuf) :
    Option (AbsolutePathBuf × NormalName) :=
  ((policy.resolvedEntriesWithCwd host cwd).filter (·.access.canWrite)).findSome? fun entry =>
    metadataChild entry.path target

def hasExplicitWriteEntryForMetadataPath (protectedMetadataPath target cwd : AbsolutePathBuf) :
    Bool :=
  (policy.resolvedEntriesWithCwd host cwd).any fun entry =>
    entry.access.canWrite && entry.path ≤ target && protectedMetadataPath ≤ entry.path

def isMetadataWriteDenied (path cwd : AbsolutePathBuf) : Bool :=
  if policy.kind ≠ .restricted then false
  else
    match policy.metadataChildOfWritableRoot host path cwd with
    | none => false
    | some (protectedMetadataPath, _) =>
      !policy.hasExplicitWriteEntryForMetadataPath host protectedMetadataPath path cwd

def canWritePathWithCwd (path cwd : AbsolutePathBuf) : Bool :=
  if !(policy.resolveAccessWithCwd host path cwd).canWrite then false
  else if policy.hasFullDiskWriteAccess then true
  else !policy.isMetadataWriteDenied host path cwd

end FileSystemSandboxPolicy

/-! ### Which entry decides -/

/-- The entry is above the path, and wins over all other entries above it. -/
structure Decides (entries : List ResolvedFileSystemEntry) (path : AbsolutePathBuf)
    (entry : ResolvedFileSystemEntry) : Prop where
  mem : entry ∈ entries
  le : entry.path ≤ path
  wins : ∀ other ∈ entries, other.path ≤ path →
    other.path ≤ entry.path ∧ (other.path = entry.path → other.access ≤ entry.access)

variable {entry : ResolvedFileSystemEntry}

/-- The entry that decides about a path also decides about its own path. -/
theorem Decides.self {entries : List ResolvedFileSystemEntry} {path : AbsolutePathBuf}
    (h : Decides entries path entry) :
    Decides entries entry.path entry :=
  ⟨h.mem, le_rfl, fun other hother hle => h.wins other hother (hle.trans h.le)⟩

theorem le_of_resolvedEntryPrecedence_le {other : ResolvedFileSystemEntry}
    {path : AbsolutePathBuf} (h : entry.path ≤ path) (h' : other.path ≤ path)
    (hprecedence : resolvedEntryPrecedence other ≤ resolvedEntryPrecedence entry) :
    other.path ≤ entry.path ∧ (other.path = entry.path → other.access ≤ entry.access) := by
  have hlength : ∀ e : ResolvedFileSystemEntry, e.path.components.length = e.path.depth + 1 := by
    simp [components, depth]
  unfold resolvedEntryPrecedence at hprecedence
  rw [Prod.Lex.toLex_le_toLex, hlength, hlength] at hprecedence
  rcases hprecedence with hlt | ⟨heq, haccess⟩
  · have hlt' : other.path.depth < entry.path.depth := by
      omega
    refine ⟨le_of_depth_le h' h hlt'.le, fun heq => ?_⟩
    rw [heq] at hlt'
    exact absurd hlt' (lt_irrefl _)
  · have heq' : other.path.depth = entry.path.depth := by
      omega
    exact ⟨le_of_depth_le h' h heq'.le, fun _ => haccess⟩

namespace FileSystemSandboxPolicy

variable {policy : FileSystemSandboxPolicy} {host : Host} {path cwd : AbsolutePathBuf}

section

variable (hkind : policy.kind = .restricted)
include hkind

/-- Some entry decides, or there is none above the path. -/
theorem exists_decides (host : Host) (path cwd : AbsolutePathBuf) :
    (∃ entry, Decides (policy.resolvedEntriesWithCwd host cwd) path entry ∧
      policy.resolveAccessWithCwd host path cwd = entry.access) ∨
    (∀ entry ∈ policy.resolvedEntriesWithCwd host cwd, ¬ entry.path ≤ path) ∧
      policy.resolveAccessWithCwd host path cwd = .deny := by
  unfold resolveAccessWithCwd
  rw [hkind]
  by_cases hnil : (policy.resolvedEntriesWithCwd host cwd).filter (fun e => e.path ≤ path) = []
  · refine .inr ⟨?_, ?_⟩
    · intro entry hentry hle
      have := filter_eq_nil_iff.mp hnil entry hentry
      simp [hle] at this
    · rw [hnil]
      rfl
  · obtain ⟨entry, hmax, hmem, hwins⟩ := exists_maxByKey resolvedEntryPrecedence hnil
    have hentry := mem_filter.mp hmem
    have hle : entry.path ≤ path := by simpa using hentry.2
    refine .inl ⟨entry, ⟨hentry.1, hle, fun other hother hle' => ?_⟩, ?_⟩
    · refine le_of_resolvedEntryPrecedence_le hle hle' (hwins other ?_)
      exact mem_filter.mpr ⟨hother, by simpa using hle'⟩
    · rw [hmax]
      rfl

/-- **The entry that decides gives the access mode.** -/
theorem resolveAccess_of_decides (h : Decides (policy.resolvedEntriesWithCwd host cwd) path entry) :
    policy.resolveAccessWithCwd host path cwd = entry.access := by
  rcases exists_decides hkind host path cwd with ⟨entry', h', haccess⟩ | ⟨hnone, -⟩
  · obtain ⟨hle, heq⟩ := h.wins entry' h'.mem h'.le
    obtain ⟨hle', heq'⟩ := h'.wins entry h.mem h.le
    have hpath := le_antisymm hle hle'
    rw [haccess]
    exact le_antisymm (heq hpath) (heq' hpath.symm)
  · exact absurd h.le (hnone entry h.mem)

/-- Below the path of an entry, an entry decides that lies at this path or below it. -/
theorem exists_decider
    (hmem : entry ∈ policy.resolvedEntriesWithCwd host cwd) (hle : entry.path ≤ path) :
    ∃ dir access, Decides (policy.resolvedEntriesWithCwd host cwd) path ⟨dir, access⟩ ∧
      entry.path ≤ dir := by
  rcases exists_decides hkind host path cwd with ⟨⟨dir, access⟩, hdec, -⟩ | ⟨hnone, -⟩
  · exact ⟨dir, access, hdec, (hdec.wins entry hmem hle).1⟩
  · exact absurd hle (hnone entry hmem)

theorem canRead_of_decides (h : Decides (policy.resolvedEntriesWithCwd host cwd) path entry) :
    policy.canReadPathWithCwd host path cwd ↔ entry.access ≠ .deny := by
  rw [canReadPathWithCwd, resolveAccess_of_decides hkind h]
  cases entry.access <;> decide

theorem exists_of_canRead (h : policy.canReadPathWithCwd host path cwd) :
    ∃ dir access, Decides (policy.resolvedEntriesWithCwd host cwd) path ⟨dir, access⟩ := by
  rcases exists_decides hkind host path cwd with ⟨⟨dir, access⟩, hdec, -⟩ | ⟨-, hdeny⟩
  · exact ⟨dir, access, hdec⟩
  · rw [canReadPathWithCwd, hdeny] at h
    cases h

end

/-! ### Full access for reading -/

/-- An entry of a policy, as a path. -/
theorem mem_resolvedEntriesWithCwd :
    entry ∈ policy.resolvedEntriesWithCwd host cwd ↔ ∃ source ∈ policy.entries,
      resolveEntryPath host source.path cwd = some entry.path ∧ source.access = entry.access := by
  unfold resolvedEntriesWithCwd
  rw [mem_filterMap]
  refine exists_congr fun source => and_congr_right fun _ => ?_
  rw [Option.map_eq_some_iff]
  constructor
  · rintro ⟨path, hpath, rfl⟩
    exact ⟨hpath, rfl⟩
  · rintro ⟨hpath, haccess⟩
    exact ⟨entry.path, hpath, by rw [haccess]⟩

/-- An entry for the root of the file system. -/
theorem exists_root_of_hasRootAccess {predicate : FileSystemAccessMode → Bool}
    (h : policy.hasRootAccess predicate) :
    ∃ access, ⟨rootPath, access⟩ ∈ policy.resolvedEntriesWithCwd host cwd ∧ predicate access := by
  obtain ⟨-, hany⟩ := Bool.and_eq_true_iff.mp h
  obtain ⟨source, hsource, hmatch⟩ := any_eq_true.mp hany
  split at hmatch
  · have hpath : resolveEntryPath host source.path cwd = some rootPath := by
      simp_all [resolveEntryPath]
    exact ⟨source.access, mem_resolvedEntriesWithCwd.mpr ⟨source, hsource, hpath, rfl⟩, hmatch⟩
  · cases hmatch

section FullRead

variable (hkind : policy.kind = .restricted) (hfull : policy.hasFullDiskReadAccess)
include hkind hfull

/-- With full access for reading, nothing is denied. -/
theorem access_ne_deny_of_full {source : FileSystemSandboxEntry} (hsource : source ∈ policy.entries) :
    source.access ≠ .deny := by
  intro haccess
  have hany : policy.hasDeniedReadRestrictions := by
    unfold hasDeniedReadRestrictions
    simp only [hkind, decide_true, Bool.true_and, List.any_eq_true, decide_eq_true_eq]
    exact ⟨source, hsource, haccess⟩
  unfold hasFullDiskReadAccess at hfull
  rw [hkind] at hfull
  have hdenied := (Bool.and_eq_true_iff.mp hfull).2
  rw [hany] at hdenied
  cases hdenied

theorem not_mem_deny_of_full (dir : AbsolutePathBuf) :
    ⟨dir, .deny⟩ ∉ policy.resolvedEntriesWithCwd host cwd := by
  intro hmem
  obtain ⟨source, hsource, -, haccess⟩ := mem_resolvedEntriesWithCwd.mp hmem
  exact access_ne_deny_of_full hkind hfull hsource haccess

/-- With full access for reading, there is an entry for the root of the file system, and everything
    may be read. -/
theorem canRead_of_full : (∃ access, ⟨rootPath, access⟩ ∈ policy.resolvedEntriesWithCwd host cwd) ∧
    ∀ path, policy.canReadPathWithCwd host path cwd := by
  have hroot := hfull
  unfold hasFullDiskReadAccess at hroot
  rw [hkind] at hroot
  obtain ⟨access, hmem, -⟩ := exists_root_of_hasRootAccess (Bool.and_eq_true_iff.mp hroot).1
  refine ⟨⟨access, hmem⟩, fun path => ?_⟩
  obtain ⟨dir, access, hdec, -⟩ := exists_decider hkind hmem (rootPath_le path)
  rw [canRead_of_decides hkind hdec]
  rintro rfl
  exact not_mem_deny_of_full hkind hfull dir hdec.mem

end FullRead

/-! ### Which entry protects -/

/-- The paths of the entries for writing, in their order. -/
def writePaths (policy : FileSystemSandboxPolicy) (host : Host) (cwd : AbsolutePathBuf) :
    List AbsolutePathBuf :=
  ((policy.resolvedEntriesWithCwd host cwd).filter (·.access.canWrite)).map (·.path)

theorem mem_writePaths {dir : AbsolutePathBuf} :
    dir ∈ policy.writePaths host cwd ↔ ⟨dir, .write⟩ ∈ policy.resolvedEntriesWithCwd host cwd := by
  unfold writePaths
  rw [List.mem_map]
  constructor
  · rintro ⟨⟨path, access⟩, hentry, rfl⟩
    obtain ⟨hmem, hwrite⟩ := mem_filter.mp hentry
    cases access with
    | write => exact hmem
    | read | deny => cases hwrite
  · intro h
    exact ⟨_, mem_filter.mpr ⟨h, rfl⟩, rfl⟩

end FileSystemSandboxPolicy

/-- A path is at or below one of the protected names of a folder. -/
def InMetadata (dir path : AbsolutePathBuf) : Prop :=
  ∃ name ∈ protectedMetadataPathNames, childPath dir name ≤ path

theorem metadataPathName_eq_some_iff {name metadataName : NormalName} :
    metadataPathName name = some metadataName ↔
      name = metadataName ∧ metadataName ∈ protectedMetadataPathNames := by
  unfold metadataPathName
  constructor
  · intro h
    have hname := find?_some h
    exact ⟨by simpa using hname, mem_of_find?_eq_some h⟩
  · rintro ⟨rfl, h⟩
    have hsome : (protectedMetadataPathNames.find? (name = ·)).isSome := by
      rw [find?_isSome]
      exact ⟨name, h, by simp⟩
    obtain ⟨other, hother⟩ := isSome_iff_exists.mp hsome
    have := find?_some hother
    rw [hother]
    simpa using Eq.symm (by simpa using this)

/-- The first component behind a folder. -/
theorem head?_stripDir_eq_some_iff {dir path : AbsolutePathBuf} {name : NormalName} :
    (stripDir dir path).bind head? = some name ↔ childPath dir name ≤ path := by
  unfold stripDir
  split
  · rename_i hle
    obtain ⟨rest, hrest⟩ := le_iff.mp hle
    show (path.names.drop dir.names.length).head? = some name ↔ dir.names ++ [name] <+: path.names
    rw [← hrest, prefix_append_right_inj]
    cases rest with
    | nil => simp
    | cons first rest => simp [eq_comm]
  · rename_i hle
    refine ⟨fun h => (by cases h), fun h => absurd ?_ hle⟩
    exact (lt_childPath dir name).le.trans h

theorem metadataChild_eq_some_iff {dir target metadataPath : AbsolutePathBuf} {name : NormalName} :
    metadataChild dir target = some (metadataPath, name) ↔
      name ∈ protectedMetadataPathNames ∧ childPath dir name ≤ target ∧
        metadataPath = childPath dir name := by
  have hbind : metadataChild dir target = ((stripDir dir target).bind head?).bind
      fun first => (metadataPathName first).bind fun name => some (childPath dir name, name) := by
    unfold metadataChild
    cases stripDir dir target <;> rfl
  rw [hbind, bind_eq_some_iff]
  constructor
  · rintro ⟨first, hfirst, hname⟩
    obtain ⟨metadataName, hmetadata, heq⟩ := bind_eq_some_iff.mp hname
    obtain ⟨rfl, hprotected⟩ := metadataPathName_eq_some_iff.mp hmetadata
    cases heq
    exact ⟨hprotected, head?_stripDir_eq_some_iff.mp hfirst, rfl⟩
  · rintro ⟨hname, hle, rfl⟩
    refine ⟨name, head?_stripDir_eq_some_iff.mpr hle, ?_⟩
    rw [metadataPathName_eq_some_iff.mpr ⟨rfl, hname⟩]
    rfl

theorem metadataChild_eq_none_iff {dir target : AbsolutePathBuf} :
    metadataChild dir target = none ↔ ¬ InMetadata dir target := by
  rw [← not_isSome_iff_eq_none, not_iff_not, isSome_iff_exists]
  constructor
  · rintro ⟨⟨metadataPath, name⟩, h⟩
    obtain ⟨hname, hle, -⟩ := metadataChild_eq_some_iff.mp h
    exact ⟨name, hname, hle⟩
  · rintro ⟨name, hname, hle⟩
    exact ⟨_, metadataChild_eq_some_iff.mpr ⟨hname, hle, rfl⟩⟩

namespace FileSystemSandboxPolicy

variable {policy : FileSystemSandboxPolicy} {host : Host} {path cwd : AbsolutePathBuf}

/-- The first entry for writing that has the path in one of its protected names protects it. -/
theorem metadataChildOfWritableRoot_eq : policy.metadataChildOfWritableRoot host path cwd =
    (policy.writePaths host cwd).findSome? (metadataChild · path) := by
  unfold metadataChildOfWritableRoot writePaths
  rw [findSome?_map]
  rfl

theorem hasExplicitWriteEntryForMetadataPath_iff {metadataPath : AbsolutePathBuf} :
    policy.hasExplicitWriteEntryForMetadataPath host metadataPath path cwd ↔
      ∃ explicit ∈ policy.writePaths host cwd, explicit ≤ path ∧ metadataPath ≤ explicit := by
  rw [hasExplicitWriteEntryForMetadataPath, List.any_eq_true]
  constructor
  · rintro ⟨⟨explicit, access⟩, hentry, hall⟩
    simp only [FileSystemAccessMode.canWrite, Bool.and_eq_true, decide_eq_true_eq] at hall
    obtain ⟨⟨rfl, hle⟩, hmetadata⟩ := hall
    exact ⟨explicit, mem_writePaths.mpr hentry, hle, hmetadata⟩
  · rintro ⟨explicit, hexplicit, hle, hmetadata⟩
    exact ⟨_, mem_writePaths.mp hexplicit, by simp [FileSystemAccessMode.canWrite, hle, hmetadata]⟩

end FileSystemSandboxPolicy

end Codex.Sandbox
