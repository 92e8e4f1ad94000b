import Codex.Sandbox.Additional

namespace Codex.Sandbox

open Text Data FileSystemSandboxPolicy FileSystemAccessMode AdditionalPermissionProfile
open List AbsolutePathBuf

/-!
# Granted permissions

A command asks for a profile of permissions and is granted another one; what it gets are the entries
of the second that lie within the first, together with the denied paths of both.  Whether an entry
lies within the request is only checked at its own path.

* `intersectPermissionProfiles` — what the command gets;
* `FileSystemAccessMode.permissiveness` — how much an access mode allows;
* `NarrowingsKept` — below a folder that is granted for writing, what either side only lets be read
  is decided by a narrower entry of the result;
* `intersect_within_iff` — nothing gets more access than either side gives to it, just when the
  narrower entries are kept.
-/

/-! ### Denied paths and patterns -/

/-- The answers that matching denied paths asks for in addition: real paths, and the patterns that
    the glob library compiles. -/
structure MatcherHost extends Host where
  canonicalize : AbsolutePathBuf → Option AbsolutePathBuf
  buildGlobMatcher : Text → Option (AbsolutePathBuf → Bool)

def normalizedAndCanonicalCandidates (host : MatcherHost) (path : AbsolutePathBuf) :
    List AbsolutePathBuf :=
  match host.canonicalize path with
  | none => [path]
  | some canonical => if canonical = path then [path] else [path, canonical]

structure ReadDenyMatcher where
  deniedCandidates : List (List AbsolutePathBuf)
  denyReadMatchers : List (AbsolutePathBuf → Bool)
  invalidPattern : Bool

namespace ReadDenyMatcher

/-- The matcher of a policy, if it denies anything.  A pattern that cannot be compiled denies
    everything. -/
def new (host : MatcherHost) (policy : FileSystemSandboxPolicy) (cwd : AbsolutePathBuf) :
    Option ReadDenyMatcher :=
  if !policy.hasDeniedReadRestrictions then none
  else
    let patterns := policy.getUnreadableGlobsWithCwd host.toHost cwd
    some {
      deniedCandidates := (policy.getUnreadableRootsWithCwd host.toHost cwd).map
        (normalizedAndCanonicalCandidates host)
      denyReadMatchers := patterns.filterMap host.buildGlobMatcher
      invalidPattern := patterns.any fun pattern => (host.buildGlobMatcher pattern).isNone }

def isReadDenied (matcher : ReadDenyMatcher) (host : MatcherHost) (path : AbsolutePathBuf) : Bool :=
  if matcher.invalidPattern then true
  else
    let pathCandidates := normalizedAndCanonicalCandidates host path
    if matcher.deniedCandidates.any fun deniedCandidates => pathCandidates.any fun candidate =>
      deniedCandidates.any fun deniedCandidate => deniedCandidate ≤ candidate then true
    else matcher.denyReadMatchers.any fun isMatch => pathCandidates.any isMatch

end ReadDenyMatcher

/-! ### Entries within a request -/

def FileSystemSandboxPolicy.restricted (entries : List FileSystemSandboxEntry) :
    FileSystemSandboxPolicy := ⟨.restricted, none, entries⟩

def accessCovers (requested granted : FileSystemAccessMode) : Bool :=
  match granted with
  | .read => requested.canRead
  | .write => requested.canWrite
  | .deny => false

variable (host : Host)

def resolvePermissionPath (path : FileSystemPath) (cwd : AbsolutePathBuf) :
    Option AbsolutePathBuf :=
  match path with
  | .path path => some path
  | .globPattern _ => none
  | .special .root => some rootPath
  | .special (.projectRoots (some subpath)) => some (resolvePathAgainstBase host.home subpath cwd)
  | .special (.projectRoots none) => some cwd
  | .special .tmpdir => do
    let tmpdir ← host.tmpdir
    if tmpdir.isEmpty then none else fromAbsolutePath host.home host.currentDir tmpdir
  | .special .slashTmp => if host.isDir slashTmpPath then some slashTmpPath else none
  | .special .minimal | .special (.unknown _ _) => none

/-- An entry that depends on the working directory, as a path or an absolute pattern. -/
def materializeCwdDependentEntry (entry : FileSystemSandboxEntry) (cwd : AbsolutePathBuf) :
    FileSystemSandboxEntry :=
  match entry.path with
  | .special (.projectRoots _) =>
    match resolvePermissionPath host entry.path cwd with
    | some path => ⟨.path path, entry.access⟩
    | none => entry
  | .globPattern pattern =>
    ⟨.globPattern (resolvePathAgainstBase host.home pattern cwd).display, entry.access⟩
  | .path _ | .special _ => entry

def grantedFileSystemEntryWithinRequest (host : MatcherHost) (requested : FileSystemPermissions)
    (requestedPolicy : FileSystemSandboxPolicy) (requestedReadDenyMatcher : Option ReadDenyMatcher)
    (grantedEntry : FileSystemSandboxEntry) (cwd : AbsolutePathBuf) : Bool :=
  if !grantedEntry.access.canRead then false
  else
    match resolvePermissionPath host.toHost grantedEntry.path cwd with
    | some path =>
      if requestedReadDenyMatcher.any fun matcher => matcher.isReadDenied host path then false
      else accessCovers (requestedPolicy.resolveAccessWithCwd host.toHost path cwd)
        grantedEntry.access
    | none => requested.entries.any fun requestedEntry =>
      accessCovers requestedEntry.access grantedEntry.access &&
        requestedEntry.path == grantedEntry.path

/-! ### Denied entries that constrain a grant -/

def pathsOverlap (left right : AbsolutePathBuf) : Bool := right ≤ left || left ≤ right

/-- The folder that a pattern searches, told from the text in front of its first special
    character. -/
def globStaticPrefixPath (pattern : Text) (cwd : AbsolutePathBuf) : Option AbsolutePathBuf :=
  let resolvedPattern := (resolvePathAgainstBase host.home pattern cwd).display
  let staticPrefix := resolvedPattern.takeWhile fun c => !isGlobChar c
  if staticPrefix.length = resolvedPattern.length then
    fromAbsolutePath host.home host.currentDir resolvedPattern
  else if staticPrefix.isEmpty then none
  else if staticPrefix.getLast? = some '/' || staticPrefix.getLast? = some '\\' then
    fromAbsolutePath host.home host.currentDir staticPrefix
  else
    match pathComponents staticPrefix with
    | [] | [_] => none
    | components => some (normalizePath components.dropLast)

variable (denyEntry : FileSystemSandboxEntry)

/-- A denied entry lies above or below a path. -/
def denyEntryOverlaps (cwd : AbsolutePathBuf) (grantPath : AbsolutePathBuf) : Bool :=
  match denyEntry.path with
  | .globPattern pattern =>
    (globStaticPrefixPath host pattern cwd).any fun path => pathsOverlap path grantPath
  | .path _ | .special _ =>
    (resolvePermissionPath host denyEntry.path cwd).any fun denyPath =>
      pathsOverlap denyPath grantPath

def denyEntryConstrainsAcceptedGrant
    (acceptedEntries : List FileSystemSandboxEntry) (cwd : AbsolutePathBuf) : Bool :=
  (acceptedEntries.filter (·.access.canRead)).any fun entry =>
    (resolvePermissionPath host entry.path cwd).any (denyEntryOverlaps host denyEntry cwd)

/-- The denied entries that lie above or below an accepted one. -/
def constrainingDenyEntries (sourceEntries acceptedEntries : List FileSystemSandboxEntry)
    (cwd : AbsolutePathBuf) : List FileSystemSandboxEntry :=
  ((sourceEntries.filter (·.access = .deny)).filter fun entry =>
    denyEntryConstrainsAcceptedGrant host entry acceptedEntries cwd).map
      (materializeCwdDependentEntry host · cwd)

/-- The entries with the denied ones that are new, and all denied ones that were kept. -/
def retainConstrainingDenyEntries (sourceEntries acceptedEntries : List FileSystemSandboxEntry)
    (cwd : AbsolutePathBuf) (outputEntries : List FileSystemSandboxEntry) :
    List FileSystemSandboxEntry × List FileSystemSandboxEntry :=
  let retainedEntries := constrainingDenyEntries host sourceEntries acceptedEntries cwd
  (insertNew outputEntries retainedEntries, retainedEntries)

/-! ### The intersection -/

def nonZeroUsize (n : Nat) : Option PNat := if h : 0 < n then some ⟨n, h⟩ else none

/-- The granted entries that lie within the request, each once. -/
def acceptedEntries (host : MatcherHost) (requested granted : FileSystemPermissions)
    (cwd : AbsolutePathBuf) : List FileSystemSandboxEntry :=
  let requestedPolicy := restricted requested.entries
  let matcher := ReadDenyMatcher.new host requestedPolicy cwd
  insertNew [] ((granted.entries.filter fun entry =>
    grantedFileSystemEntryWithinRequest host requested requestedPolicy matcher entry cwd).map
      (materializeCwdDependentEntry host.toHost · cwd))

def intersectFileSystemPermissions (host : MatcherHost) (requested granted : FileSystemPermissions)
    (cwd : AbsolutePathBuf) : FileSystemPermissions :=
  let accepted := acceptedEntries host requested granted cwd
  let (entries, requestedRetained) :=
    retainConstrainingDenyEntries host.toHost requested.entries accepted cwd accepted
  let (entries, grantedRetained) :=
    retainConstrainingDenyEntries host.toHost granted.entries accepted cwd entries
  { globScanMaxDepth := (mergeGlobScanMaxDepth requestedRetained
      (requested.globScanMaxDepth.map PNat.val) grantedRetained
      (granted.globScanMaxDepth.map PNat.val)).bind nonZeroUsize
    entries }

def intersectNetworkPermissions : Option NetworkPermissions → Option NetworkPermissions →
    Option NetworkPermissions
  | some ⟨some true⟩, some ⟨some true⟩ => some ⟨some true⟩
  | _, _ => none

def intersectPermissionProfiles (host : MatcherHost)
    (requested granted : AdditionalPermissionProfile) (cwd : AbsolutePathBuf) :
    AdditionalPermissionProfile :=
  { network := intersectNetworkPermissions requested.network granted.network
    fileSystem := (requested.fileSystem.map fun requestedFileSystem =>
      intersectFileSystemPermissions host requestedFileSystem
        (granted.fileSystem.getD ⟨[], none⟩) cwd).filter (!·.entries.isEmpty) }

/-! ### The entries of the result -/

theorem resolvePermissionPath_eq (path : FileSystemPath) (cwd : AbsolutePathBuf) :
    resolvePermissionPath host path cwd = resolveEntryPath host path cwd := by
  match path with
  | .path _ | .globPattern _ => rfl
  | .special .root | .special .minimal | .special .tmpdir | .special .slashTmp => rfl
  | .special (.unknown _ _) => rfl
  | .special (.projectRoots none) | .special (.projectRoots (some _)) => rfl

/-- Materializing an entry changes neither what it stands for nor its access mode. -/
theorem resolve_materialize (entry : FileSystemSandboxEntry) (cwd : AbsolutePathBuf) :
    resolveEntryPath host (materializeCwdDependentEntry host entry cwd).path cwd =
        resolveEntryPath host entry.path cwd ∧
      (materializeCwdDependentEntry host entry cwd).access = entry.access := by
  obtain ⟨path, access⟩ := entry
  match path with
  | .path _ | .globPattern _ => exact ⟨rfl, rfl⟩
  | .special .root | .special .minimal | .special .tmpdir | .special .slashTmp => exact ⟨rfl, rfl⟩
  | .special (.unknown _ _) => exact ⟨rfl, rfl⟩
  | .special (.projectRoots none) | .special (.projectRoots (some _)) => exact ⟨rfl, rfl⟩

/-- An entry of a list, as a path. -/
def Resolves (cwd : AbsolutePathBuf) (entries : List FileSystemSandboxEntry)
    (entry : ResolvedFileSystemEntry) : Prop :=
  ∃ source ∈ entries, resolveEntryPath host source.path cwd = some entry.path ∧
    source.access = entry.access

variable {entry : ResolvedFileSystemEntry} {cwd : AbsolutePathBuf}

variable {front back : List FileSystemSandboxEntry} {entries : List FileSystemSandboxEntry}

theorem mem_resolved_restricted {host : Host} :
    entry ∈ (restricted entries).resolvedEntriesWithCwd host cwd ↔
      Resolves host cwd entries entry := mem_resolvedEntriesWithCwd

theorem resolves_append {host : Host} :
    Resolves host cwd (front ++ back) entry ↔
      Resolves host cwd front entry ∨ Resolves host cwd back entry := by
  simp [Resolves, or_and_right, exists_or]

theorem resolves_insertNew {host : Host} :
    Resolves host cwd (insertNew front back) entry ↔
      Resolves host cwd front entry ∨ Resolves host cwd back entry := by
  rw [← resolves_append, ← mem_resolved_restricted, ← mem_resolved_restricted]
  show entry ∈ ((restricted front).insertEntries back).resolvedEntriesWithCwd host cwd ↔ _
  exact mem_resolvedEntries_insertEntries

theorem resolves_map_materialize {host : Host} :
    Resolves host cwd (entries.map (materializeCwdDependentEntry host · cwd)) entry ↔
      Resolves host cwd entries entry := by
  constructor
  · rintro ⟨_, hmem, hpath, haccess⟩
    obtain ⟨source, hsource, rfl⟩ := mem_map.mp hmem
    rw [(resolve_materialize host source cwd).1] at hpath
    rw [(resolve_materialize host source cwd).2] at haccess
    exact ⟨source, hsource, hpath, haccess⟩
  · rintro ⟨source, hsource, hpath, haccess⟩
    refine ⟨_, mem_map_of_mem hsource, ?_, ?_⟩
    · rw [(resolve_materialize host source cwd).1, hpath]
    · rw [(resolve_materialize host source cwd).2, haccess]

/-- A denied path is kept if it lies above or below an accepted one. -/
theorem denyEntryConstrains_iff {host : Host} {cwd denyPath : AbsolutePathBuf}
    {denyEntry : FileSystemSandboxEntry} {accepted : List FileSystemSandboxEntry}
    (hdeny : resolveEntryPath host denyEntry.path cwd = some denyPath) :
    denyEntryConstrainsAcceptedGrant host denyEntry accepted cwd ↔
      ∃ grant, Resolves host cwd accepted grant ∧ grant.access ≠ .deny ∧
        (grant.path ≤ denyPath ∨ denyPath ≤ grant.path) := by
  have hoverlaps : ∀ grantPath, denyEntryOverlaps host denyEntry cwd grantPath ↔
      grantPath ≤ denyPath ∨ denyPath ≤ grantPath := by
    obtain ⟨path, access⟩ := denyEntry
    have hpath := (resolvePermissionPath_eq host path cwd).trans hdeny
    cases path with
    | globPattern pattern => cases hdeny
    | path | special => simp [denyEntryOverlaps, hpath, pathsOverlap]
  unfold denyEntryConstrainsAcceptedGrant
  simp only [any_eq_true, mem_filter, Option.any_eq_true, hoverlaps, resolvePermissionPath_eq]
  constructor
  · rintro ⟨source, ⟨hsource, hread⟩, grantPath, hpath, hoverlap⟩
    exact ⟨⟨grantPath, source.access⟩, ⟨source, hsource, hpath, rfl⟩,
      by simpa [canRead] using hread, hoverlap⟩
  · rintro ⟨grant, ⟨source, hsource, hpath, haccess⟩, hread, hoverlap⟩
    refine ⟨source, ⟨hsource, ?_⟩, grant.path, hpath, hoverlap⟩
    simpa [canRead, haccess] using hread

/-- The granted entries that lie within the request. -/
def grantsWithin (host : MatcherHost) (requested granted : FileSystemPermissions)
    (cwd : AbsolutePathBuf) : List FileSystemSandboxEntry :=
  granted.entries.filter fun entry => grantedFileSystemEntryWithinRequest host requested
    (restricted requested.entries)
    (ReadDenyMatcher.new host (restricted requested.entries) cwd) entry cwd

section Result

variable {host : MatcherHost} {requested granted : FileSystemPermissions} {cwd : AbsolutePathBuf}

variable {entry : ResolvedFileSystemEntry}

theorem resolves_acceptedEntries :
    Resolves host.toHost cwd (acceptedEntries host requested granted cwd) entry ↔
      Resolves host.toHost cwd (grantsWithin host requested granted cwd) entry := by
  have hnil : ¬ Resolves host.toHost cwd [] entry := by
    rintro ⟨_, hmem, -⟩
    cases hmem
  unfold acceptedEntries
  rw [resolves_insertNew, resolves_map_materialize, or_iff_right hnil]
  rfl

variable {grant : ResolvedFileSystemEntry}

section

variable (h : Resolves host.toHost cwd (grantsWithin host requested granted cwd) grant)
include h

/-- Grants within the request are for reading or writing, and the request covers their access mode
    at their own path. -/
theorem covers_of_grantsWithin : accessCovers ((restricted requested.entries).resolveAccessWithCwd
      host.toHost grant.path cwd) grant.access := by
  obtain ⟨source, hsource, hpath, haccess⟩ := h
  have hwithin := (mem_filter.mp hsource).2
  unfold grantedFileSystemEntryWithinRequest at hwithin
  rw [resolvePermissionPath_eq, hpath] at hwithin
  split at hwithin
  · cases hwithin
  · simp only at hwithin
    split at hwithin
    · cases hwithin
    · rwa [haccess] at hwithin

theorem access_ne_deny_of_grantsWithin : grant.access ≠ .deny := by
  intro hdeny
  have hcovers := covers_of_grantsWithin h
  rw [hdeny] at hcovers
  cases hcovers

end

/-- The denied paths of one side that are kept. -/
theorem resolves_constrainingDenyEntries {source : List FileSystemSandboxEntry} :
    Resolves host.toHost cwd (constrainingDenyEntries host.toHost source
        (acceptedEntries host requested granted cwd) cwd) entry ↔
      entry.access = .deny ∧ Resolves host.toHost cwd source entry ∧
        ∃ grant, Resolves host.toHost cwd (grantsWithin host requested granted cwd) grant ∧
          (grant.path ≤ entry.path ∨ entry.path ≤ grant.path) := by
  unfold constrainingDenyEntries
  rw [resolves_map_materialize]
  constructor
  · rintro ⟨denyEntry, hmem, hpath, haccess⟩
    obtain ⟨hmem, hconstrains⟩ := mem_filter.mp hmem
    obtain ⟨hmem, hdeny⟩ := mem_filter.mp hmem
    obtain ⟨grant, hgrant, -, hoverlap⟩ := (denyEntryConstrains_iff hpath).mp hconstrains
    have hdeny : denyEntry.access = .deny := by simpa using hdeny
    exact ⟨haccess.symm.trans hdeny, ⟨denyEntry, hmem, hpath, haccess⟩, grant,
      resolves_acceptedEntries.mp hgrant, hoverlap⟩
  · rintro ⟨hdeny, ⟨denyEntry, hmem, hpath, haccess⟩, grant, hgrant, hoverlap⟩
    refine ⟨denyEntry, mem_filter.mpr ⟨mem_filter.mpr ⟨hmem, ?_⟩, ?_⟩, hpath, haccess⟩
    · simpa using haccess.trans hdeny
    · exact (denyEntryConstrains_iff hpath).mpr ⟨grant, resolves_acceptedEntries.mpr hgrant,
        access_ne_deny_of_grantsWithin hgrant, hoverlap⟩

/-- **The entries of the result**: the grants within the request, and the denied paths of both sides
    that lie above or below one of them. -/
theorem resolves_intersect :
    Resolves host.toHost cwd (intersectFileSystemPermissions host requested granted cwd).entries
        entry ↔
      Resolves host.toHost cwd (grantsWithin host requested granted cwd) entry ∨
      entry.access = .deny ∧
        (Resolves host.toHost cwd requested.entries entry ∨
          Resolves host.toHost cwd granted.entries entry) ∧
        ∃ grant, Resolves host.toHost cwd (grantsWithin host requested granted cwd) grant ∧
          (grant.path ≤ entry.path ∨ entry.path ≤ grant.path) := by
  show Resolves host.toHost cwd (insertNew (insertNew _ (constrainingDenyEntries host.toHost
    requested.entries _ cwd)) (constrainingDenyEntries host.toHost granted.entries _ cwd)) entry ↔ _
  rw [resolves_insertNew, resolves_insertNew, resolves_acceptedEntries,
    resolves_constrainingDenyEntries, resolves_constrainingDenyEntries, or_assoc]
  refine or_congr_right ?_
  constructor
  · rintro (⟨hdeny, hsource, hgrant⟩ | ⟨hdeny, hsource, hgrant⟩)
    · exact ⟨hdeny, .inl hsource, hgrant⟩
    · exact ⟨hdeny, .inr hsource, hgrant⟩
  · rintro ⟨hdeny, hsource | hsource, hgrant⟩
    · exact .inl ⟨hdeny, hsource, hgrant⟩
    · exact .inr ⟨hdeny, hsource, hgrant⟩

end Result

/-! ### Nothing gets more access -/

/-- How much an access mode allows. -/
def FileSystemAccessMode.permissiveness : FileSystemAccessMode → Nat
  | deny => 0
  | read => 1
  | write => 2

theorem permissiveness_le_of_covers {requested granted : FileSystemAccessMode}
    (h : accessCovers requested granted) :
    granted.permissiveness ≤ requested.permissiveness := by
  cases requested <;> cases granted <;> first | decide | exact absurd h (by decide)

/-- Of entries for one path, the one that wins allows more unless it denies. -/
theorem permissiveness_le_of_le {mode mode' : FileSystemAccessMode} (hle : mode ≤ mode')
    (hdeny : mode' ≠ .deny) : mode.permissiveness ≤ mode'.permissiveness := by
  cases mode <;> cases mode' <;>
    first | decide | exact absurd rfl hdeny | exact absurd hle (by decide)

theorem permissiveness_le_write (mode : FileSystemAccessMode) :
    mode.permissiveness ≤ write.permissiveness := by
  cases mode <;> decide

/-- **Narrower entries are kept.**  Where one side has an entry for reading, and none for writing,
    below a folder that is granted for writing, there is a grant between the two or a denied path of
    either side. -/
def NarrowingsKept (host : MatcherHost) (requested granted : FileSystemPermissions)
    (cwd : AbsolutePathBuf) : Prop :=
  ∀ dir, Resolves host.toHost cwd (grantsWithin host requested granted cwd) ⟨dir, .write⟩ →
    ∀ side, side = requested.entries ∨ side = granted.entries →
    ∀ path, dir < path → Resolves host.toHost cwd side ⟨path, .read⟩ →
      ¬ Resolves host.toHost cwd side ⟨path, .write⟩ →
      (∃ grant, Resolves host.toHost cwd (grantsWithin host requested granted cwd) grant ∧
        dir < grant.path ∧ grant.path ≤ path) ∨
      ∃ denied, (Resolves host.toHost cwd requested.entries ⟨denied, .deny⟩ ∨
        Resolves host.toHost cwd granted.entries ⟨denied, .deny⟩) ∧ dir ≤ denied ∧ denied ≤ path

section Intersect

variable {host : MatcherHost} {requested granted : FileSystemPermissions} {cwd : AbsolutePathBuf}
  {result : List FileSystemSandboxEntry}
  (hresult : ∀ entry, Resolves host.toHost cwd result entry ↔ Resolves host.toHost cwd
    (intersectFileSystemPermissions host requested granted cwd).entries entry)
include hresult

section Within

variable {path : AbsolutePathBuf} {grant : ResolvedFileSystemEntry}
  (hgrant : Resolves host.toHost cwd (grantsWithin host requested granted cwd) grant)
  (hdec : Decides ((restricted result).resolvedEntriesWithCwd host.toHost cwd) path grant)
include hgrant hdec

/-- Where a grant decides, no denied path of either side lies between. -/
theorem not_denied_of_grant_decides {denied : AbsolutePathBuf}
    (hdenied : Resolves host.toHost cwd requested.entries ⟨denied, .deny⟩ ∨
      Resolves host.toHost cwd granted.entries ⟨denied, .deny⟩)
    (hle : grant.path ≤ denied) (hpath : denied ≤ path) : False := by
  have hmem : (⟨denied, .deny⟩ : ResolvedFileSystemEntry) ∈
      (restricted result).resolvedEntriesWithCwd host.toHost cwd := by
    rw [mem_resolved_restricted, hresult, resolves_intersect]
    exact .inr ⟨rfl, hdenied, grant, hgrant, .inl hle⟩
  obtain ⟨hge, hmode⟩ := hdec.wins _ hmem hpath
  have hmode : deny ≤ grant.access := hmode (le_antisymm hge hle)
  refine access_ne_deny_of_grantsWithin hgrant (le_antisymm ?_ hmode)
  cases grant.access <;> decide

/-- Where a grant decides, a side whose own entry decides differently lets the path be written, or
    the grant is only for reading. -/
theorem permissiveness_le_of_lt (hkept : NarrowingsKept host requested granted cwd)
    {side : List FileSystemSandboxEntry} (hside : side = requested.entries ∨ side = granted.entries)
    {entry : ResolvedFileSystemEntry}
    (hentry : Decides ((restricted side).resolvedEntriesWithCwd host.toHost cwd) path entry)
    (hlt : grant.path < entry.path) :
    grant.access.permissiveness ≤ entry.access.permissiveness := by
  have hsource : Resolves host.toHost cwd side entry := mem_resolved_restricted.mp hentry.mem
  obtain ⟨dir, access⟩ := grant
  obtain ⟨narrow, mode⟩ := entry
  cases mode with
  | write => exact permissiveness_le_write access
  | deny =>
    refine (not_denied_of_grant_decides hresult hgrant hdec ?_ hlt.le hentry.le).elim
    rcases hside with rfl | rfl
    · exact .inl hsource
    · exact .inr hsource
  | read =>
    cases access with
    | read => exact le_rfl
    | deny => exact Nat.zero_le _
    | write =>
      have hnot : ¬ Resolves host.toHost cwd side ⟨narrow, .write⟩ := fun hwrite => by
        have hmode : write ≤ .read := (hentry.wins _
          (mem_resolved_restricted.mpr hwrite) hentry.le).2 rfl
        exact absurd hmode (by decide)
      rcases hkept dir hgrant side hside narrow hlt hsource hnot with
        ⟨between, hbetween, hdir, hnarrow⟩ | ⟨denied, hdenied, hdir, hnarrow⟩
      · have hmem : between ∈
            (restricted result).resolvedEntriesWithCwd host.toHost cwd := by
          rw [mem_resolved_restricted, hresult, resolves_intersect]
          exact .inl hbetween
        exact absurd (hdec.wins _ hmem (hnarrow.trans hentry.le)).1 hdir.not_ge
      · exact (not_denied_of_grant_decides hresult hgrant hdec hdenied hdir
          (hnarrow.trans hentry.le)).elim

end Within

/-- If narrower entries are kept, nothing gets more access. -/
theorem permissiveness_le_of_kept (hkept : NarrowingsKept host requested granted cwd)
    (path : AbsolutePathBuf) :
    ((restricted result).resolveAccessWithCwd host.toHost path cwd).permissiveness ≤
        ((restricted requested.entries).resolveAccessWithCwd host.toHost path cwd).permissiveness ∧
      ((restricted result).resolveAccessWithCwd host.toHost path cwd).permissiveness ≤
        ((restricted granted.entries).resolveAccessWithCwd host.toHost path
          cwd).permissiveness := by
  rcases exists_decides
    (rfl : (restricted result).kind = .restricted) host.toHost path cwd with
    ⟨grant, hdec, haccess⟩ | ⟨-, hdeny⟩
  swap
  · rw [hdeny]
    exact ⟨Nat.zero_le _, Nat.zero_le _⟩
  rw [haccess]
  have hmem := mem_resolved_restricted.mp hdec.mem
  rw [hresult, resolves_intersect] at hmem
  rcases hmem with hgrant | ⟨hdeny, -⟩
  swap
  · rw [hdeny]
    exact ⟨Nat.zero_le _, Nat.zero_le _⟩
  have hcovers := covers_of_grantsWithin hgrant
  constructor
  · -- the request covers the grant at its own path
    rcases exists_decides
      (rfl : (restricted requested.entries).kind = .restricted) host.toHost
      path cwd with ⟨entry, hentry, hmode⟩ | ⟨hnone, -⟩
    · rw [hmode]
      by_cases hlt : grant.path < entry.path
      · exact permissiveness_le_of_lt hresult hgrant hdec hkept (.inl rfl) hentry hlt
      · have hle : entry.path ≤ grant.path :=
          (le_or_le_of_le hentry.le hdec.le).elim id fun hge =>
            (hge.eq_or_lt.resolve_right hlt).ge
        rw [resolveAccess_of_decides rfl (hentry.between hle hdec.le)] at hcovers
        exact permissiveness_le_of_covers hcovers
    · rcases exists_decides
        (rfl : (restricted requested.entries).kind = .restricted)
        host.toHost grant.path cwd with ⟨entry, hentry, -⟩ | ⟨-, hdeny⟩
      · exact absurd (hentry.le.trans hdec.le) (hnone entry hentry.mem)
      · rw [hdeny] at hcovers
        exact absurd hcovers (by cases grant.access <;> decide)
  · -- the grant is itself one of the granted entries
    have hsource : grant ∈ (restricted granted.entries).resolvedEntriesWithCwd host.toHost cwd := by
      obtain ⟨source, hmem, hrest⟩ := hgrant
      exact mem_resolved_restricted.mpr ⟨source, (mem_filter.mp hmem).1, hrest⟩
    rcases exists_decides
      (rfl : (restricted granted.entries).kind = .restricted) host.toHost
      path cwd with ⟨entry, hentry, hmode⟩ | ⟨hnone, -⟩
    swap
    · exact absurd hdec.le (hnone grant hsource)
    rw [hmode]
    obtain ⟨hle, hge⟩ := hentry.wins grant hsource hdec.le
    rcases hle.eq_or_lt with heq | hlt
    · have hnot : entry.access ≠ .deny := fun hdeny => by
        refine not_denied_of_grant_decides hresult hgrant hdec (.inr ?_) hle hentry.le
        have hmem := mem_resolved_restricted.mp hentry.mem
        rwa [show entry = ⟨entry.path, .deny⟩ from by rw [← hdeny]] at hmem
      exact permissiveness_le_of_le (hge heq) hnot
    · exact permissiveness_le_of_lt hresult hgrant hdec hkept (.inr rfl) hentry hlt

/-- If a grant for writing is not narrowed where one side narrows it, the path gets more access than
    that side gives to it. -/
theorem exists_exceeds_of_not_kept (hkept : ¬ NarrowingsKept host requested granted cwd) :
    ∃ side path, (side = requested.entries ∨ side = granted.entries) ∧
      ((restricted side).resolveAccessWithCwd host.toHost path cwd).permissiveness <
        ((restricted result).resolveAccessWithCwd host.toHost path cwd).permissiveness := by
  unfold NarrowingsKept at hkept
  push Not at hkept
  obtain ⟨dir, hgrant, side, hside, path, hlt, hread, hwrite, hgrants, hdenied⟩ := hkept
  have hmem : (⟨dir, .write⟩ : ResolvedFileSystemEntry) ∈
      (restricted result).resolvedEntriesWithCwd host.toHost cwd := by
    rw [mem_resolved_restricted, hresult, resolves_intersect]
    exact .inl hgrant
  have hresultAccess : (restricted result).resolveAccessWithCwd host.toHost
      path cwd = .write := by
    refine resolveAccess_of_decides rfl ⟨hmem, hlt.le, ?_⟩
    intro other hother hle
    have hother := mem_resolved_restricted.mp hother
    rw [hresult, resolves_intersect] at hother
    rcases hother with hother | ⟨hdeny, hsource, -⟩
    · have hbelow : other.path ≤ dir := by
        refine (le_or_le_of_le hle hlt.le).elim id fun habove => ?_
        exact (habove.eq_or_lt.resolve_right fun hdir => hgrants other hother hdir hle).ge
      exact ⟨hbelow, fun _ => le_write_of_ne_deny (access_ne_deny_of_grantsWithin hother)⟩
    · have heq : other = ⟨other.path, .deny⟩ := by rw [← hdeny]
      rw [heq] at hsource
      have hnot : ¬ dir ≤ other.path := fun habove => hdenied other.path hsource habove hle
      exact ⟨(le_or_le_of_le hle hlt.le).resolve_right hnot, fun heq => absurd heq.ge hnot⟩
  have hsideAccess : (restricted side).resolveAccessWithCwd host.toHost path
      cwd = .read := by
    refine resolveAccess_of_decides rfl
      ⟨mem_resolved_restricted.mpr hread, le_rfl, ?_⟩
    rintro ⟨other, mode⟩ hother hle
    refine ⟨hle, fun heq => ?_⟩
    have hother := mem_resolved_restricted.mp hother
    obtain rfl : other = path := heq
    cases mode with
    | read => exact le_rfl
    | write => exact absurd hother hwrite
    | deny =>
      refine absurd le_rfl (hdenied other ?_ hlt.le)
      rcases hside with rfl | rfl
      · exact .inl hother
      · exact .inr hother
  exact ⟨side, path, hside, by rw [hresultAccess, hsideAccess]; decide⟩

end Intersect

variable (profile : AdditionalPermissionProfile)

/-- What the file system entries of a profile let be done with a path. -/
def AdditionalPermissionProfile.accessTo (host : Host) (path cwd : AbsolutePathBuf) :
    FileSystemAccessMode :=
  (restricted (additionalEntries (some profile))).resolveAccessWithCwd host
    path cwd

def AdditionalPermissionProfile.fileSystemOrDefault : FileSystemPermissions :=
  profile.fileSystem.getD ⟨[], none⟩

theorem additionalEntries_eq :
    additionalEntries (some profile) = profile.fileSystemOrDefault.entries := by
  unfold additionalEntries fileSystemOrDefault
  cases hprofile : profile.fileSystem <;> simp [hprofile]

/-- Nothing is granted to an empty request. -/
theorem not_resolves_intersect_nil {host : MatcherHost} {granted : FileSystemPermissions}
    {cwd : AbsolutePathBuf} {depth : Option PNat} {entry : ResolvedFileSystemEntry} :
    ¬ Resolves host.toHost cwd
      (intersectFileSystemPermissions host ⟨[], depth⟩ granted cwd).entries entry := by
  have hno : ∀ grant, ¬ Resolves host.toHost cwd (grantsWithin host ⟨[], depth⟩ granted cwd)
      grant := by
    intro grant hgrant
    have hcovers := covers_of_grantsWithin hgrant
    have hdeny : (restricted []).resolveAccessWithCwd host.toHost grant.path
        cwd = .deny := rfl
    rw [hdeny] at hcovers
    exact absurd hcovers (by cases grant.access <;> decide)
  rw [resolves_intersect]
  rintro (hgrant | ⟨-, -, grant, hgrant, -⟩)
  · exact hno entry hgrant
  · exact hno grant hgrant

theorem resolves_intersectPermissionProfiles {host : MatcherHost}
    {requested granted : AdditionalPermissionProfile} {cwd : AbsolutePathBuf}
    {entry : ResolvedFileSystemEntry} : Resolves host.toHost cwd
        (additionalEntries (some (intersectPermissionProfiles host requested granted cwd))) entry ↔
      Resolves host.toHost cwd (intersectFileSystemPermissions host requested.fileSystemOrDefault
        granted.fileSystemOrDefault cwd).entries entry := by
  have hnil : ¬ Resolves host.toHost cwd [] entry := by
    rintro ⟨_, hmem, -⟩
    cases hmem
  rw [additionalEntries_eq]
  unfold fileSystemOrDefault intersectPermissionProfiles
  cases hrequested : requested.fileSystem with
  | none =>
    refine iff_of_false ?_ not_resolves_intersect_nil
    simpa using hnil
  | some requestedFileSystem =>
    by_cases hempty : (intersectFileSystemPermissions host requestedFileSystem
        (granted.fileSystem.getD ⟨[], none⟩) cwd).entries = []
    · simp [Option.filter, hempty]
    · simp [Option.filter, hempty]

/-- **A grant within the request.**  No path gets more access than the request and the grant give to
    it, just when narrower entries are kept. -/
theorem intersect_within_iff (host : MatcherHost) (requested granted : AdditionalPermissionProfile)
    (cwd : AbsolutePathBuf) :
    (∀ path, ((intersectPermissionProfiles host requested granted cwd).accessTo host.toHost path
        cwd).permissiveness ≤ (requested.accessTo host.toHost path cwd).permissiveness ∧
      ((intersectPermissionProfiles host requested granted cwd).accessTo host.toHost path
        cwd).permissiveness ≤ (granted.accessTo host.toHost path cwd).permissiveness) ↔
    NarrowingsKept host requested.fileSystemOrDefault granted.fileSystemOrDefault cwd := by
  have hresult : ∀ entry, Resolves host.toHost cwd
        (additionalEntries (some (intersectPermissionProfiles host requested granted cwd))) entry ↔
      Resolves host.toHost cwd (intersectFileSystemPermissions host requested.fileSystemOrDefault
        granted.fileSystemOrDefault cwd).entries entry :=
    fun _ => resolves_intersectPermissionProfiles
  unfold accessTo
  rw [additionalEntries_eq requested, additionalEntries_eq granted]
  constructor
  · intro hall
    by_contra hkept
    obtain ⟨side, path, hside | hside, hexceeds⟩ := exists_exceeds_of_not_kept hresult hkept
    · rw [hside] at hexceeds
      exact absurd (hall path).1 hexceeds.not_ge
    · rw [hside] at hexceeds
      exact absurd (hall path).2 hexceeds.not_ge
  · exact fun hkept => permissiveness_le_of_kept hresult hkept

/-- A profile with one folder for writing and some for reading. -/
def writeAndRead (folder : Text) (readOnly : List Text) : AdditionalPermissionProfile :=
  ⟨none, some ⟨⟨.path (absolutePath folder), .write⟩ ::
    readOnly.map fun path => ⟨.path (absolutePath path), .read⟩, none⟩⟩

/-- Paths are real, and there are no patterns. -/
def plainMatcherHost : MatcherHost :=
  { emptyHost with
    canonicalize := some
    buildGlobMatcher := fun _ => some fun _ => false }

/-- A folder that the request only wants to read is granted for writing with the folder above it. -/
theorem intersect_exceeds_request : (intersectPermissionProfiles plainMatcherHost
      (writeAndRead "/repo" ["/repo/docs"]) (writeAndRead "/repo" [])
      rootPath).accessTo plainMatcherHost.toHost (absolutePath "/repo/docs") rootPath =
        .write ∧ (writeAndRead "/repo" ["/repo/docs"]).accessTo plainMatcherHost.toHost
      (absolutePath "/repo/docs") rootPath = .read := by decide

end Codex.Sandbox
