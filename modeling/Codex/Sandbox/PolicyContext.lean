import Codex.Sandbox.Layers

namespace Codex.Sandbox

open Text Data FileSystemSandboxPolicy List AbsolutePathBuf FileSystemAccessMode

/-!
# The paths that the layers are about

The writable roots, the denied paths and the read-only paths of the layers, told from the entries of
the policy, where there are no symbolic links and no denied patterns.

* `PlainPolicy` — a policy and a host for which this is so, with the lists that the layers are made
  from;
* `mem_dirs_iff`, `mem_denied_iff` — writable roots and denied paths;
* `mem_readOnlySubpathsToMount` — the read-only paths of a writable root;
* `lt_or_gitdir` — they lie below the root, but for the folder that a `.git` file points to;
* `exists_unreadable` — a path that may not be read, below one that may, lies in a denied path.
-/

variable {paths : List AbsolutePathBuf} {path : AbsolutePathBuf}

@[simp] theorem mem_sortedPaths : path ∈ sortedPaths paths ↔ path ∈ paths := by
  unfold sortedPaths
  rw [mem_eraseDups, mem_insertionSort]

@[simp] theorem mem_sortByDepth : path ∈ sortByDepth paths ↔ path ∈ paths :=
  mem_insertionSort depthOrder

variable {writable : WritableRoot}

@[simp] theorem mem_sortWritableRoots {writableRoots : List WritableRoot} :
    writable ∈ sortWritableRoots writableRoots ↔ writable ∈ writableRoots := mem_insertionSort _

theorem isWithin_iff :
    isWithinAllowedWritePaths path paths ↔ ∃ root ∈ paths, root ≤ path := by
  simp [isWithinAllowedWritePaths]

/-- A policy without denied patterns. -/
def FileSystemSandboxPolicy.NoGlobs (policy : FileSystemSandboxPolicy) : Prop :=
  ∀ entry ∈ policy.entries, globPatternOf entry.path = none

theorem FileSystemSandboxPolicy.NoGlobs.getUnreadableGlobs_eq_nil {policy : FileSystemSandboxPolicy}
    (hglobs : policy.NoGlobs) (host : Host) (cwd : AbsolutePathBuf) :
    policy.getUnreadableGlobsWithCwd host cwd = [] := by
  unfold getUnreadableGlobsWithCwd
  split
  · rfl
  · have hnil : (policy.entries.filter (·.access = .deny)).filterMap (fun entry =>
        (globPatternOf entry.path).map fun pattern =>
          (resolvePathAgainstBase host.home pattern cwd).display) = [] := by
      rw [filterMap_eq_nil_iff]
      intro entry hentry
      rw [hglobs entry (mem_filter.mp hentry).1]
      rfl
    rw [hnil]
    rfl

/-- A policy without the entry for the folders of the platform. -/
def FileSystemSandboxPolicy.NoMinimal (policy : FileSystemSandboxPolicy) : Prop :=
  ∀ entry ∈ policy.entries, entry.path ≠ .special .minimal

/-- A restricted policy on a plain host, with neither denied patterns nor the entry for the folders
    of the platform, and a working directory. -/
structure PlainPolicy where
  policy : FileSystemSandboxPolicy
  host : LinuxHost
  cwd : AbsolutePathBuf
  plain : host.Plain
  kind : policy.kind = .restricted
  noGlobs : policy.NoGlobs
  noMinimal : policy.NoMinimal

namespace PlainPolicy

section Lists

variable (p : PlainPolicy)

abbrev context : BwrapContext := policyContext p.policy p.host p.cwd

/-- The writable roots that are there. -/
abbrev dirs : List AbsolutePathBuf := p.context.allowedWritePaths

/-- The denied paths other than the root of the file system. -/
abbrev denied : List AbsolutePathBuf := p.context.unreadableRoots

abbrev roots : List WritableRoot := existingWritableRoots p.policy p.host p.cwd

/-- The paths that are mounted for reading with a root. -/
abbrev subpaths (writable : WritableRoot) : List AbsolutePathBuf :=
  readOnlySubpathsToMount p.host p.context writable none

abbrev entries : List ResolvedFileSystemEntry := p.policy.resolvedEntriesWithCwd p.host.toHost p.cwd

abbrev writePaths : List AbsolutePathBuf := p.policy.writePaths p.host.toHost p.cwd

abbrev canRead (path : AbsolutePathBuf) : Bool :=
  p.policy.canReadPathWithCwd p.host.toHost path p.cwd

abbrev canWrite (path : AbsolutePathBuf) : Bool :=
  p.policy.canWritePathWithCwd p.host.toHost path p.cwd

end Lists

variable {p : PlainPolicy} {root : AbsolutePathBuf}

/-! ### Writable roots -/
/-- What a writable root of a policy is made of. -/
theorem of_mem_roots (h : writable ∈ p.roots) :
    p.policy.hasFullDiskWriteAccess = false ∧ writable.root ∈ p.writePaths ∧
    p.canWrite writable.root ∧ p.host.pathExists writable.root ∧
    (∀ subpath, subpath ∈ writable.readOnlySubpaths ↔
      p.policy.ReadOnlyBelow p.host.toHost p.cwd writable.root subpath) ∧
    ∀ name, name ∈ writable.protectedMetadataNames ↔ name ∈ protectedMetadataPathNames ∧
      p.canWrite (childPath writable.root name) = false := by
  unfold roots existingWritableRoots at h
  simp only [p.noGlobs.getUnreadableGlobs_eq_nil, isEmpty_nil, Bool.not_true, Bool.and_false] at h
  obtain ⟨hmem, hexists⟩ := mem_filter.mp h
  unfold getWritableRootsWithCwd at hmem
  split at hmem
  · cases hmem
  obtain ⟨root, hroot, rfl⟩ := mem_map.mp hmem
  rw [mem_dedupAbsolutePaths p.plain.noSymlinks, mem_writableEntries] at hroot
  refine ⟨Bool.eq_false_iff.mpr ‹_›, hroot.1, hroot.2, hexists, fun subpath => ?_, fun name => ?_⟩
  · exact mem_readOnlySubpathsForRoot p.plain.noSymlinks (eq_of_mem_raw p.plain.noSymlinks)
  · exact mem_protectedMetadataNamesForWritableRoot (eq_of_mem_raw p.plain.noSymlinks)

/-- **Writable roots** are the entries for writing that may be written and that are there. -/
theorem mem_dirs_iff : root ∈ p.dirs ↔ p.policy.hasFullDiskWriteAccess = false ∧
    root ∈ p.writePaths ∧ p.canWrite root ∧ p.host.pathExists root := by
  constructor
  · intro h
    obtain ⟨writable, hmem, rfl⟩ := mem_map.mp h
    obtain ⟨hfull, hroot, hcan, hexists, -⟩ := of_mem_roots hmem
    exact ⟨hfull, hroot, hcan, hexists⟩
  · rintro ⟨hfull, hroot, hcan, hexists⟩
    simp only [dirs, policyContext, existingWritableRoots,
      p.noGlobs.getUnreadableGlobs_eq_nil, Bool.and_false, getWritableRootsWithCwd, hfull]
    refine mem_map.mpr
      ⟨_, mem_filter.mpr ⟨mem_map.mpr ⟨root, ?_, rfl⟩, hexists⟩, rfl⟩
    rw [mem_dedupAbsolutePaths p.plain.noSymlinks, mem_writableEntries]
    exact ⟨hroot, hcan⟩

/-! ### Denied paths -/

/-- **Denied paths** are those of entries that deny, but for the root of the file system. -/
theorem mem_denied_iff :
    path ∈ p.denied ↔ ⟨path, .deny⟩ ∈ p.entries ∧ p.canRead path = false ∧ path ≠ rootPath := by
  simp only [denied, policyContext, mem_sortedPaths,
    getUnreadableRootsWithCwd, p.kind, ne_eq, not_true_eq_false, if_false,
    mem_dedupAbsolutePaths p.plain.noSymlinks, mem_map, mem_filter]
  constructor
  · rintro ⟨⟨path, access⟩, ⟨hmem, hall⟩, rfl⟩
    simp only [Bool.and_eq_true, decide_eq_true_eq, Bool.not_eq_true'] at hall
    obtain ⟨⟨rfl, hread⟩, hroot⟩ := hall
    exact ⟨hmem, hread, hroot⟩
  · rintro ⟨hmem, hread, hroot⟩
    exact ⟨_, ⟨hmem, by simp [hread, hroot]⟩, rfl⟩

/-- A path that may not be read, below the path of an entry that may be read, is decided by an entry
    that denies, whose path is one of the denied paths. -/
theorem exists_unreadable {entry : ResolvedFileSystemEntry} (hentry : entry ∈ p.entries)
    (hle : entry.path ≤ path) (hread : p.canRead entry.path) (hdenied : p.canRead path = false) :
    ∃ denied, Decides p.entries path denied ∧ denied.access = .deny ∧ denied.path ∈ p.denied := by
  rcases exists_decides p.kind p.host.toHost path p.cwd with
    ⟨denied, hdec, haccess⟩ | ⟨hnone, -⟩
  · have hdeny : denied.access = .deny := by
      simpa [canReadPathWithCwd, haccess, FileSystemAccessMode.canRead]
        using hdenied
    have hself : p.canRead denied.path = false := by
      rw [canRead, canReadPathWithCwd, resolveAccess_of_decides p.kind hdec.self, hdeny]
      rfl
    refine ⟨denied, hdec, hdeny, mem_denied_iff.mpr ⟨?_, hself, ?_⟩⟩
    · rw [← hdeny]
      exact hdec.mem
    · -- the entry that may be read lies properly above
      intro hroot
      have heq : entry.path = denied.path :=
        le_antisymm (hdec.wins _ hentry hle).1 (hroot ▸ rootPath_le _)
      rw [heq, hself] at hread
      cases hread
  · exact absurd hle (hnone _ hentry)

theorem canRead_of_canWrite (h : p.canWrite path) : p.canRead path := by
  unfold canWrite canWritePathWithCwd at h
  split at h
  · cases h
  · rename_i hwrite
    have : p.policy.resolveAccessWithCwd p.host.toHost path p.cwd = .write := by
      simpa [FileSystemAccessMode.canWrite] using hwrite
    rw [canRead, canReadPathWithCwd, this]
    rfl

end PlainPolicy

/-! ### Read-only paths -/

variable {policy : FileSystemSandboxPolicy} {host : LinuxHost} {cwd root : AbsolutePathBuf}
theorem not_pathExists_of_mem_missingAutoMetadata
    (h : path ∈ missingAutoMetadataReadOnlyProjectRootSubpaths policy host cwd) :
    host.pathExists path = false := by
  obtain ⟨entry, -, hentry⟩ := mem_filterMap.mp h
  split at hentry
  · split at hentry
    · simp only at hentry
      split at hentry
      · cases hentry
      · cases hentry
        exact Bool.eq_false_iff.mpr ‹_›
    · cases hentry
  · cases hentry

theorem mem_appendMetadataPathMasks {mountRoot : AbsolutePathBuf} {names : List NormalName} :
    path ∈ appendMetadataPathMasksForWritableRoot host paths root mountRoot names ↔
      path ∈ paths ∨ ∃ name ∈ names, path = childPath root name ∧
        shouldLeaveMissingGitForParentRepoDiscovery host mountRoot name = false := by
  unfold appendMetadataPathMasksForWritableRoot
  induction names generalizing paths with
  | nil => simp
  | cons name names ih =>
    rw [foldl_cons, ih, exists_mem_cons_iff, ← or_assoc]
    refine or_congr_left ?_
    cases hleave : shouldLeaveMissingGitForParentRepoDiscovery host mountRoot name with
    | true => simp
    | false =>
      by_cases hmem : childPath root name ∈ paths
      · simp only [contains_iff_mem, hmem, and_true]
        exact ⟨.inl, fun h => h.elim id fun heq => heq ▸ hmem⟩
      · simp [hmem]

/-- The read-only paths of a writable root that are mounted. -/
theorem mem_readOnlySubpathsToMount {context : BwrapContext} :
    path ∈ readOnlySubpathsToMount host context writable none ↔
      (path ∈ writable.readOnlySubpaths ∧ path ∉ context.unreadableRoots ∧
        path ∉ context.missingAutoMetadata) ∨
      ∃ name ∈ writable.protectedMetadataNames, path = childPath writable.root name ∧
        shouldLeaveMissingGitForParentRepoDiscovery host writable.root name = false := by
  unfold readOnlySubpathsToMount
  simp only [mem_appendMetadataPathMasks]
  simp

/-- Nothing else is at or below something empty. -/
theorem eq_of_transient (hplain : host.Plain) {target : AbsolutePathBuf}
    (htransient : transientEmptyMetadataPath host target ≠ none) (hle : target ≤ path)
    (hexists : host.pathExists path) : path = target := by
  unfold transientEmptyMetadataPath at htransient
  split at htransient
  · exact absurd rfl htransient
  split at htransient
  · exact absurd rfl htransient
  split at htransient
  · exact hplain.eq_of_isFile (Bool.and_eq_true_iff.mp ‹_›).1 hle hexists
  split at htransient
  · rename_i hempty
    obtain ⟨hdir, hempty⟩ := Bool.and_eq_true_iff.mp hempty
    exact hplain.eq_of_directoryIsEmpty hdir hempty hle hexists
  · exact absurd rfl htransient

theorem Host.PointsToGitdir.pathExists {gitdir : AbsolutePathBuf} (h : host.PointsToGitdir root gitdir) :
    host.pathExists gitdir := by
  obtain ⟨-, h⟩ := h
  obtain ⟨contents, -, h⟩ := Option.bind_eq_some_iff.mp h
  obtain ⟨⟨key, gitdirRaw⟩, -, h⟩ := Option.bind_eq_some_iff.mp h
  simp only at h
  split at h
  · cases h
  split at h
  · cases h
  obtain ⟨base, -, h⟩ := Option.bind_eq_some_iff.mp h
  split at h
  · cases h
    assumption
  · cases h

variable {p : PlainPolicy} (hroot : writable ∈ p.roots)
include hroot

/-- The read-only paths of a writable root lie below it, but for the folder that a `.git` file points
    to. -/
theorem PlainPolicy.lt_or_gitdir (hpath : path ∈ p.subpaths writable) :
    writable.root < path ∨ p.host.PointsToGitdir writable.root path ∧
      ∀ entry ∈ p.entries, entry.path ≠ path := by
  obtain ⟨-, -, -, -, hreadOnly, -⟩ := of_mem_roots hroot
  rcases mem_readOnlySubpathsToMount.mp hpath with ⟨hmem, -⟩ | ⟨name, -, rfl, -⟩
  · rcases (hreadOnly path).mp hmem with ⟨hdefault, hentries⟩ | ⟨hlt, -⟩
    · rcases of_mem_defaultReadOnlySubpaths p.plain.noSymlinks hdefault with
        ⟨name, -, rfl⟩ | hgitdir
      · exact .inl (lt_childPath _ _)
      · exact .inr ⟨hgitdir, hentries⟩
    · exact .inl hlt
  · exact .inl (lt_childPath _ _)

/-- The folder that a `.git` file points to is among the read-only paths, unless an entry is about
    it. -/
theorem PlainPolicy.gitdir_mem {gitdir : AbsolutePathBuf}
    (hgitdir : p.host.PointsToGitdir writable.root gitdir)
    (hentries : ∀ entry ∈ p.entries, entry.path ≠ gitdir) : gitdir ∈ p.subpaths writable := by
  obtain ⟨-, -, -, -, hreadOnly, -⟩ := of_mem_roots hroot
  refine mem_readOnlySubpathsToMount.mpr (.inl ⟨(hreadOnly _).mpr (.inl ⟨?_, hentries⟩), ?_, ?_⟩)
  · exact (mem_defaultReadOnlySubpaths p.plain.noSymlinks).mpr (.inl hgitdir)
  · intro hdenied
    exact hentries _ (mem_denied_iff.mp hdenied).1 rfl
  · intro hmissing
    have := not_pathExists_of_mem_missingAutoMetadata hmissing
    rw [hgitdir.pathExists] at this
    cases this

end Codex.Sandbox
