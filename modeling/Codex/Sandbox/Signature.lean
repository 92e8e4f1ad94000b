import Codex.Sandbox.Additional

namespace Codex.Sandbox

open Text Data AbsolutePathBuf List

/-!
# Semantic equivalence of policies

Two policies count as equivalent if they have the same signature: the roots that may be read and
written, with what is read-only in them, and the denied paths and patterns.  The signature does not
hold the entries, and two kinds of entries do not show in it: an entry for reading the folder that
the `.git` file of a writable root points to, which is read-only by default, and an entry for
reading `/tmp` that counts as overridden by the special path for it although there is no such
folder.

* `FileSystemSemanticSignature`, `isSemanticallyEquivalentTo` — signatures, and their comparison;
* `RestrictedPolicy` — a restricted policy, with the lists and decisions that are compared;
* `RestrictedPolicy.canRead_iff_roots` — reading can be told from the roots;
* `KeepsHidden` — the two kinds of entries make no difference;
* `semantic_equivalence_sound_iff` — equivalent policies give the same access to all paths just when
  this is so;
* `hasFullDiskAccess_iff` — when full access means access to all paths.
-/

/-! ### Signatures -/

deriving instance DecidableEq for WritableRoot

structure FileSystemSemanticSignature where
  hasFullDiskReadAccess : Bool
  hasFullDiskWriteAccess : Bool
  includePlatformDefaults : Bool
  readableRoots : List AbsolutePathBuf
  writableRoots : List WritableRoot
  unreadableRoots : List AbsolutePathBuf
  unreadableGlobs : List Text
deriving DecidableEq

def sortedAbsolutePaths (paths : List AbsolutePathBuf) : List AbsolutePathBuf :=
  paths.insertionSort pathOrder

/-- A root with its read-only paths and its protected names in order. -/
def WritableRoot.sorted (writableRoot : WritableRoot) : WritableRoot :=
  { writableRoot with
    readOnlySubpaths := sortedAbsolutePaths writableRoot.readOnlySubpaths
    protectedMetadataNames := (writableRoot.protectedMetadataNames.insertionSort
      fun name name' => name.val ≤ name'.val).eraseDups }

def sortedWritableRoots (roots : List WritableRoot) : List WritableRoot :=
  (roots.map WritableRoot.sorted).insertionSort fun left right => pathOrder left.root right.root

namespace FileSystemSandboxPolicy

def semanticSignature (policy : FileSystemSandboxPolicy) (host : Host) (cwd : AbsolutePathBuf) :
    FileSystemSemanticSignature where
  hasFullDiskReadAccess := policy.hasFullDiskReadAccess
  hasFullDiskWriteAccess := policy.hasFullDiskWriteAccess
  includePlatformDefaults := policy.includePlatformDefaults
  readableRoots := sortedAbsolutePaths (policy.getReadableRootsWithCwd host cwd)
  writableRoots := sortedWritableRoots (policy.getWritableRootsWithCwd host cwd)
  unreadableRoots := sortedAbsolutePaths (policy.getUnreadableRootsWithCwd host cwd)
  unreadableGlobs := policy.getUnreadableGlobsWithCwd host cwd

def isSemanticallyEquivalentTo (policy other : FileSystemSandboxPolicy) (host : Host)
    (cwd : AbsolutePathBuf) : Bool :=
  policy.semanticSignature host cwd = other.semanticSignature host cwd

end FileSystemSandboxPolicy

theorem mem_sortedAbsolutePaths {paths : List AbsolutePathBuf} {path : AbsolutePathBuf} :
    path ∈ sortedAbsolutePaths paths ↔ path ∈ paths := mem_insertionSort pathOrder

theorem mem_iff_of_sorted_eq {paths paths' : List AbsolutePathBuf}
    (h : sortedAbsolutePaths paths = sortedAbsolutePaths paths') {path : AbsolutePathBuf} :
    path ∈ paths ↔ path ∈ paths' := by
  rw [← mem_sortedAbsolutePaths, h, mem_sortedAbsolutePaths]

/-! ### What a signature says -/

variable {mode : FileSystemAccessMode}

theorem FileSystemAccessMode.eq_deny_of_le
    (h : FileSystemAccessMode.deny ≤ mode) : mode = .deny := by
  cases mode with
  | read | write => exact absurd h (by decide)
  | deny => rfl

theorem FileSystemAccessMode.canRead_iff : mode.canRead ↔ mode ≠ .deny := by
  cases mode <;> decide

/-- A restricted policy. -/
structure RestrictedPolicy (host : Host) (cwd : AbsolutePathBuf) where
  policy : FileSystemSandboxPolicy
  kind : policy.kind = .restricted

variable {host : Host} {cwd : AbsolutePathBuf}

namespace RestrictedPolicy

open FileSystemSandboxPolicy

section Abbreviations

variable (p : RestrictedPolicy host cwd)

abbrev entries : List ResolvedFileSystemEntry := p.policy.resolvedEntriesWithCwd host cwd

abbrev writePaths : List AbsolutePathBuf := p.policy.writePaths host cwd

abbrev readableRoots : List AbsolutePathBuf := p.policy.getReadableRootsWithCwd host cwd

abbrev unreadableRoots : List AbsolutePathBuf := p.policy.getUnreadableRootsWithCwd host cwd

abbrev fullRead : Bool := p.policy.hasFullDiskReadAccess

abbrev fullWrite : Bool := p.policy.hasFullDiskWriteAccess

variable (path : AbsolutePathBuf)

abbrev canRead : Bool := p.policy.canReadPathWithCwd host path cwd

abbrev canWrite : Bool := p.policy.canWritePathWithCwd host path cwd

abbrev Decides : AbsolutePathBuf → ResolvedFileSystemEntry → Prop := Sandbox.Decides p.entries

/-- There is an entry for the path. -/
abbrev HasEntry : Prop := ∃ entry ∈ p.entries, entry.path = path

/-- A writable root of the signature. -/
abbrev IsRoot (root : AbsolutePathBuf) : Prop := root ∈ p.writePaths ∧ p.canWrite root

end Abbreviations

variable {p q : RestrictedPolicy host cwd} {path dir : AbsolutePathBuf}

/-- An entry that decides about its own path. -/
theorem canRead_self_iff (hentry : p.HasEntry path) :
    p.canRead path ↔ ⟨path, .deny⟩ ∉ p.entries := by
  obtain ⟨entry, hmem, rfl⟩ := hentry
  obtain ⟨dir, access, hdec, hge⟩ := exists_decider p.kind hmem le_rfl
  obtain rfl : dir = entry.path := le_antisymm hdec.le hge
  rw [canRead_of_decides p.kind hdec, not_iff_not]
  constructor
  · rintro rfl
    exact hdec.mem
  · exact fun hdeny => FileSystemAccessMode.eq_deny_of_le ((hdec.wins _ hdeny le_rfl).2 rfl)

section Links

variable (hlinks : host.NoSymlinks)
include hlinks

theorem mem_readableRoots (hfull : p.fullRead = false) :
    path ∈ p.readableRoots ↔ p.HasEntry path ∧ ⟨path, .deny⟩ ∉ p.entries := by
  unfold readableRoots getReadableRootsWithCwd
  rw [if_neg (Bool.eq_false_iff.mp hfull), mem_dedupAbsolutePaths hlinks, mem_map]
  constructor
  · rintro ⟨entry, hentry, rfl⟩
    obtain ⟨hmem, hread⟩ := mem_filter.mp hentry
    exact ⟨⟨entry, hmem, rfl⟩,
      (canRead_self_iff ⟨entry, hmem, rfl⟩).mp (Bool.and_eq_true_iff.mp hread).2⟩
  · rintro ⟨⟨entry, hmem, rfl⟩, hdeny⟩
    refine ⟨entry, mem_filter.mpr ⟨hmem, Bool.and_eq_true_iff.mpr ⟨?_, ?_⟩⟩, rfl⟩
    · exact FileSystemAccessMode.canRead_iff.mpr fun haccess => hdeny (haccess ▸ hmem)
    · exact (canRead_self_iff ⟨entry, hmem, rfl⟩).mpr hdeny

theorem mem_unreadableRoots :
    path ∈ p.unreadableRoots ↔ ⟨path, .deny⟩ ∈ p.entries ∧ path ≠ rootPath := by
  unfold unreadableRoots getUnreadableRootsWithCwd
  rw [if_neg (by simp [p.kind]), mem_dedupAbsolutePaths hlinks, mem_map]
  constructor
  · rintro ⟨⟨path, access⟩, hentry, rfl⟩
    obtain ⟨hmem, hall⟩ := mem_filter.mp hentry
    simp only [Bool.and_eq_true, decide_eq_true_eq] at hall
    obtain ⟨⟨rfl, -⟩, hroot⟩ := hall
    exact ⟨hmem, hroot⟩
  · rintro ⟨hmem, hroot⟩
    refine ⟨⟨path, .deny⟩, mem_filter.mpr ⟨hmem, ?_⟩, rfl⟩
    have hread : p.canRead path = false := by
      rw [← Bool.not_eq_true, canRead_self_iff ⟨_, hmem, rfl⟩]
      exact not_not.mpr hmem
    simp [hread, hroot]

/-- **Reading, told from the roots**: the innermost root above the path may be read. -/
theorem canRead_iff_roots (hfull : p.fullRead = false) :
    p.canRead path ↔ ∃ root ∈ p.readableRoots, root ≤ path ∧
      ∀ denied ∈ p.unreadableRoots, denied ≤ path → ¬ root ≤ denied := by
  constructor
  · intro hread
    obtain ⟨dir, access, hdec⟩ := exists_of_canRead p.kind hread
    have hself := (canRead_of_decides p.kind hdec.self).mpr
      ((canRead_of_decides p.kind hdec).mp hread)
    have hdeny := (canRead_self_iff ⟨_, hdec.mem, rfl⟩).mp hself
    refine ⟨dir, (mem_readableRoots hlinks hfull).mpr ⟨⟨_, hdec.mem, rfl⟩, hdeny⟩, hdec.le,
      fun denied hdenied hle hge => ?_⟩
    have hmem := ((mem_unreadableRoots hlinks).mp hdenied).1
    obtain rfl : denied = dir := le_antisymm (hdec.wins _ hmem hle).1 hge
    exact hdeny hmem
  · rintro ⟨root, hroot, hle, hdenied⟩
    obtain ⟨⟨entry, hmem, rfl⟩, hdeny⟩ := (mem_readableRoots hlinks hfull).mp hroot
    obtain ⟨dir, access, hdec, hge⟩ := exists_decider p.kind hmem hle
    rw [canRead_of_decides p.kind hdec]
    rintro rfl
    -- the root of the file system is not among the denied roots, but lies above no other path
    by_cases hdir : dir = rootPath
    · obtain rfl : entry.path = dir := le_antisymm hge (hdir ▸ rootPath_le entry.path)
      exact hdeny hdec.mem
    · exact hdenied dir ((mem_unreadableRoots hlinks).mpr ⟨hdec.mem, hdir⟩) hdec.le hge

end Links

end RestrictedPolicy

/-! ### Writable roots in a signature -/

namespace FileSystemSandboxPolicy

variable (policy : FileSystemSandboxPolicy)

/-- The parts of a sorted writable root, up to their order. -/
theorem mem_sorted_writableRootFor (hlinks : host.NoSymlinks) (cwd root : AbsolutePathBuf) :
    (∀ subpath, subpath ∈ (policy.writableRootFor host cwd root).sorted.readOnlySubpaths ↔
      policy.ReadOnlyBelow host cwd root subpath) ∧
    ∀ name, name ∈ (policy.writableRootFor host cwd root).sorted.protectedMetadataNames ↔
      name ∈ protectedMetadataPathNames ∧
        policy.canWritePathWithCwd host (childPath root name) cwd = false := by
  refine ⟨fun subpath => ?_, fun name => ?_⟩
  · exact mem_sortedAbsolutePaths.trans (mem_readOnlySubpathsForRoot hlinks (eq_of_mem_raw hlinks))
  · refine mem_eraseDups.trans ((mem_insertionSort _).trans ?_)
    exact mem_protectedMetadataNamesForWritableRoot (eq_of_mem_raw hlinks)

end FileSystemSandboxPolicy

namespace RestrictedPolicy

open FileSystemSandboxPolicy

variable {p q : RestrictedPolicy host cwd} {path dir : AbsolutePathBuf}

theorem mem_sortedWritableRoots (hlinks : host.NoSymlinks) (hfull : p.fullWrite = false)
    {writableRoot : WritableRoot} :
    writableRoot ∈ sortedWritableRoots (p.policy.getWritableRootsWithCwd host cwd) ↔
      ∃ root, p.IsRoot root ∧ (p.policy.writableRootFor host cwd root).sorted = writableRoot := by
  have hroots : p.policy.getWritableRootsWithCwd host cwd =
      (dedupAbsolutePaths host (p.policy.writableEntries host cwd) true).map
        (p.policy.writableRootFor host cwd) := if_neg (Bool.eq_false_iff.mp hfull)
  unfold sortedWritableRoots
  rw [mem_insertionSort, hroots, map_map, mem_map]
  simp [mem_dedupAbsolutePaths hlinks, mem_writableEntries]

/-- What policies with the same signature share. -/
structure SameRoots (p q : RestrictedPolicy host cwd) : Prop where
  root : ∀ root, p.IsRoot root → q.IsRoot root
  readOnly : ∀ root, p.IsRoot root → ∀ subpath, q.policy.ReadOnlyBelow host cwd root subpath →
    p.policy.ReadOnlyBelow host cwd root subpath
  names : ∀ root, p.IsRoot root → ∀ name ∈ protectedMetadataPathNames,
    p.canWrite (childPath root name) = q.canWrite (childPath root name)

theorem sameRoots_of_writableRoots (hlinks : host.NoSymlinks) (hfull : p.fullWrite = false)
    (hfull' : q.fullWrite = false)
    (h : sortedWritableRoots (p.policy.getWritableRootsWithCwd host cwd) =
      sortedWritableRoots (q.policy.getWritableRootsWithCwd host cwd)) : SameRoots p q := by
  have hsame : ∀ root, p.IsRoot root → q.IsRoot root ∧
      (q.policy.writableRootFor host cwd root).sorted =
        (p.policy.writableRootFor host cwd root).sorted := by
    intro root hroot
    have hmem := (mem_sortedWritableRoots hlinks hfull).mpr ⟨root, hroot, rfl⟩
    rw [h, mem_sortedWritableRoots hlinks hfull'] at hmem
    obtain ⟨root', hroot', heq⟩ := hmem
    obtain rfl : root' = root := congrArg WritableRoot.root heq
    exact ⟨hroot', heq⟩
  refine ⟨fun root hroot => (hsame root hroot).1, fun root hroot subpath hsubpath => ?_,
    fun root hroot name hname => ?_⟩
  · obtain ⟨-, heq⟩ := hsame root hroot
    rw [← (mem_sorted_writableRootFor q.policy hlinks cwd root).1, heq] at hsubpath
    exact ((mem_sorted_writableRootFor p.policy hlinks cwd root).1 subpath).mp hsubpath
  · obtain ⟨-, heq⟩ := hsame root hroot
    have hnames := (mem_sorted_writableRootFor q.policy hlinks cwd root).2 name
    rw [heq, (mem_sorted_writableRootFor p.policy hlinks cwd root).2, and_iff_right hname,
      and_iff_right hname] at hnames
    rw [Bool.eq_iff_iff, ← not_iff_not, Bool.not_eq_true, Bool.not_eq_true]
    exact hnames

end RestrictedPolicy

/-! ### Full access for writing -/

variable {path : AbsolutePathBuf}

theorem eq_rootPath_of_parent_isNone (h : path.parent.isNone) : path = rootPath := by
  apply names_injective
  by_contra hnil
  simp [parent, show path.names ≠ [] from hnil] at h

/-- Only the root and `/tmp` are both special paths and plain ones. -/
theorem shareTarget_special {value : FileSystemSpecialPath}
    (h : specialPathMatchesAbsolutePath value path) :
    value = .root ∧ path = rootPath ∨ value = .slashTmp ∧ path = slashTmpPath := by
  cases value with
  | root => exact .inl ⟨rfl, eq_rootPath_of_parent_isNone h⟩
  | slashTmp => exact .inr ⟨rfl, by simpa [specialPathMatchesAbsolutePath] using h⟩
  | minimal => cases h
  | tmpdir => cases h
  | projectRoots subpath => cases h
  | unknown path subpath => cases h

/-- Entries that share their target stand for the same path, except for `/tmp`: the special path for
    it stands for nothing if there is no such folder. -/
theorem resolve_of_shareTarget {host : Host} {cwd : AbsolutePathBuf}
    {candidate source : FileSystemPath} (h : fileSystemPathsShareTarget candidate source)
    (hpath : resolveEntryPath host source cwd = some path) :
    resolveEntryPath host candidate cwd = some path ∨ path = slashTmpPath := by
  cases candidate with
  | globPattern left =>
    cases source with
    | globPattern right => cases hpath
    | path right => cases h
    | special right => cases h
  | path left =>
    cases source with
    | globPattern right => cases h
    | path right =>
      obtain rfl : left = right := by simpa [fileSystemPathsShareTarget] using h
      exact .inl hpath
    | special right =>
      rcases shareTarget_special h with ⟨rfl, rfl⟩ | ⟨rfl, rfl⟩
      · exact .inl hpath
      · right
        simp only [resolveEntryPath, resolveFileSystemPath, resolveFileSystemSpecialPath] at hpath
        split at hpath
        · exact (Option.some.inj hpath).symm
        · cases hpath
  | special left =>
    cases source with
    | globPattern right => cases h
    | special right =>
      rw [← hpath]
      exact .inl (resolveEntryPath_congr h host cwd)
    | path right =>
      rcases shareTarget_special h with ⟨rfl, rfl⟩ | ⟨rfl, rfl⟩
      · exact .inl hpath
      · exact .inr (Option.some.inj hpath).symm

namespace RestrictedPolicy

open FileSystemSandboxPolicy

variable {p q : RestrictedPolicy host cwd} {path dir : AbsolutePathBuf}

section FullWrite

variable (hfull : p.fullWrite)
include hfull

theorem root_mem_of_full : ⟨rootPath, .write⟩ ∈ p.entries := by
  unfold fullWrite hasFullDiskWriteAccess at hfull
  rw [p.kind] at hfull
  obtain ⟨access, hmem, hwrite⟩ := exists_root_of_hasRootAccess (Bool.and_eq_true_iff.mp hfull).1
  obtain rfl : access = .write := by simpa [FileSystemAccessMode.canWrite] using hwrite
  exact hmem

/-- An entry that does not narrow full access for writing. -/
theorem override_of_full {entry : FileSystemSandboxEntry} (hentry : entry ∈ p.policy.entries)
    (haccess : entry.access ≠ .write) (hpath : resolveEntryPath host entry.path cwd = some path) :
    entry.access = .read ∧ (path = rootPath ∨
      ∃ candidate ∈ p.policy.entries, candidate.access = .write ∧
        fileSystemPathsShareTarget candidate.path entry.path) := by
  have hread : entry.access ≠ .deny → entry.access = .read := by
    intro hdeny
    cases hmode : entry.access with
    | read => rfl
    | write => exact absurd hmode haccess
    | deny => exact absurd hmode hdeny
  have hoverride : p.policy.hasSameTargetWriteOverride entry → entry.access = .read ∧
      ∃ candidate ∈ p.policy.entries, candidate.access = .write ∧
        fileSystemPathsShareTarget candidate.path entry.path := by
    intro h
    obtain ⟨candidate, hcandidate, hall⟩ := any_eq_true.mp h
    simp only [FileSystemAccessMode.canWrite, Bool.and_eq_true, decide_eq_true_eq] at hall
    obtain ⟨⟨hwrite, hlt⟩, hshare⟩ := hall
    refine ⟨hread fun hdeny => ?_, candidate, hcandidate, hwrite, hshare⟩
    rw [hwrite, hdeny] at hlt
    exact absurd hlt (by decide)
  unfold fullWrite hasFullDiskWriteAccess at hfull
  rw [p.kind] at hfull
  have hnot : p.policy.hasWriteNarrowingEntries = false := by
    simpa using (Bool.and_eq_true_iff.mp hfull).2
  unfold hasWriteNarrowingEntries at hnot
  simp only [p.kind, decide_true, Bool.true_and, any_eq_false] at hnot
  have hentry := hnot entry hentry
  rw [if_neg (by simpa [FileSystemAccessMode.canWrite] using haccess)] at hentry
  obtain ⟨source, mode⟩ := entry
  cases source with
  | path path => exact (hoverride (by simpa using hentry)).imp_right .inr
  | globPattern pattern => cases hpath
  | special value =>
    cases value with
    | minimal | unknown => cases hpath
    | tmpdir | slashTmp | projectRoots =>
      exact (hoverride (by simpa using hentry)).imp_right .inr
    | root =>
      refine ⟨hread ?_, .inl (Option.some.inj hpath).symm⟩
      rintro rfl
      exact absurd hentry (by simp)

/-- **Entries under full access for writing**: nothing is denied, and what has an entry for reading
    has one for writing, except for `/tmp`. -/
theorem entries_of_full {access : FileSystemAccessMode} (hmem : ⟨dir, access⟩ ∈ p.entries) :
    access ≠ .deny ∧ (dir ∈ p.writePaths ∨ dir = slashTmpPath) := by
  by_cases hwrite : access = .write
  · subst hwrite
    exact ⟨by decide, .inl (mem_writePaths.mpr hmem)⟩
  obtain ⟨source, hsource, hpath, hmode⟩ := mem_resolvedEntriesWithCwd.mp hmem
  obtain rfl : source.access = access := hmode
  obtain ⟨hread, htarget⟩ := override_of_full hfull hsource hwrite hpath
  rw [hread]
  refine ⟨by decide, ?_⟩
  rcases htarget with hdir | ⟨candidate, hcandidate, hcwrite, hshare⟩
  · obtain rfl : dir = rootPath := hdir
    exact .inl (mem_writePaths.mpr (root_mem_of_full hfull))
  · refine (resolve_of_shareTarget hshare hpath).imp_left fun hresolve => ?_
    exact mem_writePaths.mpr
      (mem_resolvedEntriesWithCwd.mpr ⟨candidate, hcandidate, hresolve, hcwrite⟩)

end FullWrite

end RestrictedPolicy

/-! ### Entries that do not show -/

/-- There is an entry for reading a path, and none for writing it. -/
def ReadOnlyEntry (policy : FileSystemSandboxPolicy) (host : Host) (cwd path : AbsolutePathBuf) :
    Prop :=
  ⟨path, .read⟩ ∈ policy.resolvedEntriesWithCwd host cwd ∧ path ∉ policy.writePaths host cwd

/-- **Hidden entries.**  What the other policy only lets be read by an entry that does not show in
    its signature may not be written under the policy either. -/
structure KeepsHidden (policy other : FileSystemSandboxPolicy) (host : Host)
    (cwd : AbsolutePathBuf) : Prop where
  /-- The folder that the `.git` file of a root points to: the policy has an entry of its own
      between the two, or the folder lies in a protected name of the root. -/
  gitdir : ∀ root ∈ policy.writePaths host cwd, ∀ gitdir, host.PointsToGitdir root gitdir →
    root < gitdir → ReadOnlyEntry other host cwd gitdir →
      (∃ entry ∈ policy.resolvedEntriesWithCwd host cwd, root < entry.path ∧ entry.path ≤ gitdir) ∨
        InMetadata root gitdir ∧ policy.Guards host cwd root
  /-- The folder `/tmp` under full access for writing. -/
  slashTmp : policy.hasFullDiskWriteAccess → ReadOnlyEntry other host cwd slashTmpPath →
    ReadOnlyEntry policy host cwd slashTmpPath ∧
      ∀ dir ∈ policy.writePaths host cwd, slashTmpPath < dir →
        ∃ dir' ∈ other.writePaths host cwd, slashTmpPath < dir' ∧ dir' ≤ dir

namespace RestrictedPolicy

open FileSystemSandboxPolicy

variable {p q : RestrictedPolicy host cwd} {path dir : AbsolutePathBuf}

/-- The path has an entry for reading and none for writing. -/
abbrev ReadOnly (p : RestrictedPolicy host cwd) (path : AbsolutePathBuf) : Prop :=
  ReadOnlyEntry p.policy host cwd path

/-- A path with an entry for reading, and none for writing, may not be written. -/
theorem canWrite_of_readOnly (h : p.ReadOnly path) : p.canWrite path = false := by
  rw [← Bool.not_eq_true, canWrite_iff_decides p.kind]
  rintro ⟨dir, hdec, -⟩
  have heq : dir = path := le_antisymm hdec.le (hdec.wins _ h.1 le_rfl).1
  exact h.2 (heq ▸ mem_writePaths.mpr hdec.mem)

/-- What an entry for reading decides about has no entry for writing of the same path. -/
theorem readOnly_of_decides (h : p.Decides path ⟨dir, .read⟩) : p.ReadOnly dir := by
  refine ⟨h.mem, fun hwrite => ?_⟩
  have hmode : FileSystemAccessMode.write ≤ .read :=
    (h.wins _ (mem_writePaths.mp hwrite) h.le).2 rfl
  exact absurd hmode (by decide)

section FullWrite

variable (hfull : p.fullWrite)
include hfull

/-- Under full access for writing, an entry for writing decides about its own path. -/
theorem decides_self_of_full (hdir : dir ∈ p.writePaths) : p.Decides dir ⟨dir, .write⟩ :=
  ⟨mem_writePaths.mp hdir, le_rfl, fun _ hmem hle =>
    ⟨hle, fun _ => le_write_of_ne_deny (entries_of_full hfull hmem).1⟩⟩

/-- Under full access for writing, what may not be written is decided by an entry for reading
    `/tmp`. -/
theorem exists_slashTmp_of_full (hcan : p.canWrite path = false) :
    p.Decides path ⟨slashTmpPath, .read⟩ ∧ p.ReadOnly slashTmpPath := by
  obtain ⟨dir, access, hdec, -⟩ := exists_decider p.kind (root_mem_of_full hfull) (rootPath_le path)
  obtain ⟨hdeny, hdir⟩ := entries_of_full hfull hdec.mem
  cases access with
  | deny => exact absurd rfl hdeny
  | write =>
    have htrue := (canWrite_iff_decides p.kind).mpr ⟨dir, hdec, .inl hfull⟩
    cases hcan.symm.trans htrue
  | read =>
    have hreadOnly := readOnly_of_decides hdec
    obtain rfl := hdir.resolve_left hreadOnly.2
    exact ⟨hdec, hreadOnly⟩

end FullWrite

/-! ### Soundness -/

/-- Policies with the same signature. -/
structure SameSignature (p q : RestrictedPolicy host cwd) : Prop where
  noSymlinks : host.NoSymlinks
  signature : p.policy.semanticSignature host cwd = q.policy.semanticSignature host cwd

namespace SameSignature

variable (h : SameSignature p q)
include h

theorem symm : SameSignature q p := ⟨h.noSymlinks, h.signature.symm⟩

theorem fullRead_eq : p.fullRead = q.fullRead :=
  congrArg FileSystemSemanticSignature.hasFullDiskReadAccess h.signature

theorem fullWrite_eq : p.fullWrite = q.fullWrite :=
  congrArg FileSystemSemanticSignature.hasFullDiskWriteAccess h.signature

theorem mem_readable : path ∈ p.readableRoots ↔ path ∈ q.readableRoots :=
  mem_iff_of_sorted_eq (congrArg FileSystemSemanticSignature.readableRoots h.signature)

theorem mem_unreadable : path ∈ p.unreadableRoots ↔ path ∈ q.unreadableRoots :=
  mem_iff_of_sorted_eq (congrArg FileSystemSemanticSignature.unreadableRoots h.signature)

theorem sameRoots (hfull : p.fullWrite = false) : SameRoots p q :=
  sameRoots_of_writableRoots h.noSymlinks hfull (h.fullWrite_eq ▸ hfull)
    (congrArg FileSystemSemanticSignature.writableRoots h.signature)

/-- **The same paths may be read.** -/
theorem canRead_eq : p.canRead path = q.canRead path := by
  cases hfull : p.fullRead with
  | true =>
    have hfull' : q.fullRead := h.fullRead_eq ▸ hfull
    exact ((canRead_of_full p.kind hfull).2 path).trans ((canRead_of_full q.kind hfull').2 path).symm
  | false =>
    rw [Bool.eq_iff_iff, canRead_iff_roots h.noSymlinks hfull,
      canRead_iff_roots h.noSymlinks (h.fullRead_eq ▸ hfull)]
    simp [h.mem_readable, h.mem_unreadable]

/-- Without full access for reading, the policies have entries for the same paths, except that the
    root of the file system may be denied. -/
theorem hasEntry (hfull : p.fullRead = false) (hroot : path ≠ rootPath)
    (hentry : q.HasEntry path) : p.HasEntry path := by
  by_cases hdeny : ⟨path, .deny⟩ ∈ q.entries
  · have hmem := (mem_unreadableRoots h.noSymlinks).mpr ⟨hdeny, hroot⟩
    rw [← h.mem_unreadable, mem_unreadableRoots h.noSymlinks] at hmem
    exact ⟨_, hmem.1, rfl⟩
  · have hmem := (mem_readableRoots h.noSymlinks (h.fullRead_eq ▸ hfull)).mpr ⟨hentry, hdeny⟩
    rw [← h.mem_readable, mem_readableRoots h.noSymlinks hfull] at hmem
    exact hmem.1

/-- If no path that may be written under the policy is read-only under the other one, hidden entries
    are kept. -/
theorem keepsHidden_of_forall (hall : ∀ path, p.canWrite path → q.canWrite path) :
    KeepsHidden p.policy q.policy host cwd := by
  have hcannot : ∀ path, q.ReadOnly path → p.canWrite path = false := by
    intro path hreadOnly
    rw [← Bool.not_eq_true]
    intro hcan
    cases (canWrite_of_readOnly hreadOnly).symm.trans (hall path hcan)
  refine ⟨fun root hroot gitdir _ hlt hreadOnly => ?_, fun hfull hreadOnly => ⟨?_, ?_⟩⟩
  · rw [or_iff_not_imp_left]
    intro hnone
    push Not at hnone
    have hdeny : ⟨root, .deny⟩ ∉ p.entries := by
      cases hread : p.fullRead with
      | true => exact not_mem_deny_of_full p.kind hread root
      | false =>
        have hgitdir : gitdir ≠ rootPath := fun heq => (heq ▸ hlt).not_ge (rootPath_le root)
        obtain ⟨entry, hentry, hpath⟩ := h.hasEntry hread hgitdir ⟨_, hreadOnly.1, rfl⟩
        exact absurd hpath.le (hnone entry hentry (hpath ▸ hlt))
    have hdec : p.Decides gitdir ⟨root, .write⟩ := by
      refine ⟨mem_writePaths.mp hroot, hlt.le, fun entry hentry hle => ?_⟩
      have hbelow : entry.path ≤ root :=
        (le_or_le_of_le hle hlt.le).elim id fun hge =>
          (hge.eq_or_lt.resolve_right fun hrootLt => hnone entry hentry hrootLt hle).ge
      refine ⟨hbelow, fun heq => le_write_of_ne_deny fun haccess => hdeny ?_⟩
      have heq : entry.path = root := heq
      rwa [← heq, ← haccess]
    by_contra hnot
    have hcan := (canWrite_iff_decides p.kind).mpr ⟨root, hdec, .inr hnot⟩
    cases (hcannot gitdir hreadOnly).symm.trans hcan
  · exact (exists_slashTmp_of_full hfull (hcannot slashTmpPath hreadOnly)).2
  · intro dir hdir hlt
    have hcan := hall dir (canWrite_of_decides_self p.kind (decides_self_of_full hfull hdir))
    obtain ⟨dir', hdec, -⟩ := (canWrite_iff_decides q.kind).mp hcan
    have hmem := mem_writePaths.mpr hdec.mem
    refine ⟨dir', hmem, lt_of_le_of_ne (hdec.wins _ hreadOnly.1 hlt.le).1 fun heq => ?_, hdec.le⟩
    exact hreadOnly.2 (heq ▸ hmem)

section Kept

variable (hhidden : KeepsHidden p.policy q.policy host cwd)
include hhidden

/-- The entry that decides about a path that may be written also decides under the other policy. -/
theorem decides_of_keepsHidden (hfull : p.fullWrite = false) (hdec : p.Decides path ⟨dir, .write⟩)
    (hfree : p.fullWrite ∨ ¬ (InMetadata dir path ∧ p.policy.Guards host cwd dir)) :
    q.Decides path ⟨dir, .write⟩ := by
  have hroots := h.sameRoots hfull
  have hdir : p.IsRoot dir := ⟨mem_writePaths.mpr hdec.mem,
    canWrite_of_between p.kind hdec hfree le_rfl hdec.le⟩
  obtain ⟨hdir', hcanDir'⟩ := hroots.root dir hdir
  -- no entry of the policy lies between
  have hnone : ∀ middle, dir < middle → middle ≤ path → ¬ p.HasEntry middle := by
    rintro middle hlt hle ⟨entry, hentry, rfl⟩
    exact absurd (hdec.wins entry hentry hle).1 hlt.not_ge
  obtain ⟨decider, access, hdecider, hle⟩ := exists_decider q.kind (mem_writePaths.mp hdir') hdec.le
  rcases hle.eq_or_lt with rfl | hlt
  · -- the other entry for the folder: it may be written
    obtain ⟨dir', hself, -⟩ := (canWrite_iff_decides q.kind).mp hcanDir'
    have haccess := resolveAccess_of_decides q.kind hdecider.self
    rw [resolveAccess_of_decides q.kind hself] at haccess
    obtain rfl : access = .write := haccess.symm
    exact hdecider
  exfalso
  -- entries show in the lists of roots, unless everything may be read
  have hread : q.fullRead := by
    rw [← h.fullRead_eq]
    by_contra hread
    have hroot : decider ≠ rootPath := fun heq => (heq ▸ hlt).not_ge (rootPath_le dir)
    exact hnone decider hlt hdecider.le
      (h.hasEntry (by simpa using hread) hroot ⟨_, hdecider.mem, rfl⟩)
  cases access with
  | write =>
    have hroots' := h.symm.sameRoots (h.fullWrite_eq ▸ hfull)
    obtain ⟨hmem, -⟩ := hroots'.root decider
      ⟨mem_writePaths.mpr hdecider.mem, canWrite_of_decides_self q.kind hdecider.self⟩
    exact hnone decider hlt hdecider.le ⟨_, mem_writePaths.mp hmem, rfl⟩
  | deny => exact not_mem_deny_of_full q.kind hread decider hdecider.mem
  | read =>
    have hreadOnly := readOnly_of_decides hdecider
    have hcannot := canWrite_of_readOnly hreadOnly
    have hbelow := hroots.readOnly dir hdir decider
      (.inr ⟨hlt, hcannot, _, hdecider.mem, rfl, by simp⟩)
    rcases hbelow with ⟨hdefault, -⟩ | ⟨-, -, entry, hentry, hpath, -⟩
    swap
    · exact hnone decider hlt hdecider.le ⟨entry, hentry, hpath⟩
    rcases of_mem_defaultReadOnlySubpaths h.noSymlinks hdefault with ⟨name, hname, rfl⟩ | hgitdir
    · have hcan := canWrite_of_between p.kind hdec hfree hlt.le hdecider.le
      cases (hroots.names dir hdir name hname).symm.trans hcan |>.symm.trans hcannot
    · rcases hhidden.gitdir dir hdir.1 decider hgitdir hlt hreadOnly with
        ⟨entry, hentry, hdirLt, hentryLe⟩ | ⟨hmetadata, hguards⟩
      · exact hnone entry.path hdirLt (hentryLe.trans hdecider.le) ⟨entry, hentry, rfl⟩
      · rcases hfree with hfull' | hfree
        · cases hfull.symm.trans hfull'
        · exact hfree ⟨hmetadata.mono hdecider.le, hguards⟩

/-- **If hidden entries are kept**, what may be written under the policy may be written under the
    other one. -/
theorem canWrite_of_keepsHidden (hcan : p.canWrite path) : q.canWrite path := by
  obtain ⟨dir, hdec, hfree⟩ := (canWrite_iff_decides p.kind).mp hcan
  have hdir : dir ∈ p.writePaths := mem_writePaths.mpr hdec.mem
  cases hfull : p.fullWrite with
  | true =>
    by_contra hcannot
    obtain ⟨hdec', hreadOnly⟩ :=
      exists_slashTmp_of_full (h.fullWrite_eq ▸ hfull) (Bool.not_eq_true _ ▸ hcannot)
    obtain ⟨hreadOnly', hbelow⟩ := hhidden.slashTmp hfull hreadOnly
    have hle := (hdec.wins _ hreadOnly'.1 hdec'.le).1
    have hne : slashTmpPath ≠ dir := fun heq => hreadOnly'.2 (heq ▸ hdir)
    obtain ⟨dir', hdir', hlt, hdirLe⟩ := hbelow dir hdir (lt_of_le_of_ne hle hne)
    have hge := (hdec'.wins _ (mem_writePaths.mp hdir') (hdirLe.trans hdec.le)).1
    exact absurd hge hlt.not_ge
  | false =>
    have hbetween : ∀ middle, dir ≤ middle → middle ≤ path → p.canWrite middle :=
      fun middle => canWrite_of_between p.kind hdec hfree
    have hdec' := h.decides_of_keepsHidden hhidden hfull hdec hfree
    refine (canWrite_iff_decides q.kind).mpr ⟨dir, hdec', .inr ?_⟩
    rintro ⟨⟨name, hname, hle⟩, hguards⟩
    -- the protected name may be written under the policy, and so under the other one
    have hchild := (lt_childPath dir name).le
    have hcanName := ((h.sameRoots hfull).names dir ⟨hdir, hbetween dir le_rfl hdec.le⟩ name
      hname).symm.trans (hbetween (childPath dir name) hchild hle)
    obtain ⟨decider, hdecider, hfree'⟩ := (canWrite_iff_decides q.kind).mp hcanName
    have hself := hdec'.between hchild hle
    obtain rfl : decider = dir := le_antisymm (hself.wins _ hdecider.mem hdecider.le).1
      (hdecider.wins _ hself.mem hself.le).1
    rcases hfree' with hfull' | hfree'
    · cases (h.fullWrite_eq.symm.trans hfull).symm.trans hfull'
    · exact hfree' ⟨⟨name, hname, le_rfl⟩, hguards⟩

end Kept

end SameSignature

end RestrictedPolicy

namespace FileSystemSandboxPolicy

variable {policy other : FileSystemSandboxPolicy}

/-- **When equivalent policies give the same access.** -/
theorem semantic_equivalence_sound_iff (hkind : policy.kind = .restricted)
    (hkind' : other.kind = .restricted) (hlinks : host.NoSymlinks)
    (hequivalent : policy.isSemanticallyEquivalentTo other host cwd) :
    (∀ path, policy.canReadPathWithCwd host path cwd = other.canReadPathWithCwd host path cwd ∧
      policy.canWritePathWithCwd host path cwd = other.canWritePathWithCwd host path cwd) ↔
    KeepsHidden policy other host cwd ∧ KeepsHidden other policy host cwd := by
  let p : RestrictedPolicy host cwd := ⟨policy, hkind⟩
  let q : RestrictedPolicy host cwd := ⟨other, hkind'⟩
  have hsame : p.SameSignature q :=
    ⟨hlinks, by simpa [isSemanticallyEquivalentTo] using hequivalent⟩
  constructor
  · intro hall
    exact ⟨hsame.keepsHidden_of_forall fun path hcan => (hall path).2.symm.trans hcan,
      hsame.symm.keepsHidden_of_forall fun path hcan => (hall path).2.trans hcan⟩
  · rintro ⟨hhidden, hhidden'⟩ path
    refine ⟨hsame.canRead_eq, Bool.eq_iff_iff.mpr ⟨?_, ?_⟩⟩
    · exact hsame.canWrite_of_keepsHidden hhidden
    · exact hsame.symm.canWrite_of_keepsHidden hhidden'

end FileSystemSandboxPolicy

/-! ### A worktree -/

/-- The `.git` file of `/repo` points to `/repo/real`. -/
def gitFileHost : Host :=
  let dirs := ["/", "/repo", "/repo/real"].map fun path => absolutePath path.toList
  let gitFile := absolutePath "/repo/.git"
  { emptyHost with
    isDir := dirs.contains
    isFile := fun path => path = gitFile
    pathExists := fun path => dirs.contains path || path = gitFile
    hasSymlinkMetadata := fun path => dirs.contains path || path = gitFile
    readToString := fun path => if path = gitFile then some "gitdir: real" else none }

/-- A folder that may be written, with folders in it that may only be read. -/
def readInWriteFolder (folder : Text) (readOnly : List Text) : FileSystemSandboxPolicy :=
  ⟨.restricted, none, ⟨.special .root, .read⟩ :: ⟨.path (absolutePath folder), .write⟩ ::
    readOnly.map fun path => ⟨.path (absolutePath path), .read⟩⟩

/-- An entry that is there twice. -/
theorem semantic_equivalence_twice : (writeFolders ["/repo"]).isSemanticallyEquivalentTo
      (writeFolders ["/repo", "/repo"]) emptyHost rootPath ∧
    (writeFolders ["/repo"]).canWritePathWithCwd emptyHost (absolutePath "/repo/a")
        rootPath = (writeFolders ["/repo", "/repo"]).canWritePathWithCwd emptyHost
        (absolutePath "/repo/a") rootPath := by
  have hequivalent : (writeFolders ["/repo"]).isSemanticallyEquivalentTo
      (writeFolders ["/repo", "/repo"]) emptyHost rootPath := by decide
  have hno : ∀ root gitdir, ¬ emptyHost.PointsToGitdir root gitdir := fun _ _ h => by cases h.1
  refine ⟨hequivalent, ((FileSystemSandboxPolicy.semantic_equivalence_sound_iff rfl rfl
    emptyHost_noSymlinks hequivalent).mpr ⟨⟨?_, ?_⟩, ⟨?_, ?_⟩⟩ _).2⟩
  · exact fun root _ gitdir hgitdir => absurd hgitdir (hno root gitdir)
  · exact fun hfull => absurd hfull (by decide)
  · exact fun root _ gitdir hgitdir => absurd hgitdir (hno root gitdir)
  · exact fun hfull => absurd hfull (by decide)

/-- The entry for the folder that the `.git` file points to does not show, but it takes away the
    permission to write. -/
theorem semantic_equivalence_hides_entry :
    gitFileHost.NoSymlinks ∧ (readInWriteFolder "/repo" []).isSemanticallyEquivalentTo
      (readInWriteFolder "/repo" ["/repo/real"]) gitFileHost rootPath ∧
    (readInWriteFolder "/repo" []).canWritePathWithCwd gitFileHost
      (absolutePath "/repo/real") rootPath ∧
    (readInWriteFolder "/repo" ["/repo/real"]).canWritePathWithCwd gitFileHost
      (absolutePath "/repo/real") rootPath = false := by
  refine ⟨fun path path' h => (Option.some.inj h).symm, by decide, by decide, by decide⟩

/-! ### What full access promises -/

namespace FileSystemSandboxPolicy

open RestrictedPolicy

/-- **Full access.**  With full access for reading everything can be read, and no root or pattern is
    unreadable.  With full access for writing everything can be written, unless `/tmp` has an entry
    for reading and no entry for writing stands for it: the special path does so for a folder
    only. -/
theorem hasFullDiskAccess_iff {policy : FileSystemSandboxPolicy} (host : Host)
    (cwd : AbsolutePathBuf) (hkind : policy.kind = .restricted) :
    (policy.hasFullDiskReadAccess → (∀ path, policy.canReadPathWithCwd host path cwd) ∧
      policy.getUnreadableRootsWithCwd host cwd = [] ∧
      policy.getUnreadableGlobsWithCwd host cwd = []) ∧
    (policy.hasFullDiskWriteAccess → ((∀ path, policy.resolveAccessWithCwd host path cwd = .write) ↔
        ¬ ReadOnlyEntry policy host cwd slashTmpPath)) := by
  let p : RestrictedPolicy host cwd := ⟨policy, hkind⟩
  refine ⟨fun hfull => ?_, fun hfull => ⟨?_, ?_⟩⟩
  · obtain ⟨-, hread⟩ : _ ∧ ∀ path, policy.canReadPathWithCwd host path cwd :=
      canRead_of_full hkind hfull
    have hnone : policy.entries.filter (·.access = .deny) = [] :=
      filter_eq_nil_iff.mpr fun source hsource => by
        simpa using access_ne_deny_of_full hkind hfull hsource
    refine ⟨hread, ?_, ?_⟩
    · simp [getUnreadableRootsWithCwd, hread, dedupAbsolutePaths]
    · simp [getUnreadableGlobsWithCwd, hnone]
  · intro hall hreadOnly
    have hcan := canWritePathWithCwd_iff.mpr ⟨hall slashTmpPath, .inl hfull⟩
    cases (canWrite_of_readOnly (p := p) hreadOnly).symm.trans hcan
  · intro htmp path
    by_contra hwrite
    have hcannot : p.canWrite path = false :=
      Bool.eq_false_iff.mpr fun hcan => hwrite (canWritePathWithCwd_iff.mp hcan).1
    exact htmp (exists_slashTmp_of_full hfull hcannot).2

/-- The root of the file system may be written, and some entries more. -/
def writeRootAnd (more : List FileSystemSandboxEntry) : FileSystemSandboxPolicy :=
  ⟨.restricted, none, ⟨.special .root, .write⟩ :: more⟩

/-- An entry for writing `/tmp` hides the one for reading it. -/
theorem resolveAccess_writeRoot :
    let policy := writeRootAnd [⟨.path slashTmpPath, .read⟩, ⟨.path slashTmpPath, .write⟩]
    policy.hasFullDiskWriteAccess ∧
      policy.resolveAccessWithCwd emptyHost slashTmpPath rootPath = .write :=
  ⟨by decide, ((hasFullDiskAccess_iff emptyHost rootPath rfl).2 (by decide)).mpr
    (fun h => absurd h.2 (by decide)) slashTmpPath⟩

/-- The special path for `/tmp` hides the entry for reading it, but there is no such folder. -/
theorem hasFullDiskWriteAccess_without_tmp :
    let policy := writeRootAnd [⟨.special .slashTmp, .write⟩, ⟨.path slashTmpPath, .read⟩]
    policy.hasFullDiskWriteAccess ∧
      policy.resolveAccessWithCwd emptyHost slashTmpPath rootPath = .read := by
  decide

end FileSystemSandboxPolicy

end Codex.Sandbox
