import Codex.Data.InsertNew
import Codex.Path.Resolve
import Codex.Sandbox.BwrapArgs

namespace Codex.Sandbox

open Text Data FileSystemSandboxPolicy FileSystemAccessMode AbsolutePathBuf List

/-!
# Additional permissions

A command may be given additional permissions: entries that are put behind those of the policy of
the session.  Since the most specific entry decides, an additional entry takes over everything below
its path, also what the policy allowed already.

* `effectiveFileSystemSandboxPolicy` — the policy with the additional entries;
* `withAdditional` — the policy with all entries appended, repetitions included;
* `KeepsWrites` — the additional entries take no permission for writing away;
* `effective_keeps_access_iff` — with additional entries that deny nothing, whatever may be read may
  still be read, and whatever may be written may still be written just when the entries keep writes.
-/

/-! ### Equal entries -/

/-- Subpaths are `PathBuf`s, which are compared by their components. -/
instance : BEq FileSystemSpecialPath := ⟨specialPathsShareTarget⟩

def fileSystemPathsEqual : FileSystemPath → FileSystemPath → Bool
  | .path left, .path right => left = right
  | .globPattern left, .globPattern right => left = right
  | .special left, .special right => left == right
  | _, _ => false

instance : BEq FileSystemPath := ⟨fileSystemPathsEqual⟩

instance : BEq FileSystemSandboxEntry := ⟨fun left right =>
  left.path == right.path && left.access == right.access⟩

/-- Special paths that are equal up to the spelling of a subpath. -/
theorem specialPath_cases {left right : FileSystemSpecialPath} (h : (left == right)) :
    left = right ∨
    (∃ subpath subpath', left = .projectRoots subpath ∧ right = .projectRoots subpath' ∧
      subpath.map pathComponents = subpath'.map pathComponents) ∨
    ∃ path subpath subpath', left = .unknown path subpath ∧ right = .unknown path subpath' ∧
      subpath.map pathComponents = subpath'.map pathComponents := by
  have h : specialPathsShareTarget left right := h
  match left, right with
  | .root, .root | .minimal, .minimal | .tmpdir, .tmpdir | .slashTmp, .slashTmp => exact .inl rfl
  | .projectRoots subpath, .projectRoots subpath' =>
    exact .inr (.inl ⟨subpath, subpath', rfl, rfl, by simpa [specialPathsShareTarget] using h⟩)
  | .unknown path subpath, .unknown path' subpath' =>
    obtain ⟨rfl, hsubpath⟩ : path = path' ∧
        subpath.map pathComponents = subpath'.map pathComponents := by
      simpa [specialPathsShareTarget] using h
    exact .inr (.inr ⟨path, subpath, subpath', rfl, rfl, hsubpath⟩)

variable (policy : FileSystemSandboxPolicy) {left right : FileSystemPath}

/-- Entry paths that are equal up to the spelling of a subpath. -/
theorem fileSystemPath_cases (h : (left == right)) :
    left = right ∨ ∃ value value', left = .special value ∧ right = .special value' ∧
      (value == value') := by
  have h : fileSystemPathsEqual left right := h
  match left, right with
  | .path left, .path right => exact .inl (congrArg _ (by simpa [fileSystemPathsEqual] using h))
  | .globPattern left, .globPattern right =>
    exact .inl (congrArg _ (by simpa [fileSystemPathsEqual] using h))
  | .special value, .special value' => exact .inr ⟨value, value', rfl, rfl, h⟩

/-- **Equal entries are resolved alike.** -/
theorem resolveEntryPath_congr (h : (left == right)) (host : Host) (cwd : AbsolutePathBuf) :
    resolveEntryPath host left cwd = resolveEntryPath host right cwd := by
  rcases fileSystemPath_cases h with rfl | ⟨value, value', rfl, rfl, hvalue⟩
  · rfl
  rcases specialPath_cases hvalue with rfl | ⟨subpath, subpath', rfl, rfl, hsubpath⟩ |
      ⟨path, subpath, subpath', rfl, rfl, -⟩
  · rfl
  · cases subpath with
    | none =>
      cases subpath' with
      | none => rfl
      | some subpath' => cases hsubpath
    | some subpath =>
      cases subpath' with
      | none => cases hsubpath
      | some subpath' =>
        show some (resolvePathAgainstBase host.home subpath cwd) =
          some (resolvePathAgainstBase host.home subpath' cwd)
        rw [resolvePathAgainstBase_eq, resolvePathAgainstBase_eq, Option.some.inj hsubpath]
  · rfl

/-- Equal entries share their target with the same entries. -/
theorem fileSystemPathsShareTarget_congr (h : (left == right)) (other : FileSystemPath) :
    fileSystemPathsShareTarget other left = fileSystemPathsShareTarget other right ∧
      fileSystemPathsShareTarget left other = fileSystemPathsShareTarget right other := by
  rcases fileSystemPath_cases h with rfl | ⟨value, value', rfl, rfl, hvalue⟩
  · exact ⟨rfl, rfl⟩
  rcases specialPath_cases hvalue with rfl | ⟨subpath, subpath', rfl, rfl, hsubpath⟩ |
      ⟨path, subpath, subpath', rfl, rfl, hsubpath⟩
  · exact ⟨rfl, rfl⟩
  all_goals
    cases other with
    | path | globPattern => exact ⟨rfl, rfl⟩
    | special value =>
      cases value <;>
        simp [fileSystemPathsShareTarget, specialPathsShareTarget, hsubpath]

theorem entry_beq_iff {left right : FileSystemSandboxEntry} :
    (left == right) ↔ (left.path == right.path) ∧ left.access = right.access := by
  show (left.path == right.path && left.access == right.access) ↔ _
  simp

/-! ### Effective policies -/

structure NetworkPermissions where
  enabled : Option Bool

structure FileSystemPermissions where
  entries : List FileSystemSandboxEntry
  globScanMaxDepth : Option PNat

/-- What a command may do in addition to the policy of its session. -/
structure AdditionalPermissionProfile where
  network : Option NetworkPermissions
  fileSystem : Option FileSystemPermissions

variable (additionalPermissions : Option AdditionalPermissionProfile)

inductive GlobScanDepth
  | bounded (depth : Nat)
  | unbounded

/-- How deep the patterns among some entries are searched for; without patterns it does not
    matter. -/
def effectiveGlobScanDepth (entries : List FileSystemSandboxEntry) (depth : Option Nat) :
    Option GlobScanDepth :=
  if entries.any fun entry => entry.access = .deny && (globPatternOf entry.path).isSome then
    some (match depth with
      | some depth => .bounded depth
      | none => .unbounded)
  else none

def mergeGlobScanMaxDepth (leftEntries : List FileSystemSandboxEntry) (leftDepth : Option Nat)
    (rightEntries : List FileSystemSandboxEntry) (rightDepth : Option Nat) : Option Nat :=
  match effectiveGlobScanDepth leftEntries leftDepth,
    effectiveGlobScanDepth rightEntries rightDepth with
  | some .unbounded, _ | _, some .unbounded => none
  | some (.bounded left), some (.bounded right) => some (max left right)
  | some (.bounded depth), none | none, some (.bounded depth) => some depth
  | none, none => none

def mergeFileSystemPolicyWithAdditionalPermissions (permissions : FileSystemPermissions) :
    FileSystemSandboxPolicy :=
  match policy.kind with
  | .restricted =>
    { policy with
      entries := insertNew policy.entries permissions.entries
      globScanMaxDepth := mergeGlobScanMaxDepth policy.entries policy.globScanMaxDepth
        permissions.entries (permissions.globScanMaxDepth.map PNat.val) }
  | .unrestricted | .externalSandbox => policy

def effectiveFileSystemSandboxPolicy : FileSystemSandboxPolicy :=
  match additionalPermissions.bind (·.fileSystem) with
  | none => policy
  | some permissions =>
    if permissions.entries.isEmpty then policy
    else mergeFileSystemPolicyWithAdditionalPermissions policy permissions

/-- The entries of additional permissions, if there are any. -/
def additionalEntries : List FileSystemSandboxEntry :=
  match additionalPermissions.bind (·.fileSystem) with
  | none => []
  | some permissions => permissions.entries

/-- The policy with more entries behind its own. -/
def FileSystemSandboxPolicy.withAdditional (entries : List FileSystemSandboxEntry) :
    FileSystemSandboxPolicy := { policy with entries := policy.entries ++ entries }

/-! ### Policies that only differ in repetitions -/

namespace FileSystemSandboxPolicy

variable {policy other : FileSystemSandboxPolicy} {host : Host} {path cwd : AbsolutePathBuf}

theorem writePaths_eq_filterMap (policy : FileSystemSandboxPolicy) (host : Host)
    (cwd : AbsolutePathBuf) : policy.writePaths host cwd = policy.entries.filterMap fun entry =>
      if entry.access.canWrite then resolveEntryPath host entry.path cwd else none := by
  unfold writePaths resolvedEntriesWithCwd
  rw [filter_filterMap, map_filterMap]
  refine filterMap_congr fun entry _ => ?_
  cases resolveEntryPath host entry.path cwd <;> cases entry.access <;> rfl

section

variable (hkind : policy.kind = .restricted) (hother : other.kind = .restricted)
  (hentries : ∀ entry, entry ∈ policy.resolvedEntriesWithCwd host cwd ↔
    entry ∈ other.resolvedEntriesWithCwd host cwd)
include hkind hother hentries

/-- Access for reading depends on which entries there are, not on their order. -/
theorem canReadPathWithCwd_congr :
    policy.canReadPathWithCwd host path cwd = other.canReadPathWithCwd host path cwd := by
  unfold canReadPathWithCwd
  rcases exists_decides hkind host path cwd with ⟨entry, hdec, haccess⟩ | ⟨hnone, haccess⟩
  · rw [haccess, resolveAccess_of_decides hother ⟨(hentries entry).mp hdec.mem, hdec.le,
      fun other hmem => hdec.wins other ((hentries other).mpr hmem)⟩]
  · rcases exists_decides hother host path cwd with ⟨entry, hdec, -⟩ | ⟨-, haccess'⟩
    · exact absurd hdec.le (hnone entry ((hentries entry).mpr hdec.mem))
    · rw [haccess, haccess']

/-- Access for writing also depends on what stands in front of entries for writing. -/
theorem canWritePathWithCwd_congr
    (hguards : ∀ dir, policy.Guards host cwd dir ↔ other.Guards host cwd dir)
    (hfull : policy.hasFullDiskWriteAccess = other.hasFullDiskWriteAccess) :
    policy.canWritePathWithCwd host path cwd = other.canWritePathWithCwd host path cwd := by
  have hdec : ∀ entry, Decides (policy.resolvedEntriesWithCwd host cwd) path entry ↔
      Decides (other.resolvedEntriesWithCwd host cwd) path entry := by
    refine fun entry => ⟨fun h => ⟨(hentries entry).mp h.mem, h.le, fun e he => ?_⟩,
      fun h => ⟨(hentries entry).mpr h.mem, h.le, fun e he => ?_⟩⟩
    · exact h.wins e ((hentries e).mpr he)
    · exact h.wins e ((hentries e).mp he)
  rw [Bool.eq_iff_iff, canWrite_iff_decides hkind, canWrite_iff_decides hother, hfull]
  simp [hdec, hguards]

end

/-! ### Appended entries -/

section Appended

variable (policy : FileSystemSandboxPolicy) (entries : List FileSystemSandboxEntry)

/-- The policy with the new ones of some entries behind its own. -/
def insertEntries : FileSystemSandboxPolicy :=
  { policy with entries := insertNew policy.entries entries }

theorem hasSameTargetWriteOverride_insertEntries (entry : FileSystemSandboxEntry) :
    (policy.insertEntries entries).hasSameTargetWriteOverride entry =
      (policy.withAdditional entries).hasSameTargetWriteOverride entry := by
  refine any_insertNew (fun left right h => ?_) policy.entries entries
  obtain ⟨hpath, haccess⟩ := entry_beq_iff.mp h
  rw [haccess, (fileSystemPathsShareTarget_congr hpath entry.path).2]

/-- Equal entries are overridden by the same entries. -/
theorem hasSameTargetWriteOverride_congr {left right : FileSystemSandboxEntry}
    (h : (left == right)) :
    policy.hasSameTargetWriteOverride left = policy.hasSameTargetWriteOverride right := by
  obtain ⟨hpath, haccess⟩ := entry_beq_iff.mp h
  unfold hasSameTargetWriteOverride
  simp [haccess, (fileSystemPathsShareTarget_congr hpath _).1]

theorem hasWriteNarrowingEntries_insertEntries :
    (policy.insertEntries entries).hasWriteNarrowingEntries =
      (policy.withAdditional entries).hasWriteNarrowingEntries := by
  unfold hasWriteNarrowingEntries
  simp only [hasSameTargetWriteOverride_insertEntries]
  refine congrArg _ (any_insertNew (fun left right h => ?_) policy.entries entries)
  have hoverride := hasSameTargetWriteOverride_congr (policy.withAdditional entries) h
  obtain ⟨hpath, haccess⟩ := entry_beq_iff.mp h
  rcases fileSystemPath_cases hpath with heq | ⟨value, value', heq, heq', hvalue⟩
  · rw [hoverride, haccess, heq]
  · rw [hoverride, haccess, heq, heq']
    rcases specialPath_cases hvalue with rfl | ⟨subpath, subpath', rfl, rfl, -⟩ |
      ⟨path, subpath, subpath', rfl, rfl, -⟩ <;> rfl

theorem hasFullDiskWriteAccess_insertEntries :
    (policy.insertEntries entries).hasFullDiskWriteAccess =
      (policy.withAdditional entries).hasFullDiskWriteAccess := by
  have hroot : (policy.insertEntries entries).hasRootAccess canWrite =
      (policy.withAdditional entries).hasRootAccess canWrite := by
    refine congrArg _ (any_insertNew (fun left right h => ?_) policy.entries entries)
    obtain ⟨hpath, haccess⟩ := entry_beq_iff.mp h
    rcases fileSystemPath_cases hpath with heq | ⟨value, value', heq, heq', hvalue⟩
    · rw [haccess, heq]
    · rw [haccess, heq, heq']
      rcases specialPath_cases hvalue with rfl | ⟨subpath, subpath', rfl, rfl, -⟩ |
        ⟨path, subpath, subpath', rfl, rfl, -⟩ <;> rfl
  unfold hasFullDiskWriteAccess
  rw [hroot, hasWriteNarrowingEntries_insertEntries]
  rfl

variable {policy entries}

variable {entry : ResolvedFileSystemEntry}

theorem mem_resolvedEntries_insertEntries {host : Host} {cwd : AbsolutePathBuf} :
    entry ∈ (policy.insertEntries entries).resolvedEntriesWithCwd host cwd ↔
      entry ∈ (policy.withAdditional entries).resolvedEntriesWithCwd host cwd := by
  refine mem_filterMap_insertNew fun left right h => ?_
  obtain ⟨hpath, haccess⟩ := entry_beq_iff.mp h
  rw [haccess, resolveEntryPath_congr hpath]

theorem guards_insertEntries {host : Host} {cwd dir : AbsolutePathBuf} :
    (policy.insertEntries entries).Guards host cwd dir ↔
      (policy.withAdditional entries).Guards host cwd dir := by
  unfold Guards
  simp only [writePaths_eq_filterMap]
  refine forall_congr' fun earlier => imp_congr_left ?_
  refine filterMap_insertNew_iff (fun left right h => ?_)
    (P := fun paths => earlier ∈ paths.takeWhile (· ≠ dir)) mem_takeWhile_append_cons
  obtain ⟨hpath, haccess⟩ := entry_beq_iff.mp h
  rw [haccess, resolveEntryPath_congr hpath]

theorem mem_resolvedEntries_withAdditional {host : Host} {cwd : AbsolutePathBuf} :
    entry ∈ (policy.withAdditional entries).resolvedEntriesWithCwd host cwd ↔
      entry ∈ policy.resolvedEntriesWithCwd host cwd ∨
        ∃ source ∈ entries, resolveEntryPath host source.path cwd = some entry.path ∧
          source.access = entry.access := by
  simp [mem_resolvedEntriesWithCwd, withAdditional, mem_append, or_and_right, exists_or]

end Appended

end FileSystemSandboxPolicy

/-! ### What additional entries take away -/

/-- **Additional entries that take no permission for writing away.** -/
structure KeepsWrites (policy : FileSystemSandboxPolicy) (entries : List FileSystemSandboxEntry)
    (host : Host) (cwd : AbsolutePathBuf) : Prop where
  /-- An additional entry for reading a path that may be written comes with an entry for writing
      it. -/
  reads : ∀ entry ∈ entries, entry.access = .read →
    ∀ path, resolveEntryPath host entry.path cwd = some path →
      policy.canWritePathWithCwd host path cwd →
        path ∈ (policy.withAdditional entries).writePaths host cwd
  /-- The protected names of an entry for writing that may be written have entries of their own, or
      the entry does not guard them, or everything may be written anyway. -/
  names : ∀ dir ∈ (policy.withAdditional entries).writePaths host cwd,
    ∀ name ∈ protectedMetadataPathNames, policy.canWritePathWithCwd host (childPath dir name) cwd →
        childPath dir name ∈ (policy.withAdditional entries).writePaths host cwd ∨
          ¬ (policy.withAdditional entries).Guards host cwd dir ∨
          (policy.withAdditional entries).hasFullDiskWriteAccess

namespace FileSystemSandboxPolicy

variable {policy : FileSystemSandboxPolicy} {entries : List FileSystemSandboxEntry} {host : Host}
  {path cwd : AbsolutePathBuf} (hkind : policy.kind = .restricted)
  (hallow : ∀ entry ∈ entries, entry.access ≠ .deny)

/-- The additional entry that decides in place of an entry of the policy. -/
theorem decides_withAdditional {entry entry' : ResolvedFileSystemEntry}
    (h : Decides (policy.resolvedEntriesWithCwd host cwd) path entry)
    (h' : Decides ((policy.withAdditional entries).resolvedEntriesWithCwd host cwd) path entry') :
    entry' = entry ∨ ∃ source ∈ entries,
      resolveEntryPath host source.path cwd = some entry'.path ∧ source.access = entry'.access := by
  rcases mem_resolvedEntries_withAdditional.mp h'.mem with hmem | hsource
  · obtain ⟨hle, haccess⟩ := h.wins entry' hmem h'.le
    obtain ⟨hle', haccess'⟩ :=
      h'.wins entry (mem_resolvedEntries_withAdditional.mpr (.inl h.mem)) h.le
    have hpath := le_antisymm hle hle'
    have hmode := le_antisymm (haccess hpath) (haccess' hpath.symm)
    cases entry'
    simp_all
  · exact .inr hsource

include hkind hallow

/-- What may be read may still be read. -/
theorem canRead_withAdditional (hread : policy.canReadPathWithCwd host path cwd) :
    (policy.withAdditional entries).canReadPathWithCwd host path cwd := by
  have hkind' : (policy.withAdditional entries).kind = .restricted := hkind
  obtain ⟨dir, access, hdec⟩ := exists_of_canRead hkind hread
  obtain ⟨dir', access', hdec', -⟩ := exists_decider hkind'
    (mem_resolvedEntries_withAdditional.mpr (.inl hdec.mem)) hdec.le
  rw [canRead_of_decides hkind hdec] at hread
  rw [canRead_of_decides hkind' hdec']
  rcases decides_withAdditional hdec hdec' with heq | ⟨source, hsource, -, hmode⟩
  · rwa [heq]
  · rw [← hmode]
    exact hallow source hsource

omit hallow in
/-- Where nothing is taken away, the additional entries keep writes. -/
theorem keepsWrites_of_forall (hkeeps : ∀ path, policy.canWritePathWithCwd host path cwd →
      (policy.withAdditional entries).canWritePathWithCwd host path cwd) :
    KeepsWrites policy entries host cwd := by
  have hkind' : (policy.withAdditional entries).kind = .restricted := hkind
  refine ⟨fun entry hentry hread path hpath hcan => ?_, fun dir hdir name hname hcan => ?_⟩
  · obtain ⟨decider, hdec, -⟩ := (canWrite_iff_decides hkind').mp (hkeeps path hcan)
    have hmem : (⟨path, .read⟩ : ResolvedFileSystemEntry) ∈
        (policy.withAdditional entries).resolvedEntriesWithCwd host cwd :=
      mem_resolvedEntries_withAdditional.mpr (.inr ⟨entry, hentry, hpath, hread⟩)
    have heq : decider = path := le_antisymm hdec.le (hdec.wins _ hmem le_rfl).1
    exact heq ▸ mem_writePaths.mpr hdec.mem
  · obtain ⟨decider, hdec, hfree⟩ :=
      (canWrite_iff_decides hkind').mp (hkeeps (childPath dir name) hcan)
    have hle := (hdec.wins _ (mem_writePaths.mp hdir) (lt_childPath dir name).le).1
    rcases le_childPath_iff.mp hdec.le with hge | heq
    · -- the entry itself decides about its protected name
      obtain rfl : decider = dir := le_antisymm hge hle
      rcases hfree with hfull | hfree
      · exact .inr (.inr hfull)
      · exact .inr (.inl fun hguards => hfree ⟨⟨name, hname, le_rfl⟩, hguards⟩)
    · have heq : decider = childPath dir name := heq
      exact .inl (heq ▸ mem_writePaths.mpr hdec.mem)

/-- What may be written may still be written, if the additional entries keep writes. -/
theorem canWrite_withAdditional (hkeeps : KeepsWrites policy entries host cwd)
    (hcan : policy.canWritePathWithCwd host path cwd) :
    (policy.withAdditional entries).canWritePathWithCwd host path cwd := by
  have hkind' : (policy.withAdditional entries).kind = .restricted := hkind
  obtain ⟨dir, hdec, hfree⟩ := (canWrite_iff_decides hkind).mp hcan
  obtain ⟨decider, access, hdec', hle⟩ := exists_decider hkind'
    (mem_resolvedEntries_withAdditional.mpr (.inl hdec.mem)) hdec.le
  have hbetween : ∀ middle, dir ≤ middle → middle ≤ path →
      policy.canWritePathWithCwd host middle cwd :=
    fun middle => canWrite_of_between hkind hdec hfree
  -- the new decider is for writing: an additional entry for reading comes with one for writing
  obtain rfl : access = .write := by
    rcases decides_withAdditional hdec hdec' with heq | ⟨source, hsource, hpath, hmode⟩
    · exact congrArg ResolvedFileSystemEntry.access heq
    · cases access with
      | write => rfl
      | deny => exact absurd hmode (hallow source hsource)
      | read =>
        have hwrite := hkeeps.reads source hsource hmode decider hpath
          (hbetween decider hle hdec'.le)
        have hmode : write ≤ .read := (hdec'.wins _ (mem_writePaths.mp hwrite) hdec'.le).2 rfl
        exact absurd hmode (by decide)
  refine (canWrite_iff_decides hkind').mpr ⟨decider, hdec', ?_⟩
  by_contra hdenied
  push Not at hdenied
  obtain ⟨hfull, ⟨name, hname, hchild⟩, hguards⟩ := hdenied
  have hchildLe := hle.trans (lt_childPath decider name).le
  rcases hkeeps.names decider (mem_writePaths.mpr hdec'.mem) name hname
    (hbetween _ hchildLe hchild) with hexplicit | hnot | hfull'
  · have hge := (hdec'.wins _ (mem_writePaths.mp hexplicit) hchild).1
    exact (lt_childPath decider name).not_ge hge
  · exact hnot hguards
  · exact hfull hfull'

end FileSystemSandboxPolicy

/-- Where there are no additional entries, or only empty ones, nothing changes; otherwise the new
    ones are appended. -/
theorem access_effective {policy : FileSystemSandboxPolicy} (hkind : policy.kind = .restricted)
    (additionalPermissions : Option AdditionalPermissionProfile) (host : Host)
    (path cwd : AbsolutePathBuf) :
    (effectiveFileSystemSandboxPolicy policy additionalPermissions).canReadPathWithCwd host path
        cwd = (policy.withAdditional (additionalEntries additionalPermissions)).canReadPathWithCwd
          host path cwd ∧
      (effectiveFileSystemSandboxPolicy policy additionalPermissions).canWritePathWithCwd host path
        cwd = (policy.withAdditional (additionalEntries additionalPermissions)).canWritePathWithCwd
          host path cwd := by
  have hnil : policy.withAdditional [] = policy := by
    simp [withAdditional]
  unfold effectiveFileSystemSandboxPolicy additionalEntries
  cases additionalPermissions.bind (·.fileSystem) with
  | none =>
    rw [hnil]
    exact ⟨rfl, rfl⟩
  | some permissions =>
    by_cases hempty : permissions.entries = []
    · simp [hempty, hnil]
    · have hmerge : mergeFileSystemPolicyWithAdditionalPermissions policy permissions =
          { policy.insertEntries permissions.entries with
            globScanMaxDepth := mergeGlobScanMaxDepth policy.entries policy.globScanMaxDepth
              permissions.entries (permissions.globScanMaxDepth.map PNat.val) } := by
        simp [mergeFileSystemPolicyWithAdditionalPermissions, hkind, insertEntries]
      simp only [List.isEmpty_iff, hempty, hmerge]
      -- repetitions do not matter
      exact ⟨canReadPathWithCwd_congr hkind hkind fun _ => mem_resolvedEntries_insertEntries,
        canWritePathWithCwd_congr hkind hkind (fun _ => mem_resolvedEntries_insertEntries)
          (fun _ => guards_insertEntries) (hasFullDiskWriteAccess_insertEntries policy _)⟩

/-- **What additional permissions keep.**  With additional entries that deny nothing, whatever the
    policy lets be read and written may still be read and written just when the entries keep
    writes. -/
theorem effective_keeps_access_iff {policy : FileSystemSandboxPolicy}
    (hkind : policy.kind = .restricted) {additionalPermissions : Option AdditionalPermissionProfile}
    (hallow : ∀ entry ∈ additionalEntries additionalPermissions, entry.access ≠ .deny) (host : Host)
    (cwd : AbsolutePathBuf) :
    (∀ path, (policy.canReadPathWithCwd host path cwd →
        (effectiveFileSystemSandboxPolicy policy additionalPermissions).canReadPathWithCwd host path
          cwd) ∧ (policy.canWritePathWithCwd host path cwd →
        (effectiveFileSystemSandboxPolicy policy additionalPermissions).canWritePathWithCwd host
          path cwd)) ↔
    KeepsWrites policy (additionalEntries additionalPermissions) host cwd := by
  constructor
  · intro hall
    refine keepsWrites_of_forall hkind fun path hcan => ?_
    rw [← (access_effective hkind additionalPermissions host path cwd).2]
    exact (hall path).2 hcan
  · intro hkeeps path
    obtain ⟨hread, hwrite⟩ := access_effective hkind additionalPermissions host path cwd
    rw [hread, hwrite]
    exact ⟨canRead_withAdditional hkind hallow, canWrite_withAdditional hkind hallow hkeeps⟩

/-- A folder that may be read in addition. -/
def readFolder (folder : Text) : Option AdditionalPermissionProfile :=
  some ⟨none, some ⟨[⟨.path (absolutePath folder), .read⟩], none⟩⟩

/-- Reading a folder outside of the writable ones. -/
theorem effective_keeps_access_data :
    (writeFolders ["/repo"]).canWritePathWithCwd emptyHost (absolutePath "/repo/a")
      rootPath ∧ (effectiveFileSystemSandboxPolicy (writeFolders ["/repo"])
      (readFolder "/data")).canWritePathWithCwd emptyHost (absolutePath "/repo/a")
        rootPath := by
  have hcan : (writeFolders ["/repo"]).canWritePathWithCwd emptyHost
      (absolutePath "/repo/a") rootPath := by decide
  refine ⟨hcan, ((effective_keeps_access_iff rfl (by decide) emptyHost rootPath).mpr ?_ _).2 hcan⟩
  refine ⟨fun entry hentry _ path hpath hwrite => ?_, fun dir hdir name hname hwrite => ?_⟩
  · have hdata : ∀ entry ∈ additionalEntries (readFolder "/data"),
        resolveEntryPath emptyHost entry.path rootPath = some (absolutePath "/data") := by
      decide
    obtain rfl := Option.some.inj ((hdata entry hentry).symm.trans hpath)
    exact absurd hwrite (by decide)
  · have hnames : ∀ dir ∈ ((writeFolders ["/repo"]).withAdditional
        (additionalEntries (readFolder "/data"))).writePaths emptyHost rootPath,
        ∀ name ∈ protectedMetadataPathNames, (writeFolders ["/repo"]).canWritePathWithCwd
          emptyHost (childPath dir name) rootPath = false := by decide
    rw [hnames dir hdir name hname] at hwrite
    cases hwrite

/-- Reading a folder that may be written: afterwards it may not be written any more. -/
theorem effective_loses_write :
    (∀ entry ∈ additionalEntries (readFolder "/repo/docs"), entry.access ≠ .deny) ∧
    (writeFolders ["/repo"]).canWritePathWithCwd emptyHost
      (absolutePath "/repo/docs/a") rootPath ∧
    (effectiveFileSystemSandboxPolicy (writeFolders ["/repo"])
      (readFolder "/repo/docs")).canWritePathWithCwd emptyHost
        (absolutePath "/repo/docs/a") rootPath = false := by decide

end Codex.Sandbox
