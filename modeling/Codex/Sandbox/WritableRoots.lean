import Codex.Sandbox.WriteAccess

namespace Codex.Sandbox

open Text Data AbsolutePathBuf FileSystemAccessMode List

/-!
# Writable roots

The sandboxes of the operating systems are not given the entries of a policy but its writable
roots: folders that may be written, each with the paths below it that may not, and with the names
in it that are protected.  A path may be written if one of the roots lets it be written.

* `getWritableRootsWithCwd` — the roots of a policy;
* `WritableRoot.isPathWritable` — what a root lets be written;
* `NestedMetadataCovered` — what a root is taken to protect of the roots that lie in it;
* `writableRoots_sound_iff` — everything that the roots let be written may be written under the
  policy, just when the protected names of nested entries are covered so.
-/

/-! ### Paths -/

/-- The path and the folders it lies in, the nearest first. -/
def ancestors (path : AbsolutePathBuf) : List AbsolutePathBuf := path.names.inits.reverse.map mk

/-- The path with its nearest existing folder canonicalized. -/
def normalizeEffectiveAbsolutePath (host : Host) (path : AbsolutePathBuf) : AbsolutePathBuf :=
  ((ancestors path).findSome? fun ancestor =>
    if host.hasSymlinkMetadata ancestor then
      (host.canonicalizePreservingSymlinks ancestor).map fun normalizedAncestor =>
        ⟨normalizedAncestor.names ++ path.names.drop ancestor.depth⟩
    else none).getD path

def dedupAbsolutePaths (host : Host) (paths : List AbsolutePathBuf)
    (normalizeEffectivePaths : Bool) : List AbsolutePathBuf :=
  (if normalizeEffectivePaths then paths.map (normalizeEffectiveAbsolutePath host)
    else paths).eraseDups

/-- There are no symbolic links: canonicalizing a path does not change it. -/
def Host.NoSymlinks (host : Host) : Prop :=
  ∀ path path', host.canonicalizePreservingSymlinks path = some path' → path' = path

theorem normalizeEffectiveAbsolutePath_eq {host : Host} (hlinks : host.NoSymlinks)
    (path : AbsolutePathBuf) : normalizeEffectiveAbsolutePath host path = path := by
  unfold normalizeEffectiveAbsolutePath
  cases hfind : (ancestors path).findSome? _ with
  | none => rfl
  | some found =>
    obtain ⟨ancestor, hancestor, hfound⟩ := exists_of_findSome?_eq_some hfind
    split at hfound
    · obtain ⟨canonical, hcanonical, rfl⟩ := Option.map_eq_some_iff.mp hfound
      rw [hlinks _ _ hcanonical]
      obtain ⟨names, hnames, rfl⟩ := mem_map.mp hancestor
      have hnames := (mem_inits _ _).mp (mem_reverse.mp hnames)
      apply names_injective
      exact prefix_iff_eq_append.mp hnames
    · cases hfound

variable {path : AbsolutePathBuf} {paths : List AbsolutePathBuf}

theorem mem_dedupAbsolutePaths {host : Host} (hlinks : host.NoSymlinks)
    {normalizeEffectivePaths : Bool} :
    path ∈ dedupAbsolutePaths host paths normalizeEffectivePaths ↔ path ∈ paths := by
  unfold dedupAbsolutePaths
  rw [mem_eraseDups]
  split
  · simp [normalizeEffectiveAbsolutePath_eq hlinks]
  · rfl

/-! ### Default read-only paths -/

def isGitPointerFile (host : Host) (path : AbsolutePathBuf) : Bool :=
  host.isFile path && path.names.getLast? = some protectedMetadataGitPathName

/-- The text in front of the first colon, and the text behind it. -/
def splitOnceColon (text : Text) : Option (Text × Text) :=
  match text.span (· ≠ ':') with
  | (before, _ :: after) => some (before, after)
  | (_, []) => none

/-- The folder that a `.git` file points to, if it is there. -/
def resolveGitdirFromFile (host : Host) (dotGit : AbsolutePathBuf) : Option AbsolutePathBuf := do
  let contents ← host.readToString dotGit
  let (key, gitdirRaw) ← splitOnceColon (trim contents)
  if trim key ≠ "gitdir" then none
  else if (trim gitdirRaw).isEmpty then none
  else do
    let base ← dotGit.parent
    let gitdirPath := resolvePathAgainstBase host.home (trim gitdirRaw) base
    if host.pathExists gitdirPath then some gitdirPath else none

def defaultReadOnlySubpathsForWritableRoot (host : Host) (writableRoot : AbsolutePathBuf)
    (protectMissingDotCodex : Bool) : List AbsolutePathBuf :=
  let topLevelGit := childPath writableRoot protectedMetadataGitPathName
  let topLevelAgents := childPath writableRoot protectedMetadataAgentsPathName
  let topLevelCodex := childPath writableRoot protectedMetadataCodexPathName
  let gitSubpaths :=
    if host.isDir topLevelGit || host.isFile topLevelGit then
      (if host.isFile topLevelGit && isGitPointerFile host topLevelGit then
        (resolveGitdirFromFile host topLevelGit).toList else []) ++ [topLevelGit]
    else []
  let agentsSubpaths := if host.isDir topLevelAgents then [topLevelAgents] else []
  let codexSubpaths :=
    if protectMissingDotCodex || host.isDir topLevelCodex then [topLevelCodex] else []
  dedupAbsolutePaths host (gitSubpaths ++ agentsSubpaths ++ codexSubpaths) false

section Defaults

/-- The `.git` file of a folder points to another one. -/
def Host.PointsToGitdir (host : Host) (root gitdir : AbsolutePathBuf) : Prop :=
  host.isFile (childPath root protectedMetadataGitPathName) ∧
    resolveGitdirFromFile host (childPath root protectedMetadataGitPathName) = some gitdir

variable {host : Host} {root : AbsolutePathBuf} {protectMissingDotCodex : Bool}

/-- The default read-only paths: protected names, and the folder that a `.git` file points to. -/
theorem mem_defaultReadOnlySubpaths (hlinks : host.NoSymlinks) :
    path ∈ defaultReadOnlySubpathsForWritableRoot host root protectMissingDotCodex ↔
      host.PointsToGitdir root path ∨
      (path = childPath root protectedMetadataGitPathName ∧ (host.isDir path ∨ host.isFile path)) ∨
      (path = childPath root protectedMetadataAgentsPathName ∧ host.isDir path) ∨
      path = childPath root protectedMetadataCodexPathName ∧
        (protectMissingDotCodex ∨ host.isDir path) := by
  have hpointer : host.isFile (childPath root protectedMetadataGitPathName) →
      isGitPointerFile host (childPath root protectedMetadataGitPathName) := by
    intro h
    rw [isGitPointerFile, h]
    simp [childPath]
  have hitem : ∀ (c : Bool) (item : AbsolutePathBuf),
      path ∈ (if c then [item] else []) ↔ path = item ∧ c := by
    intro c item
    cases c <;> simp
  unfold defaultReadOnlySubpathsForWritableRoot
  simp only [mem_dedupAbsolutePaths hlinks, mem_append, hitem, or_assoc]
  rw [Host.PointsToGitdir]
  cases hfile : host.isFile (childPath root protectedMetadataGitPathName) with
  | false =>
    simp only [Bool.false_and, Bool.false_eq_true, if_false, nil_append, hitem, false_and, false_or]
    refine or_congr (and_congr_right ?_) (or_congr (and_congr_right ?_) (and_congr_right ?_))
    · rintro rfl
      simp [hfile]
    · rintro rfl
      rfl
    · rintro rfl
      simp
  | true =>
    simp only [Bool.or_true, if_true, Bool.true_and, hpointer hfile, mem_append,
      Option.mem_toList, mem_singleton, or_assoc, true_and]
    refine or_congr Iff.rfl (or_congr ?_ (or_congr (and_congr_right ?_) (and_congr_right ?_)))
    · exact ⟨fun h => ⟨h, .inr (h ▸ hfile)⟩, And.left⟩
    · rintro rfl
      rfl
    · rintro rfl
      simp

theorem of_mem_defaultReadOnlySubpaths (hlinks : host.NoSymlinks)
    (h : path ∈ defaultReadOnlySubpathsForWritableRoot host root protectMissingDotCodex) :
    (∃ name ∈ protectedMetadataPathNames, path = childPath root name) ∨
      host.PointsToGitdir root path := by
  rcases (mem_defaultReadOnlySubpaths hlinks).mp h with
    hgitdir | ⟨hpath, -⟩ | ⟨hpath, -⟩ | ⟨hpath, -⟩
  · exact .inr hgitdir
  all_goals exact .inl ⟨_, by decide, hpath⟩

end Defaults

/-! ### The roots -/

structure WritableRoot where
  root : AbsolutePathBuf
  readOnlySubpaths : List AbsolutePathBuf
  protectedMetadataNames : List NormalName

namespace WritableRoot

def pathContainsProtectedMetadataName (writableRoot : WritableRoot) (path : AbsolutePathBuf) :
    Bool :=
  match (stripDir writableRoot.root path).bind head? with
  | none => false
  | some firstComponent => writableRoot.protectedMetadataNames.any (firstComponent = ·)

def isPathWritable (writableRoot : WritableRoot) (path : AbsolutePathBuf) : Bool :=
  if ¬ writableRoot.root ≤ path then false
  else if writableRoot.readOnlySubpaths.any (· ≤ path) then false
  else if writableRoot.pathContainsProtectedMetadataName path then false
  else true

theorem isPathWritable_iff {writableRoot : WritableRoot} :
    writableRoot.isPathWritable path ↔ writableRoot.root ≤ path ∧
      (∀ subpath ∈ writableRoot.readOnlySubpaths, ¬ subpath ≤ path) ∧
      ∀ name ∈ writableRoot.protectedMetadataNames, ¬ childPath writableRoot.root name ≤ path := by
  have hname : writableRoot.pathContainsProtectedMetadataName path ↔
      ∃ name ∈ writableRoot.protectedMetadataNames, childPath writableRoot.root name ≤ path := by
    simp only [← head?_stripDir_eq_some_iff]
    unfold pathContainsProtectedMetadataName
    cases (stripDir writableRoot.root path).bind head? with
    | none => simp
    | some first => simp
  unfold isPathWritable
  by_cases hle : writableRoot.root ≤ path
  · rw [if_neg (not_not.mpr hle)]
    by_cases hsub : writableRoot.readOnlySubpaths.any (· ≤ path)
    · rw [if_pos hsub]
      obtain ⟨subpath, hmem, hsubpath⟩ := any_eq_true.mp hsub
      refine ⟨fun h => (by cases h), fun h => absurd (by simpa using hsubpath) (h.2.1 subpath hmem)⟩
    · rw [if_neg hsub]
      have hno : ∀ subpath ∈ writableRoot.readOnlySubpaths, ¬ subpath ≤ path := by simpa using hsub
      have hrest : (∀ name ∈ writableRoot.protectedMetadataNames,
          ¬ childPath writableRoot.root name ≤ path) ↔
            ¬ writableRoot.pathContainsProtectedMetadataName path := by
        rw [hname]
        push Not
        rfl
      rw [hrest]
      split
      · exact ⟨fun h => (by cases h), fun h => absurd ‹_› h.2.2⟩
      · exact ⟨fun _ => ⟨hle, hno, ‹_›⟩, fun _ => rfl⟩
  · rw [if_pos hle]
    exact ⟨fun h => (by cases h), fun h => absurd h.1 hle⟩

end WritableRoot

def hasExplicitResolvedPathEntry (entries : List ResolvedFileSystemEntry) (path : AbsolutePathBuf) :
    Bool := entries.any (·.path = path)

namespace FileSystemSandboxPolicy

variable (policy : FileSystemSandboxPolicy) (host : Host) (cwd : AbsolutePathBuf)

variable (root : AbsolutePathBuf)

variable (rawWritableRoots : List AbsolutePathBuf)

def protectedMetadataNamesForWritableRoot : List NormalName :=
  protectedMetadataPathNames.filter fun metadataName =>
    (childPath root metadataName :: rawWritableRoots.map (childPath · metadataName)).all
      fun metadataPath => !policy.canWritePathWithCwd host metadataPath cwd

/-- The path below a root that an entry takes out of it. -/
def carveoutPath
    (path : AbsolutePathBuf) : Option AbsolutePathBuf :=
  let effectivePath := normalizeEffectiveAbsolutePath host path
  let rawCarveoutPath :=
    if root.parent.isSome then
      if path = root then none
      else if root ≤ path then some path
      else rawWritableRoots.findSome? fun rawRoot =>
        match stripDir rawRoot path with
        | some (first :: rest) => some ⟨root.names ++ first :: rest⟩
        | _ => none
    else none
  match rawCarveoutPath with
  | some rawCarveoutPath => some rawCarveoutPath
  | none => if effectivePath = root ∨ ¬ root ≤ effectivePath then none else some effectivePath

def writableEntries : List AbsolutePathBuf :=
  ((policy.resolvedEntriesWithCwd host cwd).filter fun entry =>
    entry.access.canWrite && policy.canWritePathWithCwd host entry.path cwd).map (·.path)

/-- The read-only paths that go with a root: the default ones that no entry is about, and those of
    the entries that are not for writing. -/
def readOnlySubpathsForRoot : List AbsolutePathBuf :=
  let resolvedEntries := policy.resolvedEntriesWithCwd host cwd
  let protectMissingDotCodex := decide (normalizeEffectiveAbsolutePath host cwd = root)
  dedupAbsolutePaths host
    ((defaultReadOnlySubpathsForWritableRoot host root protectMissingDotCodex).filter
      (!hasExplicitResolvedPathEntry resolvedEntries ·) ++ (resolvedEntries.filter fun entry =>
      !entry.access.canWrite && !policy.canWritePathWithCwd host entry.path cwd).filterMap
        fun entry => carveoutPath host root rawWritableRoots entry.path)
    false

/-- The writable root for a folder. -/
def writableRootFor (root : AbsolutePathBuf) : WritableRoot :=
  let rawWritableRoots :=
    (policy.writableEntries host cwd).filter (normalizeEffectiveAbsolutePath host · = root)
  { root
    readOnlySubpaths := policy.readOnlySubpathsForRoot host cwd root rawWritableRoots
    protectedMetadataNames :=
      policy.protectedMetadataNamesForWritableRoot host cwd root rawWritableRoots }

def getWritableRootsWithCwd : List WritableRoot :=
  if policy.hasFullDiskWriteAccess then []
  else (dedupAbsolutePaths host (policy.writableEntries host cwd) true).map
    (policy.writableRootFor host cwd)

/-! ### The roots without symbolic links -/

section NoSymlinks

variable {policy host cwd}

variable {root : AbsolutePathBuf} {rawWritableRoots : List AbsolutePathBuf}

theorem eq_of_mem_raw (hlinks : host.NoSymlinks) :
    ∀ rawRoot ∈ paths.filter (normalizeEffectiveAbsolutePath host · = root), rawRoot = root := by
  intro rawRoot hrawRoot
  have := (mem_filter.mp hrawRoot).2
  rwa [decide_eq_true_eq, normalizeEffectiveAbsolutePath_eq hlinks] at this

theorem carveoutPath_eq (hlinks : host.NoSymlinks)
    (hraw : ∀ rawRoot ∈ rawWritableRoots, rawRoot = root) (path : AbsolutePathBuf) :
    carveoutPath host root rawWritableRoots path = if root < path then some path else none := by
  have hnone : ¬ root ≤ path → (rawWritableRoots.findSome? fun rawRoot =>
      match stripDir rawRoot path with
      | some (first :: rest) => some (⟨root.names ++ first :: rest⟩ : AbsolutePathBuf)
      | _ => none) = none := by
    intro hle
    rw [findSome?_eq_none_iff]
    intro rawRoot hrawRoot
    rw [hraw rawRoot hrawRoot, stripDir, if_neg hle]
  unfold carveoutPath
  simp only [normalizeEffectiveAbsolutePath_eq hlinks]
  by_cases hle : root ≤ path
  · by_cases heq : path = root
    · subst heq
      simp
    · have hlt : root < path := lt_of_le_of_ne hle (Ne.symm heq)
      cases root.parent <;> simp [hle, heq, hlt]
  · have hlt : ¬ root < path := fun h => hle h.le
    simp only [hnone hle]
    simp [hle, hlt]

theorem mem_writableEntries :
    path ∈ policy.writableEntries host cwd ↔
      path ∈ policy.writePaths host cwd ∧ policy.canWritePathWithCwd host path cwd := by
  unfold writableEntries
  rw [mem_map, mem_writePaths]
  constructor
  · rintro ⟨⟨path, access⟩, hentry, rfl⟩
    obtain ⟨hmem, hboth⟩ := mem_filter.mp hentry
    obtain ⟨hwrite, hcan⟩ := Bool.and_eq_true_iff.mp hboth
    cases access with
    | write => exact ⟨hmem, hcan⟩
    | read | deny => cases hwrite
  · rintro ⟨hmem, hcan⟩
    exact ⟨_, mem_filter.mpr ⟨hmem, by simpa [canWrite] using hcan⟩, rfl⟩

/-- The read-only paths below a root. -/
def ReadOnlyBelow (policy : FileSystemSandboxPolicy) (host : Host) (cwd root path : AbsolutePathBuf) :
    Prop :=
  (path ∈ defaultReadOnlySubpathsForWritableRoot host root (decide (cwd = root)) ∧
    ∀ entry ∈ policy.resolvedEntriesWithCwd host cwd, entry.path ≠ path) ∨
  (root < path ∧ policy.canWritePathWithCwd host path cwd = false ∧
    ∃ entry ∈ policy.resolvedEntriesWithCwd host cwd, entry.path = path ∧ entry.access ≠ .write)

theorem mem_readOnlySubpathsForRoot (hlinks : host.NoSymlinks)
    (hraw : ∀ rawRoot ∈ rawWritableRoots, rawRoot = root) :
    path ∈ policy.readOnlySubpathsForRoot host cwd root rawWritableRoots ↔
      policy.ReadOnlyBelow host cwd root path := by
  unfold readOnlySubpathsForRoot
  rw [mem_dedupAbsolutePaths hlinks, mem_append]
  apply or_congr
  · rw [normalizeEffectiveAbsolutePath_eq hlinks]
    simp [hasExplicitResolvedPathEntry]
  · rw [mem_filterMap]
    simp only [carveoutPath_eq hlinks hraw, mem_filter]
    constructor
    · rintro ⟨entry, ⟨hentry, hnot⟩, hcarve⟩
      split at hcarve
      · cases hcarve
        refine ⟨‹_›, ?_, entry, hentry, rfl, ?_⟩
        · simpa using (Bool.and_eq_true_iff.mp hnot).2
        · simpa [canWrite] using (Bool.and_eq_true_iff.mp hnot).1
      · cases hcarve
    · rintro ⟨hlt, hcan, entry, hentry, rfl, haccess⟩
      refine ⟨entry, ⟨hentry, ?_⟩, if_pos hlt⟩
      simp [canWrite, haccess, hcan]

variable {name : NormalName}

theorem mem_protectedMetadataNamesForWritableRoot
    (hraw : ∀ rawRoot ∈ rawWritableRoots, rawRoot = root) :
    name ∈ policy.protectedMetadataNamesForWritableRoot host cwd root rawWritableRoots ↔
      name ∈ protectedMetadataPathNames ∧
        policy.canWritePathWithCwd host (childPath root name) cwd = false := by
  unfold protectedMetadataNamesForWritableRoot
  rw [mem_filter, all_cons, Bool.and_eq_true_iff, Bool.not_eq_true', all_eq_true]
  refine and_congr_right fun _ => and_iff_left_of_imp fun hroot metadataPath hmem => ?_
  obtain ⟨rawRoot, hrawRoot, rfl⟩ := mem_map.mp hmem
  rw [hraw rawRoot hrawRoot, hroot]
  rfl

/-- **What a root lets be written.** -/
theorem exists_isPathWritable_iff (hlinks : host.NoSymlinks)
    (hfull : policy.hasFullDiskWriteAccess = false) :
    (∃ writableRoot ∈ policy.getWritableRootsWithCwd host cwd, writableRoot.isPathWritable path) ↔
    ∃ root ∈ policy.writePaths host cwd, policy.canWritePathWithCwd host root cwd ∧
      root ≤ path ∧
      (∀ subpath, policy.ReadOnlyBelow host cwd root subpath → ¬ subpath ≤ path) ∧
      ∀ name ∈ protectedMetadataPathNames,
        policy.canWritePathWithCwd host (childPath root name) cwd = false →
          ¬ childPath root name ≤ path := by
  unfold getWritableRootsWithCwd
  rw [hfull, if_neg Bool.false_ne_true]
  simp only [mem_map, exists_exists_and_eq_and, writableRootFor]
  simp [mem_dedupAbsolutePaths hlinks, mem_writableEntries, WritableRoot.isPathWritable_iff,
    mem_readOnlySubpathsForRoot hlinks (eq_of_mem_raw hlinks),
    mem_protectedMetadataNamesForWritableRoot (eq_of_mem_raw hlinks), and_imp, and_assoc]

/-! ### Soundness of the roots -/

/-- Entries for writing that lie in a writable root have their protected names covered: a name may
    be written on its own, or an earlier entry for writing has the entry among its protected names,
    or a read-only path of the root covers the name, or the entry lies in a protected name of the
    root. -/
def NestedMetadataCovered (policy : FileSystemSandboxPolicy) (host : Host) (cwd : AbsolutePathBuf) :
    Prop :=
  ∀ root ∈ policy.writePaths host cwd, policy.canWritePathWithCwd host root cwd →
    ∀ dir ∈ policy.writePaths host cwd, root < dir → ∀ name ∈ protectedMetadataPathNames,
      childPath dir name ∈ policy.writePaths host cwd ∨
      (∃ earlier ∈ (policy.writePaths host cwd).takeWhile (· ≠ dir), InMetadata earlier dir) ∨
      (∃ subpath ≤ childPath dir name, policy.ReadOnlyBelow host cwd root subpath) ∨
      ∃ rootName ∈ protectedMetadataPathNames, childPath root rootName ≤ dir ∧
        policy.canWritePathWithCwd host (childPath root rootName) cwd = false

/-- **Soundness of the writable roots.**  Every path that a root lets be written may be written
    under the policy, just when the protected names of nested entries are covered. -/
theorem writableRoots_sound_iff (hlinks : host.NoSymlinks) (hkind : policy.kind = .restricted)
    (hfull : policy.hasFullDiskWriteAccess = false) :
    (∀ path, (∃ writableRoot ∈ policy.getWritableRootsWithCwd host cwd,
      writableRoot.isPathWritable path) → policy.canWritePathWithCwd host path cwd) ↔
      policy.NestedMetadataCovered host cwd := by
  simp only [exists_isPathWritable_iff hlinks hfull]
  constructor
  · intro hsound root hroot hcan dir hdir hlt name hname
    by_contra hno
    push Not at hno
    obtain ⟨hexplicit, hearlier, hsubpath, hrootName⟩ := hno
    -- otherwise the root lets the protected name be written, and the nested entry does not
    have hwritable := hsound (childPath dir name) ⟨root, hroot, hcan,
      hlt.le.trans (lt_childPath dir name).le,
      fun subpath hreadOnly hle => hsubpath subpath hle hreadOnly, ?_⟩
    · obtain ⟨decider, hdec, hfree⟩ := (canWrite_iff_decides hkind).mp hwritable
      have hge := (hdec.wins _ (mem_writePaths.mp hdir) (lt_childPath dir name).le).1
      rcases le_childPath_iff.mp hdec.le with hle | heq
      · obtain rfl : decider = dir := le_antisymm hle hge
        exact hfree.resolve_left (by simp [hfull]) ⟨⟨name, hname, le_rfl⟩, hearlier⟩
      · exact hexplicit (heq ▸ mem_writePaths.mpr hdec.mem)
    · intro rootName hprotected hcannot hle
      refine hrootName rootName hprotected ?_ hcannot
      exact childPath_le_of_lt hlt (lt_childPath dir name).le hle
  · rintro hcovered path ⟨root, hroot, hcan, hle, hreadOnly, hnames⟩
    obtain ⟨dir, hdec, hge⟩ := exists_decides_write hkind hroot hcan hle
      fun entry hentry hlt hentryLe hcannot => by
        by_contra hwrite
        exact hreadOnly _ (.inr ⟨hlt, hcannot, entry, hentry, rfl, hwrite⟩) hentryLe
    refine (canWrite_iff_decides hkind).mpr ⟨dir, hdec, .inr ?_⟩
    rintro ⟨⟨name, hname, hdir⟩, hguards⟩
    have hmem := mem_writePaths.mpr hdec.mem
    -- the entry that decides is the root, or lies below it
    rcases hge.eq_or_lt with rfl | hlt
    · have hcannot := canWrite_childPath_of_guards hkind hfull hdec hname hdir hguards
      exact hnames name hname hcannot hdir
    · rcases hcovered root hroot hcan dir hmem hlt name hname with
        hself | ⟨earlier, hearlier, hinner⟩ | ⟨subpath, hsub, hreadOnly'⟩ |
          ⟨rootName, hprotected, hle', hcannot⟩
      · have hge := (hdec.wins _ (mem_writePaths.mp hself) hdir).1
        exact (lt_childPath dir name).not_ge hge
      · exact hguards earlier hearlier hinner
      · exact hreadOnly subpath hreadOnly' (hsub.trans hdir)
      · exact hnames rootName hprotected hcannot (hle'.trans hdec.le)

end NoSymlinks

end FileSystemSandboxPolicy

/-! ### A repository with a nested entry -/

/-- A file system that answers nothing. -/
def emptyHost : Host where
  home := none
  currentDir := none
  tmpdir := none
  isDir _ := false
  isFile _ := false
  pathExists _ := false
  readToString _ := none
  hasSymlinkMetadata _ := false
  canonicalizePreservingSymlinks := some

def absolutePath (path : Text) : AbsolutePathBuf := normalizePath (pathComponents path)

/-- Everything may be read, and some folders may be written. -/
def writeFolders (folders : List Text) : FileSystemSandboxPolicy :=
  ⟨.restricted, none, ⟨.special .root, .read⟩ ::
    folders.map fun folder => ⟨.path (absolutePath folder), .write⟩⟩

theorem emptyHost_noSymlinks : emptyHost.NoSymlinks := by
  intro path path' h
  cases h
  rfl

/-- With a nested root in a protected name of the outer one the roots are sound. -/
theorem writableRoots_sound_repo :
    let policy := writeFolders ["/repo", "/repo/.git/hooks"]
    (∃ writableRoot ∈ policy.getWritableRootsWithCwd emptyHost rootPath,
      writableRoot.isPathWritable (absolutePath "/repo/.git/hooks/a")) ∧
    policy.canWritePathWithCwd emptyHost (absolutePath "/repo/.git/hooks/a") rootPath := by
  intro policy
  have hwritable : ∃ writableRoot ∈ policy.getWritableRootsWithCwd emptyHost rootPath,
      writableRoot.isPathWritable (absolutePath "/repo/.git/hooks/a") := by decide
  refine ⟨hwritable, (FileSystemSandboxPolicy.writableRoots_sound_iff emptyHost_noSymlinks rfl
    (by decide)).mpr ?_ _ hwritable⟩
  intro root hroot _ dir hdir hlt name _
  have hpaths : policy.writePaths emptyHost rootPath =
      [absolutePath "/repo", absolutePath "/repo/.git/hooks"] := by decide
  simp only [hpaths, mem_cons, not_mem_nil, or_false] at hroot hdir
  rcases hroot with rfl | rfl <;> rcases hdir with rfl | rfl
  · exact absurd hlt (lt_irrefl _)
  · exact .inr (.inr (.inr (by decide)))
  · exact absurd hlt (by decide)
  · exact absurd hlt (lt_irrefl _)

/-- The outer root does not protect the `.git` folder of the inner one. -/
theorem writableRoots_nested_git :
    (∃ writableRoot ∈ (writeFolders ["/repo", "/repo/sub"]).getWritableRootsWithCwd
        emptyHost rootPath, writableRoot.isPathWritable (absolutePath "/repo/sub/.git/config")) ∧
    (writeFolders ["/repo", "/repo/sub"]).canWritePathWithCwd emptyHost
      (absolutePath "/repo/sub/.git/config") rootPath = false := by decide

end Codex.Sandbox
