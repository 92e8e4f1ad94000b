import Codex.Data.ExceptFold
import Codex.Sandbox.MountView

namespace Codex.Sandbox

open Text Data List AbsolutePathBuf

/-!
# The layers of the view

Where there are no symbolic links, the mounts for a policy are a base followed by layers: folders on
the way to writable roots, writable roots, read-only paths, and masks over denied paths.

* `LinuxHost.Plain` — what is asked of a file system without symbolic links;
* `Layer`, `Layer.ops` — the layers, and the mounts of each of them;
* `createFilesystemArgs_layers` — the mounts for a policy are those of its layers.
-/

/-! ### File systems without symbolic links -/

/-- A file system without symbolic links: its folders form a tree, and nothing lies in files and
    empty folders. -/
structure LinuxHost.Plain (host : LinuxHost) : Prop where
  noSymlinks : host.toHost.NoSymlinks
  not_isSymlink : ∀ path, host.isSymlink path = false
  hasSymlinkMetadata_eq : ∀ path, host.hasSymlinkMetadata path = host.pathExists path
  isNotFound_eq : ∀ path, host.isNotFound path = !host.pathExists path
  pathExists_root : host.pathExists rootPath
  pathExists_of_le : ∀ {path path'}, path ≤ path' → host.pathExists path' → host.pathExists path
  pathExists_of_isDir : ∀ {path}, host.isDir path → host.pathExists path
  pathExists_of_isFile : ∀ {path}, host.isFile path → host.pathExists path
  eq_of_isFile : ∀ {path path'}, host.isFile path → path ≤ path' → host.pathExists path' →
    path' = path
  eq_of_directoryIsEmpty : ∀ {path path'}, host.isDir path → host.directoryIsEmpty path →
    path ≤ path' → host.pathExists path' → path' = path

theorem LinuxHost.Plain.canonicalTarget_eq_none {host : LinuxHost} (hplain : host.Plain)
    (path : AbsolutePathBuf) : canonicalTargetIfSymlinkedPath host path = none := by
  unfold canonicalTargetIfSymlinkedPath
  split
  · rfl
  · rename_i current hfind
    have := find?_some hfind
    rw [hplain.not_isSymlink, Bool.or_false, Bool.not_eq_true'] at this
    rw [this]
    rfl

variable {path : AbsolutePathBuf}

theorem mem_ancestors {ancestor : AbsolutePathBuf} :
    ancestor ∈ ancestors path ↔ ancestor ≤ path := by
  unfold ancestors
  rw [mem_map]
  constructor
  · rintro ⟨names, hnames, rfl⟩
    exact (mem_inits _ _).mp (mem_reverse.mp hnames)
  · intro h
    exact ⟨_, mem_reverse.mpr ((mem_inits _ _).mpr h), rfl⟩

/-- A file system with some folders and files. -/
def treeHost (dirs : List AbsolutePathBuf) (files : List (AbsolutePathBuf × Text)) : LinuxHost where
  home := none
  currentDir := none
  tmpdir := none
  isDir path := dirs.contains path
  isFile path := (files.map (·.1)).contains path
  pathExists path := (dirs ++ files.map (·.1)).contains path
  readToString path := files.lookup path
  hasSymlinkMetadata path := (dirs ++ files.map (·.1)).contains path
  canonicalizePreservingSymlinks := some
  isSymlink _ := false
  isNotFound path := !(dirs ++ files.map (·.1)).contains path
  canonicalize := some
  len path := ((files.lookup path).map length).getD 0
  directoryIsEmpty path := (dirs ++ files.map (·.1)).all fun other => ¬ path < other
  identity _ := ⟨0, 0⟩
  ripgrepFiles _ _ _ := .ok []
  devNullError := none

/-- Folders and files form a tree if everything lies in folders. -/
theorem treeHost_plain {dirs : List AbsolutePathBuf} {files : List (AbsolutePathBuf × Text)}
    (hroot : rootPath ∈ dirs) (hfiles : ∀ file ∈ files, file.1 ∉ dirs)
    (hdirs : ∀ path ∈ dirs ++ files.map (·.1), ∀ ancestor ∈ ancestors path,
      ancestor = path ∨ ancestor ∈ dirs) : (treeHost dirs files).Plain where
  noSymlinks := by
    intro path path' h
    cases h
    rfl
  not_isSymlink _ := rfl
  hasSymlinkMetadata_eq _ := rfl
  isNotFound_eq _ := rfl
  pathExists_root := contains_iff_mem.mpr (mem_append_left _ hroot)
  pathExists_of_le := by
    intro path path' hle hexists
    rcases hdirs path' (contains_iff_mem.mp hexists) path (mem_ancestors.mpr hle) with
      rfl | hmem
    · exact hexists
    · exact contains_iff_mem.mpr (mem_append_left _ hmem)
  pathExists_of_isDir h := contains_iff_mem.mpr (mem_append_left _ (contains_iff_mem.mp h))
  pathExists_of_isFile h := contains_iff_mem.mpr (mem_append_right _ (contains_iff_mem.mp h))
  eq_of_isFile := by
    intro path path' hfile hle hexists
    obtain ⟨file, hmem, rfl⟩ := mem_map.mp (contains_iff_mem.mp hfile)
    rcases hdirs path' (contains_iff_mem.mp hexists) _ (mem_ancestors.mpr hle) with heq | hdir
    · exact heq.symm
    · exact absurd hdir (hfiles file hmem)
  eq_of_directoryIsEmpty := by
    intro path path' _ hempty hle hexists
    have := all_eq_true.mp hempty path' (contains_iff_mem.mp hexists)
    by_contra hne
    simp [lt_of_le_of_ne hle (Ne.symm hne)] at this

/-! ### Layers -/

/-- The folders that lead from an anchor to a mount target. -/
def dirTargets (host : LinuxHost) (mountTarget anchor : AbsolutePathBuf) : List AbsolutePathBuf :=
  match if host.isDir mountTarget then some mountTarget else mountTarget.parent with
  | none => []
  | some mountTargetDir => ((ancestors mountTargetDir).takeWhile (· ≠ anchor)).reverse

/-- The first missing component of a path, if it is in a writable root. -/
def missingTarget (host : LinuxHost) (allowed : List AbsolutePathBuf)
    (path : AbsolutePathBuf) : Option AbsolutePathBuf :=
  (findFirstNonExistentComponent host path).filter (isWithinAllowedWritePaths · allowed)

def emptyDirectoryOps (path : AbsolutePathBuf) : List BwrapOp :=
  [.perms "555".toList, .tmpfs path, .remountRo path]

inductive Layer
  /-- A folder on the way to a writable root. -/
  | dir (target : AbsolutePathBuf)
  | root (target : AbsolutePathBuf)
  | readOnly (target : AbsolutePathBuf)
  | mask (target : AbsolutePathBuf)

section Ops

variable (host : LinuxHost) (allowed : List AbsolutePathBuf)

def existingMaskOps (path : AbsolutePathBuf) : List BwrapOp :=
  if host.isDir path then
    let writableDescendants := allowed.filter (path < ·)
    let mode := if writableDescendants.isEmpty then "000".toList else "111".toList
    [.perms mode, .tmpfs path] ++
      (sortByDepth writableDescendants).flatMap (fun descendant =>
        (dirTargets host descendant path).map .dir) ++ [.remountRo path]
  else [.perms "000".toList, .roBindData path]

/-- Something empty in the place of a missing path. -/
def missingReadOnlyOps (path : AbsolutePathBuf) : List BwrapOp :=
  match missingTarget host allowed path with
  | some missing =>
    if isProtectedMetadataName missing then emptyDirectoryOps missing else [.roBindData missing]
  | none => []

/-- What a read-only path mounts: itself if it is there, or something empty in its place. -/
def readOnlyOps (path : AbsolutePathBuf) : List BwrapOp :=
  let within := isWithinAllowedWritePaths path allowed
  match if within then transientEmptyMetadataPath host path else none with
  | some .emptyFile => [.roBindData path]
  | some .emptyDirectory => emptyDirectoryOps path
  | none =>
    if host.pathExists path then if within then [.roBind path path] else []
    else missingReadOnlyOps host allowed path

/-- The mounts of a layer. -/
def Layer.ops : Layer → List BwrapOp
  | .dir target => [.dir target]
  | .root target => [.bind target target]
  | .readOnly target => readOnlyOps host allowed target
  | .mask target =>
    if host.pathExists target then existingMaskOps host allowed target
    else (missingTarget host allowed target).toList.map .roBindData

end Ops

/-! ### Each function appends the mounts of its layer -/

section Append

variable {host : LinuxHost} {allowed : List AbsolutePathBuf} {bwrapArgs result : BwrapArgs}

@[simp] theorem args_push (bwrapArgs : BwrapArgs) (ops : List BwrapOp) :
    (bwrapArgs.push ops).args = bwrapArgs.args ++ ops := rfl

theorem appendMountTargetParentDirArgs_eq (mountTarget anchor : AbsolutePathBuf) :
    (appendMountTargetParentDirArgs host bwrapArgs mountTarget anchor).args =
      bwrapArgs.args ++ (dirTargets host mountTarget anchor).map .dir := by
  unfold appendMountTargetParentDirArgs dirTargets
  cases if host.isDir mountTarget then some mountTarget else mountTarget.parent with
  | none => simp
  | some dir => rfl

theorem appendEmptyFileBindDataArgs_ok
    (h : appendEmptyFileBindDataArgs host bwrapArgs path = .ok result) :
    result.args = bwrapArgs.args ++ [.roBindData path] := by
  unfold appendEmptyFileBindDataArgs at h
  split at h
  · cases h
  · cases h
    rfl

theorem map_pushSynthetic_ok {x : Except CodexErr BwrapArgs} {target : SyntheticMountTarget}
    (h : x.map (·.pushSynthetic target) = .ok result) : ∃ y, x = .ok y ∧ result.args = y.args := by
  cases x with
  | error e => cases h
  | ok y =>
    cases h
    exact ⟨y, rfl, rfl⟩

theorem appendReadOnlySubpathArgs_ok {subpath : AbsolutePathBuf}
    (h : appendReadOnlySubpathArgs host bwrapArgs subpath allowed = .ok result) :
    result.args = bwrapArgs.args ++ readOnlyOps host allowed subpath := by
  unfold appendReadOnlySubpathArgs at h
  unfold readOnlyOps missingReadOnlyOps missingTarget
  split at h
  · cases h
  simp only at h ⊢
  generalize (if isWithinAllowedWritePaths subpath allowed then
    transientEmptyMetadataPath host subpath else none) = kind at h ⊢
  cases kind with
  | some kind =>
    cases kind with
    | emptyFile =>
      obtain ⟨y, hy, hresult⟩ := map_pushSynthetic_ok h
      rw [hresult, appendEmptyFileBindDataArgs_ok hy]
    | emptyDirectory =>
      cases h
      rfl
  | none =>
    by_cases hexists : host.pathExists subpath
    · simp only [if_pos hexists] at h ⊢
      cases h
      split <;> simp
    · simp only [if_neg hexists] at h ⊢
      generalize (findFirstNonExistentComponent host subpath).filter
        (isWithinAllowedWritePaths · allowed) = missing at h ⊢
      cases missing with
      | none =>
        cases h
        simp
      | some missing =>
        simp only [appendMissingReadOnlySubpathArgs] at h ⊢
        split at h
        · cases h
          rw [if_pos ‹_›]
          rfl
        · obtain ⟨y, hy, hresult⟩ := map_pushSynthetic_ok h
          rw [hresult, appendEmptyFileBindDataArgs_ok hy, if_neg ‹_›]

theorem appendExistingUnreadablePathArgs_ok
    (h : appendExistingUnreadablePathArgs host bwrapArgs path allowed = .ok result) :
    result.args = bwrapArgs.args ++ existingMaskOps host allowed path := by
  have hdirs : ∀ (descendants : List AbsolutePathBuf) (start : BwrapArgs),
      (descendants.foldl (fun bwrapArgs descendant =>
        appendMountTargetParentDirArgs host bwrapArgs descendant path) start).args =
      start.args ++ descendants.flatMap fun descendant =>
        (dirTargets host descendant path).map .dir := by
    intro descendants
    induction descendants with
    | nil => simp
    | cons descendant descendants ih =>
      intro start
      rw [foldl_cons, ih, appendMountTargetParentDirArgs_eq, flatMap_cons, append_assoc]
  unfold appendExistingUnreadablePathArgs at h
  unfold existingMaskOps
  by_cases hdir : host.isDir path
  · simp only [if_pos hdir] at h ⊢
    cases h
    rw [args_push, hdirs, args_push]
    simp
  · simp only [if_neg hdir] at h ⊢
    rw [appendEmptyFileBindDataArgs_ok h, args_push, append_assoc]
    rfl

theorem appendUnreadableRootArgs_ok
    (h : appendUnreadableRootArgs host allowed bwrapArgs path = .ok result) :
    result.args = bwrapArgs.args ++ (Layer.mask path).ops host allowed := by
  unfold appendUnreadableRootArgs at h
  split at h
  · cases h
  simp only [Layer.ops, missingTarget]
  by_cases hexists : host.pathExists path
  · rw [if_pos hexists] at h ⊢
    exact appendExistingUnreadablePathArgs_ok h
  · rw [if_neg hexists] at h ⊢
    generalize (findFirstNonExistentComponent host path).filter
      (isWithinAllowedWritePaths · allowed) = missing at h ⊢
    cases missing with
    | none =>
      cases h
      simp
    | some missing =>
      obtain ⟨y, hy, hresult⟩ := map_pushSynthetic_ok h
      rw [hresult, appendEmptyFileBindDataArgs_ok hy]
      rfl

variable {paths : List AbsolutePathBuf}

/-- A list of read-only paths. -/
theorem foldlM_appendReadOnlySubpathArgs_ok
    (h : paths.foldlM (fun bwrapArgs subpath =>
      appendReadOnlySubpathArgs host bwrapArgs subpath allowed) bwrapArgs = .ok result) :
    result.args =
      bwrapArgs.args ++ (paths.map Layer.readOnly).flatMap (Layer.ops host allowed) := by
  rw [flatMap_map]
  exact foldlM_output (fun _ _ _ => appendReadOnlySubpathArgs_ok) h

/-- A list of masks. -/
theorem foldlM_appendUnreadableRootArgs_ok
    (h : paths.foldlM (appendUnreadableRootArgs host allowed) bwrapArgs = .ok result) :
    result.args =
      bwrapArgs.args ++ (paths.map Layer.mask).flatMap (Layer.ops host allowed) := by
  rw [flatMap_map]
  exact foldlM_output (fun _ _ _ => appendUnreadableRootArgs_ok) h

end Append

/-! ### The layers of a policy -/

/-- The folders between the nearest denied folder above a root and the root. -/
def leadTargets (host : LinuxHost) (context : BwrapContext) (root : AbsolutePathBuf) :
    List AbsolutePathBuf :=
  match maxByKey depth (context.unreadableRoots.filter (· ≤ root)) with
  | some maskingRoot => dirTargets host root maskingRoot
  | none => []

variable {context : BwrapContext} {bwrapArgs : BwrapArgs}

theorem appendMaskedRootDirArgs_eq {host : LinuxHost} (allowed : List AbsolutePathBuf)
    (root : AbsolutePathBuf) :
    (appendMaskedRootDirArgs host context bwrapArgs root).args = bwrapArgs.args ++
      ((leadTargets host context root).map Layer.dir).flatMap (Layer.ops host allowed) := by
  unfold appendMaskedRootDirArgs leadTargets
  rw [flatMap_map]
  cases maxByKey depth (context.unreadableRoots.filter (· ≤ root)) with
  | none => simp
  | some maskingRoot =>
    rw [appendMountTargetParentDirArgs_eq, map_eq_flatMap]
    rfl

def rootLayers (host : LinuxHost) (context : BwrapContext) (writableRoot : WritableRoot) :
    List Layer :=
  let root := writableRoot.root
  (leadTargets host context root).map .dir ++ .root root ::
    ((sortByDepth (readOnlySubpathsToMount host context writableRoot none)).map .readOnly ++
      (sortByDepth (context.unreadableRoots.filter (root ≤ ·))).map .mask)

variable (policy : FileSystemSandboxPolicy)

/-- The context for a policy without denied patterns. -/
def policyContext (host : LinuxHost) (cwd : AbsolutePathBuf) :
    BwrapContext where
  allowedWritePaths := (existingWritableRoots policy host cwd).map (·.root)
  unreadableRoots := sortedPaths (policy.getUnreadableRootsWithCwd host.toHost cwd)
  missingAutoMetadata := missingAutoMetadataReadOnlyProjectRootSubpaths policy host cwd

/-- The denied paths above writable roots and below none. -/
def unreadableAncestors (context : BwrapContext) : List AbsolutePathBuf :=
  context.unreadableRoots.filter fun unreadableRoot =>
    !context.allowedWritePaths.any (· ≤ unreadableRoot) &&
      context.allowedWritePaths.any (unreadableRoot ≤ ·)

/-- The denied paths away from all writable roots. -/
def rootlessUnreadable (context : BwrapContext) : List AbsolutePathBuf :=
  context.unreadableRoots.filter fun unreadableRoot =>
    !context.allowedWritePaths.any fun root =>
      decide (root ≤ unreadableRoot) || decide (unreadableRoot ≤ root)

def policyLayers (host : LinuxHost) (cwd : AbsolutePathBuf) :
    List Layer :=
  let context := policyContext policy host cwd
  (sortByDepth (unreadableAncestors context)).map .mask ++
    ((sortWritableRoots (existingWritableRoots policy host cwd)).flatMap
      (rootLayers host context) ++ (sortByDepth (rootlessUnreadable context)).map .mask)

section Plain

variable {host : LinuxHost} (hplain : host.Plain)
include hplain

variable {result : BwrapArgs}

theorem appendWritableRootArgs_ok {writableRoot : WritableRoot}
    (h : appendWritableRootArgs host context bwrapArgs writableRoot = .ok result) :
    result.args = bwrapArgs.args ++
      (rootLayers host context writableRoot).flatMap (Layer.ops host context.allowedWritePaths) := by
  unfold appendWritableRootArgs at h
  simp only [hplain.canonicalTarget_eq_none] at h
  obtain ⟨afterReadOnly, hreadOnly, hmasks⟩ := bind_eq_ok.mp h
  rw [foldlM_appendUnreadableRootArgs_ok hmasks, foldlM_appendReadOnlySubpathArgs_ok hreadOnly]
  unfold appendProtectedCreateTargetsForWritableRoot
  simp only [args_push, appendMaskedRootDirArgs_eq context.allowedWritePaths, rootLayers,
    flatMap_append, flatMap_cons, append_assoc]
  rfl

/-- A list of writable roots. -/
theorem foldlM_appendWritableRootArgs_ok {writableRoots : List WritableRoot}
    (h : writableRoots.foldlM (appendWritableRootArgs host context) bwrapArgs = .ok result) :
    result.args = bwrapArgs.args ++ (writableRoots.flatMap (rootLayers host context)).flatMap
      (Layer.ops host context.allowedWritePaths) := by
  rw [flatMap_assoc]
  exact foldlM_output (fun _ _ _ => appendWritableRootArgs_ok hplain) h

/-- **The mounts for a policy are those of its layers.** -/
theorem createFilesystemArgs_layers {policy : FileSystemSandboxPolicy} {cwd : AbsolutePathBuf}
    {globScanMaxDepth : Option Nat} (hglobs : policy.getUnreadableGlobsWithCwd host.toHost cwd = [])
    (h : createFilesystemArgs policy host cwd globScanMaxDepth = .ok result) :
    result.args = baseArgs policy host cwd (existingWritableRoots policy host cwd) ++
      (policyLayers policy host cwd).flatMap
        (Layer.ops host (policyContext policy host cwd).allowedWritePaths) := by
  have hallowed : allowedWritePathsOf host (existingWritableRoots policy host cwd) =
      (policyContext policy host cwd).allowedWritePaths := by
    simp [allowedWritePathsOf, policyContext, hplain.canonicalTarget_eq_none, Option.toList_none,
      map_eq_flatMap]
  unfold createFilesystemArgs at h
  simp only [hglobs, hallowed] at h
  obtain ⟨expanded, hexpanded, h⟩ := bind_eq_ok.mp h
  cases hexpanded
  rw [append_nil] at h
  obtain ⟨afterAncestors, hancestors, h⟩ := bind_eq_ok.mp h
  obtain ⟨afterRoots, hroots, hrootless⟩ := bind_eq_ok.mp h
  have hancestors := foldlM_appendUnreadableRootArgs_ok hancestors
  have hroots := foldlM_appendWritableRootArgs_ok hplain hroots
  rw [foldlM_appendUnreadableRootArgs_ok hrootless, hroots, hancestors]
  simp only [policyLayers, flatMap_append, append_assoc]
  rfl

end Plain

end Codex.Sandbox
