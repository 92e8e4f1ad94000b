import Codex.Sandbox.MountRun
import Codex.Sandbox.ViewSound

namespace Codex.Sandbox

open Text Data PlainPolicy AbsolutePathBuf Layer List FileSystemSandboxPolicy BwrapOp

/-!
# Running the layers of a policy

For a policy whose entries are folders of the host, each layer needs its target: one that no mask
hides, or that a later layer uncovers.

* `FileSystemSandboxPolicy.DirEntries`, `FolderPolicy` — the policies;
* `Open`, `Ready` — what the layers in front of a target leave of it; a layer that can be mounted;
* `stepwise_masks_iff`, `stepwise_subpaths_iff` — what masks and read-only paths need, in the order of
  their depth;
* `stepwise_rootLayers_iff` — what the layers of a writable root need.
-/

/-! ### Policies of folders -/

/-- All entries are for folders that are there. -/
def FileSystemSandboxPolicy.DirEntries (policy : FileSystemSandboxPolicy) (host : LinuxHost) :
    Prop := ∀ entry ∈ policy.entries, ∃ path, entry.path = .path path ∧ host.isDir path

variable {policy : FileSystemSandboxPolicy} {host : LinuxHost}

theorem FileSystemSandboxPolicy.DirEntries.noGlobs
    (hentries : policy.DirEntries host) : policy.NoGlobs := by
  intro entry hentry
  obtain ⟨path, hpath, -⟩ := hentries entry hentry
  rw [hpath]
  rfl

theorem FileSystemSandboxPolicy.DirEntries.noMinimal
    (hentries : policy.DirEntries host) : policy.NoMinimal := by
  intro entry hentry h
  obtain ⟨path, hpath, -⟩ := hentries entry hentry
  rw [hpath] at h
  cases h

/-- A policy whose entries are folders. -/
structure FolderPolicy extends PlainPolicy where
  dirEntries : policy.DirEntries host

namespace FolderPolicy

variable (p : FolderPolicy)

theorem isDir_entry {entry : ResolvedFileSystemEntry} (h : entry ∈ p.entries) :
    p.host.isDir entry.path := by
  obtain ⟨other, hother, hresolve⟩ := mem_filterMap.mp h
  obtain ⟨path, hpath, hdir⟩ := p.dirEntries other hother
  rw [hpath] at hresolve
  cases hresolve
  exact hdir

theorem isDir_root {root : AbsolutePathBuf} (h : root ∈ p.dirs) : p.host.isDir root := by
  obtain ⟨-, hwrite, -⟩ := mem_dirs_iff.mp h
  exact p.isDir_entry (mem_writePaths.mp hwrite)

theorem isDir_denied {path : AbsolutePathBuf} (h : path ∈ p.denied) : p.host.isDir path :=
  p.isDir_entry (mem_denied_iff.mp h).1

theorem missingAutoMetadata_eq_nil : p.context.missingAutoMetadata = [] := by
  show missingAutoMetadataReadOnlyProjectRootSubpaths p.policy p.host p.cwd = []
  unfold missingAutoMetadataReadOnlyProjectRootSubpaths
  rw [filterMap_eq_nil_iff]
  intro entry hentry
  obtain ⟨path, hpath, -⟩ := p.dirEntries entry (mem_filter.mp hentry).1
  rw [hpath]

/-! ### The base can be run -/

variable {writableRoots : List WritableRoot}

theorem mem_base {op : BwrapOp} (h : op ∈ baseArgs p.policy p.host p.cwd writableRoots) :
    op = .tmpfs rootPath ∨ op = .dev devPath ∨
      ∃ root, op = .roBind root root ∧ p.host.pathExists root := by
  rcases of_mem_baseArgs h with rfl | rfl | ⟨root, rfl, ⟨entry, hentry, rfl⟩, -⟩
  · exact .inl rfl
  · exact .inr (.inl rfl)
  · exact .inr (.inr ⟨_, rfl, p.plain.pathExists_of_isDir (p.isDir_entry hentry)⟩)

/-- The base leaves every path of the host usable, at each of its mounts. -/
theorem usable_base {ops : List BwrapOp} {path : AbsolutePathBuf} (hexists : p.host.pathExists path)
    (hops : ops ⊆ baseArgs p.policy p.host p.cwd writableRoots) : Usable p.host ops path := by
  induction ops using reverseRecOn with
  | nil => exact .inr rfl
  | append_singleton ops op ih =>
    have ih := ih fun other hother => hops (mem_append_left _ hother)
    have hnew : ∀ target : AbsolutePathBuf,
        let spot := (viewAt p.host ops path).replace path target
          ⟨some target, none, false, path = target⟩
        spot.present ∨ spot.readOnly = false := by
      intro target
      unfold Spot.replace
      split
      · exact .inr rfl
      · split
        · exact .inl rfl
        · exact ih
    rcases p.mem_base (hops (by simp : op ∈ ops ++ [op])) with rfl | rfl | ⟨root, rfl, -⟩
    · rw [Usable, viewAt_concat]
      exact hnew rootPath
    · rw [Usable, viewAt_concat]
      exact hnew devPath
    · exact (usable_concat_bind hexists (.inr rfl)).mpr (.inr ih)

/-- The base can be run. -/
theorem stepwise_base :
    Stepwise (Startable p.host) [] (baseArgs p.policy p.host p.cwd writableRoots) := by
  intro before op after hsplit target htarget
  have hop : op ∈ baseArgs p.policy p.host p.cwd writableRoots := by
    rw [hsplit]
    simp
  have hexists : p.host.pathExists target := by
    rcases p.mem_base hop with rfl | rfl | ⟨root, rfl, hroot⟩ <;> cases htarget
    · exact p.plain.pathExists_root
    · exact hroot
  have hbefore : [] ++ before ⊆ baseArgs p.policy p.host p.cwd writableRoots := by
    rw [hsplit]
    exact subset_append_left _ _
  exact p.usable_base hexists hbefore

end FolderPolicy

/-! ### The layers are regular -/

variable {name : NormalName}

theorem findFirstNonExistentComponent_childPath (hplain : host.Plain) {dir : AbsolutePathBuf}
    (hdir : host.pathExists dir) (hmissing : host.pathExists (childPath dir name) = false) :
    findFirstNonExistentComponent host (childPath dir name) = some (childPath dir name) := by
  have hcomponents : componentPaths (childPath dir name) =
      componentPaths dir ++ [childPath dir name] := by
    have hne : dir.names.inits ≠ [] := ne_nil_of_mem ((mem_inits _ _).mpr (prefix_refl dir.names))
    simp only [componentPaths, childPath, inits_append, tail_append_of_ne_nil hne]
    simp
  have hnone : (componentPaths dir).find? (fun current => !host.pathExists current) = none := by
    rw [find?_eq_none]
    intro current hcurrent
    obtain ⟨names, hnames, rfl⟩ := mem_map.mp hcurrent
    have hle : (⟨names⟩ : AbsolutePathBuf) ≤ dir := (mem_inits _ _).mp (mem_of_mem_tail hnames)
    simp [hplain.pathExists_of_le hle hdir]
  rw [findFirstNonExistentComponent, hcomponents, find?_append, hnone]
  simp [hmissing]

/-- The layers of a root up to some of its read-only paths. -/
def frontLayers (host : LinuxHost) (context : BwrapContext) (root : AbsolutePathBuf)
    (earlier : List AbsolutePathBuf) : List Layer :=
  (leadTargets host context root).map .dir ++ .root root :: earlier.map .readOnly

/-- The layers of a root are these, with all its read-only paths, and its masks. -/
theorem rootLayers_eq (host : LinuxHost) (context : BwrapContext) (writable : WritableRoot) :
    rootLayers host context writable = frontLayers host context writable.root
          (sortByDepth (readOnlySubpathsToMount host context writable none)) ++
        (sortByDepth (context.unreadableRoots.filter (writable.root ≤ ·))).map .mask := by
  simp [rootLayers, frontLayers]

variable {targets : List AbsolutePathBuf}

namespace FolderPolicy

section Regular

variable (p : FolderPolicy) {writable : WritableRoot} (hroot : writable ∈ p.roots)
  {path : AbsolutePathBuf}

/-- A read-only path that is missing is a protected name of its root. -/
theorem exists_name_of_missing (hroot : writable ∈ p.roots)
    (hpath : path ∈ p.subpaths writable) (hmissing : p.host.pathExists path = false) :
    ∃ name ∈ protectedMetadataPathNames, path = childPath writable.root name ∧
      (p.canWrite path = false ∨
        name = protectedMetadataCodexPathName ∧ p.cwd = writable.root) := by
  have hcontra : ∀ {P : Prop}, p.host.pathExists path → P := by
    intro P hexists
    rw [hmissing] at hexists
    cases hexists
  obtain ⟨-, -, -, -, hreadOnly, hnames⟩ := of_mem_roots hroot
  rcases mem_readOnlySubpathsToMount.mp hpath with ⟨hmem, -⟩ | ⟨name, hname, rfl, -⟩
  · rcases (hreadOnly path).mp hmem with ⟨hdefault, -⟩ | ⟨-, -, entry, hentry, rfl, -⟩
    · rcases (mem_defaultReadOnlySubpaths p.plain.noSymlinks).mp hdefault with
        hgitdir | ⟨-, hdir | hfile⟩ | ⟨-, hdir⟩ | ⟨rfl, hcodex | hdir⟩
      · exact hcontra (Host.PointsToGitdir.pathExists hgitdir)
      · exact hcontra (p.plain.pathExists_of_isDir hdir)
      · exact hcontra (p.plain.pathExists_of_isFile hfile)
      · exact hcontra (p.plain.pathExists_of_isDir hdir)
      · exact ⟨_, by decide, rfl, .inr ⟨rfl, by simpa using hcodex⟩⟩
      · exact hcontra (p.plain.pathExists_of_isDir hdir)
    · exact hcontra (p.plain.pathExists_of_isDir (p.isDir_entry hentry))
  · obtain ⟨hprotected, hcannot⟩ := (hnames name).mp hname
    exact ⟨name, hprotected, rfl, .inl hcannot⟩

/-- The missing name of a root is what is mounted for it. -/
theorem missingTarget_childPath {root : AbsolutePathBuf} (hroot : root ∈ p.dirs)
    (hmissing : p.host.pathExists (childPath root name) = false) :
    isWithinAllowedWritePaths (childPath root name) p.dirs ∧
      missingTarget p.host p.dirs (childPath root name) = some (childPath root name) := by
  have hwithin := isWithin_iff.mpr
    ⟨root, hroot, (lt_childPath root name).le⟩
  have hexists := p.plain.pathExists_of_isDir (p.isDir_root hroot)
  refine ⟨hwithin, ?_⟩
  rw [missingTarget, findFirstNonExistentComponent_childPath p.plain hexists hmissing]
  exact Option.filter_some_pos hwithin

/-- All layers are regular. -/
abbrev Regular (layers : List Layer) : Prop := ∀ layer ∈ layers, layer.Regular p.host p.dirs

theorem regular_masks (h : targets ⊆ p.denied) : p.Regular (targets.map .mask) := by
  intro layer hlayer
  obtain ⟨target, htarget, rfl⟩ := mem_map.mp hlayer
  exact p.isDir_denied (h htarget)

abbrev front (root : AbsolutePathBuf) (earlier : List AbsolutePathBuf) : List Layer :=
  frontLayers p.host p.context root earlier

variable {p}
include hroot

theorem regular_readOnly (hpath : path ∈ p.subpaths writable) :
    (readOnly path).Regular p.host p.dirs := by
  cases hexists : p.host.pathExists path with
  | true => exact .inl hexists
  | false =>
    obtain ⟨name, -, rfl, -⟩ := p.exists_name_of_missing hroot hpath hexists
    exact .inr (p.missingTarget_childPath (mem_map_of_mem hroot) hexists)

theorem regular_front {earlier : List AbsolutePathBuf} (hearlier : earlier ⊆ p.subpaths writable) :
    p.Regular (p.front writable.root earlier) :=
  forall_mem_append.mpr ⟨forall_mem_map.mpr fun _ _ => trivial, forall_mem_cons.mpr ⟨trivial,
    forall_mem_map.mpr fun _ hsubpath => regular_readOnly hroot (hearlier hsubpath)⟩⟩

theorem regular_rootLayers : p.Regular (rootLayers p.host p.context writable) := by
  rw [rootLayers_eq]
  exact forall_mem_append.mpr ⟨regular_front hroot fun _ h => mem_sortByDepth.mp h,
    p.regular_masks fun _ h => (mem_masksOf.mp h).1⟩

omit hroot in
/-- Folders on the way to a root lie above it. -/
theorem le_of_mem_leadTargets {root target : AbsolutePathBuf} (hroot : root ∈ p.dirs)
    (h : target ∈ leadTargets p.host p.context root) : target ≤ root := by
  unfold leadTargets at h
  cases hmask : maxByKey depth (p.denied.filter (· ≤ root)) with
  | none =>
    rw [hmask] at h
    cases h
  | some maskingRoot =>
    rw [hmask] at h
    have hle : maskingRoot ≤ root := by
      simpa using (mem_filter.mp (maxByKey_eq_some hmask).1).2
    exact ((mem_dirTargets (p.isDir_root hroot) hle).mp h).2

end Regular

end FolderPolicy

/-! ### Open targets -/

variable (policy : FileSystemSandboxPolicy)

/-- The writable roots that are there. -/
abbrev writableDirs (host : LinuxHost) (cwd : AbsolutePathBuf) : List AbsolutePathBuf :=
  (policyContext policy host cwd).allowedWritePaths

/-- The denied paths other than the root of the file system. -/
abbrev deniedDirs (host : LinuxHost) (cwd : AbsolutePathBuf) : List AbsolutePathBuf :=
  (policyContext policy host cwd).unreadableRoots

/-- No layer hides the path, or a later one uncovers it. -/
def Open (allowed : List AbsolutePathBuf) (done : List Layer) (path : AbsolutePathBuf) :
    Prop := lastSome (effect allowed path) done ≠ some false

/-- After some layers, the mounts of another one can be run. -/
def Ready (host : LinuxHost) (cwd : AbsolutePathBuf) (done : List Layer) (layer : Layer) : Prop :=
  Stepwise (Startable host)
    (baseArgs policy host cwd (existingWritableRoots policy host cwd) ++
      done.flatMap (ops host (writableDirs policy host cwd)))
    (layer.ops host (writableDirs policy host cwd))

variable {layer : Layer}

section Effects

variable {allowed : List AbsolutePathBuf} {path : AbsolutePathBuf}

/-- Only a mask hides a path. -/
theorem of_effect_eq_false (h : layer.effect allowed path = some false) :
    ∃ target < path, layer = .mask target ∧ ∀ root ∈ allowed, ¬ path ≤ root := by
  cases layer with
  | dir target | root target | readOnly target =>
    simp only [effect, Option.ite_none_right_eq_some] at h
    cases h.2
  | mask target =>
    simp only [effect] at h
    split at h
    · cases h
    · simp only [Option.ite_none_right_eq_some, Option.some.injEq, any_eq_false,
        decide_eq_true_eq] at h
      exact ⟨target, lt_of_le_not_ge h.1 ‹_›, rfl, h.2⟩

/-- The mask that hides a path. -/
theorem exists_mask_of_not_open {done : List Layer} (h : ¬ Open allowed done path) :
    ∃ before target after, done = before ++ .mask target :: after ∧ target < path ∧
      ∀ root ∈ allowed, ¬ path ≤ root := by
  obtain ⟨before, layer, after, hsplit, heffect, -⟩ := exists_of_lastSome (not_not.mp h)
  obtain ⟨target, hlt, rfl, hroots⟩ := of_effect_eq_false heffect
  exact ⟨before, target, after, hsplit, hlt, hroots⟩

/-- **The way to a writable root is always open.** -/
theorem open_of_le_root {root : AbsolutePathBuf} (hroot : root ∈ allowed)
    (hle : path ≤ root) (done : List Layer) : Open allowed done path := by
  by_contra h
  obtain ⟨_, _, _, -, -, hroots⟩ := exists_mask_of_not_open h
  exact hroots root hroot hle

variable {done later : List Layer}

/-- Layers that hide nothing keep a path open. -/
theorem open_append (h : Open allowed done path)
    (hlater : ∀ layer ∈ later, layer.effect allowed path ≠ some false) :
    Open allowed (done ++ later) path := by
  unfold Open
  rw [lastSome_append]
  cases hlast : lastSome (effect allowed path) later with
  | none => exact h
  | some usable =>
    obtain ⟨_, layer, _, hsplit, heffect, -⟩ := exists_of_lastSome hlast
    cases usable with
    | true => simp
    | false => exact absurd heffect (hlater layer (by rw [hsplit]; simp))

/-- A layer that uncovers a path makes it open, if no later one hides it. -/
theorem open_of_mem (hlayer : layer.effect allowed path = some true)
    (hlater : ∀ other ∈ later, other.effect allowed path ≠ some false) :
    Open allowed (done ++ layer :: later) path := by
  rw [← singleton_append, ← append_assoc]
  refine open_append ?_ hlater
  unfold Open
  rw [lastSome_concat, hlayer]
  simp

/-- Layers that uncover nothing keep a path hidden. -/
theorem not_open_append (h : ¬ Open allowed done path)
    (hlater : ∀ layer ∈ later, layer.effect allowed path ≠ some true) :
    ¬ Open allowed (done ++ later) path := by
  unfold Open at h ⊢
  rw [lastSome_append]
  cases hlast : lastSome (effect allowed path) later with
  | none => exact h
  | some usable =>
    obtain ⟨_, layer, _, hsplit, heffect, -⟩ := exists_of_lastSome hlast
    cases usable with
    | true => exact absurd heffect (hlater layer (by rw [hsplit]; simp))
    | false => simp

/-- Layers that uncover nothing, with one that hides a path. -/
theorem not_open_of_mem (done : List Layer) {later : List Layer} {target : AbsolutePathBuf}
    (hmem : .mask target ∈ later) (hlt : target < path) (hroots : ∀ root ∈ allowed, ¬ path ≤ root)
    (hlater : ∀ layer ∈ later, layer.effect allowed path ≠ some true) :
    ¬ Open allowed (done ++ later) path := by
  have hany : allowed.any (path ≤ ·) = false := by simpa using hroots
  obtain ⟨usable, hlast, rfl⟩ : ∃ usable,
      lastSome (effect allowed path) later = some usable ∧ usable = false := by
    refine lastSome_of_mem (fun layer hlayer usable heffect => ?_) hmem ?_
    · cases usable with
      | false => rfl
      | true => exact absurd heffect (hlater layer hlayer)
    · simp [effect, not_le_of_gt hlt, hlt.le]
  unfold Open
  rw [lastSome_append, hlast]
  simp

end Effects

/-! ### Sorted targets -/

theorem pairwise_sortByDepth (targets : List AbsolutePathBuf) :
    (sortByDepth targets).Pairwise depthOrder := by
  have : Std.Total depthOrder := ⟨fun _ _ => le_total _ _⟩
  have : IsTrans AbsolutePathBuf depthOrder := ⟨fun _ _ _ => le_trans⟩
  exact pairwise_insertionSort _ _

/-- Paths in the order of their depth: in front of the first copy of a path are all paths above it,
    and none at or below it. -/
theorem exists_sorted_split {path : AbsolutePathBuf}
    (hpath : path ∈ targets) : ∃ before after, sortByDepth targets = before ++ path :: after ∧
      (∀ target ∈ before, ¬ path ≤ target) ∧ ∀ target ∈ targets, target < path → target ∈ before := by
  obtain ⟨before, after, hsplit, hnot⟩ := eq_append_cons_of_mem (mem_sortByDepth.mpr hpath)
  have hsorted := pairwise_sortByDepth targets
  rw [hsplit] at hsorted
  obtain ⟨-, hafter, hbefore⟩ := pairwise_append.mp hsorted
  refine ⟨before, after, hsplit, fun target htarget hle => ?_, fun target htarget hlt => ?_⟩
  · have hdepth : target.depth ≤ path.depth := hbefore target htarget path mem_cons_self
    have heq := eq_of_le_of_depth_eq hle
      (le_antisymm (depth_le_of_le hle) hdepth)
    exact hnot (heq ▸ htarget)
  · have hmem := mem_sortByDepth.mpr htarget
    rw [hsplit] at hmem
    refine (mem_append.mp hmem).resolve_right fun hrest => ?_
    rcases mem_cons.mp hrest with rfl | hrest
    · exact lt_irrefl _ hlt
    · have hdepth : path.depth ≤ target.depth := (pairwise_cons.mp hafter).1 target hrest
      exact absurd (depth_lt_of_lt hlt) (not_lt.mpr hdepth)

theorem mem_of_sorted_split {before after : List AbsolutePathBuf} {path : AbsolutePathBuf}
    (h : sortByDepth targets = before ++ path :: after) : before ⊆ targets ∧ path ∈ targets := by
  refine ⟨fun other hother => mem_sortByDepth.mp ?_, mem_sortByDepth.mp ?_⟩
  · rw [h]
    exact mem_append_left _ hother
  · rw [h]
    simp

/-- What lies below a path that is neither above nor below another one is not so either. -/
theorem incomparable_of_le {root other path : AbsolutePathBuf} (h : root ≤ other)
    (hle : ¬ root ≤ path) (hge : ¬ path ≤ root) : ¬ (other ≤ path ∨ path ≤ other) := by
  rintro (hother | hother)
  · exact hle (h.trans hother)
  · exact (le_or_le_of_le h hother).elim hle hge

/-! ### What the parts of the list of layers need -/

/-- The folder that the `.git` file of a root points to, where it is mounted with the root. -/
def MountedGitdir (policy : FileSystemSandboxPolicy) (host : LinuxHost)
    (cwd root gitdir : AbsolutePathBuf) : Prop :=
  host.PointsToGitdir root gitdir ∧
    (∀ entry ∈ policy.resolvedEntriesWithCwd host.toHost cwd, entry.path ≠ gitdir) ∧
    ∃ other ∈ writableDirs policy host cwd, other ≤ gitdir

/-- The protected names of a root that are mounted are there, if the folder that its `.git` file
    points to is above the root. -/
def MetadataThere (policy : FileSystemSandboxPolicy) (host : LinuxHost)
    (cwd root : AbsolutePathBuf) : Prop :=
  ∀ gitdir < root, MountedGitdir policy host cwd root gitdir → ∀ name ∈ protectedMetadataPathNames,
      (policy.canWritePathWithCwd host.toHost (childPath root name) cwd = false ∨
        name = protectedMetadataCodexPathName ∧ cwd = root) → host.pathExists (childPath root name)

variable {gitdir : AbsolutePathBuf}

theorem Host.PointsToGitdir.unique {root other : AbsolutePathBuf}
    (h : host.PointsToGitdir root gitdir) (h' : host.PointsToGitdir root other) : gitdir = other :=
  Option.some.inj (h.2.symm.trans h'.2)

namespace FolderPolicy

section Abbreviations

variable (p : FolderPolicy)

abbrev Ready : List Layer → Layer → Prop := Sandbox.Ready p.policy p.host p.cwd

/-- The mounts of the base and of some layers. -/
abbrev mounts (done : List Layer) : List BwrapOp :=
  baseArgs p.policy p.host p.cwd p.roots ++ done.flatMap (ops p.host p.dirs)

abbrev Gitdir (root gitdir : AbsolutePathBuf) : Prop :=
  MountedGitdir p.policy p.host p.cwd root gitdir

/-- The path leads to a writable root. -/
abbrev Leads (path : AbsolutePathBuf) : Prop := ∃ root ∈ p.dirs, path ≤ root

/-- The folders that the `.git` file of a root points to are open, unless they lead to a writable
    root or lie in the root. -/
abbrev GitdirsOpen (done : List Layer) (root : AbsolutePathBuf) : Prop :=
  ∀ gitdir, p.Gitdir root gitdir → transientEmptyMetadataPath p.host gitdir ≠ some .emptyFile →
    p.Leads gitdir ∨ root ≤ gitdir ∨ Open p.dirs done gitdir

end Abbreviations

variable {p : FolderPolicy} {done : List Layer} {path target : AbsolutePathBuf}

section Parts

variable (hregular : p.Regular done)
include hregular

theorem usable_iff_open (hexists : p.host.pathExists path) :
    Usable p.host (p.mounts done) path ↔ Open p.dirs done path :=
  usable_layers_iff p.plain (fun _ hroot => p.isDir_root hroot) hexists hregular
    (p.usable_base hexists (Subset.refl _))

theorem ready_mask (htarget : target ∈ p.denied) :
    p.Ready done (.mask target) ↔ Open p.dirs done target := by
  have hdir := p.isDir_denied htarget
  rw [Ready, Sandbox.Ready, stepwise_mask p.plain (fun _ hroot => p.isDir_root hroot) hdir]
  exact usable_iff_open hregular (p.plain.pathExists_of_isDir hdir)

theorem ready_dir (hexists : p.host.pathExists target) (hopen : Open p.dirs done target) :
    p.Ready done (.dir target) ∧ p.Ready done (.root target) := by
  have husable := (usable_iff_open hregular hexists).mpr hopen
  constructor
  · refine stepwise_cons.mpr ⟨fun other hother => ?_, stepwise_nil⟩
    cases hother
    exact husable
  · refine stepwise_cons.mpr ⟨fun other hother => ?_, stepwise_nil⟩
    cases hother
    exact husable

/-- **Masks in the order of their depth** need targets on the way to writable roots, or targets that
    are open and have no other mask above them. -/
theorem stepwise_masks_iff (htargets : targets ⊆ p.denied) :
    Stepwise p.Ready done ((sortByDepth targets).map .mask) ↔
      ∀ inner ∈ targets, p.Leads inner ∨
        Open p.dirs done inner ∧ ∀ outer ∈ targets, ¬ outer < inner := by
  have hmasks : ∀ before ⊆ targets, p.Regular (done ++ before.map mask) :=
    fun before hbefore => forall_mem_append.mpr
      ⟨hregular, p.regular_masks fun _ h => htargets (hbefore h)⟩
  constructor
  · intro hsteps inner hinner
    by_contra hno
    push Not at hno
    obtain ⟨hroots, hopen⟩ := hno
    obtain ⟨before, after, hsplit, hbelow, habove⟩ := exists_sorted_split hinner
    have hready := hsteps (before.map .mask) (.mask inner) (after.map .mask) (by simp [hsplit])
    rw [ready_mask (hmasks before (mem_of_sorted_split hsplit).1) (htargets hinner)] at hready
    -- no mask in front uncovers the target
    have hnone : ∀ layer ∈ before.map mask, layer.effect p.dirs inner ≠ some true := by
      intro layer hlayer heffect
      obtain ⟨target, htarget, rfl⟩ := mem_map.mp hlayer
      simp only [effect, if_neg (hbelow target htarget), Option.ite_none_right_eq_some,
        Option.some.injEq, any_eq_true, decide_eq_true_eq] at heffect
      obtain ⟨-, root, hroot, hle⟩ := heffect
      exact hroots root hroot hle
    by_cases hdone : Open p.dirs done inner
    · obtain ⟨outer, houter, hlt⟩ := hopen hdone
      exact not_open_of_mem _ (mem_map_of_mem (habove outer houter hlt)) hlt hroots hnone hready
    · exact not_open_append hdone hnone hready
  · intro hall before layer after hsplit
    obtain ⟨earlier, rest, hsorted, rfl, hrest⟩ := map_eq_append_iff.mp hsplit
    obtain ⟨inner, later, rfl, rfl, -⟩ := map_eq_cons_iff.mp hrest
    obtain ⟨hearlier, hinner⟩ := mem_of_sorted_split hsorted
    rw [ready_mask (hmasks earlier hearlier) (htargets hinner)]
    rcases hall inner hinner with ⟨root, hroot, hle⟩ | ⟨hopen, houter⟩
    · exact open_of_le_root hroot hle _
    · refine open_append hopen fun layer hlayer heffect => ?_
      obtain ⟨target, htarget, rfl⟩ := mem_map.mp hlayer
      obtain ⟨other, hlt, heq, -⟩ := of_effect_eq_false heffect
      cases heq
      exact houter target (hearlier htarget) hlt

end Parts

/-! ### Read-only paths of a root -/

variable {writable : WritableRoot} {earlier : List AbsolutePathBuf}

/-- The layers of a root after its other ones, up to some of its read-only paths. -/
theorem front_append (root : AbsolutePathBuf) (earlier : List AbsolutePathBuf) :
    done ++ p.front root [] ++ earlier.map readOnly = done ++ p.front root earlier := by
  simp [frontLayers]

/-- The mounts up to some of the read-only paths of a root. -/
theorem mounts_front (p : FolderPolicy) (done : List Layer) (root : AbsolutePathBuf)
    (earlier : List AbsolutePathBuf) :
    ∃ ops, p.mounts (done ++ p.front root earlier) =
      ops ++ [.bind root root] ++ earlier.flatMap (readOnlyOps p.host p.dirs) := by
  refine ⟨p.mounts (done ++ (leadTargets p.host p.context root).map .dir), ?_⟩
  simp only [mounts, frontLayers, flatMap_append, flatMap_map, flatMap_cons, append_assoc]
  rfl

variable {root : AbsolutePathBuf}

/-- They hide nothing. -/
theorem effect_front (hlayer : layer ∈ p.front root earlier) :
    layer.effect p.dirs path ≠ some false := by
  intro heffect
  obtain ⟨target, -, rfl, -⟩ := of_effect_eq_false heffect
  simp [frontLayers] at hlayer

/-- In a root, paths of the host are open before its masks. -/
theorem open_below_root (hle : root ≤ path) : Open p.dirs (done ++ p.front root earlier) path := by
  rw [front, frontLayers, ← append_assoc]
  refine open_of_mem (by simp [effect, hle]) fun layer hlayer heffect => ?_
  obtain ⟨target, -, rfl, -⟩ := of_effect_eq_false heffect
  simp at hlayer

/-- The layers of a root up to some of its read-only paths do nothing to a path that is neither above
    nor below the root and these paths. -/
theorem effect_front_eq_none (hroot : root ∈ p.dirs) (hle : ¬ root ≤ path) (hge : ¬ path ≤ root)
    (hearlier : ∀ subpath ∈ earlier, isWithinAllowedWritePaths subpath p.dirs →
      ¬ (subpath ≤ path ∨ path ≤ subpath))
    (hlayer : layer ∈ p.front root earlier) : layer.effect p.dirs path = none := by
  rcases mem_append.mp hlayer with hlayer | hlayer
  · obtain ⟨target, htarget, rfl⟩ := mem_map.mp hlayer
    have hnot : ¬ path ≤ target := fun h => hge (h.trans (le_of_mem_leadTargets hroot htarget))
    simp [effect, hnot]
  rcases mem_cons.mp hlayer with rfl | hlayer
  · simp [effect, hle, hge]
  · obtain ⟨subpath, hsubpath, rfl⟩ := mem_map.mp hlayer
    exact if_neg fun h => hearlier subpath hsubpath h.1 h.2

section Subpaths

variable (hroot : writable ∈ p.roots)
include hroot

/-- The same for all its layers. -/
theorem effect_rootLayers_eq_none (hle : ¬ writable.root ≤ path)
    (hge : ¬ path ≤ writable.root) (hsubpaths : ∀ subpath ∈ p.subpaths writable,
      isWithinAllowedWritePaths subpath p.dirs → ¬ (subpath ≤ path ∨ path ≤ subpath))
    (hlayer : layer ∈ rootLayers p.host p.context writable) :
    layer.effect p.dirs path = none := by
  rw [rootLayers_eq] at hlayer
  rcases mem_append.mp hlayer with hlayer | hlayer
  · exact effect_front_eq_none (mem_map_of_mem hroot) hle hge
      (fun subpath h => hsubpaths subpath (mem_sortByDepth.mp h)) hlayer
  · obtain ⟨target, htarget, rfl⟩ := mem_map.mp hlayer
    have hnot := incomparable_of_le (mem_masksOf.mp htarget).2 hle hge
    simp [effect, not_or.mp hnot]

section Missing

variable {ops : List BwrapOp} {subpaths : List AbsolutePathBuf}
  (hsubpaths : subpaths ⊆ p.subpaths writable)
include hsubpaths

/-- A path in a root is usable as long as nothing above it is mounted for reading. -/
theorem usable_below_root (hlt : writable.root < path)
    (habove : ∀ subpath ∈ subpaths, isWithinAllowedWritePaths subpath p.dirs → ¬ subpath < path) :
    Usable p.host (ops ++ [.bind writable.root writable.root] ++
      subpaths.flatMap (readOnlyOps p.host p.dirs)) path := by
  induction subpaths using reverseRecOn with
  | nil =>
    refine .inr ?_
    rw [flatMap_nil, append_nil, viewAt_concat]
    simp [act, Spot.replace, hlt.le]
  | append_singleton subpaths subpath ih =>
    have ih := ih (fun other hother => hsubpaths (mem_append_left _ hother))
      (fun other hother => habove other (mem_append_left _ hother))
    rw [flatMap_append, ← append_assoc, flatMap_singleton]
    have hregular := regular_readOnly hroot (hsubpaths (by simp : subpath ∈ _))
    cases hwithin : isWithinAllowedWritePaths subpath p.dirs with
    | true =>
      exact usable_readOnlyOps_of_not_lt p.plain hwithin (hregular.imp id And.right)
        (habove subpath (by simp) hwithin) ih
    | false =>
      have hthere : p.host.pathExists subpath := hregular.resolve_right (by simp [hwithin])
      simpa [readOnlyOps, hwithin, hthere] using ih

/-- A read-only path of a root does nothing to paths that are neither above nor below it. -/
theorem viewAt_subpath {subpath : AbsolutePathBuf} (hmem : subpath ∈ subpaths)
    (hge : ¬ subpath ≤ path) (hle : ¬ path ≤ subpath) :
    viewAt p.host (ops ++ readOnlyOps p.host p.dirs subpath) path = viewAt p.host ops path := by
  have hregular := regular_readOnly hroot (hsubpaths hmem)
  cases hwithin : isWithinAllowedWritePaths subpath p.dirs with
  | true => exact viewAt_readOnlyOps_of_not_le p.plain hwithin (hregular.imp id And.right) hge hle
  | false =>
    have hthere : p.host.pathExists subpath := hregular.resolve_right (by simp [hwithin])
    simp [readOnlyOps, hwithin, hthere]

/-- A missing name of a root is not usable once the folder that the `.git` file points to is mounted
    for reading above it. -/
theorem viewAt_missing (hmissing : p.host.pathExists (childPath writable.root name) = false)
    (hname : ∀ subpath ∈ subpaths, ¬ childPath writable.root name ≤ subpath)
    (hgitdir : p.Gitdir writable.root gitdir) (hlt : gitdir < writable.root) :
    let spot := viewAt p.host (ops ++ [.bind writable.root writable.root] ++
      subpaths.flatMap (readOnlyOps p.host p.dirs)) (childPath writable.root name)
    spot.present = false ∧ (gitdir ∈ subpaths → spot.readOnly) := by
  have hchild := lt_childPath writable.root name
  -- the folder is mounted itself, for it is not empty
  have hops : readOnlyOps p.host p.dirs gitdir = [.roBind gitdir gitdir] := by
    have htransient : transientEmptyMetadataPath p.host gitdir = none := by
      by_contra hsome
      have hexists := p.plain.pathExists_of_isDir (p.isDir_root (mem_map_of_mem hroot))
      exact hlt.ne' (eq_of_transient p.plain hsome hlt.le hexists)
    have hwithin := isWithin_iff.mpr hgitdir.2.2
    simp [readOnlyOps, hwithin, htransient, hgitdir.1.pathExists]
  induction subpaths using reverseRecOn with
  | nil =>
    rw [flatMap_nil, append_nil, viewAt_concat]
    simp [act, Spot.replace, hchild.le, hmissing, hchild.ne']
  | append_singleton subpaths subpath ih =>
    have ih := ih (fun other hother => hsubpaths (mem_append_left _ hother))
      (fun other hother => hname other (mem_append_left _ hother))
    have hmem : subpath ∈ subpaths ++ [subpath] := by simp
    rw [flatMap_append, ← append_assoc, flatMap_singleton]
    rcases eq_or_ne subpath gitdir with rfl | hne
    · rw [hops, viewAt_concat]
      simp [act, Spot.replace, (hlt.trans hchild).le, hmissing, (hlt.trans hchild).ne']
    · have hge : ¬ subpath ≤ childPath writable.root name := by
        intro hle
        rcases le_childPath_iff.mp hle with hle | heq
        · rcases lt_or_gitdir hroot (hsubpaths hmem) with hroots | ⟨hother, -⟩
          · exact absurd hle (not_le_of_gt hroots)
          · exact hne (hother.unique hgitdir.1)
        · exact hname subpath hmem heq.ge
      rw [viewAt_subpath hroot hsubpaths hmem hge (hname subpath hmem)]
      refine ⟨ih.1, fun hmemGitdir => ih.2 ?_⟩
      exact (mem_append.mp hmemGitdir).resolve_right fun h =>
        hne (mem_singleton.mp h).symm

end Missing

/-- A missing name of a root is mounted if it may not be written, or is the `.codex` folder of the
    working directory. -/
theorem childPath_mem_subpaths (hname : name ∈ protectedMetadataPathNames)
    (hgit : p.host.isFile (childPath writable.root protectedMetadataGitPathName))
    (hmissing : p.host.pathExists (childPath writable.root name) = false)
    (hcannot : p.canWrite (childPath writable.root name) = false ∨
      name = protectedMetadataCodexPathName ∧ p.cwd = writable.root) :
    childPath writable.root name ∈ p.subpaths writable := by
  obtain ⟨-, -, -, -, hreadOnly, hnames⟩ := of_mem_roots hroot
  have hno : ∀ entry ∈ p.entries, entry.path ≠ childPath writable.root name := by
    intro entry hentry heq
    have := p.plain.pathExists_of_isDir (p.isDir_entry hentry)
    rw [heq, hmissing] at this
    cases this
  rw [mem_readOnlySubpathsToMount]
  rcases hcannot with hcannot | ⟨rfl, hcwd⟩
  · refine .inr ⟨name, (hnames name).mpr ⟨hname, hcannot⟩, rfl, ?_⟩
    have hne : name ≠ protectedMetadataGitPathName := by
      rintro rfl
      rw [p.plain.pathExists_of_isFile hgit] at hmissing
      cases hmissing
    simp [shouldLeaveMissingGitForParentRepoDiscovery, hne]
  · refine .inl ⟨(hreadOnly _).mpr (.inl ⟨?_, hno⟩), fun hdenied => ?_, ?_⟩
    · exact (mem_defaultReadOnlySubpaths p.plain.noSymlinks).mpr
        (.inr (.inr (.inr ⟨rfl, .inl (by simpa using hcwd)⟩)))
    · exact hno _ (mem_denied_iff.mp hdenied).1 rfl
    · rw [p.missingAutoMetadata_eq_nil]
      exact not_mem_nil

variable (hregular : p.Regular done)

include hregular in
theorem regular_append_front (hearlier : earlier ⊆ p.subpaths writable) :
    p.Regular (done ++ p.front writable.root earlier) :=
  forall_mem_append.mpr ⟨hregular, regular_front hroot hearlier⟩

/-- A folder that a `.git` file points to is as open as it was before the root, where the root is
    neither above nor below it. -/
theorem open_gitdir_of_front (hearlier : earlier ⊆ p.subpaths writable)
    (hgitdir : p.Gitdir writable.root gitdir)
    (hroots : ∀ root ∈ p.dirs, ¬ gitdir ≤ root) (hle : ¬ writable.root ≤ gitdir)
    (hfirst : gitdir ∉ earlier) (h : Open p.dirs (done ++ p.front writable.root earlier) gitdir) :
    Open p.dirs done gitdir := by
  have hge := hroots _ (mem_map_of_mem hroot)
  have hnone : lastSome (effect p.dirs gitdir) (p.front writable.root earlier) = none := by
    rw [lastSome_eq_none_iff]
    refine fun layer => effect_front_eq_none (mem_map_of_mem hroot) hle hge
      fun subpath hsubpath _ => ?_
    rcases lt_or_gitdir hroot (hearlier hsubpath) with hlt | ⟨hother, -⟩
    · exact incomparable_of_le hlt.le hle hge
    · exact absurd (hother.unique hgitdir.1 ▸ hsubpath) hfirst
  unfold Open at h
  rwa [lastSome_append, hnone] at h

section Steps

variable (hsteps : Stepwise p.Ready (done ++ p.front writable.root [])
  ((sortByDepth (p.subpaths writable)).map .readOnly))
include hsteps

omit hroot in
/-- A read-only path can be mounted after those in front of it in the order of their depth. -/
theorem exists_ready_of_steps (hpath : path ∈ p.subpaths writable) :
    ∃ earlier ⊆ p.subpaths writable, (∀ other ∈ earlier, ¬ path ≤ other) ∧
      (∀ other ∈ p.subpaths writable, other < path → other ∈ earlier) ∧
      p.Ready (done ++ p.front writable.root earlier) (.readOnly path) := by
  obtain ⟨earlier, later, hsplit, hfirst, habove⟩ := exists_sorted_split hpath
  have hready := hsteps (earlier.map .readOnly) (.readOnly path) (later.map .readOnly)
    (by simp [hsplit])
  rw [front_append] at hready
  exact ⟨earlier, (mem_of_sorted_split hsplit).1, hfirst, habove, hready⟩

include hregular in
theorem gitdirsOpen_of_steps : p.GitdirsOpen done writable.root := by
  intro gitdir hgitdir hfile
  by_contra hno
  push Not at hno
  obtain ⟨hroots, hle, hclosed⟩ := hno
  obtain ⟨earlier, hearlier, hfirst, -, hready⟩ :=
    exists_ready_of_steps hsteps (gitdir_mem hroot hgitdir.1 hgitdir.2.1)
  have husable := usable_of_stepwise_readOnly (isWithin_iff.mpr hgitdir.2.2) hfile
    (.inl hgitdir.1.pathExists) hready
  rw [usable_iff_open (regular_append_front hroot hregular hearlier) hgitdir.1.pathExists] at husable
  exact hclosed (open_gitdir_of_front hroot hearlier hgitdir hroots hle
    (fun h => hfirst gitdir h le_rfl) husable)

theorem metadataThere_of_steps : MetadataThere p.policy p.host p.cwd writable.root := by
  intro gitdir hlt hgitdir name hname hcannot
  by_contra hmissing
  have hmissing := Bool.eq_false_iff.mpr hmissing
  obtain ⟨earlier, hearlier, hfirst, habove, hready⟩ := exists_ready_of_steps hsteps
    (childPath_mem_subpaths hroot hname hgitdir.1.1 hmissing hcannot)
  obtain ⟨hwithin, htarget⟩ := p.missingTarget_childPath (mem_map_of_mem hroot) hmissing
  have hfile : transientEmptyMetadataPath p.host (childPath writable.root name) ≠
      some .emptyFile := by
    simp [transientEmptyMetadataPath, p.plain.hasSymlinkMetadata_eq, hmissing]
  have hprotected : isProtectedMetadataName (childPath writable.root name) := by
    simpa [isProtectedMetadataName, childPath] using hname
  have husable : Usable p.host (p.mounts (done ++ p.front writable.root earlier)) _ :=
    usable_of_stepwise_readOnly hwithin hfile (.inr ⟨htarget, hprotected⟩) hready
  obtain ⟨ops, hops⟩ := p.mounts_front done writable.root earlier
  rw [hops] at husable
  obtain ⟨hpresent, hreadOnly⟩ := viewAt_missing hroot hearlier hmissing hfirst hgitdir hlt
  have hgitdirMem := habove gitdir (gitdir_mem hroot hgitdir.1 hgitdir.2.1)
    (hlt.trans (lt_childPath _ _))
  rcases husable with h | h
  · rw [hpresent] at h
    cases h
  · rw [hreadOnly hgitdirMem] at h
    cases h

end Steps

include hregular in
/-- A read-only path that is there can be mounted, if the folders of `.git` files are open. -/
theorem ready_subpath (hgitdirs : p.GitdirsOpen done writable.root)
    (hearlier : earlier ⊆ p.subpaths writable) (hpath : path ∈ p.subpaths writable)
    (hexists : p.host.pathExists path) :
    p.Ready (done ++ p.front writable.root earlier) (.readOnly path) := by
  have hready : Open p.dirs (done ++ p.front writable.root earlier) path →
      p.Ready (done ++ p.front writable.root earlier) (.readOnly path) := fun hopen =>
    stepwise_readOnly_of_usable p.plain (regular_readOnly hroot hpath)
      ((usable_iff_open (regular_append_front hroot hregular hearlier) hexists).mpr hopen)
  rcases lt_or_gitdir hroot hpath with hlt | ⟨hgitdir, hno⟩
  · exact hready (open_below_root hlt.le)
  cases hwithin : isWithinAllowedWritePaths path p.dirs with
  | false => simp [Ready, Sandbox.Ready, ops, readOnlyOps, hwithin, hexists]
  | true =>
    by_cases hfile : transientEmptyMetadataPath p.host path = some .emptyFile
    · simp [Ready, Sandbox.Ready, ops, readOnlyOps, hwithin, hfile, stepwise_cons, Startable,
        mountTarget]
    rcases hgitdirs path ⟨hgitdir, hno, isWithin_iff.mp hwithin⟩ hfile with
      ⟨root, hmemRoot, hle⟩ | hle | hopen
    · exact hready (open_of_le_root hmemRoot hle _)
    · exact hready (open_below_root hle)
    · exact hready (open_append hopen fun layer => effect_front)

/-- So can one that is missing, if the names that are protected in the root are there. -/
theorem ready_missing (hmetadata : MetadataThere p.policy p.host p.cwd writable.root)
    (hearlier : earlier ⊆ p.subpaths writable) (hpath : path ∈ p.subpaths writable)
    (hmissing : p.host.pathExists path = false) :
    p.Ready (done ++ p.front writable.root earlier) (.readOnly path) := by
  obtain ⟨name, hname, rfl, hcannot⟩ := p.exists_name_of_missing hroot hpath hmissing
  refine stepwise_readOnly_of_usable p.plain (regular_readOnly hroot hpath) ?_
  obtain ⟨ops, hops⟩ := p.mounts_front done writable.root earlier
  show Usable p.host (p.mounts (done ++ p.front writable.root earlier)) _
  rw [hops]
  refine usable_below_root hroot hearlier (lt_childPath _ _)
    fun other hother hwithin hlt => ?_
  -- a path above the missing name is the folder that the `.git` file points to
  have hle := (le_childPath_iff.mp hlt.le).resolve_right hlt.ne
  rcases lt_or_gitdir hroot (hearlier hother) with hbelow | ⟨hgitdir, hno⟩
  · exact absurd hle (not_le_of_gt hbelow)
  · obtain ⟨-, hwrite, -⟩ := of_mem_roots hroot
    have hne : other ≠ writable.root := fun heq =>
      hno _ (mem_writePaths.mp hwrite) heq.symm
    have := hmetadata other (lt_of_le_of_ne hle hne)
      ⟨hgitdir, hno, isWithin_iff.mp hwithin⟩ name hname hcannot
    rw [hmissing] at this
    cases this

include hregular in
/-- **The read-only paths of a root** need the folder that its `.git` file points to open, and not
    above missing names of the root. -/
theorem stepwise_subpaths_iff : Stepwise p.Ready (done ++ p.front writable.root [])
        ((sortByDepth (p.subpaths writable)).map .readOnly) ↔
      p.GitdirsOpen done writable.root ∧
        MetadataThere p.policy p.host p.cwd writable.root := by
  constructor
  · intro hsteps
    exact ⟨gitdirsOpen_of_steps hroot hregular hsteps, metadataThere_of_steps hroot hsteps⟩
  · rintro ⟨hgitdirs, hmetadata⟩ before layer after hsplit
    obtain ⟨earlier, rest, hsorted, rfl, hrest⟩ := map_eq_append_iff.mp hsplit
    obtain ⟨subpath, later, rfl, rfl, -⟩ := map_eq_cons_iff.mp hrest
    obtain ⟨hearlier, hsubpath⟩ := mem_of_sorted_split hsorted
    rw [front_append]
    cases hexists : p.host.pathExists subpath with
    | true => exact ready_subpath hroot hregular hgitdirs hearlier hsubpath hexists
    | false => exact ready_missing hroot hmetadata hearlier hsubpath hexists

/-! ### The layers of a root -/

include hregular

/-- The way to a root and the root itself can always be mounted. -/
theorem stepwise_front : Stepwise p.Ready done (p.front writable.root []) := by
  have hmem : writable.root ∈ p.dirs := mem_map_of_mem hroot
  have hexists := p.plain.pathExists_of_isDir (p.isDir_root hmem)
  intro before layer after hsplit
  have hlayers : p.Regular (done ++ before) := by
    refine fun other hother => regular_append_front hroot hregular (nil_subset _) other ?_
    rw [hsplit, ← append_assoc]
    exact mem_append_left _ hother
  have hlayer : layer ∈ p.front writable.root [] := by
    rw [hsplit]
    simp
  rcases mem_append.mp hlayer with hlead | hlayer
  · obtain ⟨target, htarget, rfl⟩ := mem_map.mp hlead
    have hle := le_of_mem_leadTargets hmem htarget
    exact (ready_dir hlayers (p.plain.pathExists_of_le hle hexists) (open_of_le_root hmem hle _)).1
  · cases mem_singleton.mp hlayer
    exact (ready_dir hlayers hexists (open_of_le_root hmem le_rfl _)).2

/-- **What the layers of a root need.** -/
theorem stepwise_rootLayers_iff :
    Stepwise p.Ready done (rootLayers p.host p.context writable) ↔
      (p.GitdirsOpen done writable.root ∧
        MetadataThere p.policy p.host p.cwd writable.root) ∧
      ∀ outer ∈ p.denied, ∀ inner ∈ p.denied, writable.root ≤ outer → outer < inner →
        p.Leads inner := by
  have hlayers : rootLayers p.host p.context writable = p.front writable.root [] ++
      ((sortByDepth (p.subpaths writable)).map .readOnly ++
        (sortByDepth (p.denied.filter (writable.root ≤ ·))).map .mask) := by
    simp [rootLayers_eq, frontLayers]
  rw [hlayers, stepwise_append, stepwise_append, and_iff_right (stepwise_front hroot hregular),
    stepwise_subpaths_iff hroot hregular, front_append,
    stepwise_masks_iff (regular_append_front hroot hregular fun _ h => mem_sortByDepth.mp h)
      filter_sublist.subset]
  refine and_congr_right fun _ =>
    ⟨fun h outer houter inner hinner hle hlt => ?_, fun h inner hinner => ?_⟩
  · have htargets : ∀ {path}, path ∈ p.denied → writable.root ≤ path →
        path ∈ p.denied.filter (writable.root ≤ ·) :=
      fun hpath hle => mem_filter.mpr ⟨hpath, by simpa using hle⟩
    exact (h inner (htargets hinner (hle.trans hlt.le))).resolve_right
      fun ⟨_, hnone⟩ => hnone outer (htargets houter hle) hlt
  · obtain ⟨hdenied, hle⟩ := mem_filter.mp hinner
    have hle : writable.root ≤ inner := by simpa using hle
    by_cases hexists : p.Leads inner
    · exact .inl hexists
    · refine .inr ⟨open_below_root hle, fun outer houter hlt => hexists ?_⟩
      obtain ⟨houterDenied, houterLe⟩ := mem_filter.mp houter
      exact h outer houterDenied inner hdenied (by simpa using houterLe) hlt

end Subpaths

end FolderPolicy

end Codex.Sandbox
