import Codex.Sandbox.PolicyContext

namespace Codex.Sandbox

open Text Data FileSystemSandboxPolicy Layer AbsolutePathBuf BwrapOp List

/-!
# The view does not exceed the policy

What is visible of the host in the view that bubblewrap builds for a policy may be read under the
policy, and what can be changed may be written.

* `Visible`, `Modifiable` — what a command finds in the view;
* `lastCover_mask`, `lastCover_readOnlyOps_of_le` — how each layer covers a path;
* `canRead_of_lastCover`, `canWrite_of_lastCover` — what the last cover says about the policy;
* `GitdirsMasked` — the folder that a `.git` file points to is mounted before the masks over what is
  denied in it;
* `view_sound_iff` — the view does not exceed the policy, just when this is so.
-/

/-- The content of a path of the host is seen somewhere in the view. -/
def Visible (host : LinuxHost) (ops : List BwrapOp) (path : AbsolutePathBuf) : Prop :=
  ∃ location, (viewAt host ops location).content = some path

/-- A path of the host can be changed from somewhere in the view. -/
def Modifiable (host : LinuxHost) (ops : List BwrapOp) (path : AbsolutePathBuf) : Prop :=
  ∃ location, (viewAt host ops location).content = some path ∧
    (viewAt host ops location).readOnly = false

theorem visible_iff {host : LinuxHost} {ops : List BwrapOp} {path : AbsolutePathBuf}
    (hplace : ∀ op ∈ ops, op.InPlace) :
    Visible host ops path ↔ ∃ readOnly, lastCover ops path = some (.host readOnly) := by
  unfold Visible
  simp only [content_viewAt hplace]
  constructor
  · rintro ⟨location, h⟩
    split at h
    · cases h
      obtain ⟨cover, hcover, hshows⟩ := Option.any_eq_true _ _ |>.mp ‹_›
      cases cover with
      | host readOnly => exact ⟨readOnly, hcover⟩
      | blank target => cases hshows
    · cases h
  · rintro ⟨readOnly, h⟩
    exact ⟨path, by simp [h, Cover.shows]⟩

theorem lastCover_of_modifiable {host : LinuxHost} {ops : List BwrapOp} {path : AbsolutePathBuf}
    (hplace : ∀ op ∈ ops, op.InPlace) (h : Modifiable host ops path) :
    lastCover ops path = some (.host false) := by
  obtain ⟨location, hcontent, hwritable⟩ := h
  have hcover := lastCover_of_writable hplace (by simp [hcontent]) hwritable
  rw [content_viewAt hplace, hcover] at hcontent
  cases hcontent
  exact hcover

/-! ### How layers cover a path -/

variable {target : AbsolutePathBuf} {targets : List AbsolutePathBuf}

section Covers

variable {host : LinuxHost} (hplain : host.Plain) {allowed : List AbsolutePathBuf}
  {path : AbsolutePathBuf} (hexists : host.pathExists path)

include hplain hexists in
theorem not_missing_le {missing : AbsolutePathBuf}
    (h : missingTarget host allowed target = some missing) : ¬ missing ≤ path := by
  intro hle
  have hmissing := find?_some (Option.eq_some_of_filter_eq_some h)
  simp [hplain.pathExists_of_le hle hexists] at hmissing

theorem lastCover_dirs : lastCover (targets.map .dir) path = none := by
  rw [lastCover, lastSome_eq_none_iff]
  intro op hop
  obtain ⟨target, -, rfl⟩ := mem_map.mp hop
  rfl

/-- A mask of an existing path covers what is at the path and below. -/
theorem lastCover_existingMaskOps (target : AbsolutePathBuf) :
    lastCover (existingMaskOps host allowed target) path =
      if target ≤ path then some (.blank target) else none := by
  unfold existingMaskOps
  split
  · simp only [lastCover, lastSome_append, lastSome_flatMap]
    have hdirs : ∀ descendants : List AbsolutePathBuf,
        lastSome (fun descendant => lastSome (cover path)
          ((dirTargets host descendant target).map .dir)) descendants = none := by
      intro descendants
      rw [lastSome_eq_none_iff]
      exact fun descendant _ => lastCover_dirs
    rw [hdirs]
    simp [lastSome_cons, cover]
  · simp [lastCover, lastSome_cons, cover]

include hplain hexists

/-- **A mask covers what is at its target and below.** -/
theorem lastCover_mask (target : AbsolutePathBuf) :
    lastCover ((mask target).ops host allowed) path =
      if target ≤ path then some (.blank target) else none := by
  unfold ops
  simp only
  split
  · exact lastCover_existingMaskOps target
  · rename_i hmissing
    rw [if_neg fun hle => hmissing (hplain.pathExists_of_le hle hexists)]
    cases htarget : missingTarget host allowed target with
    | none => rfl
    | some missing =>
      simp [lastCover, cover, not_missing_le hplain hexists htarget]

/-- A read-only path that is there covers itself and what is below: with the host, or with something
    empty. -/
theorem lastCover_readOnlyOps_of_le (hle : target ≤ path)
    (hwithin : isWithinAllowedWritePaths target allowed) :
    lastCover (readOnlyOps host allowed target) path =
      some (if transientEmptyMetadataPath host target = none then .host true
        else .blank target) := by
  unfold readOnlyOps
  simp only [hwithin, hplain.pathExists_of_le hle hexists]
  cases transientEmptyMetadataPath host target with
  | none => simp [lastCover, cover, hle]
  | some kind => cases kind <;> simp [lastCover, emptyDirectoryOps, lastSome_cons, cover, hle]

/-- A read-only path covers nothing else. -/
theorem lastCover_readOnlyOps_eq_none
    (h : ¬ (target ≤ path ∧ isWithinAllowedWritePaths target allowed)) :
    lastCover (readOnlyOps host allowed target) path = none := by
  have hmissing : lastCover (missingReadOnlyOps host allowed target) path = none := by
    unfold missingReadOnlyOps
    cases htarget : missingTarget host allowed target with
    | none => rfl
    | some missing =>
      have hle := not_missing_le hplain hexists htarget
      simp only
      split <;> simp [lastCover, emptyDirectoryOps, lastSome_cons, cover, hle]
  unfold readOnlyOps
  cases hwithin : isWithinAllowedWritePaths target allowed with
  | false =>
    simp only [Bool.false_eq_true, if_false]
    split
    · rfl
    · exact hmissing
  | true =>
    have hle : ¬ target ≤ path := fun hle => h ⟨hle, hwithin⟩
    simp only [if_true]
    cases transientEmptyMetadataPath host target with
    | some kind =>
      cases kind <;> simp [lastCover, emptyDirectoryOps, lastSome_cons, cover, hle]
    | none =>
      simp only
      split
      · simp [lastCover, cover, hle]
      · exact hmissing

end Covers

/-- How a layer covers a path. -/
def Layer.cover (host : LinuxHost) (allowed : List AbsolutePathBuf)
    (path : AbsolutePathBuf) (layer : Layer) : Option Cover :=
  lastCover (layer.ops host allowed) path

section Layers

variable {host : LinuxHost} (hplain : host.Plain) {allowed : List AbsolutePathBuf}
  {path : AbsolutePathBuf} (hexists : host.pathExists path)

section Masks

include hplain hexists

theorem cover_masks_eq_none_iff :
    lastSome (cover host allowed path) (targets.map .mask) = none ↔
      ∀ target ∈ targets, ¬ target ≤ path := by
  rw [lastSome_map, lastSome_eq_none_iff]
  refine forall₂_congr fun target _ => ?_
  rw [Layer.cover, lastCover_mask hplain hexists]
  simp

theorem cover_masks_eq_some {cover : Cover}
    (h : lastSome (Layer.cover host allowed path) (targets.map .mask) = some cover) :
    cover.shows = false := by
  rw [lastSome_map] at h
  obtain ⟨_, target, _, -, hcover, -⟩ := exists_of_lastSome h
  rw [Layer.cover, lastCover_mask hplain hexists] at hcover
  split at hcover
  · cases hcover
    rfl
  · cases hcover

end Masks

/-- A root covers what is below it, then its read-only paths cover it, and then its masks. -/
theorem cover_rootLayers (context : BwrapContext) (writable : WritableRoot) :
    lastSome (cover host context.allowedWritePaths path) (rootLayers host context writable) =
      (lastSome (cover host context.allowedWritePaths path)
        ((sortByDepth (context.unreadableRoots.filter (writable.root ≤ ·))).map .mask)).or
      ((lastSome (cover host context.allowedWritePaths path)
        ((sortByDepth (readOnlySubpathsToMount host context writable none)).map .readOnly)).or
      (if writable.root ≤ path then some (.host false) else none)) := by
  have hlead : lastSome (cover host context.allowedWritePaths path)
      ((leadTargets host context writable.root).map .dir) = none := by
    rw [lastSome_map, lastSome_eq_none_iff]
    intro target _
    rfl
  have hroot : cover host context.allowedWritePaths path (.root writable.root) =
      if writable.root ≤ path then some (.host false) else none := by
    simp [Layer.cover, Layer.ops, lastCover, BwrapOp.cover]
  rw [rootLayers, lastSome_append, lastSome_cons, lastSome_append, hlead, hroot, Option.or_none,
    Option.or_assoc]

end Layers

/-! ### The base -/

theorem not_includePlatformDefaults {policy : FileSystemSandboxPolicy}
    (hminimal : policy.NoMinimal) : policy.includePlatformDefaults = false := by
  unfold includePlatformDefaults
  rw [Bool.and_eq_false_iff]
  refine .inr (any_eq_false.mpr fun entry hentry => ?_)
  split
  · exact absurd ‹_› (hminimal entry hentry)
  · exact Bool.false_ne_true

namespace PlainPolicy

variable {p : PlainPolicy} {path : AbsolutePathBuf}

/-- There is an entry for the path, and it may be read. -/
def Readable (p : PlainPolicy) (path : AbsolutePathBuf) : Prop :=
  (∃ entry ∈ p.entries, entry.path = path) ∧ p.canRead path

/-- With full read access there is an entry for the root of the file system, and none that
    denies. -/
theorem readable_root (hfull : p.policy.hasFullDiskReadAccess) : p.Readable rootPath := by
  obtain ⟨⟨access, hmem⟩, hread⟩ := canRead_of_full p.kind hfull
  exact ⟨⟨_, hmem, rfl⟩, hread rootPath⟩

variable {writableRoots : List WritableRoot}

/-- The base mounts an empty folder, the devices, and paths of entries that may be read. -/
theorem of_mem_baseArgs {op : BwrapOp} (h : op ∈ baseArgs p.policy p.host p.cwd writableRoots) :
    op = .tmpfs rootPath ∨ op = .dev devPath ∨ ∃ root, op = .roBind root root ∧ p.Readable root := by
  have hreadable : ∀ root ∈ sortedPaths (p.policy.getReadableRootsWithCwd p.host.toHost p.cwd ++ []),
      p.Readable root := by
    intro root hroot
    rw [append_nil, mem_sortedPaths] at hroot
    unfold getReadableRootsWithCwd at hroot
    split at hroot
    · cases hroot
    · rw [mem_dedupAbsolutePaths p.plain.noSymlinks] at hroot
      obtain ⟨entry, hentry, rfl⟩ := mem_map.mp hroot
      obtain ⟨hmem, hread⟩ := mem_filter.mp hentry
      exact ⟨⟨entry, hmem, rfl⟩, (Bool.and_eq_true_iff.mp hread).2⟩
  have heverything : p.Readable rootPath → op ∈ [.roBind rootPath rootPath, .dev devPath] →
      op = .tmpfs rootPath ∨ op = .dev devPath ∨
        ∃ root, op = .roBind root root ∧ p.Readable root := by
    intro hroot hop
    rcases mem_cons.mp hop with rfl | hop
    · exact .inr (.inr ⟨rootPath, rfl, hroot⟩)
    · exact .inr (.inl (mem_singleton.mp hop))
  unfold baseArgs at h
  simp only [not_includePlatformDefaults p.noMinimal, Bool.false_eq_true, if_false,
    p.plain.canonicalTarget_eq_none, Option.getD_none, ite_self] at h
  split at h
  · exact heverything (readable_root ‹_›) h
  split at h
  · exact heverything (hreadable _ (contains_iff_mem.mp ‹_›)) h
  · rcases mem_append.mp h with h | h
    · rcases mem_cons.mp h with rfl | h
      · exact .inl rfl
      · exact .inr (.inl (mem_singleton.mp h))
    · obtain ⟨root, hroot, rfl⟩ := mem_map.mp h
      exact .inr (.inr ⟨root, rfl, hreadable root (mem_filter.mp hroot).1⟩)

variable {readOnly : Bool}

/-- What the base shows lies below an entry that may be read. -/
theorem exists_readable_of_base
    (h : lastCover (baseArgs p.policy p.host p.cwd writableRoots) path = some (.host readOnly)) :
    readOnly ∧ ∃ root ≤ path, p.Readable root := by
  obtain ⟨_, op, _, hsplit, hop, -⟩ := exists_of_lastSome h
  have hmem : op ∈ baseArgs p.policy p.host p.cwd writableRoots := by
    rw [hsplit]
    simp
  rcases of_mem_baseArgs hmem with rfl | rfl | ⟨root, rfl, hread⟩
  · simp [BwrapOp.cover] at hop
  · simp [BwrapOp.cover] at hop
  · simp only [BwrapOp.cover, Option.ite_none_right_eq_some] at hop
    obtain ⟨hle, hhost⟩ := hop
    cases hhost
    exact ⟨rfl, root, hle, hread⟩

/-! ### The layers of a policy -/

abbrev layers (p : PlainPolicy) : List Layer := policyLayers p.policy p.host p.cwd

/-- All mounts for the policy. -/
abbrev args (p : PlainPolicy) : List BwrapOp :=
  baseArgs p.policy p.host p.cwd p.roots ++ p.layers.flatMap (ops p.host p.dirs)

theorem exists_root_of_mem_dirs {root : AbsolutePathBuf} (h : root ∈ p.dirs) :
    ∃ writable ∈ sortWritableRoots p.roots, writable.root = root := by
  obtain ⟨writable, hmem, rfl⟩ := mem_map.mp h
  exact ⟨writable, mem_sortWritableRoots.mpr hmem, rfl⟩

variable {writable : WritableRoot} {context : BwrapContext}

/-- The denied paths that a writable root masks are those below it. -/
theorem mem_masksOf :
    target ∈ sortByDepth (context.unreadableRoots.filter (writable.root ≤ ·)) ↔
      target ∈ context.unreadableRoots ∧ writable.root ≤ target := by
  simp

/-- Each writable root masks the denied paths below it. -/
theorem mask_mem_rootLayers {host : LinuxHost}
    (htarget : target ∈ context.unreadableRoots) (hle : writable.root ≤ target) :
    .mask target ∈ rootLayers host context writable := by
  refine mem_append_right _ (mem_cons_of_mem _ (mem_append_right _ ?_))
  exact mem_map_of_mem (mem_masksOf.mpr ⟨htarget, hle⟩)

/-- Each denied path is masked: by the writable roots above it, or before or after all writable
    roots. -/
theorem mask_mem_layers (htarget : target ∈ p.denied) : .mask target ∈ p.layers := by
  unfold layers policyLayers
  simp only [mem_append, mem_flatMap]
  by_cases habove : ∃ root ∈ p.dirs, root ≤ target
  · obtain ⟨root, hroot, hle⟩ := habove
    obtain ⟨writable, hmem, rfl⟩ := exists_root_of_mem_dirs hroot
    exact .inr (.inl ⟨writable, hmem, mask_mem_rootLayers htarget hle⟩)
  by_cases hbelow : ∃ root ∈ p.dirs, target ≤ root
  · refine .inl (mem_map_of_mem (mem_sortByDepth.mpr (mem_filter.mpr ⟨htarget, ?_⟩)))
    push Not at habove
    simpa using ⟨habove, hbelow⟩
  · refine .inr (.inr (mem_map_of_mem (mem_sortByDepth.mpr (mem_filter.mpr ⟨htarget, ?_⟩))))
    push Not at habove hbelow
    simpa using fun root hroot => ⟨habove root hroot, hbelow root hroot⟩

variable {before after : List WritableRoot}

section

variable (hsplit : sortWritableRoots p.roots = before ++ writable :: after)
include hsplit

theorem mem_of_split {later : WritableRoot}
    (hlater : later ∈ writable :: after) : later ∈ p.roots := by
  rw [← mem_sortWritableRoots, hsplit]
  exact mem_append_right _ hlater

/-- Writable roots are mounted from the outside in. -/
theorem mem_after_of_lt {root : AbsolutePathBuf} (hroot : root ∈ p.dirs)
    (hlt : writable.root < root) : ∃ later ∈ after, later.root = root := by
  obtain ⟨other, hother, rfl⟩ := exists_root_of_mem_dirs hroot
  have hsorted : (sortWritableRoots p.roots).Pairwise
      fun root root' => depthOrder root.root root'.root := by
    have : Std.Total fun root root' : WritableRoot => depthOrder root.root root'.root :=
      ⟨fun _ _ => le_total _ _⟩
    have : IsTrans WritableRoot fun root root' => depthOrder root.root root'.root :=
      ⟨fun _ _ _ => le_trans⟩
    exact pairwise_insertionSort _ _
  rw [hsplit] at hother hsorted
  have hdepth := depth_lt_of_lt hlt
  rcases mem_append.mp hother with hbefore | hafter
  · have := (pairwise_append.mp hsorted).2.2 _ hbefore _ mem_cons_self
    exact absurd hdepth (not_lt.mpr this)
  · rcases mem_cons.mp hafter with rfl | hafter
    · exact absurd hlt (lt_irrefl _)
    · exact ⟨other, hafter, rfl⟩

end

/-- No denied path below the root is above the path. -/
def Unmasked (p : PlainPolicy) (root path : AbsolutePathBuf) : Prop :=
  ∀ denied ∈ p.denied, root ≤ denied → ¬ denied ≤ path

section Cover

variable (hexists : p.host.pathExists path)
include hexists

/-- A root whose layers leave a path alone is not above it, and neither are denied paths below the
    root. -/
theorem not_le_of_cover_eq_none
    (h : lastSome (cover p.host p.dirs path) (rootLayers p.host p.context writable) =
      none) : ¬ writable.root ≤ path ∧ p.Unmasked writable.root path := by
  rw [cover_rootLayers, Option.or_eq_none_iff, Option.or_eq_none_iff,
    cover_masks_eq_none_iff p.plain hexists] at h
  obtain ⟨hmasks, -, hroot⟩ := h
  exact ⟨by simpa using hroot,
    fun denied hdenied hle => hmasks denied (mem_masksOf.mpr ⟨hdenied, hle⟩)⟩

/-- What the layers show of the host is shown by the last writable root that says something about the
    path, before its masks. -/
theorem exists_root_of_cover
    (h : lastSome (cover p.host p.dirs path) p.layers = some (.host readOnly)) :
    ∃ before writable after, sortWritableRoots p.roots = before ++ writable :: after ∧
      p.Unmasked writable.root path ∧
      (∀ later ∈ after, ¬ later.root ≤ path ∧ p.Unmasked later.root path) ∧
      (lastSome (cover p.host p.dirs path) ((sortByDepth (p.subpaths writable)).map .readOnly)).or
        (if writable.root ≤ path then some (.host false) else none) =
          some (.host readOnly) := by
  -- masks do not show the host
  have hmasks : ∀ {targets : List AbsolutePathBuf} {rest : Option Cover},
      (lastSome (cover p.host p.dirs path) (targets.map .mask)).or rest =
        some (.host readOnly) →
      (∀ target ∈ targets, ¬ target ≤ path) ∧ rest = some (.host readOnly) := by
    intro targets rest hor
    rcases Option.or_eq_some_iff.mp hor with hmask | ⟨hnone, hrest⟩
    · cases cover_masks_eq_some p.plain hexists hmask
    · exact ⟨(cover_masks_eq_none_iff p.plain hexists).mp hnone, hrest⟩
  rw [layers, policyLayers, lastSome_append, lastSome_append, Option.or_assoc] at h
  obtain ⟨-, h⟩ := hmasks h
  rcases Option.or_eq_some_iff.mp h with hroots | ⟨-, hancestors⟩
  · rw [lastSome_flatMap] at hroots
    obtain ⟨before, writable, after, hsplit, hroot, hafter⟩ := exists_of_lastSome hroots
    rw [cover_rootLayers] at hroot
    obtain ⟨hdenied, hroot⟩ := hmasks hroot
    exact ⟨before, writable, after, hsplit,
      fun denied hmem hle => hdenied denied (mem_masksOf.mpr ⟨hmem, hle⟩),
      fun later hlater => not_le_of_cover_eq_none hexists (hafter later hlater), hroot⟩
  · cases cover_masks_eq_some p.plain hexists hancestors

/-- A read-only path that shows the host covers the path, for reading. -/
theorem of_cover_readOnly
    (h : cover p.host p.dirs path (.readOnly target) = some (.host readOnly)) :
    readOnly ∧ target ≤ path ∧ transientEmptyMetadataPath p.host target = none ∧
      ∃ root ∈ p.dirs, root ≤ target := by
  have hcover : lastCover (readOnlyOps p.host p.dirs target) path = some (.host readOnly) := h
  by_cases hboth : target ≤ path ∧ isWithinAllowedWritePaths target p.dirs
  · obtain ⟨hle, hwithin⟩ := hboth
    rw [lastCover_readOnlyOps_of_le p.plain hexists hle hwithin] at hcover
    split at hcover
    · cases hcover
      exact ⟨rfl, hle, ‹_›, isWithin_iff.mp hwithin⟩
    · cases hcover
  · rw [lastCover_readOnlyOps_eq_none p.plain hexists hboth] at hcover
    cases hcover

end Cover

end PlainPolicy

/-! ### The view does not exceed the policy -/

def procPath : AbsolutePathBuf := ⟨[⟨"proc", by decide⟩]⟩

/-- The path is not among the devices and processes. -/
def OutsideDevices (path : AbsolutePathBuf) : Prop := ¬ devPath ≤ path ∧ ¬ procPath ≤ path

/-- Where the folder that the `.git` file of a writable root points to is mounted for reading, with
    a denied path above or in it, this root, or one that is mounted later, lies above the denied
    path. -/
def GitdirsMasked (policy : FileSystemSandboxPolicy) (host : LinuxHost) (cwd : AbsolutePathBuf) :
    Prop := ∀ before writable after,
    sortWritableRoots (existingWritableRoots policy host cwd) = before ++ writable :: after →
    ∀ gitdir, host.PointsToGitdir writable.root gitdir →
      (∀ entry ∈ policy.resolvedEntriesWithCwd host.toHost cwd, entry.path ≠ gitdir) →
      transientEmptyMetadataPath host gitdir = none →
      (∃ other ∈ existingWritableRoots policy host cwd, other.root ≤ gitdir) →
      ∀ path, gitdir ≤ path → host.pathExists path → OutsideDevices path →
        ∀ denied, Decides (policy.resolvedEntriesWithCwd host.toHost cwd) path denied →
          denied.access = .deny → ∃ later ∈ writable :: after, later.root ≤ denied.path

namespace PlainPolicy

variable {p : PlainPolicy} {path : AbsolutePathBuf} {readOnly : Bool} {writable : WritableRoot}
  {before after : List WritableRoot}

section Sound

variable (hexists : p.host.pathExists path)
include hexists

/-- **What the view shows may be read**, if masks follow the folders that `.git` files point to. -/
theorem canRead_of_lastCover (hmasked : GitdirsMasked p.policy p.host p.cwd)
    (houtside : OutsideDevices path) (h : lastCover p.args path = some (.host readOnly)) :
    p.canRead path := by
  by_contra hcannot
  have hcannot := Bool.eq_false_iff.mpr hcannot
  rw [lastCover, lastSome_append, lastSome_flatMap] at h
  rcases Option.or_eq_some_iff.mp h with hlayers | ⟨hnone, hbase⟩
  · obtain ⟨before, writable, after, hsplit, hdenied, hlater, hcover⟩ :=
      exists_root_of_cover hexists hlayers
    have hmem := mem_of_split hsplit mem_cons_self
    -- a denied path above the path is masked by the root or by a later one
    have hcontra : ∀ denied ∈ p.denied, denied ≤ path → ∀ later ∈ writable :: after,
        ¬ later.root ≤ denied := by
      intro denied hmemDenied hle later hmemLater hroot
      rcases mem_cons.mp hmemLater with rfl | hmemLater
      · exact hdenied denied hmemDenied hroot hle
      · exact (hlater later hmemLater).2 denied hmemDenied hroot hle
    by_cases hle : writable.root ≤ path
    · obtain ⟨-, hwrite, hcan, -⟩ := of_mem_roots hmem
      have hentry := mem_writePaths.mp hwrite
      obtain ⟨denied, hdec, -, hmemDenied⟩ :=
        exists_unreadable hentry hle (canRead_of_canWrite hcan) hcannot
      exact hcontra _ hmemDenied hdec.le _ mem_cons_self
        (hdec.wins _ hentry hle).1
    · rw [if_neg hle, Option.or_none, lastSome_map] at hcover
      obtain ⟨_, subpath, _, hsubpaths, hsubpath, -⟩ := exists_of_lastSome hcover
      obtain ⟨-, hsub, htransient, root, hroot, hrootLe⟩ := of_cover_readOnly hexists hsubpath
      have hmemSub : subpath ∈ p.subpaths writable := by
        rw [← mem_sortByDepth, hsubpaths]
        simp
      rcases lt_or_gitdir hmem hmemSub with hlt | ⟨hgitdir, hentries⟩
      · exact hle (hlt.le.trans hsub)
      · obtain ⟨-, hwrite, hcan, -⟩ := mem_dirs_iff.mp hroot
        obtain ⟨denied, hdec, hdeny, hmemDenied⟩ := exists_unreadable
          (mem_writePaths.mp hwrite) (hrootLe.trans hsub)
          (canRead_of_canWrite hcan) hcannot
        obtain ⟨other, hother, rfl⟩ := mem_map.mp hroot
        obtain ⟨later, hmemLater, hlaterLe⟩ := hmasked before writable after hsplit subpath
          hgitdir hentries htransient ⟨other, hother, hrootLe⟩ path hsub hexists houtside denied
          hdec hdeny
        exact hcontra _ hmemDenied hdec.le later hmemLater hlaterLe
  · obtain ⟨-, root, hle, ⟨entry, hentry, rfl⟩, hread⟩ := exists_readable_of_base hbase
    obtain ⟨denied, hdec, -, hmemDenied⟩ := exists_unreadable hentry hle hread hcannot
    have hmask : lastCover ((mask denied.path).ops p.host p.dirs) path = none :=
      lastSome_eq_none_iff.mp hnone _ (mask_mem_layers hmemDenied)
    rw [lastCover_mask p.plain hexists, if_pos hdec.le] at hmask
    cases hmask

/-- **What can be changed in the view may be written.** -/
theorem canWrite_of_lastCover (h : lastCover p.args path = some (.host false)) :
    p.canWrite path := by
  rw [lastCover, lastSome_append, lastSome_flatMap] at h
  rcases Option.or_eq_some_iff.mp h with hlayers | ⟨-, hbase⟩
  · obtain ⟨before, writable, after, hsplit, hdenied, hlater, hcover⟩ :=
      exists_root_of_cover hexists hlayers
    have hmem := mem_of_split hsplit mem_cons_self
    obtain ⟨hfull, hwrite, hcan, -, hreadOnly, hnames⟩ := of_mem_roots hmem
    have hallowed : writable.root ∈ p.dirs := mem_map_of_mem hmem
    -- no read-only path of the root covers the path
    obtain ⟨hle, hsubpaths⟩ : writable.root ≤ path ∧ ∀ subpath ∈ p.subpaths writable,
        writable.root ≤ subpath → ¬ subpath ≤ path := by
      rw [lastSome_map] at hcover
      rcases Option.or_eq_some_iff.mp hcover with hsub | ⟨hnone, hroot⟩
      · obtain ⟨_, subpath, _, -, hsubpath, -⟩ := exists_of_lastSome hsub
        cases (of_cover_readOnly hexists hsubpath).1
      · refine ⟨by simpa using hroot, fun subpath hsubpath hbelow hsub => ?_⟩
        have hcover := lastSome_eq_none_iff.mp hnone subpath (mem_sortByDepth.mpr hsubpath)
        have hwithin := isWithin_iff.mpr ⟨_, hallowed, hbelow⟩
        have := lastCover_readOnlyOps_of_le p.plain hexists hsub hwithin
        cases this.symm.trans hcover
    -- an entry between the root and the path that may not be written is masked or mounted
    obtain ⟨dir, hdec, hge⟩ := exists_decides_write p.kind hwrite hcan hle
      fun entry hentry hlt hentryLe hcannot => by
        by_contra hmode
        by_cases hunreadable : entry.path ∈ p.denied
        · exact hdenied _ hunreadable hlt.le hentryLe
        refine hsubpaths entry.path (mem_readOnlySubpathsToMount.mpr (.inl
          ⟨(hreadOnly _).mpr (.inr ⟨hlt, hcannot, entry, hentry, rfl, hmode⟩), hunreadable,
            fun hmissing => ?_⟩)) hlt.le hentryLe
        have := not_pathExists_of_mem_missingAutoMetadata hmissing
        rw [p.plain.pathExists_of_le hentryLe hexists] at this
        cases this
    refine (canWrite_iff_decides p.kind).mpr ⟨dir, hdec, .inr ?_⟩
    rintro ⟨⟨name, hname, hdir⟩, hguards⟩
    -- the entry that protects the path is the root, or lies below it
    rcases hge.eq_or_lt with rfl | hlt
    · have hcannot := canWrite_childPath_of_guards p.kind hfull hdec hname hdir hguards
      refine hsubpaths _ (mem_readOnlySubpathsToMount.mpr (.inr ⟨name, (hnames name).mpr
        ⟨hname, hcannot⟩, rfl, ?_⟩)) (lt_childPath _ _).le hdir
      simp [shouldLeaveMissingGitForParentRepoDiscovery, p.plain.isNotFound_eq,
        p.plain.pathExists_of_le hdir hexists]
    · -- the nested root is mounted later
      obtain ⟨later, hmemLater, rfl⟩ := mem_after_of_lt hsplit (mem_dirs_iff.mpr ⟨hfull,
        mem_writePaths.mpr hdec.mem, canWrite_of_decides_self p.kind hdec.self,
        p.plain.pathExists_of_le hdec.le hexists⟩) hlt
      exact (hlater later hmemLater).1 hdec.le
  · obtain ⟨hreadOnly, -⟩ := exists_readable_of_base hbase
    cases hreadOnly

end Sound

/-! ### What is not masked is visible -/

section Exposed

variable (hexists : p.host.pathExists path)
include hexists

/-- A root that is not above a path covers it with the host alone, if its `.git` file does not point
    to something empty there. -/
theorem shows_of_rootLayers (hmem : writable ∈ p.roots) (hroot : ¬ writable.root ≤ path)
    (htransient : ∀ gitdir ≤ path, p.host.PointsToGitdir writable.root gitdir →
      (∀ entry ∈ p.entries, entry.path ≠ gitdir) →
        transientEmptyMetadataPath p.host gitdir = none) {layer : Layer}
    (hlayer : layer ∈ rootLayers p.host p.context writable) {cover : Cover}
    (hcover : Layer.cover p.host p.dirs path layer = some cover) : cover.shows := by
  rcases mem_append.mp hlayer with hlead | hlayer
  · obtain ⟨target, -, rfl⟩ := mem_map.mp hlead
    cases hcover
  rcases mem_cons.mp hlayer with rfl | hlayer
  · simp [Layer.cover, Layer.ops, lastCover, BwrapOp.cover, hroot] at hcover
  rcases mem_append.mp hlayer with hsub | hmask
  · obtain ⟨subpath, hsubpath, rfl⟩ := mem_map.mp hsub
    have hcover : lastCover (readOnlyOps p.host p.dirs subpath) path = some cover := hcover
    by_cases hboth : subpath ≤ path ∧ isWithinAllowedWritePaths subpath p.dirs
    · rw [lastCover_readOnlyOps_of_le p.plain hexists hboth.1 hboth.2] at hcover
      rcases lt_or_gitdir hmem (mem_sortByDepth.mp hsubpath) with hlt | ⟨hgitdir, hentries⟩
      · exact absurd (hlt.le.trans hboth.1) hroot
      · rw [if_pos (htransient subpath hboth.1 hgitdir hentries)] at hcover
        cases hcover
        rfl
    · rw [lastCover_readOnlyOps_eq_none p.plain hexists hboth] at hcover
      cases hcover
  · obtain ⟨target, htarget, rfl⟩ := mem_map.mp hmask
    have hle : ¬ target ≤ path := fun hle => hroot ((mem_masksOf.mp htarget).2.trans hle)
    rw [Layer.cover, lastCover_mask p.plain hexists, if_neg hle] at hcover
    cases hcover

/-- **The folder that a `.git` file points to is visible** where neither its root nor a later one is
    above. -/
theorem lastCover_of_gitdir
    (hsplit : sortWritableRoots p.roots = before ++ writable :: after)
    {gitdir : AbsolutePathBuf} (hgitdir : p.host.PointsToGitdir writable.root gitdir)
    (hentries : ∀ entry ∈ p.entries, entry.path ≠ gitdir)
    (htransient : transientEmptyMetadataPath p.host gitdir = none)
    (hwithin : ∃ other ∈ p.roots, other.root ≤ gitdir) (hle : gitdir ≤ path)
    (hroots : ∀ later ∈ writable :: after, ¬ later.root ≤ path)
    (hpath : path = gitdir ∨ ∃ entry ∈ p.entries, entry.path = path) :
    ∃ readOnly, lastSome (Layer.cover p.host p.dirs path) p.layers = some (.host readOnly) := by
  obtain ⟨other, hother, hotherLe⟩ := hwithin
  -- all layers from this root on that cover the path show the host
  obtain ⟨cover, hcover, hshows⟩ : ∃ cover, lastSome (Layer.cover p.host p.dirs path)
      ((writable :: after).flatMap (rootLayers p.host p.context)) = some cover ∧
        cover.shows := by
    refine lastSome_of_mem (a := .readOnly gitdir) ?_ ?_ ?_
    · intro layer hlayer cover hcover
      obtain ⟨later, hlater, hlayer⟩ := mem_flatMap.mp hlayer
      refine shows_of_rootLayers hexists (mem_of_split hsplit hlater) (hroots later hlater) ?_
        hlayer hcover
      intro other hother hgitdirOther hentriesOther
      by_contra hsome
      have heq := eq_of_transient p.plain hsome hother hexists
      rcases hpath with rfl | ⟨entry, hentry, hentryPath⟩
      · rw [← heq] at hsome
        exact hsome htransient
      · exact hentriesOther entry hentry (hentryPath.trans heq)
    · refine mem_flatMap.mpr ⟨writable, mem_cons_self, ?_⟩
      refine mem_append_right _ (mem_cons_of_mem _ (mem_append_left _ ?_))
      exact mem_map_of_mem (mem_sortByDepth.mpr
        (gitdir_mem (mem_of_split hsplit mem_cons_self) hgitdir hentries))
    · have hwithin := isWithin_iff.mpr
        ⟨other.root, mem_map_of_mem hother, hotherLe⟩
      have := lastCover_readOnlyOps_of_le p.plain hexists hle hwithin
      rw [show cover p.host p.dirs path (.readOnly gitdir) = _ from this]
      exact Option.some_ne_none _
  -- the masks behind all roots are away from the path
  have hrootless : lastSome (Layer.cover p.host p.dirs path)
      ((sortByDepth (rootlessUnreadable p.context)).map .mask) = none := by
    rw [cover_masks_eq_none_iff p.plain hexists]
    intro target htarget htargetLe
    have := (mem_filter.mp (mem_sortByDepth.mp htarget)).2
    simp only [Bool.not_eq_true', any_eq_false, Bool.or_eq_true, decide_eq_true_eq] at this
    exact this _ (mem_map_of_mem hother)
      (le_or_le_of_le (hotherLe.trans hle) htargetLe)
  rw [layers, policyLayers, lastSome_append, lastSome_append, hrootless, hsplit,
    flatMap_append, lastSome_append, hcover]
  cases cover with
  | host readOnly => exact ⟨readOnly, rfl⟩
  | blank target => cases hshows

end Exposed

end PlainPolicy

/-! ### The view does not exceed the policy -/

variable {policy : FileSystemSandboxPolicy} {host : LinuxHost} {cwd : AbsolutePathBuf}

theorem inPlace_ops {allowed : List AbsolutePathBuf} (layer : Layer) :
    ∀ op ∈ layer.ops host allowed, op.InPlace := by
  have hfile : ∀ target, ∀ op ∈ [roBindData target], op.InPlace :=
    fun _ => forall_mem_singleton.mpr trivial
  have hempty : ∀ target, ∀ op ∈ emptyDirectoryOps target, op.InPlace :=
    fun _ => forall_mem_cons.mpr ⟨trivial, forall_mem_cons.mpr
      ⟨trivial, forall_mem_singleton.mpr trivial⟩⟩
  cases layer with
  | dir target => exact forall_mem_singleton.mpr trivial
  | root target => exact forall_mem_singleton.mpr rfl
  | readOnly target =>
    simp only [ops, readOnlyOps, missingReadOnlyOps]
    split
    · exact hfile _
    · exact hempty _
    split
    · split
      · exact forall_mem_singleton.mpr rfl
      · exact forall_mem_nil _
    split
    · split
      · exact hempty _
      · exact hfile _
    · exact forall_mem_nil _
  | mask target =>
    simp only [ops, existingMaskOps]
    split
    · split
      · refine forall_mem_append.mpr ⟨forall_mem_append.mpr ⟨forall_mem_cons.mpr
          ⟨trivial, forall_mem_singleton.mpr trivial⟩, ?_⟩, forall_mem_singleton.mpr trivial⟩
        exact forall_mem_flatMap.mpr fun _ _ => forall_mem_map.mpr fun _ _ => trivial
      · exact forall_mem_cons.mpr ⟨trivial, hfile _⟩
    · exact forall_mem_map.mpr fun _ _ => trivial

/-- **The view does not exceed the policy**, just when masks follow the folders that `.git` files
    point to. -/
theorem view_sound_iff (hplain : host.Plain) (hkind : policy.kind = .restricted)
    (hglobs : policy.NoGlobs) (hminimal : policy.NoMinimal) {globScanMaxDepth : Option Nat}
    {result : BwrapArgs} (h : createFilesystemArgs policy host cwd globScanMaxDepth = .ok result) :
    (∀ path, host.pathExists path → OutsideDevices path →
      (Visible host result.args path → policy.canReadPathWithCwd host.toHost path cwd) ∧
      (Modifiable host result.args path → policy.canWritePathWithCwd host.toHost path cwd)) ↔
      GitdirsMasked policy host cwd := by
  let p : PlainPolicy := ⟨policy, host, cwd, hplain, hkind, hglobs, hminimal⟩
  have hargs : result.args = p.args :=
    createFilesystemArgs_layers hplain (hglobs.getUnreadableGlobs_eq_nil host.toHost cwd) h
  have hplace : ∀ op ∈ result.args, op.InPlace := by
    rw [hargs]
    intro op hop
    rcases mem_append.mp hop with hbase | hlayers
    · rcases PlainPolicy.of_mem_baseArgs hbase with rfl | rfl | ⟨root, rfl, -⟩
      · trivial
      · trivial
      · rfl
    · obtain ⟨layer, -, hop⟩ := mem_flatMap.mp hlayers
      exact inPlace_ops layer op hop
  constructor
  · intro hsound before writable after hsplit gitdir hgitdir hentries htransient hwithin path
      hle hexists houtside denied hdec hdeny
    by_contra hno
    push Not at hno
    -- the lower of the two paths is visible
    have hexposed : ∀ path' ≤ path, gitdir ≤ path' → denied.path ≤ path' →
        (path' = gitdir ∨ path' = denied.path) → False := by
      intro path' hpath' hgitdirLe hdeniedLe heither
      have hexists' := hplain.pathExists_of_le hpath' hexists
      have hdec' : Decides _ path' _ := ⟨hdec.mem, hdeniedLe,
        fun other hother hle => hdec.wins other hother (hle.trans hpath')⟩
      have houtside' : OutsideDevices path' :=
        ⟨fun hdev => houtside.1 (hdev.trans hpath'), fun hproc => houtside.2 (hproc.trans hpath')⟩
      obtain ⟨readOnly, hcover⟩ := p.lastCover_of_gitdir hexists' hsplit hgitdir hentries htransient
        hwithin hgitdirLe (fun later hlater hroot => hno later hlater (hdec'.wins _
          (mem_writePaths.mp (p.of_mem_roots (p.mem_of_split hsplit hlater)).2.1) hroot).1)
        (heither.imp id fun heq => ⟨denied, hdec.mem, heq.symm⟩)
      have hread := (hsound path' hexists' houtside').1 ((visible_iff hplace).mpr ⟨readOnly, by
        rw [hargs, lastCover, lastSome_append, lastSome_flatMap]
        exact (congrArg (Option.or · _) hcover).trans rfl⟩)
      rw [canReadPathWithCwd, resolveAccess_of_decides hkind hdec', hdeny] at hread
      cases hread
    rcases le_or_le_of_le hle hdec.le with hbelow | habove
    · exact hexposed denied.path hdec.le hbelow le_rfl (.inr rfl)
    · exact hexposed gitdir hle le_rfl habove (.inl rfl)
  · intro hmasked path hexists houtside
    refine ⟨fun hvisible => ?_, fun hmodifiable => ?_⟩
    · obtain ⟨readOnly, hcover⟩ := (visible_iff hplace).mp hvisible
      rw [hargs] at hcover
      exact p.canRead_of_lastCover hexists hmasked houtside hcover
    · have hcover := lastCover_of_modifiable hplace hmodifiable
      rw [hargs] at hcover
      exact p.canWrite_of_lastCover hexists hcover

/-! ### A worktree next to a denied folder -/

variable (entries : List (String × FileSystemAccessMode))

/-- A policy with entries for paths. -/
def pathEntries : FileSystemSandboxPolicy :=
  ⟨.restricted, none, entries.map fun entry => ⟨.path (absolutePath entry.1.toList), entry.2⟩⟩

theorem pathEntries_noGlobs : (pathEntries entries).NoGlobs := by
  intro entry hentry
  obtain ⟨_, -, rfl⟩ := mem_map.mp hentry
  rfl

theorem pathEntries_noMinimal : (pathEntries entries).NoMinimal := by
  intro entry hentry h
  obtain ⟨_, -, rfl⟩ := mem_map.mp hentry
  cases h

/-- A folder whose `.git` file points to `/w/x`, where `/w/x/secret` is. -/
def worktreeHost (worktree : String) : LinuxHost :=
  treeHost (["/", "/w", "/w/x", "/w/x/secret", "/w/sub"].map fun path => absolutePath path.toList)
    [(absolutePath (worktree.toList ++ "/.git"), "gitdir: /w/x")]

/-- The secret may not be read, and some folders may be written. -/
def secretPolicy (folders : List String) : FileSystemSandboxPolicy :=
  pathEntries (("/w/x/secret", .deny) :: folders.map (·, .write))

/-- Where the `.git` file is in the outermost root, the secret is masked after the folder is
    mounted. -/
theorem view_sound_worktree : ∃ result,
    createFilesystemArgs (secretPolicy ["/w"]) (worktreeHost "/w") (absolutePath "/w") none =
      .ok result ∧
    Visible (worktreeHost "/w") result.args (absolutePath "/w/x") ∧
    ¬ Visible (worktreeHost "/w") result.args (absolutePath "/w/x/secret") := by
  have hplain : (worktreeHost "/w").Plain := treeHost_plain (by decide) (by decide) (by decide)
  have hmasked : GitdirsMasked (secretPolicy ["/w"]) (worktreeHost "/w")
      (absolutePath "/w") := by
    intro before writable after hsplit gitdir _ _ _ _ path _ _ _ denied hdec _
    have hroots : ∀ root ∈ (existingWritableRoots (secretPolicy ["/w"]) (worktreeHost "/w")
        (absolutePath "/w")).map (·.root), root = absolutePath "/w" := by decide
    have hentries : ∀ entry ∈ (secretPolicy ["/w"]).resolvedEntriesWithCwd
        (worktreeHost "/w").toHost (absolutePath "/w"), absolutePath "/w" ≤ entry.path := by decide
    refine ⟨writable, mem_cons_self, ?_⟩
    rw [hroots _ (mem_map_of_mem (mem_sortWritableRoots.mp (by rw [hsplit]; simp)))]
    exact hentries denied hdec.mem
  refine ⟨_, rfl, ⟨absolutePath "/w/x", by decide⟩, fun hvisible => ?_⟩
  have hread := ((view_sound_iff hplain rfl (pathEntries_noGlobs _) (pathEntries_noMinimal _)
    (show createFilesystemArgs (secretPolicy ["/w"]) (worktreeHost "/w")
      (absolutePath "/w") none = .ok _ from rfl)).mpr hmasked
        (absolutePath "/w/x/secret") (by decide) ⟨by decide, by decide⟩).1 hvisible
  exact absurd hread (by decide)

/-- Where it is in a nested root, the folder is mounted over the mask of the secret. -/
theorem view_exposes_secret : (worktreeHost "/w/sub").Plain ∧
    (secretPolicy ["/w", "/w/sub"]).NoGlobs ∧ (secretPolicy ["/w", "/w/sub"]).NoMinimal ∧
    ∃ result, createFilesystemArgs (secretPolicy ["/w", "/w/sub"]) (worktreeHost "/w/sub")
      (absolutePath "/w") none = .ok result ∧
    (worktreeHost "/w/sub").pathExists (absolutePath "/w/x/secret") ∧
    OutsideDevices (absolutePath "/w/x/secret") ∧
    Visible (worktreeHost "/w/sub") result.args (absolutePath "/w/x/secret") ∧
    (secretPolicy ["/w", "/w/sub"]).canReadPathWithCwd (worktreeHost "/w/sub").toHost
      (absolutePath "/w/x/secret") (absolutePath "/w") = false := by
  refine ⟨treeHost_plain (by decide) (by decide) (by decide), pathEntries_noGlobs _,
    pathEntries_noMinimal _, _, rfl, by decide, ⟨by decide, by decide⟩, ?_, by decide⟩
  exact ⟨absolutePath "/w/x/secret", by decide⟩

end Codex.Sandbox
