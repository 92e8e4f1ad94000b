import Codex.Sandbox.LayerRun

namespace Codex.Sandbox

open Text Data PlainPolicy List Option

/-!
# Whether the sandbox starts

For a policy whose entries are folders of the host, bubblewrap finds or creates the targets of all
mounts unless one of three things happens: a mask lies in another mask of the same root, the folder
that a `.git` file points to lies in a mask, or it lies above its own root and freezes the names
that are protected there and missing.

* `Touches`, `NotHidden` — the last root that says something about such a folder;
* `TargetsOpen` — none of the three things happens;
* `runnable_iff` — the mounts for a policy can be run just when the targets are open.
-/

variable (policy : FileSystemSandboxPolicy) {context : BwrapContext} {path : AbsolutePathBuf}

/-- A root is above a folder, or its own `.git` file points to a folder above or below it. -/
def Touches (host : LinuxHost) (cwd root gitdir : AbsolutePathBuf) : Prop :=
  root ≤ gitdir ∨ ∃ other, MountedGitdir policy host cwd root other ∧
    (other ≤ gitdir ∨ gitdir ≤ other)

/-- Of some roots, the last one that touches a folder has no denied path above the folder.  Where no
    root touches the folder, all denied paths above it lie in writable roots. -/
def NotHidden (host : LinuxHost) (cwd : AbsolutePathBuf) (roots : List WritableRoot)
    (gitdir : AbsolutePathBuf) : Prop :=
  (∃ earlier root later, roots = earlier ++ root :: later ∧
    Touches policy host cwd root.root gitdir ∧
    (∀ other ∈ later, ¬ Touches policy host cwd other.root gitdir) ∧
    ∀ denied ∈ deniedDirs policy host cwd, root.root ≤ denied → ¬ denied < gitdir) ∨
  (∀ root ∈ roots, ¬ Touches policy host cwd root.root gitdir) ∧
    ∀ denied ∈ deniedDirs policy host cwd, denied < gitdir →
      ∃ root ∈ writableDirs policy host cwd, root ≤ denied

/-- **Open targets.** -/
structure TargetsOpen (policy : FileSystemSandboxPolicy) (host : LinuxHost)
    (cwd : AbsolutePathBuf) : Prop where
  /-- A denied path in another one leads to a writable root, or lies in a writable root that lies in
      the other one. -/
  masks : ∀ outer ∈ deniedDirs policy host cwd, ∀ inner ∈ deniedDirs policy host cwd,
    outer < inner → (∃ root ∈ writableDirs policy host cwd, inner ≤ root) ∨
      (∃ root ∈ writableDirs policy host cwd, root ≤ inner) ∧
        ∀ root ∈ writableDirs policy host cwd, ¬ root ≤ outer
  gitdirs : ∀ before writable after,
    sortWritableRoots (existingWritableRoots policy host cwd) = before ++ writable :: after →
    ∀ gitdir, MountedGitdir policy host cwd writable.root gitdir →
      transientEmptyMetadataPath host gitdir ≠ some .emptyFile →
        (∃ root ∈ writableDirs policy host cwd, gitdir ≤ root) ∨ writable.root ≤ gitdir ∨
          NotHidden policy host cwd before gitdir
  metadata : ∀ root ∈ writableDirs policy host cwd, MetadataThere policy host cwd root

theorem mem_rootlessUnreadable :
    path ∈ rootlessUnreadable context ↔ path ∈ context.unreadableRoots ∧
      ∀ root ∈ context.allowedWritePaths, ¬ root ≤ path ∧ ¬ path ≤ root := by
  unfold rootlessUnreadable
  simp

theorem mem_unreadableAncestors :
    path ∈ unreadableAncestors context ↔ path ∈ context.unreadableRoots ∧
      (∀ root ∈ context.allowedWritePaths, ¬ root ≤ path) ∧
        ∃ root ∈ context.allowedWritePaths, path ≤ root := by
  unfold unreadableAncestors
  simp

/-- Where no writable root lies below a path, masks above it do not uncover it. -/
theorem effect_mask_ne_true {allowed : List AbsolutePathBuf}
    {path target : AbsolutePathBuf} (hroots : ∀ root ∈ allowed, ¬ path ≤ root)
    (hge : ¬ path ≤ target) : (Layer.mask target).effect allowed path ≠ some true := by
  have hany : allowed.any (path ≤ ·) = false := by simpa using hroots
  simp [Layer.effect, hge, hany]

namespace FolderPolicy

section Abbreviations

variable (p : FolderPolicy)

/-- The layers of a writable root. -/
abbrev block : WritableRoot → List Layer := rootLayers p.host p.context

/-- The masks above writable roots. -/
abbrev ancestors : List Layer := (sortByDepth (unreadableAncestors p.context)).map .mask

/-- The layers in front of a writable root. -/
abbrev layersBefore (before : List WritableRoot) : List Layer :=
  p.ancestors ++ before.flatMap p.block

abbrev Touches : AbsolutePathBuf → AbsolutePathBuf → Prop := Sandbox.Touches p.policy p.host p.cwd

abbrev NotHidden : List WritableRoot → AbsolutePathBuf → Prop :=
  Sandbox.NotHidden p.policy p.host p.cwd

/-- A denied path in another one in a writable root leads to a writable root. -/
abbrev MasksLead : Prop :=
  ∀ root ∈ p.dirs, ∀ outer ∈ p.denied, ∀ inner ∈ p.denied, root ≤ outer → outer < inner →
    p.Leads inner

end Abbreviations

variable {p : FolderPolicy} {before : List WritableRoot}

theorem mem_denied_of_mask_mem {target : AbsolutePathBuf}
    (h : .mask target ∈ p.layersBefore before) : target ∈ p.denied := by
  rcases mem_append.mp h with h | h
  · obtain ⟨other, hother, heq⟩ := mem_map.mp h
    cases heq
    exact (mem_unreadableAncestors.mp (mem_sortByDepth.mp hother)).1
  · obtain ⟨writable, -, hlayer⟩ := mem_flatMap.mp h
    have hmem : target ∈ p.denied ∧ writable.root ≤ target := by simpa [rootLayers] using hlayer
    exact hmem.1

theorem regular_layersBefore (hbefore : before ⊆ p.roots) : p.Regular (p.layersBefore before) := by
  intro layer hlayer
  rcases mem_append.mp hlayer with hlayer | hlayer
  · exact p.regular_masks (fun path hpath => (mem_unreadableAncestors.mp
      (mem_sortByDepth.mp hpath)).1) layer hlayer
  · obtain ⟨root, hroot, hlayer⟩ := mem_flatMap.mp hlayer
    exact regular_rootLayers (hbefore hroot) layer hlayer

/-- Masks above writable roots do not uncover a path that leads to none. -/
theorem effect_ancestors_ne_true {path : AbsolutePathBuf} (hroots : ∀ root ∈ p.dirs, ¬ path ≤ root)
    {layer : Layer} (hlayer : layer ∈ p.ancestors) : layer.effect p.dirs path ≠ some true := by
  obtain ⟨target, htarget, rfl⟩ := mem_map.mp hlayer
  obtain ⟨-, -, root, hroot, hle⟩ := mem_unreadableAncestors.mp (mem_sortByDepth.mp htarget)
  exact effect_mask_ne_true hroots fun h => hroots root hroot (h.trans hle)

/-! ### What one root does to the folder of a `.git` file -/

section Gitdir

variable {writable : WritableRoot} {gitdir : AbsolutePathBuf}

/-- A root that does not touch a folder does nothing to it. -/
theorem effect_eq_none_of_not_touches (hroot : writable ∈ p.roots)
    (hroots : ∀ root ∈ p.dirs, ¬ gitdir ≤ root) (htouches : ¬ p.Touches writable.root gitdir) :
    lastSome (Layer.effect p.dirs gitdir) (p.block writable) = none := by
  have hle : ¬ writable.root ≤ gitdir := fun h => htouches (.inl h)
  have hge := hroots _ (mem_map_of_mem hroot)
  rw [lastSome_eq_none_iff]
  refine fun layer => effect_rootLayers_eq_none hroot hle hge fun subpath hsubpath hwithin => ?_
  rcases lt_or_gitdir hroot hsubpath with hlt | ⟨hother, hno⟩
  · exact incomparable_of_le hlt.le hle hge
  · exact fun h =>
      htouches (.inr ⟨subpath, ⟨hother, hno, isWithin_iff.mp hwithin⟩, h⟩)

/-- A root that touches a folder uncovers it, unless it masks a denied path above it. -/
theorem effect_eq_true_of_touches (hroot : writable ∈ p.roots)
    (htouches : p.Touches writable.root gitdir)
    (hdenied : ∀ denied ∈ p.denied, writable.root ≤ denied → ¬ denied < gitdir) :
    lastSome (Layer.effect p.dirs gitdir) (p.block writable) = some true := by
  obtain ⟨layer, hlayer, hsome⟩ : ∃ layer ∈ p.block writable,
      layer.effect p.dirs gitdir = some true := by
    rcases htouches with hle | ⟨other, ⟨hother, hno, hwithin⟩, hcomparable⟩
    · refine ⟨.root writable.root, ?_, by simp [Layer.effect, hle]⟩
      exact mem_append_right _ mem_cons_self
    · refine ⟨.readOnly other, ?_, ?_⟩
      · refine mem_append_right _ (mem_cons_of_mem _ (mem_append_left _ ?_))
        exact mem_map_of_mem
          (mem_sortByDepth.mpr (gitdir_mem hroot hother hno))
      · exact if_pos ⟨isWithin_iff.mpr hwithin, hcomparable⟩
  obtain ⟨usable, hlast, rfl⟩ : ∃ usable,
      lastSome (Layer.effect p.dirs gitdir) (p.block writable) = some usable ∧
        usable := by
    refine lastSome_of_mem (fun other hother usable heffect => ?_) hlayer (by simp [hsome])
    cases usable with
    | true => rfl
    | false =>
      obtain ⟨target, hlt, rfl, -⟩ := of_effect_eq_false heffect
      have hmem : target ∈ p.denied ∧ writable.root ≤ target := by
        simpa [rootLayers] using hother
      exact absurd hlt (hdenied target hmem.1 hmem.2)
  exact hlast

/-- A root that masks a denied path above a folder hides it, if no denied path lies below the
    folder in turn. -/
theorem effect_eq_false_of_denied (hroots : ∀ root ∈ p.dirs, ¬ gitdir ≤ root)
    {denied : AbsolutePathBuf} (hdenied : denied ∈ p.denied) (hle : writable.root ≤ denied)
    (hlt : denied < gitdir) (hinner : ∀ inner ∈ p.denied, denied < inner → p.Leads inner) :
    lastSome (Layer.effect p.dirs gitdir) (p.block writable) = some false := by
  rw [block, rootLayers_eq]
  refine not_not.mp (not_open_of_mem _ (mem_map_of_mem (mem_masksOf.mpr ⟨hdenied, hle⟩)) hlt hroots
    fun layer hlayer => ?_)
  obtain ⟨target, htarget, rfl⟩ := mem_map.mp hlayer
  refine effect_mask_ne_true hroots fun hge => ?_
  obtain ⟨root, hrootMem, hrootLe⟩ := hinner target (mem_masksOf.mp htarget).1 (hlt.trans_le hge)
  exact hroots root hrootMem (hge.trans hrootLe)

end Gitdir

section Hidden

variable {gitdir : AbsolutePathBuf} (hwithin : ∃ root ∈ p.dirs, root ≤ gitdir)
  (hroots : ∀ root ∈ p.dirs, ¬ gitdir ≤ root)
include hwithin hroots

/-- Before all roots, a folder in a writable root is hidden by denied paths that lie in none. -/
theorem open_ancestors_iff :
    Open p.dirs p.ancestors gitdir ↔
      ∀ denied ∈ p.denied, denied < gitdir → ∃ root ∈ p.dirs, root ≤ denied := by
  constructor
  · intro hopen denied hdenied hlt
    by_contra hno
    push Not at hno
    obtain ⟨root, hroot, hle⟩ := hwithin
    have hbelow : denied ≤ root :=
      (AbsolutePathBuf.le_or_le_of_le hlt.le hle).resolve_right (hno root hroot)
    have hmem := mem_unreadableAncestors.mpr ⟨hdenied, hno, root, hroot, hbelow⟩
    exact not_open_of_mem [] (mem_map_of_mem (mem_sortByDepth.mpr hmem)) hlt hroots
      (fun layer => effect_ancestors_ne_true hroots) hopen
  · intro hall
    by_contra hclosed
    obtain ⟨before, target, after, hsplit, hlt, -⟩ := exists_mask_of_not_open hclosed
    have hmem : Layer.mask target ∈ p.ancestors := by
      rw [hsplit]
      simp
    obtain ⟨other, htarget, heq⟩ := mem_map.mp hmem
    cases heq
    obtain ⟨hdenied, hno, -⟩ := mem_unreadableAncestors.mp (mem_sortByDepth.mp htarget)
    obtain ⟨root, hroot, hle⟩ := hall target hdenied hlt
    exact hno root hroot hle

/-- **When the folder that a `.git` file points to is open.** -/
theorem open_iff_notHidden (hmasks : p.MasksLead) (hbefore : before ⊆ p.roots) :
    Open p.dirs (p.layersBefore before) gitdir ↔ p.NotHidden before gitdir := by
  -- what the layers of one root do
  have hhides : ∀ root ∈ before, (∃ denied ∈ p.denied, root.root ≤ denied ∧ denied < gitdir) →
      lastSome (Layer.effect p.dirs gitdir) (p.block root) = some false := by
    rintro root hroot ⟨denied, hdenied, hle, hlt⟩
    exact effect_eq_false_of_denied hroots hdenied hle hlt fun inner hinner =>
      hmasks root.root (mem_map_of_mem (hbefore hroot)) denied hdenied inner hinner hle
  have htrue : ∀ root ∈ before, p.Touches root.root gitdir →
      (∀ denied ∈ p.denied, root.root ≤ denied → ¬ denied < gitdir) →
        lastSome (Layer.effect p.dirs gitdir) (p.block root) = some true :=
    fun root hroot => effect_eq_true_of_touches (hbefore hroot)
  have hnone : ∀ root ∈ before, lastSome (Layer.effect p.dirs gitdir) (p.block root) = none ↔
      ¬ p.Touches root.root gitdir := by
    refine fun root hroot => ⟨fun hblock htouches => ?_,
      effect_eq_none_of_not_touches (hbefore hroot) hroots⟩
    by_cases hdenied : ∃ denied ∈ p.denied, root.root ≤ denied ∧ denied < gitdir
    · cases (hhides root hroot hdenied).symm.trans hblock
    · push Not at hdenied
      cases (htrue root hroot htouches hdenied).symm.trans hblock
  unfold Open
  rw [lastSome_append, lastSome_flatMap]
  constructor
  · intro hopen
    cases hlast : lastSome (fun root => lastSome (Layer.effect p.dirs gitdir) (p.block root))
        before with
    | none =>
      rw [hlast] at hopen
      refine .inr ⟨fun root hroot => (hnone root hroot).mp ?_,
        (open_ancestors_iff hwithin hroots).mp hopen⟩
      exact lastSome_eq_none_iff.mp hlast root hroot
    | some usable =>
      rw [hlast] at hopen
      obtain ⟨earlier, root, later, rfl, hroot, hlater⟩ := exists_of_lastSome hlast
      refine .inl ⟨earlier, root, later, rfl, ?_, fun other hother => ?_, ?_⟩
      · by_contra htouches
        cases ((hnone root (by simp)).mpr htouches).symm.trans hroot
      · exact (hnone other (by simp [hother])).mp (hlater other hother)
      · intro denied hdenied hle hlt
        cases (hhides root (by simp) ⟨denied, hdenied, hle, hlt⟩).symm.trans hroot
        exact hopen rfl
  · rintro (⟨earlier, root, later, rfl, htouches, hlater, hdenied⟩ | ⟨huntouched, hdenied⟩)
    · have hlast := lastSome_eq_none_iff.mpr fun other hother =>
        (hnone other (by simp [hother])).mpr (hlater other hother)
      rw [lastSome_append, lastSome_cons, hlast, htrue root (by simp) htouches hdenied]
      simp
    · have hlast := lastSome_eq_none_iff.mpr fun root hroot =>
        (hnone root hroot).mpr (huntouched root hroot)
      rw [hlast]
      exact (open_ancestors_iff hwithin hroots).mpr hdenied

end Hidden

/-! ### Masks away from all roots -/

/-- The layers of roots do nothing to a path away from all roots. -/
theorem effect_eq_none_of_rootless {writable : WritableRoot} (hroot : writable ∈ p.roots)
    {path : AbsolutePathBuf} (hrootless : ∀ root ∈ p.dirs, ¬ root ≤ path ∧ ¬ path ≤ root)
    {layer : Layer} (hlayer : layer ∈ p.block writable) : layer.effect p.dirs path = none := by
  obtain ⟨hle, hge⟩ := hrootless _ (mem_map_of_mem hroot)
  refine effect_rootLayers_eq_none hroot hle hge (fun subpath _ hwithin => ?_) hlayer
  obtain ⟨root, hmemRoot, hbelow⟩ := isWithin_iff.mp hwithin
  exact incomparable_of_le hbelow (hrootless root hmemRoot).1 (hrootless root hmemRoot).2

variable (p)

/-- **Masks behind all roots** need that no other denied path lies above them. -/
theorem stepwise_rootless_iff : Stepwise p.Ready (p.layersBefore (sortWritableRoots p.roots))
        ((sortByDepth (rootlessUnreadable p.context)).map .mask) ↔
      ∀ outer ∈ p.denied, ∀ inner ∈ p.denied,
        (∀ root ∈ p.dirs, ¬ root ≤ inner ∧ ¬ inner ≤ root) → ¬ outer < inner := by
  rw [stepwise_masks_iff (regular_layersBefore fun _ h => mem_sortWritableRoots.mp h)
    fun path hpath => (mem_rootlessUnreadable.mp hpath).1]
  constructor
  · intro hall outer houter inner hinner hrootless hlt
    have hroots : ∀ root ∈ p.dirs, ¬ inner ≤ root := fun root hroot => (hrootless root hroot).2
    obtain ⟨hopen, hnone⟩ := (hall inner (mem_rootlessUnreadable.mpr ⟨hinner, hrootless⟩)).resolve_left
      fun ⟨root, hroot, hle⟩ => hroots root hroot hle
    have hno : ∀ root ∈ p.dirs, ¬ root ≤ outer := fun root hroot hle =>
      (hrootless root hroot).1 (hle.trans hlt.le)
    by_cases hbelow : p.Leads outer
    · -- the outer path is masked before all roots, and nothing uncovers the inner one
      have houterMem := mem_unreadableAncestors.mpr ⟨houter, hno, hbelow⟩
      refine not_open_of_mem [] (mem_append_left _
        (mem_map_of_mem (mem_sortByDepth.mpr houterMem))) hlt hroots
          (fun layer hlayer heffect => ?_) hopen
      rcases mem_append.mp hlayer with hlayer | hlayer
      · exact effect_ancestors_ne_true hroots hlayer heffect
      · obtain ⟨writable, hroot, hlayer⟩ := mem_flatMap.mp hlayer
        rw [effect_eq_none_of_rootless (mem_sortWritableRoots.mp hroot) hrootless hlayer] at heffect
        cases heffect
    · push Not at hbelow
      exact hnone outer (mem_rootlessUnreadable.mpr
        ⟨houter, fun root hroot => ⟨hno root hroot, hbelow root hroot⟩⟩) hlt
  · intro hall inner hinner
    obtain ⟨hdenied, hrootless⟩ := mem_rootlessUnreadable.mp hinner
    refine .inr ⟨?_, fun outer houter =>
      hall outer (mem_rootlessUnreadable.mp houter).1 inner hdenied hrootless⟩
    by_contra hclosed
    obtain ⟨before, target, after, hsplit, hlt, -⟩ := exists_mask_of_not_open hclosed
    have hmem : .mask target ∈ p.layersBefore (sortWritableRoots p.roots) := by
      rw [hsplit]
      simp
    exact hall target (mem_denied_of_mask_mem hmem) inner hdenied hrootless hlt

/-! ### The whole list -/

/-- The masks above writable roots come first, and can always be mounted. -/
theorem stepwise_ancestors : Stepwise p.Ready [] p.ancestors := by
  rw [stepwise_masks_iff (forall_mem_nil _) fun path hpath => (mem_unreadableAncestors.mp hpath).1]
  exact fun inner hinner => .inl (mem_unreadableAncestors.mp hinner).2.2

/-- What the layers of all roots need, each after the roots in front of it. -/
theorem stepwise_roots_iff :
    Stepwise p.Ready p.ancestors ((sortWritableRoots p.roots).flatMap p.block) ↔
      p.MasksLead ∧
      (∀ before writable after, sortWritableRoots p.roots = before ++ writable :: after →
        ∀ gitdir, p.Gitdir writable.root gitdir →
          transientEmptyMetadataPath p.host gitdir ≠ some .emptyFile →
            p.Leads gitdir ∨ writable.root ≤ gitdir ∨ p.NotHidden before gitdir) ∧
      ∀ root ∈ p.dirs, MetadataThere p.policy p.host p.cwd root := by
  have hblock : ∀ before writable after, sortWritableRoots p.roots = before ++ writable :: after →
      writable ∈ p.roots ∧ before ⊆ p.roots := by
    refine fun before writable after hsplit => ⟨mem_of_split hsplit
      mem_cons_self, fun root hroot => mem_sortWritableRoots.mp ?_⟩
    rw [hsplit]
    exact mem_append_left _ hroot
  -- each root stands somewhere in the sorted list
  have hplace : ∀ root ∈ p.dirs, ∃ before writable after,
      sortWritableRoots p.roots = before ++ writable :: after ∧ writable.root = root := by
    intro root hroot
    obtain ⟨writable, hmem, hrootEq⟩ := mem_map.mp hroot
    obtain ⟨before, after, hsplit⟩ := append_of_mem (mem_sortWritableRoots.mpr hmem)
    exact ⟨before, writable, after, hsplit, hrootEq⟩
  -- the folder of a `.git` file that is not above a root is open just when it is not hidden
  have hopen : p.MasksLead → ∀ before ⊆ p.roots, ∀ root gitdir, p.Gitdir root gitdir →
      (p.Leads gitdir ∨ root ≤ gitdir ∨ Open p.dirs (p.layersBefore before) gitdir ↔
        p.Leads gitdir ∨ root ≤ gitdir ∨ p.NotHidden before gitdir) := by
    intro hmasks before hbefore root gitdir hgitdir
    by_cases hroots : p.Leads gitdir
    · simp [hroots]
    · push Not at hroots
      rw [open_iff_notHidden hgitdir.2.2 hroots hmasks hbefore]
  rw [stepwise_flatMap]
  constructor
  · intro hall
    have hneeds := fun before writable after hsplit =>
      (stepwise_rootLayers_iff (hblock before writable after hsplit).1
        (regular_layersBefore (hblock before writable after hsplit).2)).mp
          (hall before writable after hsplit)
    have hmasks : p.MasksLead := by
      intro root hroot
      obtain ⟨before, writable, after, hsplit, rfl⟩ := hplace root hroot
      exact (hneeds before writable after hsplit).2
    refine ⟨hmasks, fun before writable after hsplit gitdir hgitdir hfile => ?_,
      fun root hroot => ?_⟩
    · obtain ⟨-, hbefore⟩ := hblock before writable after hsplit
      exact (hopen hmasks before hbefore writable.root gitdir hgitdir).mp
        ((hneeds before writable after hsplit).1.1 gitdir hgitdir hfile)
    · obtain ⟨before, writable, after, hsplit, rfl⟩ := hplace root hroot
      exact (hneeds before writable after hsplit).1.2
  · rintro ⟨hmasks, hgitdirs, hmetadata⟩ before writable after hsplit
    obtain ⟨hroot, hbefore⟩ := hblock before writable after hsplit
    have hmem : writable.root ∈ p.dirs := mem_map_of_mem hroot
    rw [stepwise_rootLayers_iff hroot (regular_layersBefore hbefore)]
    refine ⟨⟨fun gitdir hgitdir hfile => ?_, hmetadata _ hmem⟩, hmasks _ hmem⟩
    exact (hopen hmasks before hbefore writable.root gitdir hgitdir).mpr
      (hgitdirs before writable after hsplit gitdir hgitdir hfile)

end FolderPolicy

/-- **When the sandbox starts**: the mounts for a policy of folders can be run just when their
    targets are open. -/
theorem runnable_iff {policy : FileSystemSandboxPolicy} {host : LinuxHost} {cwd : AbsolutePathBuf}
    (hplain : host.Plain) (hkind : policy.kind = .restricted) (hentries : policy.DirEntries host)
    {globScanMaxDepth : Option Nat} {result : BwrapArgs}
    (h : createFilesystemArgs policy host cwd globScanMaxDepth = .ok result) :
    Runnable host result.args ↔ TargetsOpen policy host cwd := by
  let p : FolderPolicy :=
    ⟨⟨policy, host, cwd, hplain, hkind, hentries.noGlobs, hentries.noMinimal⟩, hentries⟩
  have hlayers : Runnable host result.args ↔ Stepwise p.Ready [] p.layers := by
    rw [Runnable, createFilesystemArgs_layers hplain
      (hentries.noGlobs.getUnreadableGlobs_eq_nil host.toHost cwd) h, stepwise_append,
      and_iff_right p.stepwise_base, stepwise_flatMap]
    rfl
  rw [hlayers, layers, policyLayers, stepwise_append, stepwise_append, nil_append,
    and_iff_right p.stepwise_ancestors, p.stepwise_roots_iff, p.stepwise_rootless_iff]
  constructor
  · rintro ⟨⟨hroots, hgitdirs, hmetadata⟩, hrootless⟩
    refine ⟨fun outer houter inner hinner hlt => ?_, hgitdirs, hmetadata⟩
    by_cases hinnerRoot : ∃ root ∈ writableDirs policy host cwd, inner ≤ root
    · exact .inl hinnerRoot
    by_cases houterRoot : ∃ root ∈ writableDirs policy host cwd, root ≤ outer
    · obtain ⟨root, hroot, hle⟩ := houterRoot
      exact .inl (hroots root hroot outer houter inner hinner hle hlt)
    push Not at hinnerRoot houterRoot
    refine .inr ⟨?_, houterRoot⟩
    by_contra hnone
    push Not at hnone
    exact hrootless outer houter inner hinner
      (fun root hroot => ⟨hnone root hroot, hinnerRoot root hroot⟩) hlt
  · rintro ⟨hmasks, hgitdirs, hmetadata⟩
    refine ⟨⟨fun root hroot outer houter inner hinner hle hlt => ?_, hgitdirs, hmetadata⟩,
      fun outer houter inner hinner hrootless hlt => ?_⟩
    · rcases hmasks outer houter inner hinner hlt with hroot' | ⟨-, hnone⟩
      · exact hroot'
      · exact absurd hle (hnone root hroot)
    · rcases hmasks outer houter inner hinner hlt with ⟨root, hroot, hle⟩ | ⟨⟨root, hroot, hle⟩, -⟩
      · exact (hrootless root hroot).2 hle
      · exact (hrootless root hroot).1 hle

/-! ### Nested masks -/

/-- Three nested folders. -/
def nestedHost : LinuxHost :=
  treeHost (["/", "/a", "/a/b"].map fun path => absolutePath path.toList) []

theorem nestedHost_plain : nestedHost.Plain := treeHost_plain (by decide) (by decide) (by decide)

/-- No folder there has a `.git` file. -/
theorem not_gitdirOf_nestedHost {root gitdir : AbsolutePathBuf} :
    ¬ nestedHost.PointsToGitdir root gitdir := by
  rintro ⟨hfile, -⟩
  simp [nestedHost, treeHost] at hfile

theorem dirEntries_pathEntries {host : LinuxHost} {entries : List (String × FileSystemAccessMode)}
    (h : ∀ entry ∈ entries, host.isDir (absolutePath entry.1.toList)) :
    (pathEntries entries).DirEntries host := by
  intro entry hentry
  obtain ⟨source, hmem, rfl⟩ := mem_map.mp hentry
  exact ⟨_, rfl, h source hmem⟩

/-- A denied folder in a writable one. -/
theorem runnable_denied_in_root : ∃ result,
    createFilesystemArgs (pathEntries [("/a", .write), ("/a/b", .deny)]) nestedHost
      (absolutePath "/a") none = .ok result ∧ Runnable nestedHost result.args := by
  have hdenied : ∀ outer ∈ deniedDirs (pathEntries [("/a", .write), ("/a/b", .deny)]) nestedHost
      (absolutePath "/a"), outer = absolutePath "/a/b" := by decide
  refine ⟨_, rfl, (runnable_iff nestedHost_plain rfl (dirEntries_pathEntries (by decide))
    (show createFilesystemArgs (pathEntries [("/a", .write), ("/a/b", .deny)]) nestedHost
      (absolutePath "/a") none = .ok _ from rfl)).mpr ?_⟩
  refine ⟨fun outer houter inner hinner hlt => ?_,
    fun _ _ _ _ gitdir hgitdir => absurd hgitdir.1 not_gitdirOf_nestedHost,
    fun _ _ gitdir _ hgitdir => absurd hgitdir.1 not_gitdirOf_nestedHost⟩
  rw [hdenied outer houter, hdenied inner hinner] at hlt
  exact absurd hlt (lt_irrefl _)

/-- A denied folder in a denied one: its mask is mounted where the outer mask is frozen. -/
theorem not_runnable_nested_denied : nestedHost.Plain ∧
    (pathEntries [("/", .read), ("/a", .deny), ("/a/b", .deny)]).DirEntries nestedHost ∧
    ∃ result, createFilesystemArgs (pathEntries [("/", .read), ("/a", .deny), ("/a/b", .deny)])
      nestedHost (absolutePath "/") none = .ok result ∧ ¬ Runnable nestedHost result.args := by
  refine ⟨nestedHost_plain, dirEntries_pathEntries (by decide), _, rfl, fun hrun => ?_⟩
  have husable := hrun [.roBind rootPath rootPath, .dev devPath, .perms "000",
    .tmpfs (absolutePath "/a"), .remountRo (absolutePath "/a"), .perms "000"]
    (.tmpfs (absolutePath "/a/b")) [.remountRo (absolutePath "/a/b")] rfl _ rfl
  rcases husable with hpresent | hwritable
  · exact absurd hpresent (by decide)
  · exact absurd hwritable (by decide)

end Codex.Sandbox
