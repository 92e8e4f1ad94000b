import Codex.Data.Stepwise
import Codex.Sandbox.PolicyContext

namespace Codex.Sandbox

open Text Data BwrapOp Layer Spot
open List hiding replace

/-!
# Running mounts

Bubblewrap creates the target of a mount if it is missing, which it cannot do in a mount that is
read-only.

* `Usable`, `Runnable` — a target that is there or can be created; mounts all of whose targets are
  so when it is their turn;
* `usable_mask_of_lt`, `usable_readOnlyOps` — what each layer does to the paths of the host;
* `Layer.effect`, `usable_layers_iff` — of the layers that a path is above or below, the last one
  tells whether it is usable;
* `stepwise_mask` — what a mask needs.
-/

/-- The target that has to be there, or is created. -/
def BwrapOp.mountTarget : BwrapOp → Option AbsolutePathBuf
  | .bind _ target | .roBind _ target | .tmpfs target | .dir target => some target
  | .roBindData _ | .dev _ | .remountRo _ | .perms _ => none

variable (host : LinuxHost)

variable (ops : List BwrapOp)

/-- A path is there, or is missing in a mount that is not read-only. -/
def Usable (target : AbsolutePathBuf) : Prop :=
  (viewAt host ops target).present ∨ (viewAt host ops target).readOnly = false

/-- After some mounts, the target of another one is usable. -/
def Startable (op : BwrapOp) : Prop :=
  ∀ target, op.mountTarget = some target → Usable host ops target

/-- **Mounts that can be run**: each one after those in front of it. -/
def Runnable : Prop := Stepwise (Startable host) [] ops

/-! ### Single mounts -/

variable {host : LinuxHost} {ops : List BwrapOp} {path target : AbsolutePathBuf}

theorem mount_viewAt_le (h : (viewAt host ops path).mount = some target) : target ≤ path := by
  induction ops using reverseRecOn with
  | nil => cases h
  | append_singleton ops op ih =>
    rw [viewAt_concat] at h
    have hreplace : ∀ {other : AbsolutePathBuf} {new : Spot},
        ((viewAt host ops path).replace path other new).mount = some target →
          (new.mount = some other) → target ≤ path := by
      intro other new hmount hnew
      unfold replace at hmount
      split at hmount
      · rw [hnew] at hmount
        cases hmount
        assumption
      · split at hmount
        · exact ih hmount
        · exact ih hmount
    cases op with
    | bind source other | roBind source other | roBindData other | tmpfs other | dev other =>
      exact hreplace h rfl
    | dir other | remountRo other =>
      simp only [act] at h
      split at h
      · exact ih h
      · exact ih h
    | perms mode => exact ih h

/-- A mount of the host at or above an existing path shows the path, and one below it needs the
    path. -/
theorem usable_concat_bind (hexists : host.pathExists path) {op : BwrapOp}
    (hop : op = .bind target target ∨ op = .roBind target target) :
    Usable host (ops ++ [op]) path ↔
      (target ≤ path ∨ path ≤ target) ∨ Usable host ops path := by
  unfold Usable
  rw [viewAt_concat]
  rcases hop with rfl | rfl <;> by_cases hle : target ≤ path
  case neg => by_cases hge : path ≤ target <;> simp [act, replace, hle, hge]
  case neg => by_cases hge : path ≤ target <;> simp [act, replace, hle, hge]
  all_goals simp [act, replace, hle, hexists]

theorem usable_concat_dir :
    Usable host (ops ++ [.dir target]) path ↔ path ≤ target ∨ Usable host ops path := by
  unfold Usable
  rw [viewAt_concat]
  by_cases hge : path ≤ target <;> simp [act, hge]

/-- Folders only make the paths above them present. -/
theorem viewAt_dirs (targets : List AbsolutePathBuf) :
    viewAt host (ops ++ targets.map .dir) path =
      { viewAt host ops path with
        present := (viewAt host ops path).present || targets.any (path ≤ ·) } := by
  induction targets using reverseRecOn with
  | nil => simp
  | append_singleton targets other ih =>
    rw [map_append, ← append_assoc, map_singleton, viewAt_concat, ih]
    by_cases hge : path ≤ other <;> simp [act, hge]

/-- A folder that is mounted and the paths above it are there. -/
theorem present_replace (hle : path ≤ target) :
    (viewAt host (ops ++ [.tmpfs target]) path).present := by
  rw [viewAt_concat, act, replace]
  by_cases hge : target ≤ path
  · simpa [hge] using le_antisymm hle hge
  · simp [hge, hle]

/-! ### Masks -/

theorem pairwise_ancestors (path : AbsolutePathBuf) :
    (ancestors path).Pairwise fun ancestor other => other < ancestor := by
  have hinits : ∀ names : List NormalName,
      names.inits.Pairwise fun names names' => names <+: names' ∧ names ≠ names' := by
    intro names
    induction names with
    | nil => simp
    | cons name names ih =>
      rw [inits_cons, pairwise_cons, pairwise_map]
      refine ⟨?_, ih.imp fun ⟨hle, hne⟩ => ⟨cons_prefix_cons.mpr ⟨rfl, hle⟩, by simpa using hne⟩⟩
      intro other hother
      obtain ⟨rest, -, rfl⟩ := mem_map.mp hother
      exact ⟨ nil_prefix, (cons_ne_nil _ _).symm⟩
  unfold ancestors
  rw [pairwise_map, pairwise_reverse]
  refine (hinits path.names).imp fun ⟨hle, hne⟩ => lt_of_le_of_ne hle fun h => hne ?_
  exact congrArg AbsolutePathBuf.names h

/-- The folders on the way from an anchor to a folder below it. -/
theorem mem_dirTargets {mountTarget anchor : AbsolutePathBuf} (hdir : host.isDir mountTarget)
    (hanchor : anchor ≤ mountTarget) :
    target ∈ dirTargets host mountTarget anchor ↔ anchor < target ∧ target ≤ mountTarget := by
  simp only [dirTargets, hdir, if_true, mem_reverse]
  obtain ⟨after, hsplit⟩ :=
    FileSystemSandboxPolicy.exists_eq_takeWhile_append (mem_ancestors.mpr hanchor)
  have hsorted := pairwise_ancestors mountTarget
  rw [hsplit] at hsorted
  obtain ⟨-, hafter, hbefore⟩ := pairwise_append.mp hsorted
  constructor
  · intro h
    exact ⟨hbefore _ h _ mem_cons_self, mem_ancestors.mp (takeWhile_subset _ h)⟩
  · rintro ⟨hlt, hle⟩
    have h := mem_ancestors.mpr hle
    rw [hsplit] at h
    rcases mem_append.mp h with h | h
    · exact h
    rcases mem_cons.mp h with rfl | h
    · exact absurd hlt (lt_irrefl _)
    · exact absurd hlt (lt_asymm ((pairwise_cons.mp hafter).1 _ h))

/-- The folders that a mask makes. -/
def maskDirs (host : LinuxHost) (allowed : List AbsolutePathBuf)
    (target : AbsolutePathBuf) : List AbsolutePathBuf :=
  (sortByDepth (allowed.filter (target < ·))).flatMap (dirTargets host · target)

theorem existingMaskOps_eq (allowed : List AbsolutePathBuf) (hdir : host.isDir target) :
    ∃ mode, existingMaskOps host allowed target =
      [.perms mode, .tmpfs target] ++
        ((maskDirs host allowed target).map .dir ++ [.remountRo target]) := by
  unfold existingMaskOps maskDirs
  simp only [hdir, map_flatMap]
  exact ⟨_, rfl⟩

section Masks

variable {allowed : List AbsolutePathBuf}
  (hdirs : ∀ root ∈ allowed, host.isDir root)

include hdirs in
theorem mem_maskDirs {dir : AbsolutePathBuf} :
    dir ∈ maskDirs host allowed target ↔
      target < dir ∧ ∃ root ∈ allowed, dir ≤ root := by
  simp only [maskDirs, mem_flatMap, mem_sortByDepth, mem_filter, decide_eq_true_eq]
  constructor
  · rintro ⟨root, ⟨hroot, hlt⟩, hdir⟩
    obtain ⟨hltDir, hle⟩ := (mem_dirTargets (hdirs root hroot) hlt.le).mp hdir
    exact ⟨hltDir, root, hroot, hle⟩
  · rintro ⟨hlt, root, hroot, hle⟩
    exact ⟨root, ⟨hroot, hlt.trans_le hle⟩,
      (mem_dirTargets (hdirs root hroot) (hlt.trans_le hle).le).mpr ⟨hlt, hle⟩⟩

section

variable (hdir : host.isDir target)
include hdir

/-- A location behind a mask. -/
theorem viewAt_mask :
    viewAt host (ops ++ existingMaskOps host allowed target) path = (remountRo target).act host path
        { viewAt host (ops ++ [.tmpfs target]) path with
          present := (viewAt host (ops ++ [.tmpfs target]) path).present ||
            (maskDirs host allowed target).any (path ≤ ·) } := by
  obtain ⟨mode, heq⟩ := existingMaskOps_eq allowed hdir
  have hassoc : ops ++ existingMaskOps host allowed target =
      ops ++ [.perms mode] ++ [.tmpfs target] ++
        (maskDirs host allowed target).map .dir ++ [.remountRo target] := by
    rw [heq]
    simp
  rw [hassoc, viewAt_concat, viewAt_dirs, viewAt_concat, viewAt_concat, viewAt_concat]
  rfl

/-- A mask and the paths above it are there. -/
theorem usable_mask_of_le (hle : path ≤ target) :
    Usable host (ops ++ existingMaskOps host allowed target) path := by
  refine .inl ?_
  rw [viewAt_mask hdir]
  simp only [act, present_replace hle]
  split <;> rfl

include hdirs in
/-- **What a mask hides is usable only on the way to a writable root.** -/
theorem usable_mask_of_lt (hlt : target < path) :
    Usable host (ops ++ existingMaskOps host allowed target) path ↔
      ∃ root ∈ allowed, path ≤ root := by
  have hreplace : viewAt host (ops ++ [.tmpfs target]) path = ⟨some target, none, false, false⟩ := by
    simp [viewAt_concat, act, replace, hlt.le, hlt.ne']
  rw [Usable, viewAt_mask hdir, hreplace]
  simp only [act, if_true, Bool.false_or, any_eq_true, decide_eq_true_eq,
    Bool.true_eq_false, or_false, mem_maskDirs hdirs]
  constructor
  · rintro ⟨dir, ⟨-, root, hroot, hdirLe⟩, hle⟩
    exact ⟨root, hroot, hle.trans hdirLe⟩
  · rintro ⟨root, hroot, hle⟩
    exact ⟨path, ⟨hlt, root, hroot, hle⟩, le_rfl⟩

include hdirs in
/-- A mask does nothing to other paths. -/
theorem usable_mask_of_not_le (hle : ¬ path ≤ target) (hge : ¬ target ≤ path) :
    Usable host (ops ++ existingMaskOps host allowed target) path ↔
      Usable host ops path := by
  have hreplace : viewAt host (ops ++ [.tmpfs target]) path = viewAt host ops path := by
    simp [viewAt_concat, act, replace, hle, hge]
  have hany : (maskDirs host allowed target).any (path ≤ ·) = false := by
    rw [any_eq_false]
    intro dir hmem hpath
    rcases AbsolutePathBuf.le_or_le_of_le (by simpa using hpath) ((mem_maskDirs hdirs).mp hmem).1.le
      with h | h
    · exact hle h
    · exact hge h
  have hmount : (viewAt host ops path).mount ≠ some target := fun h => hge (mount_viewAt_le h)
  rw [Usable, viewAt_mask hdir, hreplace, hany, Bool.or_false]
  simp only [act, if_neg hmount]
  rfl

end

end Masks

/-! ### Read-only paths -/

/-- A location behind an empty folder. -/
theorem viewAt_emptyDirectory :
    viewAt host (ops ++ emptyDirectoryOps target) path =
      (remountRo target).act host path (viewAt host (ops ++ [.tmpfs target]) path) := by
  have hassoc : ops ++ emptyDirectoryOps target =
      ops ++ [.perms "555".toList] ++ [.tmpfs target] ++ [.remountRo target] := by
    simp [emptyDirectoryOps]
  rw [hassoc, viewAt_concat, viewAt_concat, viewAt_concat, viewAt_concat]
  rfl

/-- Something empty at a path that nothing else lies in. -/
theorem usable_emptyDirectory (halone : target ≤ path → path = target) :
    Usable host (ops ++ emptyDirectoryOps target) path ↔
      (target ≤ path ∨ path ≤ target) ∨ Usable host ops path := by
  rw [Usable, viewAt_emptyDirectory]
  by_cases hle : path ≤ target
  · simp only [hle, or_true, true_or, iff_true, act]
    split <;> exact .inl (present_replace hle)
  · have hge : ¬ target ≤ path := fun hge => hle (halone hge).le
    have hmount : (viewAt host ops path).mount ≠ some target := fun h => hge (mount_viewAt_le h)
    simp [viewAt_concat, replace, hle, hge, act, hmount, Usable]

theorem usable_concat_roBindData (halone : target ≤ path → path = target) :
    Usable host (ops ++ [.roBindData target]) path ↔
      (target ≤ path ∨ path ≤ target) ∨ Usable host ops path := by
  unfold Usable
  rw [viewAt_concat]
  by_cases hge : target ≤ path
  · simp [act, replace, halone hge]
  · by_cases hle : path ≤ target <;> simp [act, replace, hle, hge]

section ReadOnly

variable (hplain : host.Plain) {allowed : List AbsolutePathBuf}
  (hwithin : isWithinAllowedWritePaths target allowed)
  (htarget : host.pathExists target ∨ missingTarget host allowed target = some target)
include hplain hwithin htarget

/-- What is mounted for a read-only path: itself, or something empty that nothing lies in. -/
theorem readOnlyOps_cases :
    readOnlyOps host allowed target = [.roBind target target] ∨
    (readOnlyOps host allowed target = [.roBindData target] ∨
      readOnlyOps host allowed target = emptyDirectoryOps target) ∧
      ∀ path, target ≤ path → host.pathExists path → path = target := by
  cases hkind : transientEmptyMetadataPath host target with
  | some kind =>
    have halone : ∀ path, target ≤ path → host.pathExists path → path = target :=
      fun path hle hexists => eq_of_transient hplain (by simp [hkind]) hle hexists
    refine .inr ⟨?_, halone⟩
    cases kind with
    | emptyFile => exact .inl (by simp [readOnlyOps, hwithin, hkind])
    | emptyDirectory => exact .inr (by simp [readOnlyOps, hwithin, hkind])
  | none =>
    cases hexists : host.pathExists target with
    | true => exact .inl (by simp [readOnlyOps, hwithin, hkind, hexists])
    | false =>
      have hmissing := htarget.resolve_left (by simp [hexists])
      refine .inr ⟨?_, fun path hle hpath => ?_⟩
      · simp only [readOnlyOps, hwithin, hkind, hexists, if_true, Bool.false_eq_true, if_false,
          missingReadOnlyOps, hmissing]
        split
        · exact .inr rfl
        · exact .inl rfl
      · rw [hplain.pathExists_of_le hle hpath] at hexists
        cases hexists

/-- **A read-only path makes the paths above and below it usable.** -/
theorem usable_readOnlyOps (hexists : host.pathExists path) :
    Usable host (ops ++ readOnlyOps host allowed target) path ↔
      (target ≤ path ∨ path ≤ target) ∨ Usable host ops path := by
  rcases readOnlyOps_cases hplain hwithin htarget with heq | ⟨heq | heq, halone⟩
  · rw [heq]
    exact usable_concat_bind hexists (.inr rfl)
  · rw [heq]
    exact usable_concat_roBindData fun hle => halone path hle hexists
  · rw [heq]
    exact usable_emptyDirectory fun hle => halone path hle hexists

/-- A read-only path does nothing to paths that are neither above nor below it. -/
theorem viewAt_readOnlyOps_of_not_le (hge : ¬ target ≤ path) (hle : ¬ path ≤ target) :
    viewAt host (ops ++ readOnlyOps host allowed target) path = viewAt host ops path := by
  have hmount : (viewAt host ops path).mount ≠ some target := fun h => hge (mount_viewAt_le h)
  rcases readOnlyOps_cases hplain hwithin htarget with heq | ⟨heq | heq, -⟩
  · rw [heq, viewAt_concat]
    simp [act, replace, hge, hle]
  · rw [heq, viewAt_concat]
    simp [act, replace, hge, hle]
  · rw [heq, viewAt_emptyDirectory]
    simp [viewAt_concat, act, replace, hge, hle, hmount]

/-- Read-only paths that are not above a path leave it usable. -/
theorem usable_readOnlyOps_of_not_lt (hlt : ¬ target < path) (h : Usable host ops path) :
    Usable host (ops ++ readOnlyOps host allowed target) path := by
  by_cases hle : path ≤ target
  · -- the path is the target, or a folder on the way to it
    rcases readOnlyOps_cases hplain hwithin htarget with heq | ⟨heq | heq, -⟩
    · rw [heq, Usable, viewAt_concat]
      by_cases hge : target ≤ path
      · simp [act, replace, le_antisymm hle hge]
      · simp [act, replace, hge, hle]
    · rw [heq]
      exact (usable_concat_roBindData fun hge => le_antisymm hle hge).mpr (.inl (.inr hle))
    · rw [heq]
      exact (usable_emptyDirectory fun hge => le_antisymm hle hge).mpr (.inl (.inr hle))
  · have hge : ¬ target ≤ path := fun hge => hlt (lt_of_le_not_ge hge hle)
    rw [Usable, viewAt_readOnlyOps_of_not_le hplain hwithin htarget hge hle]
    exact h

end ReadOnly

/-! ### Layers -/

/-- What a layer does to a path of the host, if anything: it is usable afterwards, or hidden. -/
def Layer.effect (allowed : List AbsolutePathBuf) (path : AbsolutePathBuf) : Layer → Option Bool
  | .dir target => if path ≤ target then some true else none
  | .root target => if target ≤ path ∨ path ≤ target then some true else none
  | .readOnly target =>
    if isWithinAllowedWritePaths target allowed ∧ (target ≤ path ∨ path ≤ target)
      then some true else none
  | .mask target =>
    if path ≤ target then some true
    else if target ≤ path then some (allowed.any (path ≤ ·)) else none

/-- Masks are over folders, and read-only paths are there or have only themselves missing. -/
def Layer.Regular (host : LinuxHost) (allowed : List AbsolutePathBuf) : Layer → Prop
  | .dir _ | .root _ => True
  | .readOnly target => host.pathExists target ∨
      isWithinAllowedWritePaths target allowed ∧ missingTarget host allowed target = some target
  | .mask target => host.isDir target

section Layers

variable (hplain : host.Plain) {allowed : List AbsolutePathBuf}
  (hdirs : ∀ root ∈ allowed, host.isDir root)
include hplain hdirs

theorem usable_layer (hexists : host.pathExists path) {layer : Layer}
    (hregular : layer.Regular host allowed) :
    Usable host (ops ++ layer.ops host allowed) path ↔
      layer.effect allowed path = some true ∨
        layer.effect allowed path = none ∧ Usable host ops path := by
  cases layer with
  | dir target =>
    rw [Layer.ops, usable_concat_dir]
    by_cases hle : path ≤ target <;> simp [effect, hle]
  | root target =>
    rw [Layer.ops, usable_concat_bind hexists (.inl rfl)]
    by_cases hcomparable : target ≤ path ∨ path ≤ target <;> simp [effect, hcomparable]
  | readOnly target =>
    rw [Layer.ops]
    cases hwithin : isWithinAllowedWritePaths target allowed with
    | true =>
      rw [usable_readOnlyOps hplain hwithin (hregular.imp id And.right) hexists]
      by_cases hcomparable : target ≤ path ∨ path ≤ target <;>
        simp [effect, hwithin, hcomparable]
    | false =>
      have hthere : host.pathExists target := hregular.resolve_right (by simp [hwithin])
      simp [readOnlyOps, effect, hwithin, hthere]
  | mask target =>
    have hdir : host.isDir target := hregular
    rw [Layer.ops, if_pos (hplain.pathExists_of_isDir hdir)]
    by_cases hle : path ≤ target
    · simp [effect, hle, usable_mask_of_le hdir hle]
    by_cases hge : target ≤ path
    · rw [usable_mask_of_lt hdirs hdir (lt_of_le_not_ge hge hle)]
      simp [effect, hle, hge]
    · rw [usable_mask_of_not_le hdirs hdir hle hge]
      simp [effect, hle, hge]

/-- **The last layer that a path is above or below tells whether the path is usable.** -/
theorem usable_layers_iff (hexists : host.pathExists path) {layers : List Layer}
    (hregular : ∀ layer ∈ layers, layer.Regular host allowed) (hops : Usable host ops path) :
    Usable host (ops ++ layers.flatMap (Layer.ops host allowed)) path ↔
      lastSome (effect allowed path) layers ≠ some false := by
  induction layers using reverseRecOn with
  | nil => simpa using hops
  | append_singleton layers layer ih =>
    have ih := ih fun other hother => hregular other (mem_append_left _ hother)
    rw [flatMap_append, ← append_assoc, flatMap_singleton,
      usable_layer hplain hdirs hexists (hregular layer (by simp)), ih, lastSome_concat]
    cases layer.effect allowed path with
    | none => simp
    | some usable => cases usable <;> simp

end Layers

/-! ### What layers need -/

theorem usable_concat_perms {mode : Text} :
    Usable host (ops ++ [.perms mode]) path ↔ Usable host ops path := by
  rw [Usable, viewAt_concat]
  rfl

theorem stepwise_emptyDirectory :
    Stepwise (Startable host) ops (emptyDirectoryOps target) ↔ Usable host ops target := by
  rw [emptyDirectoryOps, stepwise_cons, stepwise_cons, stepwise_cons]
  simp [Startable, mountTarget, usable_concat_perms]

/-- In a folder that was just mounted, folders can be made. -/
theorem stepwise_dirs {dirs : List AbsolutePathBuf} (hdirs : ∀ dir ∈ dirs, target ≤ dir) :
    Stepwise (Startable host) (ops ++ [.tmpfs target]) (dirs.map .dir) := by
  intro before step after h
  obtain ⟨earlier, rest, rfl, rfl, hrest⟩ := map_eq_append_iff.mp h
  obtain ⟨dir, later, rfl, rfl, -⟩ := map_eq_cons_iff.mp hrest
  intro other hother
  cases hother
  refine .inr ?_
  rw [viewAt_dirs, viewAt_concat]
  simp [act, replace, hdirs dir (by simp)]

variable {allowed : List AbsolutePathBuf}

/-- **What a mask needs**: its own target. -/
theorem stepwise_mask (hplain : host.Plain)
    (hdirs : ∀ root ∈ allowed, host.isDir root) (hdir : host.isDir target) :
    Stepwise (Startable host) ops ((mask target).ops host allowed) ↔
      Usable host ops target := by
  obtain ⟨mode, heq⟩ := existingMaskOps_eq allowed hdir
  have hmade : Stepwise (Startable host) (ops ++ [.perms mode] ++ [.tmpfs target])
      ((maskDirs host allowed target).map .dir) :=
    stepwise_dirs fun dir hmem => ((mem_maskDirs hdirs).mp hmem).1.le
  rw [Layer.ops, if_pos (hplain.pathExists_of_isDir hdir), heq, cons_append, stepwise_cons,
    cons_append, stepwise_cons, nil_append, stepwise_append, stepwise_cons]
  simp only [hmade]
  simp [Startable, mountTarget, usable_concat_perms]

/-- A read-only path whose target is usable can be mounted. -/
theorem stepwise_readOnly_of_usable (hplain : host.Plain)
    (hregular : (readOnly target).Regular host allowed) (husable : Usable host ops target) :
    Stepwise (Startable host) ops (readOnlyOps host allowed target) := by
  cases hwithin : isWithinAllowedWritePaths target allowed with
  | false =>
    have hthere : host.pathExists target := hregular.resolve_right (by simp [hwithin])
    simp [readOnlyOps, hwithin, hthere]
  | true =>
    rcases readOnlyOps_cases hplain hwithin (hregular.imp id And.right) with
      heq | ⟨heq | heq, -⟩
    · rw [heq, stepwise_cons]
      simpa [Startable, mountTarget] using husable
    · rw [heq, stepwise_cons]
      simp [Startable, mountTarget]
    · rw [heq, stepwise_emptyDirectory]
      exact husable

/-- A read-only path that is not an empty file needs its target. -/
theorem usable_of_stepwise_readOnly
    (hwithin : isWithinAllowedWritePaths target allowed)
    (hfile : transientEmptyMetadataPath host target ≠ some .emptyFile)
    (htarget : host.pathExists target ∨ missingTarget host allowed target = some target ∧
        isProtectedMetadataName target)
    (h : Stepwise (Startable host) ops (readOnlyOps host allowed target)) :
    Usable host ops target := by
  cases hkind : transientEmptyMetadataPath host target with
  | some kind =>
    cases kind with
    | emptyFile => exact absurd hkind hfile
    | emptyDirectory =>
      simp only [readOnlyOps, hwithin, hkind] at h
      exact stepwise_emptyDirectory.mp h
  | none =>
    cases hexists : host.pathExists target with
    | true =>
      simp only [readOnlyOps, hwithin, hkind, hexists] at h
      exact (stepwise_cons.mp h).1 target rfl
    | false =>
      obtain ⟨hmissing, hname⟩ := htarget.resolve_left (by simp [hexists])
      simp only [readOnlyOps, hwithin, hkind, hexists, Bool.false_eq_true,
        missingReadOnlyOps, hmissing, hname] at h
      exact stepwise_emptyDirectory.mp h

end Codex.Sandbox
