import Codex.Sandbox.Permissions

namespace Codex.Sandbox

open Text Data AbsolutePathBuf List

/-!
# What decides about writing

Of the entries for writing that have a path among their protected names only one matters: the entry
that decides about the path.  It protects its names unless it lies itself in a protected name of an
entry listed before it.

* `Guards` — an entry for writing whose protected names are protected;
* `isMetadataWriteDenied_of_decides` — a path is denied just when the entry that decides guards it;
* `canWrite_iff_decides` — when a path may be written;
* `canWrite_of_between` — what lies between the entry that decides and a path that may be written
  may be written.
-/

theorem le_write_of_ne_deny {mode : FileSystemAccessMode} (h : mode ≠ .deny) : mode ≤ .write := by
  cases mode <;> first | decide | exact absurd rfl h

namespace FileSystemSandboxPolicy

variable {policy : FileSystemSandboxPolicy} {host : Host} {path cwd dir : AbsolutePathBuf}

theorem exists_eq_takeWhile_append {paths : List AbsolutePathBuf} {dir : AbsolutePathBuf}
    (h : dir ∈ paths) : ∃ after, paths = paths.takeWhile (· ≠ dir) ++ dir :: after := by
  induction paths with
  | nil => cases h
  | cons first paths ih =>
    by_cases hfirst : first = dir
    · exact ⟨paths, by simp [hfirst]⟩
    · obtain ⟨after, hafter⟩ := ih ((mem_cons.mp h).resolve_left (Ne.symm hfirst))
      refine ⟨after, ?_⟩
      rw [takeWhile_cons_of_pos (by simpa using hfirst), cons_append, ← hafter]

theorem takeWhile_append_subset (before : List AbsolutePathBuf) (dir : AbsolutePathBuf)
    (after : List AbsolutePathBuf) :
    (before ++ dir :: after).takeWhile (· ≠ dir) ⊆ before := by
  induction before with
  | nil => simp
  | cons first before ih =>
    rw [cons_append, takeWhile_cons]
    split
    · exact cons_subset_cons first ih
    · exact nil_subset _

/-- No entry for writing in front of the folder has it in one of its protected names. -/
def Guards (policy : FileSystemSandboxPolicy) (host : Host) (cwd dir : AbsolutePathBuf) : Prop :=
  ∀ earlier ∈ (policy.writePaths host cwd).takeWhile (· ≠ dir), ¬ InMetadata earlier dir

/-- **Denied metadata, by the entry that decides.** -/
theorem isMetadataWriteDenied_of_decides (hkind : policy.kind = .restricted)
    (hdec : Decides (policy.resolvedEntriesWithCwd host cwd) path ⟨dir, .write⟩) :
    policy.isMetadataWriteDenied host path cwd ↔
      InMetadata dir path ∧ policy.Guards host cwd dir := by
  have hdir : dir ∈ policy.writePaths host cwd := mem_writePaths.mpr hdec.mem
  -- entries for writing above the path are above the one that decides
  have habove : ∀ other ∈ policy.writePaths host cwd, other ≤ path → other ≤ dir :=
    fun other hother hle => (hdec.wins _ (mem_writePaths.mp hother) hle).1
  rw [isMetadataWriteDenied, if_neg (by simp [hkind]), metadataChildOfWritableRoot_eq]
  constructor
  · intro h
    split at h
    · cases h
    rename_i metadataPath name hchild
    obtain ⟨before, first, after, hsplit, hfirst, hbefore⟩ := findSome?_eq_some_iff.mp hchild
    obtain ⟨hname, hle, rfl⟩ := metadataChild_eq_some_iff.mp hfirst
    have hle' : first ≤ dir := by
      refine habove first ?_ ((lt_childPath first name).le.trans hle)
      rw [hsplit]
      simp
    have heq : first = dir := by
      refine (eq_or_lt_of_le hle').resolve_right fun hlt => ?_
      rw [hasExplicitWriteEntryForMetadataPath_iff.mpr
        ⟨dir, hdir, hdec.le, childPath_le_of_lt hlt hdec.le hle⟩] at h
      cases h
    subst heq
    refine ⟨⟨name, hname, hle⟩, fun earlier hearlier hmetadata => ?_⟩
    rw [hsplit] at hearlier
    obtain ⟨name', hname', hle'⟩ := hmetadata
    exact metadataChild_eq_none_iff.mp (hbefore earlier
      (takeWhile_append_subset before first after hearlier)) ⟨name', hname', hle'.trans hdec.le⟩
  · rintro ⟨⟨name, hname, hle⟩, hguards⟩
    obtain ⟨after, hsplit⟩ := exists_eq_takeWhile_append hdir
    have hfirst := metadataChild_eq_some_iff.mpr ⟨hname, hle, rfl⟩
    rw [findSome?_eq_some_iff.mpr ⟨_, dir, after, hsplit, hfirst, fun earlier hearlier => ?_⟩]
    · refine Bool.not_eq_true' _ ▸ Bool.eq_false_iff.mpr fun h => ?_
      obtain ⟨explicit, hexplicit, hpath, hge⟩ := hasExplicitWriteEntryForMetadataPath_iff.mp h
      exact (lt_childPath dir name).not_ge (hge.trans (habove explicit hexplicit hpath))
    · rw [metadataChild_eq_none_iff]
      rintro ⟨name', hname', hle'⟩
      have hne : earlier ≠ dir := by simpa using mem_takeWhile_imp hearlier
      have hdirLe := habove earlier ((takeWhile_sublist _).subset hearlier)
        ((lt_childPath earlier name').le.trans hle')
      exact hguards earlier hearlier ⟨name', hname',
        childPath_le_of_lt (lt_of_le_of_ne hdirLe hne) hdec.le hle'⟩

theorem canWritePathWithCwd_iff :
    policy.canWritePathWithCwd host path cwd ↔
      policy.resolveAccessWithCwd host path cwd = .write ∧
        (policy.hasFullDiskWriteAccess ∨ ¬ policy.isMetadataWriteDenied host path cwd) := by
  unfold canWritePathWithCwd
  cases policy.hasFullDiskWriteAccess <;> simp [FileSystemAccessMode.canWrite]

section

variable (hkind : policy.kind = .restricted)
include hkind

/-- **When a path may be written.** -/
theorem canWrite_iff_decides :
    policy.canWritePathWithCwd host path cwd ↔
      ∃ dir, Decides (policy.resolvedEntriesWithCwd host cwd) path ⟨dir, .write⟩ ∧
        (policy.hasFullDiskWriteAccess ∨ ¬ (InMetadata dir path ∧ policy.Guards host cwd dir)) := by
  rw [canWritePathWithCwd_iff]
  constructor
  · rintro ⟨hwrite, hfull⟩
    rcases exists_decides hkind host path cwd with ⟨⟨dir, access⟩, hdec, haccess⟩ | ⟨-, hdeny⟩
    · obtain rfl : access = .write := haccess.symm.trans hwrite
      rw [isMetadataWriteDenied_of_decides hkind hdec] at hfull
      exact ⟨dir, hdec, hfull⟩
    · cases hwrite.symm.trans hdeny
  · rintro ⟨dir, hdec, hfull⟩
    rw [isMetadataWriteDenied_of_decides hkind hdec]
    exact ⟨resolveAccess_of_decides hkind hdec, hfull⟩

/-- An entry for writing that decides about its own path lets it be written. -/
theorem canWrite_of_decides_self
    (hdec : Decides (policy.resolvedEntriesWithCwd host cwd) dir ⟨dir, .write⟩) :
    policy.canWritePathWithCwd host dir cwd := by
  refine (canWrite_iff_decides hkind).mpr ⟨dir, hdec, .inr ?_⟩
  rintro ⟨⟨name, -, hle⟩, -⟩
  exact (lt_childPath dir name).not_ge hle

/-- A protected name of the folder whose entry decides about a path in it may not be written. -/
theorem canWrite_childPath_of_guards (hfull : policy.hasFullDiskWriteAccess = false)
    (hdec : Decides (policy.resolvedEntriesWithCwd host cwd) path ⟨dir, .write⟩)
    {name : NormalName} (hname : name ∈ protectedMetadataPathNames)
    (hle : childPath dir name ≤ path) (hguards : policy.Guards host cwd dir) :
    policy.canWritePathWithCwd host (childPath dir name) cwd = false := by
  refine Bool.eq_false_iff.mpr fun hcan => ?_
  obtain ⟨decider, hdecider, hfree⟩ := (canWrite_iff_decides hkind).mp hcan
  have hdecider_le := (hdec.wins _ hdecider.mem (hdecider.le.trans hle)).1
  have hdir_le := (hdecider.wins _ hdec.mem (lt_childPath dir name).le).1
  obtain rfl : decider = dir := le_antisymm hdecider_le hdir_le
  exact hfree.resolve_left (by simp [hfull]) ⟨⟨name, hname, le_rfl⟩, hguards⟩

/-- Below a folder that may be written, an entry for writing decides if no entry that may not be
    written lies between. -/
theorem exists_decides_write {root : AbsolutePathBuf}
    (hroot : root ∈ policy.writePaths host cwd) (hcan : policy.canWritePathWithCwd host root cwd)
    (hle : root ≤ path)
    (hbetween : ∀ entry ∈ policy.resolvedEntriesWithCwd host cwd, root < entry.path →
      entry.path ≤ path → policy.canWritePathWithCwd host entry.path cwd = false →
        entry.access = .write) :
    ∃ dir, Decides (policy.resolvedEntriesWithCwd host cwd) path ⟨dir, .write⟩ ∧ root ≤ dir := by
  obtain ⟨dir, access, hdec, hge⟩ := exists_decider hkind (mem_writePaths.mp hroot) hle
  cases hdir : policy.canWritePathWithCwd host dir cwd with
  | true =>
    obtain rfl : access = .write := (resolveAccess_of_decides hkind hdec.self).symm.trans
      (canWritePathWithCwd_iff.mp hdir).1
    exact ⟨dir, hdec, hge⟩
  | false =>
    have hlt : root < dir := lt_of_le_of_ne hge fun heq => by
      rw [heq, hdir] at hcan
      cases hcan
    obtain rfl : access = .write := hbetween _ hdec.mem hlt hdec.le hdir
    exact ⟨dir, hdec, hge⟩

end

end FileSystemSandboxPolicy

/-- The entry that decides about a path decides about what lies between. -/
theorem Decides.between {entries : List ResolvedFileSystemEntry} {path middle : AbsolutePathBuf}
    {entry : ResolvedFileSystemEntry} (h : Decides entries path entry) (hle : entry.path ≤ middle)
    (hmiddle : middle ≤ path) : Decides entries middle entry :=
  ⟨h.mem, hle, fun other hother hother' => h.wins other hother (hother'.trans hmiddle)⟩

theorem InMetadata.mono {dir path path' : AbsolutePathBuf} (h : InMetadata dir path)
    (hle : path ≤ path') : InMetadata dir path' := by
  obtain ⟨name, hname, hchild⟩ := h
  exact ⟨name, hname, hchild.trans hle⟩

namespace FileSystemSandboxPolicy

variable {policy : FileSystemSandboxPolicy} {host : Host} {path cwd dir : AbsolutePathBuf}

/-- What lies between the entry that decides and a path that may be written. -/
theorem canWrite_of_between (hkind : policy.kind = .restricted)
    (hdec : Decides (policy.resolvedEntriesWithCwd host cwd) path ⟨dir, .write⟩)
    (hcan : policy.hasFullDiskWriteAccess ∨ ¬ (InMetadata dir path ∧ policy.Guards host cwd dir))
    {middle : AbsolutePathBuf} (hle : dir ≤ middle) (hmiddle : middle ≤ path) :
    policy.canWritePathWithCwd host middle cwd :=
  (canWrite_iff_decides hkind).mpr ⟨dir, hdec.between hle hmiddle,
    hcan.imp_right fun hnot h => hnot ⟨h.1.mono hmiddle, h.2⟩⟩

end FileSystemSandboxPolicy

end Codex.Sandbox
