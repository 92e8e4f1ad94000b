import Codex.Path.Resolve
import Codex.Path.Tree
import Codex.Provision.Launcher

namespace Codex.Provision

open Text List

/-!
# Versions and their release directories

A release is extracted into a directory below the remote home that is named by its version.

* `canonicalizeExactVersion`, `parseLatestTagName` — versions that are given, and found;
* `managedReleaseDir_child_iff` — when the directory is in that of the releases.
-/

/-- The errors about versions. -/
inductive VersionError
  | invalidVersion (message : Text)
  | latestVersionResolve (message : Text)
deriving DecidableEq

def canonicalizeExactVersion (version : Text) : Except VersionError Text :=
  let trimmed := trim version
  let version := ((stripPrefix "rust-v" trimmed).or (stripPrefix ['v'] trimmed)).getD trimmed
  if version = [] then .error (.invalidVersion "version must not be empty")
  else if version.any fun c => isControl c || isWhitespace c || c = '/' || c = '\\' then
    .error (.invalidVersion
      ("version `" ++ trimmed ++ "` contains an invalid character"))
  else .ok version

/-- `tagName` reads the field of the response, or says why not; `debug` shows a text in an error. -/
def parseLatestTagName (tagName : Text → Except Text Text) (debug : Text → Text) (json : Text) :
    Except VersionError Text :=
  match tagName json with
  | .error e =>
    .error (.latestVersionResolve ("failed to parse GitHub releases JSON: " ++ e))
  | .ok tag =>
    match (stripPrefix "rust-v" tag).filter (· ≠ []) with
    | some version => .ok version
    | none => .error (.latestVersionResolve
        ("tag_name " ++ debug tag ++ " does not have expected rust-v prefix"))

def managedCodexRootRelative : Text := ".codex-server/env-switch"

def managedReleasesDir (remoteHome : Text) : Text :=
  remoteHome ++ '/' :: (managedCodexRootRelative ++ "/releases")

def managedReleaseDir (remoteHome version : Text) : Text :=
  managedReleasesDir remoteHome ++ '/' :: version

/-- Normalized, the directory is one in the directory of the releases. -/
def IsReleaseDir (remoteHome dir : Text) : Prop :=
  ∃ name, normalizePath (pathComponents dir) =
    childPath (normalizePath (pathComponents (managedReleasesDir remoteHome))) name

variable {home version : Text}

theorem isReleaseDir_iff (hnil : version ≠ []) (hslash : '/' ∉ version) :
    IsReleaseDir home (managedReleaseDir home version) ↔
      version ≠ ['.'] ∧ version ≠ ['.', '.'] := by
  have hcomponents : pathComponents (managedReleaseDir home version) =
      pathComponents (managedReleasesDir home) ++ (pathComponent version).toList := by
    rw [managedReleaseDir, pathComponents_append_slash, bodyComponents_of_not_mem hslash,
      pathComponents_concat_slash (by simp [managedReleasesDir])]
  simp only [IsReleaseDir, hcomponents, normalizePath, foldl_append, childPath]
  constructor
  · -- the other versions add no name
    rintro ⟨name, h⟩
    have hlength := congrArg (·.names.length) h
    constructor <;> rintro rfl <;>
      simp [pathComponent, IsNormalName, pushComponent] at hlength
  · rintro ⟨hdot, hdots⟩
    have hname : IsNormalName version := ⟨hnil, hslash, hdot, hdots⟩
    exact ⟨⟨version, hname⟩, by simp [pathComponent, hname, pushComponent]⟩

/-- **Releases are in their directory** just if the version is not `.` or `..`, for tags without a
    slash too. -/
theorem managedReleaseDir_child_iff (home : Text) :
    (∀ s version, canonicalizeExactVersion s = .ok version →
      (IsReleaseDir home (managedReleaseDir home version) ↔
        version ≠ ['.'] ∧ version ≠ ['.', '.'])) ∧
    ∀ tagName debug json version, parseLatestTagName tagName debug json = .ok version →
      '/' ∉ version → (IsReleaseDir home (managedReleaseDir home version) ↔
        version ≠ ['.'] ∧ version ≠ ['.', '.']) := by
  constructor
  · intro s version h
    simp only [canonicalizeExactVersion] at h
    split_ifs at h with hnil hany
    cases h
    exact isReleaseDir_iff hnil fun hslash => hany (any_eq_true.mpr ⟨'/', hslash, by simp⟩)
  · intro tagName debug json version h hslash
    unfold parseLatestTagName at h
    split at h
    · cases h
    · split at h <;> cases h
      rename_i hversion
      exact isReleaseDir_iff (by simpa using (Option.filter_eq_some_iff.mp hversion).2) hslash

/-- The release `..` goes to the managed root, and a tag with slashes leads out of it. -/
theorem managedReleaseDir_leaves :
    canonicalizeExactVersion "v.." = .ok ".." ∧
    (normalizePath (pathComponents (managedReleaseDir "/root" ".."))).display =
      "/root/.codex-server/env-switch" ∧
    parseLatestTagName .ok (fun tag => tag) "rust-v../../../bin" =
      .ok "../../../bin" ∧ (normalizePath (pathComponents
      (managedReleaseDir "/root" "../../../bin"))).display = "/root/bin" := by
  decide

end Codex.Provision
