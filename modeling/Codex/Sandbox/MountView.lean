import Codex.Data.LastSome
import Codex.Sandbox.BwrapArgs

namespace Codex.Sandbox

open Data BwrapOp

/-!
# The view that mounts build

Bubblewrap makes its mounts in order.  A mount replaces what is at its target and below; its target
is created if it is missing.

* `BwrapOp.act`, `viewAt` — what is at a location after a list of mounts;
* `lastCover` — the last mount at or above a location;
* `content_viewAt`, `lastCover_of_writable` — what can be seen and what can be changed at a location
  is told from its last cover.
-/

/-! ### Locations -/

/-- What is at a location of the view. -/
structure Spot where
  /-- The target of the mount the location lies in. -/
  mount : Option AbsolutePathBuf
  /-- The path of the host that is seen there. -/
  content : Option AbsolutePathBuf
  readOnly : Bool
  present : Bool

/-- The path of the source that is seen at a location below the target. -/
def rebase (source target location : AbsolutePathBuf) : AbsolutePathBuf :=
  ⟨source.names ++ location.names.drop target.depth⟩

variable {location : AbsolutePathBuf}

@[simp] theorem rebase_self {target : AbsolutePathBuf} (h : target ≤ location) :
    rebase target target location = location := by
  apply AbsolutePathBuf.names_injective
  exact (List.prefix_iff_eq_append.mp h)

/-- A mount or a folder at the target: what is below is replaced, and the way to it exists. -/
def Spot.replace (spot : Spot) (location target : AbsolutePathBuf) (new : Spot) : Spot :=
  if target ≤ location then new
  else if location ≤ target then { spot with present := true }
  else spot

namespace BwrapOp

/-- What an operation does to a location. -/
def act (host : LinuxHost) (location : AbsolutePathBuf) (spot : Spot) : BwrapOp → Spot
  | .bind source target =>
    let seen := rebase source target location
    spot.replace location target
      ⟨some target, some seen, false, location = target || host.pathExists seen⟩
  | .roBind source target =>
    let seen := rebase source target location
    spot.replace location target
      ⟨some target, some seen, true, location = target || host.pathExists seen⟩
  | .roBindData target => spot.replace location target ⟨some target, none, true, location = target⟩
  | .tmpfs target | .dev target =>
    spot.replace location target ⟨some target, none, false, location = target⟩
  | .dir target => if location ≤ target then { spot with present := true } else spot
  | .remountRo target =>
    if spot.mount = some target then { spot with readOnly := true } else spot
  | .perms _ => spot

end BwrapOp

/-- Before anything is mounted there is an empty folder. -/
def Spot.initial (location : AbsolutePathBuf) : Spot := ⟨none, none, false, location = rootPath⟩

/-- A location after some operations. -/
def viewAt (host : LinuxHost) (ops : List BwrapOp) (location : AbsolutePathBuf) : Spot :=
  ops.foldl (act host location) (Spot.initial location)

theorem viewAt_concat (host : LinuxHost) (ops : List BwrapOp) (op : BwrapOp)
    (location : AbsolutePathBuf) :
    viewAt host (ops ++ [op]) location = op.act host location (viewAt host ops location) := by
  simp [viewAt]

/-! ### Covers -/

/-- How a location is covered by a mount at or above it. -/
inductive Cover
  /-- The host can be seen, and perhaps written. -/
  | host (readOnly : Bool)
  /-- Something else is there, mounted at a target. -/
  | blank (target : AbsolutePathBuf)

/-- The cover that an operation puts over a location. -/
def BwrapOp.cover (location : AbsolutePathBuf) : BwrapOp → Option Cover
  | .bind _ target => if target ≤ location then some (.host false) else none
  | .roBind _ target => if target ≤ location then some (.host true) else none
  | .roBindData target | .tmpfs target | .dev target =>
    if target ≤ location then some (.blank target) else none
  | .dir _ | .remountRo _ | .perms _ => none

/-- The last cover of a location. -/
def lastCover (ops : List BwrapOp) (location : AbsolutePathBuf) : Option Cover :=
  lastSome (cover location) ops

/-- A mount of the host shows each path where it is. -/
def BwrapOp.InPlace : BwrapOp → Prop
  | .bind source target | .roBind source target => source = target
  | _ => True

theorem lastCover_concat (ops : List BwrapOp) (op : BwrapOp) (location : AbsolutePathBuf) :
    lastCover (ops ++ [op]) location = (op.cover location).or (lastCover ops location) :=
  lastSome_concat

/-- Whether the host can be seen under a cover. -/
def Cover.shows : Cover → Bool
  | .host _ => true
  | .blank _ => false

variable {ops : List BwrapOp} {host : LinuxHost}

/-- **What can be seen at a location** is the path of the host itself, if its last cover shows the
    host. -/
theorem content_viewAt (hplace : ∀ op ∈ ops, op.InPlace) :
    (viewAt host ops location).content =
      if (lastCover ops location).any Cover.shows then some location else none := by
  induction ops using List.reverseRecOn with
  | nil => rfl
  | append_singleton ops op ih =>
    have ih := ih fun op hop => hplace op (List.mem_append_left _ hop)
    have hop := hplace op (by simp)
    rw [viewAt_concat, lastCover_concat]
    cases op with
    | bind source target | roBind source target =>
      obtain rfl : source = target := hop
      by_cases hle : source ≤ location
      · simp [act, Spot.replace, cover, hle, Cover.shows]
      · by_cases hge : location ≤ source <;>
          simp [act, Spot.replace, cover, hle, hge, ih]
    | roBindData target | tmpfs target | dev target =>
      by_cases hle : target ≤ location
      · simp [act, Spot.replace, cover, hle, Cover.shows]
      · by_cases hge : location ≤ target <;>
          simp [act, Spot.replace, cover, hle, hge, ih]
    | dir target | remountRo target =>
      simp only [act, cover]
      split <;> exact ih
    | perms mode => exact ih

/-- Under a cover for reading nothing can be changed. -/
theorem readOnly_viewAt (h : lastCover ops location = some (.host true)) :
    (viewAt host ops location).readOnly := by
  induction ops using List.reverseRecOn with
  | nil => cases h
  | append_singleton ops op ih =>
    rw [viewAt_concat]
    rw [lastCover_concat] at h
    cases op with
    | bind source target | roBind source target | roBindData target | tmpfs target
    | dev target =>
      by_cases hle : target ≤ location
      · simp_all [act, Spot.replace, cover]
      · by_cases hge : location ≤ target <;>
          simp_all [act, Spot.replace, cover]
    | dir target =>
      have := ih (by simpa [cover] using h)
      by_cases hge : location ≤ target <;> simp [act, hge, this]
    | remountRo target =>
      have := ih (by simpa [cover] using h)
      simp only [act]
      split
      · rfl
      · exact this
    | perms mode => exact ih (by simpa [cover] using h)

/-- **What can be changed at a location** lies under a cover for writing. -/
theorem lastCover_of_writable (hplace : ∀ op ∈ ops, op.InPlace)
    (hcontent : (viewAt host ops location).content ≠ none)
    (hwritable : (viewAt host ops location).readOnly = false) :
    lastCover ops location = some (.host false) := by
  rw [content_viewAt hplace] at hcontent
  cases hcover : lastCover ops location with
  | none => simp [hcover] at hcontent
  | some cover =>
    cases cover with
    | blank target => simp [hcover, Cover.shows] at hcontent
    | host readOnly =>
      cases readOnly with
      | false => rfl
      | true => simp [readOnly_viewAt hcover] at hwritable

end Codex.Sandbox
