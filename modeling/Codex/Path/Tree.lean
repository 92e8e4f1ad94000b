import Codex.Path.Absolute
import Mathlib.Data.List.Infix
import Mathlib.Order.Basic

namespace Codex

open List

/-!
# The tree of absolute paths

Absolute paths are ordered as the folders and files of a tree: a path is below another one if it
is the same or lies in it, which is what `Path::starts_with` asks.  The paths above a path are a
chain.

* `childPath` — a file or folder in a folder;
* `le_or_le_of_le` — two paths above a third one are comparable;
* `childPath_le_of_lt` — the way down to a path goes through one child only;
* `depth` — the number of names, which tells paths above the same path apart.
-/

/-- A file or folder in a folder. -/
def childPath (dir : AbsolutePathBuf) (name : NormalName) : AbsolutePathBuf := ⟨dir.names ++ [name]⟩

namespace AbsolutePathBuf

/-- `path.starts_with(dir)`. -/
instance : LE AbsolutePathBuf := ⟨fun dir path => dir.names <+: path.names⟩

instance : DecidableLE AbsolutePathBuf := fun dir path =>
  inferInstanceAs (Decidable (dir.names <+: path.names))

theorem le_iff {dir path : AbsolutePathBuf} : dir ≤ path ↔ dir.names <+: path.names := Iff.rfl

theorem names_injective : Function.Injective names := by
  rintro ⟨names⟩ ⟨names'⟩ h
  exact congrArg _ h

instance : PartialOrder AbsolutePathBuf where
  le_refl path := prefix_refl path.names
  le_trans _ _ _ := IsPrefix.trans
  le_antisymm _ _ h h' := names_injective (h.eq_of_length (le_antisymm h.length_le h'.length_le))

instance : DecidableLT AbsolutePathBuf := fun dir path =>
  decidable_of_iff (dir ≤ path ∧ dir ≠ path) lt_iff_le_and_ne.symm

/-- The number of names of a path. -/
def depth (path : AbsolutePathBuf) : Nat := path.names.length

variable {a b path : AbsolutePathBuf} {name name' : NormalName}

theorem le_or_le_of_le (ha : a ≤ path) (hb : b ≤ path) : a ≤ b ∨ b ≤ a :=
  prefix_or_prefix_of_prefix ha hb

theorem depth_le_of_le (h : a ≤ b) : a.depth ≤ b.depth := IsPrefix.length_le h

theorem eq_of_le_of_depth_eq (h : a ≤ b) (hdepth : a.depth = b.depth) : a = b :=
  names_injective (IsPrefix.eq_of_length h hdepth)

theorem le_of_depth_le (ha : a ≤ path) (hb : b ≤ path) (h : a.depth ≤ b.depth) : a ≤ b :=
  prefix_of_prefix_length_le ha hb h

theorem depth_lt_of_lt (h : a < b) : a.depth < b.depth :=
  lt_of_le_of_ne (depth_le_of_le h.le) fun heq => h.ne (eq_of_le_of_depth_eq h.le heq)

@[simp] theorem depth_childPath : (childPath a name).depth = a.depth + 1 := by
  simp [depth, childPath]

theorem lt_childPath (a : AbsolutePathBuf) (name : NormalName) : a < childPath a name := by
  refine lt_of_le_of_ne (prefix_append _ _) fun h => ?_
  have := congrArg depth h
  simp at this

theorem childPath_inj (h : childPath a name = childPath b name') : a = b ∧ name = name' := by
  have hnames := congrArg AbsolutePathBuf.names h
  obtain ⟨hnames, hname⟩ := append_inj' hnames rfl
  exact ⟨names_injective hnames, singleton_inj.mp hname⟩

/-- The way down from a folder goes through one of its children. -/
theorem childPath_le_of_lt (h : a < b) (hb : b ≤ path) (hchild : childPath a name ≤ path) :
    childPath a name ≤ b := by
  refine le_of_depth_le hchild hb ?_
  rw [depth_childPath]
  exact depth_lt_of_lt h

theorem le_childPath_iff : a ≤ childPath b name ↔ a ≤ b ∨ a = childPath b name := by
  constructor
  · intro h
    by_cases hdepth : a.depth ≤ b.depth
    · exact .inl (le_of_depth_le h (lt_childPath b name).le hdepth)
    · refine .inr (eq_of_le_of_depth_eq h ?_)
      have := depth_le_of_le h
      rw [depth_childPath] at this ⊢
      omega
  · rintro (h | rfl)
    · exact h.trans (lt_childPath b name).le
    · exact le_rfl

end AbsolutePathBuf

end Codex
