import Codex.Text.Basic
import Mathlib.Logic.Function.Basic

namespace Codex.ApplyPatch

open Function

/-!
# Records of committed changes

Applying a patch records what it changed, together with the texts that were there before.
The record is also what the net diff of a turn is computed from, so this file says what a
record means, independently of who wrote it:

* `AppliedPatchChange.replay` — the change done again on a set of text files;
* `AppliedPatchChange.Coherent` — the texts that the change says were there are there;
* `Replays changes files files'` — replaying the changes in order leads from `files` to
  `files'`, and each change is coherent with the files just before it;
* `AppliedPatchChange.commit` — the change in the order in which the applier does it, and
  `Commits` for a list of changes;
* `replays_iff_of_commits` — what was committed is what the record replays to, exactly if no
  change moves a file onto itself.

A set of text files is a function from paths to contents, `none` for a path that holds no
text file.  The type `P` of paths is arbitrary.
-/

/-- A committed file change. -/
inductive AppliedPatchFileChange (P : Type)
  | add (content : Text) (overwrittenContent : Option Text)
  | delete (content : Text)
  | update (movePath : Option P) (oldContent : Text) (overwrittenMoveContent : Option Text)
      (newContent : Text)
deriving DecidableEq

/-- A committed file change and the path it is about. -/
structure AppliedPatchChange (P : Type) where
  path : P
  change : AppliedPatchFileChange P
deriving DecidableEq

/-- Textual file changes that were committed while applying a patch, in order, and whether
    they are known to be all that happened. -/
structure AppliedPatchDelta (P : Type) where
  changes : List (AppliedPatchChange P)
  exact : Bool

/-- The change with its paths renamed. -/
def AppliedPatchChange.map {P Q : Type} (f : P → Q) (c : AppliedPatchChange P) :
    AppliedPatchChange Q :=
  ⟨f c.path, match c.change with
    | .add content overwrittenContent => .add content overwrittenContent
    | .delete content => .delete content
    | .update movePath oldContent overwrittenMoveContent newContent =>
      .update (movePath.map f) oldContent overwrittenMoveContent newContent⟩

/-- Nothing changed, and this is known. -/
def AppliedPatchDelta.empty {P : Type} : AppliedPatchDelta P := ⟨[], true⟩

/-- The text files of a file system. -/
abbrev TextFiles (P : Type) := P → Option Text

variable {P : Type} [DecidableEq P] {p : P}

namespace AppliedPatchChange

variable (c : AppliedPatchChange P)

variable (files : TextFiles P)

/-- Do the change on `files`.  A move takes the file away first and writes it second. -/
def replay : TextFiles P :=
  match c.change with
  | .add content _ => update files c.path (some content)
  | .delete _ => update files c.path none
  | .update none _ _ newContent => update files c.path (some newContent)
  | .update (some dest) _ _ newContent =>
    update (update files c.path none) dest (some newContent)

/-- Do the change on `files` in the applier's order: a move writes the file first and takes
    the original away second. -/
def commit : TextFiles P :=
  match c.change with
  | .update (some dest) _ _ newContent =>
    update (update files dest (some newContent)) c.path none
  | _ => c.replay files

/-- What the change says was there before is what `files` holds. -/
def Coherent : Prop :=
  match c.change with
  | .add _ overwrittenContent => files c.path = overwrittenContent
  | .delete content => files c.path = some content
  | .update none oldContent _ _ => files c.path = some oldContent
  | .update (some dest) oldContent overwrittenMoveContent _ =>
    files c.path = some oldContent ∧ files dest = overwrittenMoveContent

/-- The paths the change writes or removes. -/
def Touches (p : P) : Prop :=
  match c.change with
  | .update (some dest) _ _ _ => p = c.path ∨ p = dest
  | _ => p = c.path

/-- The change is a move whose destination is the file itself. -/
def MovesOntoItself : Prop :=
  match c.change with
  | .update (some dest) _ _ _ => dest = c.path
  | _ => False

variable {c : AppliedPatchChange P}

theorem replay_of_not_touches (h : ¬ c.Touches p) (files : TextFiles P) :
    c.replay files p = files p := by
  obtain ⟨path, change⟩ := c
  rcases change with ⟨content, ow⟩ | content | ⟨_ | dest, old, ow, new⟩
  · exact update_of_ne h _ _
  · exact update_of_ne h _ _
  · exact update_of_ne h _ _
  · simp only [Touches, not_or] at h
    simp only [replay]
    rw [update_of_ne h.2, update_of_ne h.1]

theorem commit_of_not_touches (h : ¬ c.Touches p) (files : TextFiles P) :
    c.commit files p = files p := by
  obtain ⟨path, change⟩ := c
  rcases change with ⟨content, ow⟩ | content | ⟨_ | dest, old, ow, new⟩
  · exact replay_of_not_touches h files
  · exact replay_of_not_touches h files
  · exact replay_of_not_touches h files
  · simp only [Touches, not_or] at h
    simp only [commit]
    rw [update_of_ne h.1, update_of_ne h.2]

/-- The order of write and removal does not matter between two files. -/
theorem commit_eq_replay (h : ¬ c.MovesOntoItself) (files : TextFiles P) :
    c.commit files = c.replay files := by
  obtain ⟨path, change⟩ := c
  rcases change with ⟨content, ow⟩ | content | ⟨_ | dest, old, ow, new⟩
  · rfl
  · rfl
  · rfl
  · simp only [replay]
    exact update_comm h _ _ _

/-- A file moved onto itself is gone, and the record says that it is there. -/
theorem commit_ne_replay (h : c.MovesOntoItself) (files : TextFiles P) :
    c.commit files c.path ≠ c.replay files c.path := by
  obtain ⟨path, change⟩ := c
  rcases change with ⟨content, ow⟩ | content | ⟨_ | dest, old, ow, new⟩
  · exact h.elim
  · exact h.elim
  · exact h.elim
  · subst h
    simp [commit, replay]

omit [DecidableEq P] in
/-- Two file sets that are both coherent with a change agree where it touches them. -/
theorem Coherent.agree {files files' : TextFiles P} (h : c.Coherent files) (h' : c.Coherent files')
    (hp : c.Touches p) : files p = files' p := by
  obtain ⟨path, change⟩ := c
  rcases change with ⟨content, ow⟩ | content | ⟨_ | dest, old, ow, new⟩
  · simp only [Coherent, Touches] at h h' hp
    rw [hp, h, h']
  · simp only [Coherent, Touches] at h h' hp
    rw [hp, h, h']
  · simp only [Coherent, Touches] at h h' hp
    rw [hp, h, h']
  · simp only [Coherent, Touches] at h h' hp
    rcases hp with rfl | rfl
    · rw [h.1, h'.1]
    · rw [h.2, h'.2]

end AppliedPatchChange

/-! ### Lists of changes -/

/-- Doing `changes` one after the other, each by `f`, leads from `files` to `files'`, and
    each change is coherent with the files just before it. -/
def RunsBy (f : AppliedPatchChange P → TextFiles P → TextFiles P) :
    List (AppliedPatchChange P) → TextFiles P → TextFiles P → Prop
  | [], files, files' => files' = files
  | c :: cs, files, files' => c.Coherent files ∧ RunsBy f cs (f c files) files'

/-- The changes, replayed from the record. -/
abbrev Replays : List (AppliedPatchChange P) → TextFiles P → TextFiles P → Prop :=
  RunsBy AppliedPatchChange.replay

/-- The changes, as the applier commits them. -/
abbrev Commits : List (AppliedPatchChange P) → TextFiles P → TextFiles P → Prop :=
  RunsBy AppliedPatchChange.commit

section RunsBy

variable {f : AppliedPatchChange P → TextFiles P → TextFiles P}
variable {c : AppliedPatchChange P} {cs ds : List (AppliedPatchChange P)}
variable {files files' mid : TextFiles P}

omit [DecidableEq P] in
@[simp] theorem runsBy_nil : RunsBy f [] files files' ↔ files' = files := Iff.rfl

omit [DecidableEq P] in
@[simp] theorem runsBy_cons :
    RunsBy f (c :: cs) files files' ↔ c.Coherent files ∧ RunsBy f cs (f c files) files' := Iff.rfl

omit [DecidableEq P] in
theorem runsBy_append :
    RunsBy f (cs ++ ds) files files' ↔ ∃ mid, RunsBy f cs files mid ∧ RunsBy f ds mid files' := by
  induction cs generalizing files with
  | nil => simp
  | cons c cs ih => simp only [List.cons_append, runsBy_cons, ih, exists_and_left, and_assoc]

end RunsBy

variable {cs : List (AppliedPatchChange P)}

/-- A difference between the files and the replayed ones stays: the next change that touches
    the path says what was there, and is not coherent with one of the two. -/
theorem not_replays_of_ne {files files' replayed : TextFiles P} (h : Commits cs files files')
    (hp : files p ≠ replayed p) : ¬ Replays cs replayed files' := by
  induction cs generalizing files replayed with
  | nil =>
    rintro rfl
    exact hp (congrFun h p).symm
  | cons c cs ih =>
    rintro ⟨hc', hrest'⟩
    obtain ⟨hc, hrest⟩ := h
    have htouch : ¬ c.Touches p := fun ht => hp (hc.agree hc' ht)
    have hne : c.commit files p ≠ c.replay replayed p := by
      rwa [c.commit_of_not_touches htouch, c.replay_of_not_touches htouch]
    exact ih hrest hne hrest'

/-- **A committed record replays exactly if it moves no file onto itself.** -/
theorem replays_iff_of_commits {files files' : TextFiles P} (h : Commits cs files files') :
    Replays cs files files' ↔ ∀ c ∈ cs, ¬ c.MovesOntoItself := by
  induction cs generalizing files with
  | nil => simpa using h
  | cons c cs ih =>
    obtain ⟨hc, hrest⟩ := h
    by_cases hself : c.MovesOntoItself
    · have hno : ¬ Replays cs (c.replay files) files' :=
        not_replays_of_ne hrest (c.commit_ne_replay hself files)
      simp [hself, hno]
    · rw [c.commit_eq_replay hself] at hrest
      simp [hself, hc, ih hrest]

end Codex.ApplyPatch
