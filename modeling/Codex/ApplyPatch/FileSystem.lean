import Codex.ApplyPatch.Delta
import Codex.ApplyPatch.Patch

namespace Codex.ApplyPatch

open Function

/-!
# File systems whose operations may fail

`ExecutorFileSystem` is the interface through which patches are verified and applied.  An
implementation is a type `σ` of states with one function for each operation; an operation
gives a result or an error, and a new state.  The state can hold anything the outcome
depends on, so an implementation that fails at will is one of these.

`TextView` is what is assumed of an implementation: it has text files, and

* reads and metadata queries do not change them, a read gives what is there, and a read
  says "not found" only if nothing is there;
* a write that succeeds leaves the contents, and one that fails leaves anything, at the
  path it was given;
* a removal that succeeds removes the file, and one that fails removes it or leaves it;
* creating directories changes no text file.

What a write or removal does is promised for *plain* paths only: the metadata query tells
plain files from links and the rest, and writing through a link may change other files.
-/

/-- What the metadata query tells about a path that exists. -/
structure FileMetadata where
  isDirectory : Bool
  isFile : Bool
  isSymlink : Bool

/-- The operations on a file system with states `σ`. -/
structure ExecutorFileSystem (σ : Type) where
  readFileText : AbsolutePathBuf → σ → Except IoError Text × σ
  writeFile : AbsolutePathBuf → Text → σ → Except IoError Unit × σ
  createDirectory : AbsolutePathBuf → σ → Except IoError Unit × σ
  getMetadata : AbsolutePathBuf → σ → Except IoError FileMetadata × σ
  remove : AbsolutePathBuf → σ → Except IoError Unit × σ

/-- The text files of a file system, and what its operations do to them.  Plain paths have no
    aliases: no dangling, hard or directory links. -/
structure TextView {σ : Type} (fs : ExecutorFileSystem σ) where
  text : σ → TextFiles AbsolutePathBuf
  plain : σ → AbsolutePathBuf → Prop
  read_frame : ∀ p w, text (fs.readFileText p w).2 = text w
  read_plain : ∀ p w q, plain w q → plain (fs.readFileText p w).2 q
  read_ok : ∀ p w c, (fs.readFileText p w).1 = .ok c → text w p = some c
  read_notFound : ∀ p w e, (fs.readFileText p w).1 = .error e → e.kind = .notFound → text w p = none
  metadata_frame : ∀ p w, text (fs.getMetadata p w).2 = text w
  metadata_plain : ∀ p w q, plain w q → plain (fs.getMetadata p w).2 q
  metadata_ok : ∀ p w m, (fs.getMetadata p w).1 = .ok m → m.isFile →
    m.isSymlink = false → plain (fs.getMetadata p w).2 p
  metadata_notFound : ∀ p w e, (fs.getMetadata p w).1 = .error e → e.kind = .notFound →
    plain (fs.getMetadata p w).2 p
  createDirectory_frame : ∀ p w, text (fs.createDirectory p w).2 = text w
  createDirectory_plain : ∀ p w q, plain w q → plain (fs.createDirectory p w).2 q
  write_plain : ∀ p c w q, plain w p → plain w q → plain (fs.writeFile p c w).2 q
  write_ok : ∀ p c w, plain w p → (fs.writeFile p c w).1 = .ok () →
    text (fs.writeFile p c w).2 = update (text w) p (some c)
  write_other : ∀ p c w q, plain w p → q ≠ p → text (fs.writeFile p c w).2 q = text w q
  remove_plain : ∀ p w q, plain w p → plain w q → plain (fs.remove p w).2 q
  remove_ok : ∀ p w, plain w p → (fs.remove p w).1 = .ok () →
    text (fs.remove p w).2 = update (text w) p none
  remove_other : ∀ p w q, plain w p → q ≠ p → text (fs.remove p w).2 q = text w q
  remove_error : ∀ p w e, plain w p → (fs.remove p w).1 = .error e →
    text (fs.remove p w).2 p = text w p ∨ text (fs.remove p w).2 p = none

/-! ### Frames

What an operation leaves alone, for an operation `op = (result, w')` started in `w`. -/

namespace TextView

variable {σ : Type} {fs : ExecutorFileSystem σ} (V : TextView fs)

/-- No text file changed, and plain paths stayed plain. -/
structure Frame (w w' : σ) : Prop where
  text : V.text w' = V.text w
  plain : ∀ q, V.plain w q → V.plain w' q

/-- No text file but the one at `p` changed, and plain paths stayed plain. -/
structure FrameExcept (p : AbsolutePathBuf) (w w' : σ) : Prop where
  text : ∀ q, q ≠ p → V.text w' q = V.text w q
  plain : ∀ q, V.plain w q → V.plain w' q

variable {V} {w w' w'' : σ} {p : AbsolutePathBuf} {c : Text}

theorem Frame.refl : V.Frame w w := ⟨rfl, fun _ h => h⟩

theorem Frame.trans (h : V.Frame w w') (h' : V.Frame w' w'') : V.Frame w w'' :=
  ⟨h'.text.trans h.text, fun q hq => h'.plain q (h.plain q hq)⟩

theorem FrameExcept.trans (h : V.FrameExcept p w w') (h' : V.FrameExcept p w' w'') :
    V.FrameExcept p w w'' :=
  ⟨fun q hq => (h'.text q hq).trans (h.text q hq), fun q hq => h'.plain q (h.plain q hq)⟩

theorem Frame.except (h : V.Frame w w') : V.FrameExcept p w w' :=
  ⟨fun q _ => congrFun h.text q, h.plain⟩

/-- The whole text is known from a frame and the text at its path. -/
theorem FrameExcept.text_eq (h : V.FrameExcept p w w') :
    V.text w' = update (V.text w) p (V.text w' p) := by
  funext q
  by_cases hq : q = p
  · subst hq
    simp
  · rw [h.text q hq, update_of_ne hq]

variable (V)

theorem frame_read {r : Except IoError Text} (h : fs.readFileText p w = (r, w')) :
    V.Frame w w' := by
  have hframe : V.Frame w (fs.readFileText p w).2 := ⟨V.read_frame p w, V.read_plain p w⟩
  rwa [h] at hframe

theorem frame_metadata {r : Except IoError FileMetadata} (h : fs.getMetadata p w = (r, w')) :
    V.Frame w w' := by
  have hframe : V.Frame w (fs.getMetadata p w).2 := ⟨V.metadata_frame p w, V.metadata_plain p w⟩
  rwa [h] at hframe

variable {r : Except IoError Unit}

theorem frame_createDirectory (h : fs.createDirectory p w = (r, w')) : V.Frame w w' := by
  have hframe : V.Frame w (fs.createDirectory p w).2 :=
    ⟨V.createDirectory_frame p w, V.createDirectory_plain p w⟩
  rwa [h] at hframe

theorem frameExcept_write (hp : V.plain w p) (h : fs.writeFile p c w = (r, w')) :
    V.FrameExcept p w w' := by
  have hframe : V.FrameExcept p w (fs.writeFile p c w).2 :=
    ⟨fun q => V.write_other p c w q hp, fun q => V.write_plain p c w q hp⟩
  rwa [h] at hframe

theorem frameExcept_remove (hp : V.plain w p) (h : fs.remove p w = (r, w')) :
    V.FrameExcept p w w' := by
  have hframe : V.FrameExcept p w (fs.remove p w).2 :=
    ⟨fun q => V.remove_other p w q hp, fun q => V.remove_plain p w q hp⟩
  rwa [h] at hframe

theorem text_read (h : fs.readFileText p w = (.ok c, w')) : V.text w p = some c :=
  V.read_ok p w c (by rw [h])

theorem text_write (hp : V.plain w p) (h : fs.writeFile p c w = (.ok (), w')) :
    V.text w' = update (V.text w) p (some c) := by
  have htext := V.write_ok p c w hp (by rw [h])
  rwa [h] at htext

theorem text_remove (hp : V.plain w p) (h : fs.remove p w = (.ok (), w')) :
    V.text w' = update (V.text w) p none := by
  have htext := V.remove_ok p w hp (by rw [h])
  rwa [h] at htext

/-- A removal that fails and leaves a text there did nothing. -/
theorem frame_remove_error {e : IoError} (hp : V.plain w p) (h : fs.remove p w = (.error e, w'))
    (hc : V.text w' p = some c) : V.Frame w w' := by
  have hframe := V.frameExcept_remove hp h
  have hsame : V.text w' p = V.text w p := by
    have htext := V.remove_error p w e hp (by rw [h])
    rw [h] at htext
    rcases htext with htext | htext
    · exact htext
    · simp [hc] at htext
  refine ⟨?_, hframe.plain⟩
  rw [hframe.text_eq, hsame, update_eq_self]

end TextView

/-! ### A file system in memory -/

/-- A file system that holds plain text files only and never fails without reason. -/
def memoryFileSystem : ExecutorFileSystem (TextFiles AbsolutePathBuf) where
  readFileText p files :=
    match files p with
    | some c => (.ok c, files)
    | none => (.error ⟨.notFound, "entity not found"⟩, files)
  writeFile p c files := (.ok (), update files p (some c))
  createDirectory _ files := (.ok (), files)
  getMetadata p files :=
    match files p with
    | some _ => (.ok ⟨false, true, false⟩, files)
    | none => (.error ⟨.notFound, "entity not found"⟩, files)
  remove p files :=
    match files p with
    | some _ => (.ok (), update files p none)
    | none => (.error ⟨.notFound, "entity not found"⟩, files)

/-- The text files of the file system in memory are its states. -/
def memoryView : TextView memoryFileSystem where
  text files := files
  plain _ _ := True
  read_frame p w := by simp only [memoryFileSystem]; split <;> rfl
  read_plain _ _ _ h := h
  read_ok p w c h := by
    simp only [memoryFileSystem] at h
    split at h
    · simp_all
    · cases h
  read_notFound p w e h _ := by
    simp only [memoryFileSystem] at h
    split at h
    · cases h
    · assumption
  metadata_frame p w := by simp only [memoryFileSystem]; split <;> rfl
  metadata_plain _ _ _ h := h
  metadata_ok _ _ _ _ _ _ := trivial
  metadata_notFound _ _ _ _ _ := trivial
  createDirectory_frame _ _ := rfl
  createDirectory_plain _ _ _ h := h
  write_plain _ _ _ _ _ h := h
  write_ok _ _ _ _ _ := rfl
  write_other p c w q _ hq := update_of_ne hq _ _
  remove_plain _ _ _ _ h := h
  remove_ok p w _ h := by
    simp only [memoryFileSystem] at h ⊢
    split at h
    · simp_all
    · cases h
  remove_other p w q _ hq := by
    simp only [memoryFileSystem]
    split
    · exact update_of_ne hq _ _
    · rfl
  remove_error p w e _ h := by
    simp only [memoryFileSystem] at h ⊢
    split at h
    · cases h
    · left
      simp_all

end Codex.ApplyPatch
