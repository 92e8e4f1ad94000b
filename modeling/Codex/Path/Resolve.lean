import Codex.Path.Absolute

namespace Codex

open Text List

/-!
# Resolving paths that are spelled differently

Two relative paths are equal for `PathBuf` if they have the same components; their texts may differ
in repeated slashes and in `.` between them.  Which absolute path they stand for does not depend on
the spelling.

* `bodyComponents` — the components that the pieces between slashes stand for;
* `resolveComponents` — `resolvePathAgainstBase` as a function of the components;
* `resolve_display` — a path that is shown is read back.
-/

/-! ### Components of joined texts -/

variable (path : Text) (home : Option Text)

/-- The components that the pieces between slashes stand for. -/
def bodyComponents : List PathComponent := (path.splitOn '/').filterMap pathComponent

theorem pathComponents_eq : pathComponents path = (if isAbsolute path then [.rootDir]
      else if (path.splitOn '/').head? = some ['.'] then [.curDir] else []) ++
      bodyComponents path := by
  unfold pathComponents bodyComponents
  dsimp only
  split_ifs <;> rfl

@[simp] theorem bodyComponents_append_slash (front back : Text) :
    bodyComponents (front ++ '/' :: back) = bodyComponents front ++ bodyComponents back := by
  simp [bodyComponents, splitOn_append_cons_self]

@[simp] theorem bodyComponents_nil : bodyComponents [] = [] := by
  decide

theorem bodyComponents_slash (back : Text) : bodyComponents ('/' :: back) = bodyComponents back :=
  bodyComponents_append_slash [] back

theorem bodyComponents_dropWhile :
    bodyComponents (path.dropWhile (· = '/')) = bodyComponents path := by
  induction path with
  | nil => rfl
  | cons c path ih =>
    rw [dropWhile_cons]
    split
    · rename_i hc
      obtain rfl : c = '/' := by simpa using hc
      rw [bodyComponents_slash, ih]
    · rfl

variable {piece : Text} {front : Text} {tail : Text}

/-- The first piece of a text with a slash. -/
theorem head?_splitOn_append_slash (front back : Text) :
    ((front ++ '/' :: back).splitOn '/').head? = (front.splitOn '/').head? := by
  rw [splitOn_append_cons_self, head?_append_of_ne_nil _ (splitOn_ne_nil _ _)]

theorem isAbsolute_append (h : front ≠ []) (back : Text) :
    isAbsolute (front ++ back) = isAbsolute front := by
  unfold isAbsolute
  rw [head?_append_of_ne_nil _ h]

/-- What stands behind a slash adds its pieces. -/
theorem pathComponents_append_slash (front back : Text) :
    pathComponents (front ++ '/' :: back) =
      pathComponents (front ++ ['/']) ++ bodyComponents back := by
  have habsolute : isAbsolute (front ++ '/' :: back) = isAbsolute (front ++ ['/']) := by
    cases front <;> rfl
  rw [pathComponents_eq, pathComponents_eq (front ++ ['/']), habsolute, append_assoc]
  simp [head?_splitOn_append_slash]

theorem pathComponents_concat_slash (h : front ≠ []) :
    pathComponents (front ++ ['/']) = pathComponents front := by
  rw [pathComponents_eq, pathComponents_eq front, isAbsolute_append h]
  simp [head?_splitOn_append_slash]

/-- The components of a joined path: those of the first, and the pieces of the second. -/
theorem pathComponents_joinPath (hfront : front ≠ []) {back : Text}
    (hback : isAbsolute back = false) :
    pathComponents (joinPath front back) = pathComponents front ++ bodyComponents back := by
  unfold joinPath
  simp only [hback, Bool.false_eq_true, if_false, hfront, false_or]
  split
  · obtain ⟨init, rfl⟩ := getLast?_eq_some_iff.mp ‹_›
    rw [append_assoc, singleton_append, pathComponents_append_slash]
  · rw [pathComponents_append_slash, pathComponents_concat_slash hfront]

/-! ### Resolution by components -/

/-- The name that is expanded to the home directory. -/
def homeName : NormalName := ⟨['~'], by decide⟩

/-- `resolvePathAgainstBase`, from the components of the path. -/
def resolveComponents (base : AbsolutePathBuf) (components : List PathComponent) :
    AbsolutePathBuf :=
  match home, components with
  | some home, .normal name :: rest =>
    if name = homeName then normalizePath (pathWithBase home base ++ rest)
    else normalizePath (base.components ++ components)
  | _, .rootDir :: rest => normalizePath (.rootDir :: rest)
  | _, components => normalizePath (base.components ++ components)

theorem bodyComponents_of_not_mem (h : '/' ∉ piece) :
    bodyComponents piece = (pathComponent piece).toList := by
  unfold bodyComponents
  rw [splitOn_eq_singleton h]
  cases hpiece : pathComponent piece <;> simp [hpiece]

/-- The first piece of a text, and what comes behind a slash. -/
theorem exists_first_piece : ∃ piece tail : Text, '/' ∉ piece ∧
    (tail = [] ∨ ∃ rest, tail = '/' :: rest) ∧ path = piece ++ tail := by
  by_cases hslash : '/' ∈ path
  · obtain ⟨piece, rest, rfl, hpiece⟩ := eq_append_cons_of_mem hslash
    exact ⟨piece, '/' :: rest, hpiece, .inr ⟨rest, rfl⟩, rfl⟩
  · exact ⟨path, [], hslash, .inl rfl, by simp⟩

theorem isAbsolute_dropWhile : isAbsolute (path.dropWhile (· = '/')) = false := by
  induction path with
  | nil => rfl
  | cons c path ih =>
    rw [dropWhile_cons]
    split
    · exact ih
    · rename_i hc
      simpa [isAbsolute] using hc

/-- The home directory with the rest of the path behind it. -/
theorem normalizePath_expand_home (home rest : Text) (base : AbsolutePathBuf) :
    normalizePath (pathWithBase (joinPath home (rest.dropWhile (· = '/'))) base) =
      normalizePath (pathWithBase home base ++ bodyComponents rest) := by
  have hrest := isAbsolute_dropWhile rest
  rw [← bodyComponents_dropWhile rest]
  by_cases hhome : home = []
  · subst hhome
    have hjoin : joinPath [] (rest.dropWhile (· = '/')) = rest.dropWhile (· = '/') := by
      simp [joinPath]
    rw [hjoin, pathWithBase, hrest, if_neg (by simp), pathComponents_eq, hrest]
    show _ = normalizePath ((base.components ++ []) ++ _)
    -- a `.` in the middle is skipped
    simp only [Bool.false_eq_true, if_false, append_nil]
    split_ifs
    · simp [normalizePath, pushComponent]
    · rfl
  · have habsolute : isAbsolute (joinPath home (rest.dropWhile (· = '/'))) = isAbsolute home := by
      unfold joinPath
      simp only [hrest, Bool.false_eq_true, if_false]
      split_ifs <;> exact isAbsolute_append hhome _
    unfold pathWithBase
    rw [habsolute, pathComponents_joinPath hhome hrest]
    split_ifs
    · rfl
    · rw [append_assoc]

theorem resolveComponents_of_ne (base : AbsolutePathBuf) {components : List PathComponent}
    (h : components.head? ≠ some (.normal homeName)) :
    resolveComponents home base components = normalizePath
      (if components.head? = some .rootDir then components else base.components ++ components) := by
  match home, components with
  | none, [] | some _, [] => rfl
  | none, .rootDir :: _ | some _, .rootDir :: _ => rfl
  | none, .curDir :: _ | some _, .curDir :: _ => rfl
  | none, .parentDir :: _ | some _, .parentDir :: _ => rfl
  | none, .normal _ :: _ => rfl
  | some _, .normal name :: _ =>
    have hname : name ≠ homeName := fun heq => h (by simp [heq])
    simp [resolveComponents, hname]

theorem pathComponent_ne_rootDir (piece : Text) : pathComponent piece ≠ some .rootDir := by
  unfold pathComponent
  split_ifs <;> simp

/-- A path is absolute if its first component is the root. -/
theorem head?_pathComponents_eq_rootDir :
    (pathComponents path).head? = some .rootDir ↔ isAbsolute path := by
  rw [pathComponents_eq]
  split_ifs with habsolute hdot
  · simp [habsolute]
  · simp [habsolute]
  · refine ⟨fun h => ?_, fun h => absurd h habsolute⟩
    obtain ⟨piece, -, hpiece⟩ := mem_filterMap.mp (mem_of_mem_head? h)
    exact absurd hpiece (pathComponent_ne_rootDir piece)

section

variable (hpiece : '/' ∉ piece) (htail : tail = [] ∨ ∃ rest, tail = '/' :: rest)
include hpiece htail

/-- Only a first piece `~` is expanded. -/
theorem maybeExpandHomeDirectory_of_ne (hne : piece ≠ ['~']) :
    maybeExpandHomeDirectory home (piece ++ tail) = piece ++ tail := by
  have hstrip : ∀ stripped, stripPrefix ['~'] (piece ++ tail) = some stripped →
      ∃ c rest, stripped = c :: rest ∧ c ≠ '/' := by
    intro stripped h
    have happend := stripPrefix_eq_some.mp h
    match piece, hpiece, hne with
    | [], _, _ =>
      rcases htail with rfl | ⟨rest, rfl⟩ <;> simp at happend
    | [c], _, hne =>
      simp only [cons_append, cons.injEq] at happend
      exact absurd (congrArg (fun c => [c]) happend.1) hne
    | c :: c' :: cs, hpiece, _ =>
      simp only [cons_append, cons.injEq] at happend
      exact ⟨c', cs ++ tail, happend.2.symm, fun h => hpiece (by simp [h])⟩
  unfold maybeExpandHomeDirectory
  split
  · rename_i h
    obtain ⟨c, rest, hcons, -⟩ := hstrip _ h
    cases hcons
  · rename_i h
    obtain ⟨c, rest, hcons, hc⟩ := hstrip _ h
    cases hcons
    exact absurd rfl hc
  · rfl

/-- The components of a path whose first piece is neither empty nor a `.`. -/
theorem pathComponents_of_piece (hnil : piece ≠ []) (hdot : piece ≠ ['.']) :
    pathComponents (piece ++ tail) = (pathComponent piece).toList ++ bodyComponents tail := by
  have habsolute : isAbsolute (piece ++ tail) = false := by
    cases piece with
    | nil => exact absurd rfl hnil
    | cons c cs =>
      have hc : c ≠ '/' := fun h => hpiece (by simp [h])
      simpa [isAbsolute] using hc
  have hhead : ((piece ++ tail).splitOn '/').head? = some piece := by
    rcases htail with rfl | ⟨rest, rfl⟩
    · rw [append_nil, splitOn_eq_singleton hpiece]
      rfl
    · rw [head?_splitOn_append_slash, splitOn_eq_singleton hpiece]
      rfl
  rw [pathComponents_eq, habsolute, hhead, ← bodyComponents_of_not_mem hpiece]
  simp only [Bool.false_eq_true, if_false, Option.some.injEq, hdot, nil_append]
  rcases htail with rfl | ⟨rest, rfl⟩
  · simp
  · rw [bodyComponents_append_slash, bodyComponents_slash]

/-- The first component of a path whose first piece is not `~`. -/
theorem head?_pathComponents_ne (hne : piece ≠ ['~']) :
    (pathComponents (piece ++ tail)).head? ≠ some (.normal homeName) := by
  by_cases hnil : piece = []
  · subst hnil
    rcases htail with rfl | ⟨rest, rfl⟩
    · decide
    · have hroot := (head?_pathComponents_eq_rootDir ([] ++ '/' :: rest)).mpr rfl
      rw [hroot]
      simp
  by_cases hdot : piece = ['.']
  · subst hdot
    have hhead : (pathComponents (['.'] ++ tail)).head? = some .curDir := by
      rcases htail with rfl | ⟨rest, rfl⟩
      · decide
      · rfl
    rw [hhead]
    simp
  rw [pathComponents_of_piece hpiece htail hnil hdot]
  unfold pathComponent
  split_ifs with hnormal hparent
  · simpa [homeName] using hne
  · simp
  · -- a piece that stands for no component is empty, or a dot
    exact absurd ⟨hnil, hpiece, hdot, hparent⟩ hnormal

end

/-- **Resolution only reads the components.** -/
theorem resolvePathAgainstBase_eq (path : Text) (base : AbsolutePathBuf) :
    resolvePathAgainstBase home path base =
      resolveComponents home base (pathComponents path) := by
  obtain ⟨piece, tail, hpiece, htail, rfl⟩ := exists_first_piece path
  unfold resolvePathAgainstBase
  by_cases hne : piece = ['~']
  · subst hne
    have hcomponents : pathComponents (['~'] ++ tail) = .normal homeName :: bodyComponents tail :=
      pathComponents_of_piece hpiece htail (by simp) (by simp)
    rw [hcomponents]
    cases home with
    | none =>
      show normalizePath (pathWithBase (['~'] ++ tail) base) = _
      rw [pathWithBase, hcomponents]
      rfl
    | some home =>
      show _ = normalizePath (pathWithBase home base ++ bodyComponents tail)
      rcases htail with rfl | ⟨rest, rfl⟩
      · rw [bodyComponents_nil, append_nil, append_nil]
        rfl
      · rw [← normalizePath_expand_home]
        rfl
  · rw [maybeExpandHomeDirectory_of_ne home hpiece htail hne,
      resolveComponents_of_ne home base (head?_pathComponents_ne hpiece htail hne)]
    simp only [head?_pathComponents_eq_rootDir]
    rfl

/-- **A path that is shown is read back**, wherever it is read. -/
theorem resolve_display (path base : AbsolutePathBuf) :
    resolvePathAgainstBase home path.display base = path := by
  have hbody : bodyComponents (['/'].intercalate (path.names.map Subtype.val)) =
      path.names.map .normal := by
    by_cases hnil : path.names = []
    · rw [hnil]
      rfl
    · have hslash : ∀ piece ∈ path.names.map Subtype.val, '/' ∉ piece :=
        forall_mem_map.mpr fun name _ => name.2.2.1
      rw [bodyComponents, splitOn_intercalate '/' hslash (mt map_eq_nil_iff.mp hnil), filterMap_map,
        ← filterMap_eq_map]
      exact filterMap_congr fun name _ => dif_pos name.2
  -- a text that begins with a slash is neither expanded nor read from the base
  have hread : resolvePathAgainstBase home path.display base =
      normalizePath (pathComponents path.display) := by
    cases home <;> rfl
  rw [hread, pathComponents_eq, AbsolutePathBuf.display, bodyComponents_slash, hbody]
  exact normalizePath_components path

end Codex
