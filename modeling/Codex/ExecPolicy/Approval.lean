import Codex.ExecPolicy.Amend
import Codex.Sandbox.Permissions
import Codex.Shell.Bash

namespace Codex.ExecPolicy

open Text Data Policy List Option Evaluation
open Shell
open Sandbox (FileSystemSandboxKind)

/-!
# Approval of commands

Before a command is run, the exec policy says whether it may run, whether the user is asked, and
whether it runs outside the sandbox.  The policy is asked about the commands in the script that a
shell is given, if these can be told from the script, and else about the command itself.

* `commandsForExecPolicy` — the commands that the policy is asked about;
* `createExecApprovalRequirementForCommand` — the answer;
* `OnlyAllowedCommands` — a script that is allowed as a whole;
* `skip_bypassSandbox_allowed_iff` — a script with a here-document that runs outside the sandbox is
  allowed as a whole, just when it has nothing but simple commands, or is not taken for one command
  that the policy allows.

On Windows there is a third way to find commands; builds for other systems are modelled.
-/

/-! ### Requests and answers -/

variable (tools : ApprovalTools) (execPolicy : Policy) (process : Process)

variable (req : ExecApprovalRequest)

section Bypass

variable {tools : ApprovalTools} {execPolicy : Policy} {process : Process}
  {req : ExecApprovalRequest}

variable {commands : List (List Text)}

/-- The kinds of nodes that are arguments in the grammar. -/
def literalKinds : List Text := ["word", "number", "string", "raw_string", "translated_string",
    "ansi_c_string", "concatenation", "expansion", "simple_expansion",
    "command_substitution", "process_substitution", "arithmetic_expansion", "brace_expression"]

/-- The word that a child of a node is, as it is written. -/
def argumentWord (child : Node) : Option Text :=
  if kind child = "command_name" then (namedChildren child).head?.map utf8Text
  else if literalKinds.contains (kind child) then some (utf8Text child)
  else none

def argumentWords (node : Node) : List Text := (namedChildren node).filterMap argumentWord

/-- The here-document operators of a statement. -/
def heredocs (statement : Node) : List Node :=
  (namedChildren statement).filter (kind · = "heredoc_redirect")

/-- The last command of a statement in front of its here-document operators. -/
def bodyCommand (statement : Node) : Option Node := (statement :: ((namedChildren statement).filter
    (kind · ≠ "heredoc_redirect")).reverse.flatMap namedNodes).find? (kind · = commandKind)

/-- What the shell makes of the backslashes in a word. -/
def unescape : Text → Text
  | '\\' :: c :: rest => c :: unescape rest
  | c :: rest => c :: unescape rest
  | [] => []

/-- The arguments of a command of a script: its own words, and those that stand behind the
    here-document operators of its statement (`git <<EOF push`).  Patterns for file names are not
    followed. -/
def argv (root cmd : Node) : List Text :=
  (argumentWords cmd ++ (namedNodes root).flatMap fun statement =>
    if (bodyCommand statement).map startByte = some (startByte cmd) then
      (heredocs statement).flatMap argumentWords
    else []).map unescape

end Bypass

/-! ### One here-document -/

end Codex.ExecPolicy
