import Codex.ApplyPatch.Untouched
import Codex.ApplyPatch.Preview
import Codex.TurnDiff.Rename
import Codex.TurnDiff.Cache
import Codex.ApplyPatch.LineEndings
import Codex.ApplyPatch.RoundTrip
import Codex.StreamText.AssistantText
import Codex.ExecPolicy.Approval
import Codex.ExecPolicy.NetworkRules
import Codex.NetworkProxy.Telemetry
import Codex.NetworkProxy.Allowlist
import Codex.Sandbox.RunSafe
import Codex.Sandbox.Intersect
import Codex.Sandbox.Signature
import Codex.Rollout.Settings
import Codex.Context.Normalize
import Codex.Relay.Complete
import Codex.Relay.Budget
import Codex.ExecServer.Resume
import Codex.ExecServer.Shutdown
import Codex.ExecServer.ClientSession
import Codex.ExecServer.RpcClient
import Codex.Mcp.StdoutComplete
import Codex.MessageHistory.Log
import Codex.Provision.Version
import Codex.Config.RequirementsLayers
import Codex.Agents.Residency
import Codex.UnifiedExec.HeadTailBuffer
