import RemoteDevbox.Account.Concurrent
import RemoteDevbox.Account.Confinement
import RemoteDevbox.Account.IdentitySwap
import RemoteDevbox.Account.Interrupted
import RemoteDevbox.Account.Logins
import RemoteDevbox.Account.Migration
import RemoteDevbox.Account.OmpPin
import RemoteDevbox.Account.Opencode
import RemoteDevbox.Account.Ownership
import RemoteDevbox.Account.Script
import RemoteDevbox.Account.Sequential
import RemoteDevbox.Account.Tracked
import RemoteDevbox.Account.Vault
import RemoteDevbox.Ansible.DerivedNames
import RemoteDevbox.Ansible.FactsAccepted
import RemoteDevbox.Ansible.HealthFacts
import RemoteDevbox.Ansible.HeavyGate
import RemoteDevbox.Ansible.Inventory
import RemoteDevbox.Ansible.Ports
import RemoteDevbox.Ansible.Vars
import RemoteDevbox.Box.BrowserReap
import RemoteDevbox.Box.BrowserSelection
import RemoteDevbox.Box.Collect
import RemoteDevbox.Box.Document
import RemoteDevbox.Box.Facts
import RemoteDevbox.Box.GatePath
import RemoteDevbox.Box.GuardPass
import RemoteDevbox.Box.GuardRuns
import RemoteDevbox.Box.HeavyCommand
import RemoteDevbox.Box.Listeners
import RemoteDevbox.Box.MemorySizes
import RemoteDevbox.Box.ModelPresets
import RemoteDevbox.Box.OmpGate
import RemoteDevbox.Box.Outcomes
import RemoteDevbox.Box.PresetAgreement
import RemoteDevbox.Box.PresetAtomic
import RemoteDevbox.Box.PresetCommand
import RemoteDevbox.Box.PresetController
import RemoteDevbox.Box.PresetReplay
import RemoteDevbox.Box.PresetRuns
import RemoteDevbox.Box.ProfilePurge
import RemoteDevbox.Box.Recover
import RemoteDevbox.Box.RunawayGuard
import RemoteDevbox.Box.SessionReap
import RemoteDevbox.Box.SlotPool
import RemoteDevbox.Box.WorktreeReap
import RemoteDevbox.Client.AgentRuns
import RemoteDevbox.Client.Agents
import RemoteDevbox.Client.AppConfigs
import RemoteDevbox.Client.AppLinks
import RemoteDevbox.Client.ApplyLocks
import RemoteDevbox.Client.ApplyRuns
import RemoteDevbox.Client.Bridges
import RemoteDevbox.Client.Config
import RemoteDevbox.Client.Document
import RemoteDevbox.Client.Editors
import RemoteDevbox.Client.Excludes
import RemoteDevbox.Client.Health
import RemoteDevbox.Client.MountLock
import RemoteDevbox.Client.PathOverlap
import RemoteDevbox.Client.Paths
import RemoteDevbox.Client.Recovery
import RemoteDevbox.Client.RecoveryCoverage
import RemoteDevbox.Client.RecoveryFacts
import RemoteDevbox.Client.RecoverySelection
import RemoteDevbox.Client.Remotes
import RemoteDevbox.Client.Sidecar
import RemoteDevbox.Client.SshInclude
import RemoteDevbox.Client.Transcript
import RemoteDevbox.Client.TranscriptRoundTrip
import RemoteDevbox.Lib.Binary64
import RemoteDevbox.Lib.Casing
import RemoteDevbox.Lib.Cut
import RemoteDevbox.Lib.Decimal
import RemoteDevbox.Lib.Dialogue
import RemoteDevbox.Lib.Effects
import RemoteDevbox.Lib.Js.Assign
import RemoteDevbox.Lib.Js.CodeUnits
import RemoteDevbox.Lib.Js.Date
import RemoteDevbox.Lib.Js.Json
import RemoteDevbox.Lib.Js.Number
import RemoteDevbox.Lib.Js.Pattern
import RemoteDevbox.Lib.Js.RegExp
import RemoteDevbox.Lib.Js.Text
import RemoteDevbox.Lib.Js.Value
import RemoteDevbox.Lib.Lists
import RemoteDevbox.Lib.Py.Comments
import RemoteDevbox.Lib.Py.Float
import RemoteDevbox.Lib.Py.Fnmatch
import RemoteDevbox.Lib.Py.Path
import RemoteDevbox.Lib.Py.Shlex
import RemoteDevbox.Lib.Py.Text
import RemoteDevbox.Lib.Py.Time
import RemoteDevbox.Lib.Py.Value
import RemoteDevbox.Lib.Py.Words
import RemoteDevbox.Lib.Regex
import RemoteDevbox.Lib.Runs
import RemoteDevbox.Lib.Shell
import RemoteDevbox.Lib.Sightings
import RemoteDevbox.Lib.Slots
import RemoteDevbox.Lib.Substitution
import RemoteDevbox.Lib.Worst
import RemoteDevbox.Lib.Yaml.Block
import RemoteDevbox.Lib.Yaml.Scalar
import RemoteDevbox.Resume.BridgeIds
import RemoteDevbox.Resume.BridgeMap
import RemoteDevbox.Resume.Isolation
import RemoteDevbox.Resume.Planner
import RemoteDevbox.Resume.Quarantine
import RemoteDevbox.Resume.Scan
import RemoteDevbox.Resume.ScanFacts
import RemoteDevbox.Spec.ClientPorts
import RemoteDevbox.Spec.Closure
import RemoteDevbox.Spec.Emittable
import RemoteDevbox.Spec.GateStages
import RemoteDevbox.Spec.HeavyGate
import RemoteDevbox.Spec.Issues
import RemoteDevbox.Spec.Keyboard
import RemoteDevbox.Spec.LazyMounts
import RemoteDevbox.Spec.Load
import RemoteDevbox.Spec.Normalize
import RemoteDevbox.Spec.Plan
import RemoteDevbox.Spec.PlanGate
import RemoteDevbox.Spec.Ports
import RemoteDevbox.Spec.References
import RemoteDevbox.Spec.Resolve
import RemoteDevbox.Spec.Secrets
import RemoteDevbox.Spec.Timing
import RemoteDevbox.Spec.Totality
import RemoteDevbox.Spec.Totality.Generator
import RemoteDevbox.Spec.Totality.Promises
import RemoteDevbox.Spec.Totality.Report
import RemoteDevbox.Spec.Types
import RemoteDevbox.Spec.Validate
import RemoteDevbox.Spec.Validate.Developers
import RemoteDevbox.Spec.Validate.Host
import RemoteDevbox.Spec.Validate.Services
import RemoteDevbox.Spec.Validate.Shared
import RemoteDevbox.Spec.Yaml
import RemoteDevbox.Spec.YamlLayout
import RemoteDevbox.Spec.YamlTokens
