import RemoteDevbox.Box.Facts
import RemoteDevbox.Client.Agents

namespace RemoteDevbox.Client

open Js Box

/-!
# The health a client collects

Launch agents, mounts and the sync session are probed one by one. A component
keeps its id and its recovery policy through every verdict; the texts that only
a reader sees are left out.
-/

inductive HealthStatus where
  | healthy
  | degraded
  | recovering
  | blocked
  | failed
  | unknown
  deriving DecidableEq

structure HealthResult where
  id : String
  status : HealthStatus
  reason : Option String
  recovery : RecoveryPolicy
  deriving DecidableEq

structure LocalHealthResult extends HealthResult where
  remoteComponent : Option String

/-! ## Launch agents -/

structure LaunchctlState where
  state : Option String
  pid : Option ℕ

/-- What the probes of one agent answer; `none` where a probe could not run. The
listener probe is given the process it is asked about. -/
structure AgentEvidence where
  launchctl : Option (Bool × LaunchctlState)
  marker : Option String
  lsof : ℕ → Option Bool

def agentHealthIdentity (label profile : String) : String × Option String :=
  if label = agentLabel profile "desktop" then
    ("client.rdp-tunnel." ++ profile, some "desktop.xrdp")
  else if label = agentLabel profile "browser" then
    ("client.browser." ++ profile, some "browser.proxy")
  else ("client.agent." ++ label, none)

/-- The port of `127.0.0.1:<port>:`. -/
def forwardedPort (forward : String) : Option String :=
  let head := "127.0.0.1:".toList
  if head.isPrefixOf forward.toList then
    let port := (forward.toList.drop head.length).takeWhile Regex.isDigit
    let rest := (forward.toList.drop head.length).dropWhile Regex.isDigit
    if Regex.isMatch PORT_NUMBER_RE port && rest.head? == some ':' then some (String.ofList port)
    else none
  else none

/-- The word behind `-L`. -/
def forwardOption : List Word → Option String
  | .text "-L" :: .text forward :: _ => some forward
  | _ :: words => forwardOption words
  | [] => none

/-- The listener of an agent that holds a local forward. -/
def localForwardPort (spec : AgentSpec) : Option String :=
  match spec.forwardPort.filter truthyPort with
  | some port => some port.toStr
  | none => (forwardOption spec.argv).bind forwardedPort

/-- The process that should hold the listener. -/
def listenerPid (spec : AgentSpec) (evidence : AgentEvidence) (pid : ℕ) : Option ℕ :=
  match spec.readyFile with
  | none => some pid
  | some _ =>
      let marker := Text.trim (evidence.marker.getD "")
      if Text.test PORT_NUMBER_RE marker then some (Decimal.ofDigits marker.toList) else none

/-- The status, the reason and the policy of one agent. -/
def agentVerdict (spec : AgentSpec) (evidence : AgentEvidence) :
    HealthStatus × Option String × RecoveryPolicy :=
  match evidence.launchctl with
  | none => (.unknown, some "launchctl_unavailable", .none)
  | some (false, _) => (.failed, some "agent_not_loaded", .automatic)
  | some (true, runtime) =>
      if spec.mode = .interval then (.healthy, none, .automatic)
      else if runtime.state ≠ some "running" then
        (.recovering, some "agent_not_running", .automatic)
      else
        match runtime.pid with
        | none => (.recovering, some "agent_not_running", .automatic)
        | some pid =>
            if (localForwardPort spec).isNone then (.healthy, none, .automatic)
            else
              match listenerPid spec evidence pid with
              | none => (.recovering, some "agent_not_ready", .automatic)
              | some owner =>
                  match evidence.lsof owner with
                  | none => (.unknown, some "listener_probe_unavailable", .none)
                  | some false => (.failed, some "listener_owner_mismatch", .automatic)
                  | some true => (.healthy, none, .automatic)

def probeAgentHealth (spec : AgentSpec) (profile : String) (evidence : AgentEvidence) :
    LocalHealthResult :=
  let identity := agentHealthIdentity spec.label profile
  let verdict := agentVerdict spec evidence
  ⟨⟨identity.1, verdict.1, verdict.2.1, verdict.2.2⟩, identity.2⟩

/-- The number at the end of a port agent's label. -/
def labelPort (label : String) : ℕ := Decimal.ofDigits (label.toList.rtakeWhile Regex.isDigit)

/-- The agent of an installed port label, unless it is described already or its
number is no port. -/
def installedPortAgent (env : ClientEnv) (profile host : String) (specs : List AgentSpec)
    (label : String) : Js (List AgentSpec) :=
  if (specs.map (·.label)).contains label || labelPort label > 65535 then .ok []
  else do
    let spec ← (if Text.includes label ".browser-autobind-port-" then browserAutoBindAgent
      else browserPortAgent) env profile (.ofInt (labelPort label)) host
    return [spec]

/-- The agents behind those already listed, one installed label after the other. -/
def installedPortAgents (env : ClientEnv) (profile host : String) (specs : List AgentSpec) :
    List String → Js (List AgentSpec)
  | [] => .ok specs
  | label :: labels => do
      let more ← installedPortAgent env profile host specs label
      installedPortAgents env profile host (specs ++ more) labels

def configuredAgentSpecs (env : ClientEnv) (cfg : Config) (profile : String) (mode : BrowserMode)
    (installed : List String) : Js (List AgentSpec) := do
  let described ← agentsFor env cfg profile
  let autoBind ← (if mode == .client && (browserFailoverOf cfg profile).isSome then
    autoBindAgents env cfg profile else .ok [])
  installedPortAgents env profile (hostFor cfg profile) (upSpecs profile mode described ++ autoBind)
    (installedAnyBrowserPortAgentLabels profile installed)

/-! ## Mounts -/

structure MountRecoveryEvidence where
  mounted : Bool
  reachable : Option Bool
  openHandles : Option ℕ
  ownedBridge : Option Bool

inductive MountRecoveryDecision where
  | run (reason : String)
  | skip (reason : String)
  | refuse (reason : String)

def decideMountRecovery (evidence : MountRecoveryEvidence) : MountRecoveryDecision :=
  match evidence.ownedBridge with
  | none => .refuse "mount_evidence_unknown"
  | some false => .refuse "foreign_mount_process"
  | some true =>
      if !evidence.mounted then .run "mount_absent"
      else
        match evidence.reachable with
        | some true => .skip "already_healthy"
        | none => .refuse "mount_evidence_unknown"
        | some false =>
            match evidence.openHandles with
            | none => .refuse "mount_busy_or_unknown"
            | some 0 => .run "mount_disconnected_clean"
            | some _ => .refuse "mount_busy"

def mountHealthFromEvidence (profile label : String) (evidence : MountRecoveryEvidence) :
    LocalHealthResult :=
  let id := "client.mount." ++ profile ++ "." ++ label
  match decideMountRecovery evidence with
  | .skip _ => ⟨⟨id, .healthy, none, .automatic⟩, none⟩
  | .run reason => ⟨⟨id, .failed, some reason, .automatic⟩, none⟩
  | .refuse reason =>
      if reason = "mount_evidence_unknown" ∨ reason = "mount_busy_or_unknown" then
        ⟨⟨id, .unknown, some reason, .automatic⟩, none⟩
      else ⟨⟨id, .blocked, some reason, .automatic⟩, none⟩

def syncDiskRoot (env : ClientEnv) (profile : String) : String :=
  resolvePath env (joinPath env.homedir ("devbox/" ++ profile))

def planMount (env : ClientEnv) (profile : String) (mount : LazyMount) : Js String :=
  if pathsOverlap env (normalizePath env mount.path) (syncDiskRoot env profile) then
    die s!"lazy mount '{mount.label}' overlaps the sync disk"
  else .ok mount.label

/-- The labels of the mounts; a mount over the sync disk ends the command. -/
def planMounts (env : ClientEnv) (cfg : Config) (profile : String) : Js (List String) :=
  (lazyMountsFor cfg profile).mapM (planMount env profile)

def collectMountHealth (env : ClientEnv) (cfg : Config) (profile : String)
    (evidence : String → MountRecoveryEvidence) : Js (List LocalHealthResult) := do
  let plans ← planMounts env cfg profile
  return plans.map fun label ↦ mountHealthFromEvidence profile label (evidence label)

/-! ## The sync session -/

structure SyncStatus where
  state : String
  conflicts : Option ℕ

/-- `/word/i.test(text)`. -/
def mentions (word text : String) : Bool := Text.includes (Text.lower text) word

/-- `registered` is `none` for an engine without a supervisor of its own. -/
def syncHealthFromStatus (profile : String) (evidence : SyncStatus) (registered : Option Bool) :
    LocalHealthResult :=
  let result (status : HealthStatus) (reason : Option String) : LocalHealthResult :=
    ⟨⟨"client.sync." ++ profile, status, reason, .automatic⟩, none⟩
  match evidence.conflicts with
  | none => result .unknown (some "sync_conflicts_unknown")
  | some (_ + 1) => result .blocked (some "sync_conflicts")
  | some 0 =>
      if mentions "paused" evidence.state then result .degraded (some "sync_paused")
      else if ["disconnected", "offline", "error", "halted"].any (mentions · evidence.state) then
        result .failed (some "sync_disconnected")
      else if registered = some false then
        result .degraded (some "sync_autostart_unregistered")
      else result .healthy none

/-- The session of the profile, when the engine knows one. -/
def collectSyncHealth (cfg : Config) (profile : String) (session : Option SyncStatus)
    (registered : Option Bool) : List LocalHealthResult :=
  if syncDiskEnabled cfg profile then
    match session with
    | none => [⟨⟨"client.sync." ++ profile, .unknown, some "sync_session_missing", .automatic⟩, none⟩]
    | some evidence => [syncHealthFromStatus profile evidence registered]
  else []

/-! ## With the health of the box -/

def downstreamResult (component : LocalHealthResult) (remote : Option HealthStatus) : HealthResult :=
  if component.status ≠ .healthy then component.toHealthResult
  else
    match remote with
    | none | some .unknown =>
        { component.toHealthResult with status := .unknown, reason := some "downstream_unknown" }
    | some .failed =>
        { component.toHealthResult with status := .failed, reason := some "downstream_unit_failed" }
    | some .blocked =>
        { component.toHealthResult with status := .blocked, reason := some "downstream_blocked" }
    | some .healthy => component.toHealthResult
    | some status =>
        { component.toHealthResult with status := status, reason := some "downstream_unhealthy" }

/-- `box` is the status that the box reports for a component. -/
def combineHealth (box : String → Option HealthStatus) (component : LocalHealthResult) :
    HealthResult :=
  match component.remoteComponent with
  | some remote => downstreamResult component (box remote)
  | none => component.toHealthResult

/-- Everything the probes of one collection answer. -/
structure ClientEvidence where
  agent : String → AgentEvidence
  mount : String → MountRecoveryEvidence
  session : Option SyncStatus
  registered : Option Bool
  box : String → Option HealthStatus

/-- The components of the client in one `devbox doctor`. -/
def collectClientHealth (env : ClientEnv) (cfg : Config) (profile : String) (mode : BrowserMode)
    (installed : List String) (evidence : ClientEvidence) : Js (List HealthResult) := do
  let specs ← configuredAgentSpecs env cfg profile mode installed
  let mounts ← collectMountHealth env cfg profile evidence.mount
  return (specs.map (fun spec ↦ probeAgentHealth spec profile (evidence.agent spec.label)) ++
    mounts ++ collectSyncHealth cfg profile evidence.session evidence.registered).map
      (combineHealth evidence.box)

end RemoteDevbox.Client
