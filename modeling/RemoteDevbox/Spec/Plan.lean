import RemoteDevbox.Spec.Normalize

namespace RemoteDevbox.Spec

open Js Client

/-!
# The plan report

What an operator reads before an apply: the resolved decisions, in text.
-/

def LABEL_WIDTH : ℕ := 12

def row (label value indent : String) : String :=
  indent ++ Text.padEnd LABEL_WIDTH label ++ value

/-- `` `${k}${sep}${v}` `` over the entries of a mapping. -/
def pairTexts (pre sep : String) : Fields → Js (List String)
  | [] => .ok []
  | (k, v) :: rest => do
      let shown ← v.toStr
      let more ← pairTexts pre sep rest
      return (pre ++ k ++ sep ++ shown) :: more

/-- `text ` followed by the value when it is truthy. -/
def suffixed (text : String) (v : Val) : Js String :=
  if v.truthy then do
    let shown ← v.toStr
    return text ++ shown
  else .ok ""

def count (n : ℕ) (noun : String) : String := s!"{n} {noun}" ++ if n = 1 then "" else "s"

/-! ## One developer -/

def heavyJobsLine (dev hostGate : Val) : Js String := do
  let gate := dev.get "heavy_job_gate"
  if !(gateField hostGate gate "enabled" true).truthy then return "off"
  else
    let categories := HEAVY_JOB_CATEGORIES.filter fun c ↦ (gateCategory hostGate gate c).truthy
    let wait ← (gateField hostGate gate "wait_timeout_sec" 1800).toStr
    let warn ← (gateField hostGate gate "warn_after_sec" 5).toStr
    let defaultMemory := (gate.get "memory_max").orElse (hostGate.get "memory_max")
    let memory ←
      if defaultMemory.truthy then do
        let shown ← defaultMemory.toStr
        let perCategory ← pairTexts "/" " " ((hostGate.get "memory_max_by_category").ownFields.merge
          (gate.get "memory_max_by_category").ownFields)
        pure (s!" · memory {shown}" ++ "".intercalate perCategory)
      else .ok ""
    let slots ← (gateField hostGate gate "slots" 1).toStr
    let total ← suffixed " · total "
      ((gate.get "total_memory_max").orElse (hostGate.get "total_memory_max"))
    let shown := ",".intercalate categories
    return s!"on · {shown} · timeout {wait}s · warn {warn}s{memory} · slots {slots}{total}"

def resourcesLine (resources : Val) : Js String := do
  let high := resources.get "memory_high"
  let stated ←
    if high.isUndef then .ok []
    else do
      let shown ← formatMemoryLimit high
      let kind := if isMemoryWeight high then "weight " else ""
      pure [s!"memory_high {kind}{shown}"]
  let rest ← pairTexts "" " " (resources.ownFields.filter fun p ↦ p.1 != "memory_high")
  let limits := stated ++ rest
  return if limits.isEmpty then "unlimited (host defaults)" else " · ".intercalate limits

def named (keys : List String) (fallback : Val) : String :=
  if keys.isEmpty then "unmanaged"
  else ", ".intercalate (keys.map fun k ↦ if fallback.isStrLit k then s!"{k} (default)" else k)

/-- `v.k` of every entry, through a template of the key and the text. -/
def entryTexts (k : String) (text : String → String → String) : Fields → Js (List String)
  | [] => .ok []
  | (key, v) :: rest => do
      let field ← v.read k
      let shown ← field.toStr
      let more ← entryTexts k text rest
      return text key shown :: more

def agentsLine (dev : Val) : Js String := do
  let profiles := ((dev.get "agent_profiles").orElse (.obj [])).ownFields
  if profiles.isEmpty then return "none"
  else
    let cells ← entryTexts "provider" (fun k provider ↦
      let mark := if (dev.get "default_agent_profile").isStrLit k then ", default" else ""
      s!"{k} ({provider}{mark})") profiles
    return ", ".intercalate cells

def orcaLine (orca : Val) : Js String := do
  let version ← (orca.get "version").toStr
  let port ← ((orca.get "port").orElse DEFAULT_ORCA_PORT).toStr
  let mode ←
    if (orca.get "relay").isBoolLit true then .ok " · relay desktop (encrypted keyring)"
    else do
      let shown ← ((orca.get "pairing_address").orElse "127.0.0.1").toStr
      pure s!" · pairing {shown}"
  let ceiling ← (((orca.get "resources").get "memory_max").orElse "unset").toStr
  return s!"orca-serve.service · version {version} · port {port}{mode} · ceiling {ceiling}"

def memoryLine (memory : Val) : Js String := do
  let instances ← entryTexts "llm_provider" (fun k provider ↦ s!"{k}→{provider}")
    ((memory.get "instances").orElse (.obj [])).ownFields
  let spaces ← entryTexts "bank" (fun k bank ↦
    let mark := if (memory.get "default_space").isStrLit k then " (default)" else ""
    s!"{k}→{bank}{mark}") ((memory.get "spaces").orElse (.obj [])).ownFields
  let shown := ", ".intercalate instances
  let banks := ", ".intercalate spaces
  let stated := if shown == "" then "no instance" else shown
  let listed := if banks == "" then "none" else banks
  return s!"{stated} · spaces {listed}"

def xkb (layout variant : Val) : Js String := xkbName layout variant

/-- Where the layout of a session came from, not just what it is. -/
def describeKeyboard (dev : Val) (client : ClientFacts) : Js String :=
  let stated := (dev.get "desktop").get "keyboard"
  if stated.truthy then do
    let shown ← xkb (stated.get "layout") (stated.get "variant")
    return s!"keyboard {shown}"
  else
    match client.keyboard with
    | some k => do
        let shown ← xkb k.layout (optionalText k.variant)
        return s!"keyboard {shown} (detected from this client)"
    | none => .ok "keyboard us (box default — undetected)"

def desktopLine (dev tailscale clientPort : Val) (client : ClientFacts) : Js String := do
  let desktop := dev.get "desktop"
  let environment ← (desktop.get "environment").toStr
  let transport ← (desktop.get "transport").toStr
  let access ← ((desktop.get "access").orElse (defaultDesktopAccess tailscale)).elems
  let via ← Val.join " + " access
  let dials ← suffixed "client dials 127.0.0.1:" clientPort
  let idle ←
    if (desktop.get "idle_logout_minutes").truthy then do
      let shown ← (desktop.get "idle_logout_minutes").toStr
      pure s!"idle logout {shown}m"
    else .ok "no idle logout"
  let keyboard ← describeKeyboard dev client
  return " · ".intercalate [s!"{environment}/{transport}", s!"via {via}",
    if dials == "" then "no client port" else dials, idle, keyboard]

/-- The label shown for one app config. -/
def appConfigLabel (raw : Val) : Js Val := do
  match ← resolveEntry raw with
  | .ok entry => return entry.label
  | .error _ => do
      let shown ← raw.toStr
      return shown

def labelOf (mount : Val) : Js Val := mount.read "label"

def fileBridgeLine (dev : Val) (mounts : List Val) : Js String := do
  let fb := dev.get "file_bridge"
  let ac := dev.get "app_configs"
  let apps ←
    if (ac.get "enabled").truthy then ((ac.get "paths").orElse (.arr [])).elems else .ok []
  let labels ← apps.mapM appConfigLabel
  let parts ←
    if (fb.get "sync_disk").truthy then do
      let engine ← ((fb.get "engine").orElse "mutagen").toStr
      let shown ← Val.join ", " labels
      pure [s!"sync disk via {engine}",
        if labels.isEmpty then "no app configs" else s!"app configs {shown}"]
    else .ok ["no sync disk"]
  let mounted ←
    if mounts.isEmpty then .ok []
    else do
      let labels ← mounts.mapM labelOf
      let shown ← Val.join ", " labels
      let moment := if (fb.get "lazy_mount_on_connect").truthy then " (on connect)" else ""
      pure [s!"mounts {shown}{moment}"]
  return " · ".intercalate (parts ++ mounted)

/-- `name.length` of a string, as `Math.max` and `padEnd` use it. -/
def nameText (project : Val) : Js String := do
  match ← project.read "name" with
  | .str s => return s
  | _ => .error .typeError

def projectLine (width : ℕ) (project : Val) : Js String := do
  let name ← nameText project
  let git ← ((project.get "git_identity").orElse "unmanaged").toStr
  let agent ← ((project.get "agent_profile").orElse "none").toStr
  let engine ← (project.get "container_engine").toStr
  let memory ← ((project.get "memory_space").orElse "off").toStr
  let ports ← (project.get "ports").elems
  let shown ← Val.join "," ports
  let cells := [s!"git={git}", s!"agent={agent}", s!"engine={engine}", s!"memory={memory}"] ++
    if ports.isEmpty then [] else [s!"ports {shown}"]
  return "    " ++ Text.padEnd width name ++ "  " ++ "  ".intercalate cells

def projectLines (projects : List Val) : Js (List String) :=
  if projects.isEmpty then .ok [row "projects" "none" "  "]
  else do
    let names ← projects.mapM nameText
    let width := (names.map String.length).foldl max 0
    let lines ← projects.mapM (projectLine width)
    return "  projects" :: lines

/-- A line that is printed only under a condition. -/
def lineIf (c : Bool) (label : String) (value : Js String) : Js (List String) :=
  if c then do
    let shown ← value
    return [row label shown "  "]
  else .ok []

def arrayLength (v : Val) : Js ℕ := do
  let xs ← v.elems
  return xs.length

def developerLines (dev tailscale : Val) (client : ClientFacts) (clientPort hostGate : Val) :
    Js (List String) := do
  let user ← (← dev.read "user").toStr
  let title := s!"developer {user}" ++
    if (dev.get "adopt_existing").truthy then "  (adopt existing account)" else ""
  let keys ← arrayLength (dev.get "login_ssh_keys")
  let heavy ← heavyJobsLine dev hostGate
  let resources ← resourcesLine (dev.get "resources")
  let agents ← agentsLine dev
  let codex ← lineIf (dev.get "codex_remote_control").truthy "codex rc"
    (.ok "always-on daemon · own CODEX_HOME (codex-remote-control)")
  let paseo ← lineIf (dev.get "paseo_daemon").truthy "paseo" (do
    let ceiling ← (((dev.get "paseo_resources").get "memory_max").orElse "unset").toStr
    return s!"managed daemon · ceiling {ceiling}")
  let orca ← lineIf (((dev.get "orca").get "enabled").isBoolLit true) "orca"
    (orcaLine (dev.get "orca"))
  let memory ←
    if ((dev.get "memory").get "enabled").truthy then memoryLine (dev.get "memory")
    else .ok "disabled"
  let desktop ← lineIf ((dev.get "desktop").get "enabled").truthy "desktop"
    (desktopLine dev tailscale clientPort client)
  let mounts ← (((dev.get "file_bridge").get "lazy_mounts").orElse (.arr [])).elems
  let bridge ← lineIf (((dev.get "file_bridge").get "sync_disk").truthy || !mounts.isEmpty)
    "file bridge" (fileBridgeLine dev mounts)
  let projects ← (dev.get "projects").elems
  let projectRows ← projectLines projects
  return [title, row "login keys" (toString keys) "  ", row "heavy jobs" heavy "  ",
      row "resources" resources "  ",
      row "git" (named (keysOf (dev.get "git_identities")) (dev.get "default_git_identity")) "  ",
      row "agents" agents "  "] ++
    codex ++ paseo ++ orca ++ [row "memory" memory "  "] ++ desktop ++ bridge ++ projectRows

/-! ## The report -/

def networkLine (resolved : Val) : Js String := do
  let tailscale ← tailscaleEnabled resolved
  let ssh ← (← resolved.read "network").read "ssh"
  let access ← ssh.read "access"
  let paths ← (access.orElse (defaultSshAccess tailscale)).elems
  let via ← Val.join " + " paths
  let state := if tailscale.truthy then "on" else "off"
  return s!"tailscale {state} · ssh via {via}"

def containersLine (container : Val) : Js String := do
  let default ← (← container.read "default_engine").toStr
  let engines ← (container.get "install_engines").elems
  let installed ← Val.join ", " engines
  return s!"default {default} · installed {installed}"

def limitText (limit : Val) : Js String := do
  let redis ← suffixed " · redis " (← limit.read "redis_maxmemory")
  let user ← (limit.get "user").toStr
  let name ← (limit.get "name").toStr
  let memory ← (limit.get "memory_max").toStr
  return s!"{user}/{name} {memory}{redis}"

def limitsLine (container : Val) : Js String := do
  let limits ← ((container.get "runtime_limits").orElse (.arr [])).elems
  let shown ← limits.mapM limitText
  return if limits.isEmpty then "none" else ", ".intercalate shown

def sharedServicesLine (services : Val) : Js String :=
  if (services.get "enabled").truthy then do
    let engine ← (services.get "engine").toStr
    return s!"enabled ({engine})"
  else .ok "disabled"

def clientCliLine (clients : Val) : Js String := do
  let targets ← ((clients.get "cli_targets").orElse (.arr (DEFAULT_CLI_TARGETS.map .str))).elems
  let shown ← Val.join ", " targets
  return if targets.isEmpty then "not published" else s!"published for {shown}"

def runtimesLine (runtimes : Val) : Js String := do
  let shown ← pairTexts "" " " ((runtimes.orElse (.obj [])).ownFields)
  return if shown.isEmpty then "none" else " · ".intercalate shown

def titleLine (platform : Val) : Js String := do
  let distribution ← (← platform.read "distribution").toStr
  let version ← (platform.get "version").toStr
  let architecture ← (platform.get "architecture").toStr
  return s!"devbox plan — {distribution} {version} {architecture}"

def operatorLine (operator : Val) : Js String := do
  let keys ← arrayLength (← operator.read "ssh_authorized_keys")
  let user ← (operator.get "user").toStr
  let held := count keys "ssh key"
  return s!"{user} ({held})"

def renderPlan (resolved : Val) (issues : List Issue) (secretNames : List String)
    (client : ClientFacts) : Js String := do
  let title ← titleLine (resolved.get "platform")
  let operator ← operatorLine (resolved.get "operator")
  let network ← networkLine resolved
  let containers ← containersLine (resolved.get "container")
  let limits ← limitsLine (resolved.get "container")
  let services ← sharedServicesLine (resolved.get "shared_services")
  let cli ← clientCliLine (resolved.get "clients")
  let secrets := if secretNames.isEmpty then "none loaded" else listed secretNames
  let runtimes ← runtimesLine (resolved.get "runtimes")
  let developers ← (resolved.get "developers").elems
  let clientPorts := assignClientPorts (developers.map clientPortInput)
  let tailscale ← tailscaleEnabled resolved
  let blocks ← developers.mapM fun dev ↦
    developerLines dev tailscale client (portOf clientPorts (dev.get "user"))
      ((resolved.get "host").get "heavy_job_gate")
  let errors := (issues.filter fun i ↦ i.severity == .error).length
  let warnings := issues.length - errors
  return "\n".intercalate ([title, "", row "operator" operator "", row "network" network "",
      row "containers" containers "", row "ctr limits" limits "", row "shared svcs" services "",
      row "client cli" cli "", row "secrets" secrets "", row "runtimes" runtimes ""] ++
    blocks.flatMap (fun lines ↦ "" :: lines) ++
    ["", count warnings "warning" ++ ", " ++ count errors "error"])

end RemoteDevbox.Spec
