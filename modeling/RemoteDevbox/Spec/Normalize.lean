import RemoteDevbox.Client.AppConfigs
import RemoteDevbox.Spec.Keyboard
import RemoteDevbox.Spec.Resolve

namespace RemoteDevbox.Spec

open Js Client

/-!
# The generated variables

A resolved spec becomes the `devbox_*` variables Ansible consumes. Nothing is
optional in the output: every field the operator left out is filled in here.
-/

/-! ## The heavy-job gate -/

/-- `developer?.k ?? host?.k ?? d`. -/
def gateField (host developer : Val) (k : String) (d : Val) : Val :=
  (developer.get k).orElse ((host.get k).orElse d)

def gateCategory (host developer : Val) (category : String) : Val :=
  ((developer.get "categories").get category).orElse
    (((host.get "categories").get category).orElse true)

def gateCategoryMemory (host developer : Val) (category : String) : Val :=
  ((developer.get "memory_max_by_category").get category).orElse
    ((host.get "memory_max_by_category").get category)

def normalizeHeavyJobGate (host developer : Val) : Val :=
  .obj
    [("enabled", gateField host developer "enabled" true),
     ("categories", .obj (HEAVY_JOB_CATEGORIES.map fun c ↦ (c, gateCategory host developer c))),
     ("wait_timeout_sec", gateField host developer "wait_timeout_sec" 1800),
     ("warn_after_sec", gateField host developer "warn_after_sec" 5),
     ("memory_max",
       (canonicalOrNull (gateField host developer "memory_max" "8G")).orElse "8G"),
     ("memory_max_by_category", .obj (HEAVY_JOB_CATEGORIES.filterMap fun c ↦
       let value := gateCategoryMemory host developer c
       if value.isUndef then none else some (c, canonicalOrSame value))),
     ("slots", gateField host developer "slots" 1),
     ("total_memory_max", canonicalOrSame (gateField host developer "total_memory_max" ""))]

/-! ## Resources -/

def MEMORY_KEYS : List String := ["memory_high", "memory_max", "memory_swap_max"]

def normalizeDirectMemoryResources (resources : Fields) (includeServiceKnobs : Bool) : Fields :=
  (if includeServiceKnobs then SERVICE_RESOURCE_KEYS else SLICE_RESOURCE_KEYS).filterMap fun key ↦
    let value := resources.lookup key
    if value.isUndef then none
    else some (key, if MEMORY_KEYS.contains key then canonicalOrSame value else value)

def serviceResources (resources : Fields) : Val :=
  .obj (normalizeDirectMemoryResources resources true)

/-! ## The host -/

def normalizeRunawayGuard (host : Val) : Val :=
  let guard := host.get "runaway_guard"
  .obj
    [("enabled", (guard.get "enabled").orElse true),
     ("interval_sec", (guard.get "interval_sec").orElse 30),
     ("grace_sec", (guard.get "grace_sec").orElse 120),
     ("rss_floor_mb", (guard.get "rss_floor_mb").orElse 2048),
     ("dominance_percent", (guard.get "dominance_percent").orElse 10),
     ("high_ratio", (guard.get "high_ratio").orElse (.num (.fin (.ofScientific 98 (-2))))),
     ("pressure_full_min", (guard.get "pressure_full_min").orElse 25),
     ("scan_deadline_sec", (guard.get "scan_deadline_sec").orElse 20)]

def normalizePaseoSessionReap (host : Val) : Val :=
  let reap := host.get "paseo_session_reap"
  .obj
    [("enabled", (reap.get "enabled").orElse true),
     ("idle_hours", (reap.get "idle_hours").orElse 12),
     ("interval_sec", (reap.get "interval_sec").orElse 3600)]

def normalizeMonitoring (host : Val) : Js Val := do
  let mon := host.get "monitoring"
  let access ← ((mon.get "access").orElse (.arr ["tunnel"])).spread
  return .obj
    [("enabled", (mon.get "enabled").orElse false),
     ("port", (mon.get "port").orElse 19999),
     ("access", .arr access),
     ("retention_days", (mon.get "retention_days").orElse 14),
     ("memory_max", canonicalOrNull ((mon.get "memory_max").orElse "768M"))]

def normalizeHost (host : Val) : Js Val := do
  let zram := host.get "zram"
  let oomd := host.get "oomd"
  let locales ← ((host.get "locales").orElse (.arr ["en_US.UTF-8"])).spread
  let monitoring ← normalizeMonitoring host
  return .obj
    [("swap_size", (host.get "swap_size").orElse "4G"),
     ("memory_reserve", canonicalOrNull ((host.get "memory_reserve").orElse "4G")),
     ("tmp_size", (host.get "tmp_size").orElse "4G"),
     ("zram", .obj
       [("enabled", (zram.get "enabled").orElse false),
        ("percent", (zram.get "percent").orElse 50),
        ("algo", (zram.get "algo").orElse "zstd"),
        ("priority", (zram.get "priority").orElse 100)]),
     ("locales", .arr locales),
     ("mosh", (host.get "mosh").orElse true),
     ("eternal_terminal", (host.get "eternal_terminal").orElse false),
     ("harden_ssh", (host.get "harden_ssh").orElse true),
     ("hide_pids", (host.get "hide_pids").orElse true),
     ("github_cli", (host.get "github_cli").orElse true),
     ("umask", (host.get "umask").orElse "077"),
     ("swappiness", (host.get "swappiness").orElse .null),
     ("heavy_job_gate", normalizeHeavyJobGate (host.get "heavy_job_gate") .undef),
     ("runaway_guard", normalizeRunawayGuard host),
     ("paseo_session_reap", normalizePaseoSessionReap host),
     ("monitoring", monitoring),
     ("oomd", .obj
       [("enabled", (oomd.get "enabled").orElse true),
        ("memory_pressure_limit", (oomd.get "memory_pressure_limit").orElse "60%"),
        ("memory_pressure_duration_sec",
          (oomd.get "memory_pressure_duration_sec").orElse 20)])]

/-! ## Box-wide services -/

def normalizePlatform (platform : Val) : Js Val := do
  let distribution ← platform.read "distribution"
  return .obj
    [("distribution", distribution),
     ("version", platform.get "version"),
     ("architecture", platform.get "architecture")]

def normalizeOperator (operator : Val) : Js Val := do
  let user ← operator.read "user"
  let keys ← (operator.get "ssh_authorized_keys").spread
  return .obj
    [("user", user),
     ("ssh_authorized_keys", .arr keys),
     ("private_key_path", (operator.get "private_key_path").orElse "~/.ssh/id_ed25519")]

def tailscaleEnabled (resolved : Val) : Js Val := do
  let tailscale ← (← resolved.read "network").read "tailscale"
  tailscale.read "enabled"

def normalizeNetwork (resolved tailscale : Val) : Js Val := do
  let ssh ← (← resolved.read "network").read "ssh"
  let access ← ssh.read "access"
  return .obj
    [("tailscale", .obj [("enabled", tailscale)]),
     ("ssh", .obj [("access", access.orElse (defaultSshAccess tailscale))])]

def normalizeRuntimeLimit (limit : Val) : Js Val := do
  let memory ← limit.read "memory_max"
  let swap := (limit.get "memory_swap_max").orElse memory
  let redis := limit.get "redis_maxmemory"
  let sized := (limit.ownFields.set "memory_max" (canonicalOrNull memory)).set "memory_swap_max"
    (canonicalOrNull swap)
  return .obj (if redis.isUndef then sized else sized.set "redis_maxmemory" (canonicalOrNull redis))

def normalizeContainer (container : Val) : Js Val := do
  let default ← container.read "default_engine"
  let engines ← (container.get "install_engines").spread
  let declared ← ((container.get "runtime_limits").orElse (.arr [])).elems
  let limits ← declared.mapM normalizeRuntimeLimit
  return .obj
    [("default_engine", default),
     ("install_engines", .arr engines),
     ("runtime_limits", .arr limits)]

def normalizeFailover (failover : Val) : Val :=
  .obj
    [("enabled", (failover.get "enabled").orElse false),
     ("chrome_user", (failover.get "chrome_user").orElse .null),
     ("cdp_port", (failover.get "cdp_port").orElse DEFAULT_CDP_PORT),
     ("fallback_chrome_port",
       (failover.get "fallback_chrome_port").orElse DEFAULT_FALLBACK_CHROME_PORT),
     ("client_tunnel_port",
       (failover.get "client_tunnel_port").orElse DEFAULT_CLIENT_TUNNEL_PORT),
     ("autobind", (failover.get "autobind").orElse false)]

def normalizeBrowserReap (reap : Val) : Val :=
  .obj
    [("enabled", (reap.get "enabled").orElse true),
     ("interval_sec", (reap.get "interval_sec").orElse 300),
     ("grace_sec", (reap.get "grace_sec").orElse 900)]

def mcpServerRow (server : McpServer) : Val :=
  .obj [("user", server.user), ("port", server.port)]

def normalizeBrowser (resolved : Val) (developers : List Val) : Val :=
  let browser := resolved.get "browser"
  .obj
    [("enabled", (browser.get "enabled").orElse true),
     ("mcp_port", mcpBasePort resolved),
     ("servers", .arr ((assignMcpPorts (browserUsers developers) (mcpBasePort resolved)).map
       mcpServerRow)),
     ("failover", normalizeFailover (browser.get "failover")),
     ("reap", normalizeBrowserReap (browser.get "reap"))]

def normalizeRcReap (reap : Val) : Val :=
  .obj
    [("enabled", (reap.get "enabled").orElse true),
     ("interval_sec", (reap.get "interval_sec").orElse 900),
     ("grace_sec", (reap.get "grace_sec").orElse 900)]

def normalizeRemoteControl (resolved : Val) : Val :=
  let rc := resolved.get "remote_control"
  let ar := rc.get "autorestart"
  let re := rc.get "resume"
  let onBoot := (re.get "on_boot").orElse true
  .obj
    [("enabled", (rc.get "enabled").orElse true),
     ("autorestart", .obj
       [("enabled", (ar.get "enabled").orElse true),
        ("restart_sec", (ar.get "restart_sec").orElse 10),
        ("burst", (ar.get "burst").orElse 10),
        ("interval", (ar.get "interval").orElse 600)]),
     ("resume", .obj
       [("on_boot", onBoot),
        ("lookback_h", (re.get "lookback_h").orElse 12),
        ("max_concurrent", (re.get "max_concurrent").orElse 2),
        ("settle_sec", (re.get "settle_sec").orElse 20),
        ("min_free_mb", (re.get "min_free_mb").orElse 1200),
        ("max_attempts", (re.get "max_attempts").orElse 3),
        ("timeout_sec", (re.get "timeout_sec").orElse 1800),
        ("skip_workflow_warning", (re.get "skip_workflow_warning").orElse onBoot)]),
     ("reap", normalizeRcReap (rc.get "reap"))]

/-! ## Units -/

/-- `developers.flatMap(...)` for a row per developer or none. -/
def rowsOf (developers : List Val) (row : Val → Js (Option Val)) : Js Val := do
  let rows ← developers.mapM row
  return .arr (rows.filterMap id)

def projectDir (dev project : Val) : Js Val := do
  let user ← (dev.get "user").toStr
  let name ← (project.get "name").toStr
  return .str s!"/home/{user}/projects/{name}"

def rcUnitRow (dev project : Val) : Js (Option Val) :=
  let rc := project.get "remote_control"
  if !rc.truthy then .ok none
  else do
    let dir ← projectDir dev project
    return some (.obj
      [("user", dev.get "user"),
       ("project", project.get "name"),
       ("agent", rc.get "agent"),
       ("agent_profile", rc.get "agent_profile"),
       ("config_env", rc.get "config_env"),
       ("config_dir", rc.get "config_dir"),
       ("name", rc.get "name"),
       ("spawn", rc.get "spawn"),
       ("capacity", rc.get "capacity"),
       ("project_dir", dir),
       ("resources", serviceResources (rc.get "resources").ownFields),
       ("build_env", .obj (rc.get "build_env").ownFields)])

def rcUnitRows (dev : Val) : Js (List Val) := do
  let projects ← (dev.get "projects").elems
  let rows ← projects.mapM (rcUnitRow dev)
  return rows.filterMap id

def normalizeRcUnits (developers : List Val) : Js Val := do
  let rows ← developers.mapM rcUnitRows
  return .arr rows.flatten

/-- The gate settings every unit of one developer carries. -/
def gateEnvelope (dev hostGate : Val) : Fields :=
  let gate := normalizeHeavyJobGate hostGate (dev.get "heavy_job_gate")
  let on := HEAVY_JOB_CATEGORIES.filter fun c ↦ ((gate.get "categories").get c).truthy
  [("heavy_job_gate_enabled", gate.get "enabled"),
   ("heavy_job_gate_categories", .arr (on.map .str)),
   ("heavy_job_gate_wait_timeout_sec", gate.get "wait_timeout_sec"),
   ("heavy_job_gate_warn_after_sec", gate.get "warn_after_sec"),
   ("heavy_job_gate_memory_max", gate.get "memory_max"),
   ("heavy_job_gate_memory_max_by_category", gate.get "memory_max_by_category")]

def codexUnitEnvelope (dev resolved hostGate : Val) : Fields :=
  gateEnvelope dev hostGate ++
    [("resources", serviceResources
      ((RC_DEFAULT_RESOURCES.merge ((resolved.get "remote_control").get "resources").ownFields).merge
        (dev.get "codex_host_resources").ownFields))]

/-- The first profile in declaration order whose provider is `codex`. -/
def codexProfile (dev : Val) : Js (Option String) := do
  let profiles ← ((dev.get "agent_profiles").orElse (.obj [])).entries
  find profiles
where
  find : Fields → Js (Option String)
    | [] => .ok none
    | (k, value) :: rest => do
        let provider ← value.read "provider"
        if provider.isStrLit "codex" then return some k else find rest

def codexUnitRow (resolved hostGate dev : Val) : Js (Option Val) := do
  match ← codexProfile dev with
  | none => return none
  | some profile =>
      if profile == "" then return none
      else do
        let home ← profileDir (dev.get "user") profile
        return some (.obj ([("user", dev.get "user"), ("profile", profile), ("codex_home", home)] ++
          codexUnitEnvelope dev resolved hostGate))

def normalizeCodexUnits (resolved hostGate : Val) (developers : List Val) : Js Val :=
  rowsOf developers (codexUnitRow resolved hostGate)

def CODEX_REMOTE_CONTROL_PROFILE : String := "codex-remote-control"

def codexRemoteControlRow (resolved hostGate dev : Val) : Js (Option Val) :=
  if !(dev.get "codex_remote_control").truthy then .ok none
  else do
    let home ← profileDir (dev.get "user") CODEX_REMOTE_CONTROL_PROFILE
    return some (.obj ([("user", dev.get "user"), ("profile", CODEX_REMOTE_CONTROL_PROFILE),
      ("codex_home", home)] ++ codexUnitEnvelope dev resolved hostGate))

def normalizeCodexRemoteControlUnits (resolved hostGate : Val) (developers : List Val) : Js Val :=
  rowsOf developers (codexRemoteControlRow resolved hostGate)

def paseoUnitRow (hostGate dev : Val) : Option Val :=
  if !(dev.get "paseo_daemon").truthy then none
  else some (.obj ([("user", dev.get "user")] ++ gateEnvelope dev hostGate ++
    [("resources", serviceResources (dev.get "paseo_resources").ownFields),
     ("max_sessions", ((dev.get "agent_fleet").get "max_sessions").orElse .null)]))

def normalizePaseoUnits (hostGate : Val) (developers : List Val) : Val :=
  .arr (developers.filterMap (paseoUnitRow hostGate))

def DEFAULT_ORCA_PORT : Number := .ofInt 6768

def orcaUnitRow (hostGate dev : Val) : Option Val :=
  let orca := dev.get "orca"
  if !(orca.get "enabled").isBoolLit true then none
  else some (.obj
    ([("user", dev.get "user"),
      ("version", orca.get "version"),
      ("relay", (orca.get "relay").orElse false),
      ("port", (orca.get "port").orElse DEFAULT_ORCA_PORT),
      ("pairing_address", (orca.get "pairing_address").orElse "127.0.0.1")] ++
     gateEnvelope dev hostGate ++
     [("resources", serviceResources (orca.get "resources").ownFields)]))

def normalizeOrcaUnits (hostGate : Val) (developers : List Val) : Val :=
  .arr (developers.filterMap (orcaUnitRow hostGate))

/-! ## Developers -/

/-- Assignment to a computed name of an object that starts out empty. The
name `__proto__` sets the prototype and leaves no property. -/
def assignProp (out : Fields) (k : String) (v : Val) : Fields :=
  if k == "__proto__" then out else out.set k v

def mapEntries (fn : Val → Js Val) (out : Fields) : Fields → Js Fields
  | [] => .ok out
  | (k, v) :: rest => do
      let image ← fn v
      mapEntries fn (assignProp out k image) rest

def mapValues (source : Val) (fn : Val → Js Val) : Js Val := do
  let fields ← (source.orElse (.obj [])).entries
  let out ← mapEntries fn [] fields
  return .obj out

def normalizeIdentity (id : Val) : Js Val := do
  let name ← id.read "name"
  return .obj
    [("name", name),
     ("email", id.get "email"),
     ("github_user", (id.get "github_user").orElse .null)]

def normalizeInstance (i : Val) : Js Val := do
  let engine ← i.read "engine"
  return .obj
    [("engine", engine),
     ("llm_provider", i.get "llm_provider"),
     ("llm_model", (i.get "llm_model").orElse .null),
     ("llm_base_url", (i.get "llm_base_url").orElse .null),
     ("api_key_env", (i.get "api_key_env").orElse .null)]

def normalizeSpace (s : Val) : Js Val := do
  let target ← s.read "instance"
  return .obj [("instance", target), ("bank", s.get "bank")]

def normalizeRetry (retry : Val) : Js Val := do
  let chains ← mapValues (retry.get "fallback_chains") fun fallbacks ↦ do
    let list ← fallbacks.spread
    return .arr list
  return .obj (retry.ownFields.set "fallback_chains" chains)

def normalizePresets (presets : Val) : Js Val := do
  let roleMaps ← mapValues (presets.get "presets") fun roles ↦ .ok (.obj roles.ownFields)
  let retry ←
    if (presets.get "retry").truthy then do
      let retry ← normalizeRetry (presets.get "retry")
      pure [("retry", retry)]
    else .ok []
  let aliases :=
    if (presets.get "aliases").truthy then [("aliases", Val.obj (presets.get "aliases").ownFields)]
    else []
  return .obj ([("default_preset", presets.get "default_preset")] ++ aliases ++
    [("presets", roleMaps)] ++ retry)

def normalizeProfile (p : Val) : Js Val := do
  let provider ← p.read "provider"
  let presets ←
    if (p.get "omp_model_presets").truthy then do
      let presets ← normalizePresets (p.get "omp_model_presets")
      pure [("omp_model_presets", presets)]
    else .ok []
  return .obj ([("provider", provider), ("memory_space", (p.get "memory_space").orElse .null)] ++
    presets)

def developerResources (dev : Val) : Val :=
  let memoryHigh := (dev.get "resources").get "memory_high"
  let direct := (normalizeDirectMemoryResources (dev.get "resources").ownFields false).filter
    fun p ↦ p.1 != "memory_high"
  .obj (direct ++
    if memoryHigh.isStr then [("memory_high", canonicalOrSame memoryHigh)]
    else if isMemoryWeight memoryHigh then [("memory_high_weight", memoryHigh.get "weight")]
    else [])

def normalizeMemory (memory : Val) : Js Val := do
  let instances ← mapValues (memory.get "instances") normalizeInstance
  let spaces ← mapValues (memory.get "spaces") normalizeSpace
  return .obj
    [("enabled", (memory.get "enabled").orElse false),
     ("default_space", (memory.get "default_space").orElse .null),
     ("instances", instances),
     ("spaces", spaces)]

def normalizeDesktop (dev tailscale : Val) (client : ClientFacts) (ports : List (Val × Number)) :
    Js Val := do
  let desktop := dev.get "desktop"
  let access ← ((desktop.get "access").orElse (defaultDesktopAccess tailscale)).spread
  let keyboard ← resolveKeyboard dev client
  return .obj
    [("enabled", (desktop.get "enabled").orElse false),
     ("environment", (desktop.get "environment").orElse "xfce"),
     ("transport", (desktop.get "transport").orElse "xrdp"),
     ("access", .arr access),
     ("idle_logout_minutes", (desktop.get "idle_logout_minutes").orElse .null),
     ("client_port", (portOf ports (dev.get "user")).orElse .null),
     ("keyboard", keyboard)]

def normalizeMount (m : Val) : Js Val := do
  let label ← m.read "label"
  return .obj [("label", label), ("path", m.get "path")]

def normalizeFileBridge (fb : Val) : Js Val := do
  let declared ← ((fb.get "lazy_mounts").orElse (.arr [])).elems
  let mounts ← declared.mapM normalizeMount
  return .obj
    [("sync_disk", (fb.get "sync_disk").orElse false),
     ("engine", (fb.get "engine").orElse "mutagen"),
     ("lazy_mounts", .arr mounts),
     ("lazy_mount_on_connect", (fb.get "lazy_mount_on_connect").orElse false)]

def appConfigRow (raw : Val) : Js (Option Val) := do
  match ← resolveEntry raw with
  | .ok entry =>
      return some (.obj
        [("label", entry.label),
         ("client", entry.client),
         ("box", entry.box),
         ("mode", entry.mode),
         ("excludes", .arr (entry.excludes.map .str)),
         ("payload", payloadBasename entry)])
  | .error _ => return none

def normalizeAppConfigs (ac : Val) : Js Val := do
  let declared ← ((ac.get "paths").orElse (.arr [])).elems
  let rows ← declared.mapM appConfigRow
  return .obj [("enabled", (ac.get "enabled").orElse false), ("paths", .arr (rows.filterMap id))]

def normalizeProject (p : Val) : Js Val := do
  let name ← p.read "name"
  let ports ← (p.get "ports").spread
  return .obj
    [("name", name),
     ("repo", p.get "repo"),
     ("branch", p.get "branch"),
     ("git_identity", p.get "git_identity"),
     ("agent_profile", p.get "agent_profile"),
     ("container_engine", p.get "container_engine"),
     ("memory_space", p.get "memory_space"),
     ("ports", .arr ports),
     ("install", p.get "install"),
     ("update", p.get "update")]

def normalizeAgentConfig (raw : Val) : Val :=
  if raw.truthy then
    .obj [("source", raw.get "source"),
      ("include_settings", (raw.get "include_settings").orElse false)]
  else .null

def normalizeDeveloper (tailscale hostGate : Val) (client : ClientFacts)
    (ports : List (Val × Number)) (dev : Val) : Js Val := do
  let user ← dev.read "user"
  let loginKeys ← (dev.get "login_ssh_keys").spread
  let identities ← mapValues (dev.get "git_identities") normalizeIdentity
  let profiles ← mapValues (dev.get "agent_profiles") normalizeProfile
  let memory ← normalizeMemory (dev.get "memory")
  let desktop ← normalizeDesktop dev tailscale client ports
  let fileBridge ← normalizeFileBridge (dev.get "file_bridge")
  let appConfigs ← normalizeAppConfigs (dev.get "app_configs")
  let declared ← (dev.get "projects").elems
  let projects ← declared.mapM normalizeProject
  return .obj
    [("user", user),
     ("adopt_existing", (dev.get "adopt_existing").orElse false),
     ("login_ssh_keys", .arr loginKeys),
     ("resources", developerResources dev),
     ("heavy_job_gate", normalizeHeavyJobGate hostGate (dev.get "heavy_job_gate")),
     ("container_engine", (dev.get "container_engine").orElse .null),
     ("git_identities", identities),
     ("default_git_identity", (dev.get "default_git_identity").orElse .null),
     ("agent_versions", .obj (dev.get "agent_versions").ownFields),
     ("agent_profiles", profiles),
     ("default_agent_profile", (dev.get "default_agent_profile").orElse .null),
     ("memory", memory),
     ("desktop", desktop),
     ("file_bridge", fileBridge),
     ("app_configs", appConfigs),
     ("browser", (dev.get "browser").orElse false),
     ("agent_config", normalizeAgentConfig (dev.get "agent_config")),
     ("projects", .arr projects)]

/-- The weight a developer adds to the total, for a proportional share. -/
def memoryHighWeight (dev : Val) : Number :=
  let high := (dev.get "resources").get "memory_high"
  if isMemoryWeight high then numberOr (high.get "weight") (.ofInt 0) else .ofInt 0

def memoryBasePort : Number := .ofInt 9077

def normalize (client : ClientFacts) (resolved : Val) : Js Val := do
  let tailscale ← tailscaleEnabled resolved
  let host := resolved.get "host"
  let hostGate := normalizeHeavyJobGate (host.get "heavy_job_gate") .undef
  let developers ← (resolved.get "developers").elems
  let clientPorts := assignClientPorts (developers.map clientPortInput)
  let platform ← normalizePlatform (resolved.get "platform")
  let hostVars ← normalizeHost host
  let operator ← normalizeOperator (resolved.get "operator")
  let network ← normalizeNetwork resolved tailscale
  let container ← normalizeContainer (resolved.get "container")
  let cliTargets ← (((resolved.get "clients").get "cli_targets").orElse
    (.arr (DEFAULT_CLI_TARGETS.map .str))).spread
  let rcUnits ← normalizeRcUnits developers
  let codexUnits ← normalizeCodexUnits resolved hostGate developers
  let codexRcUnits ← normalizeCodexRemoteControlUnits resolved hostGate developers
  let devs ← developers.mapM (normalizeDeveloper tailscale hostGate client clientPorts)
  return .obj
    [("devbox_config_version", resolved.get "config_version"),
     ("devbox_platform", platform),
     ("devbox_runtimes", .obj (resolved.get "runtimes").ownFields),
     ("devbox_host", hostVars),
     ("devbox_operator", operator),
     ("devbox_network", network),
     ("devbox_container", container),
     ("devbox_shared_services", .obj
       [("enabled", ((resolved.get "shared_services").get "enabled").orElse false),
        ("engine", ((resolved.get "shared_services").get "engine").orElse "system-docker")]),
     ("devbox_clients", .obj [("cli_targets", .arr cliTargets)]),
     ("devbox_memory_base_port", memoryBasePort),
     ("devbox_memory_high_weight_total",
       .num ((developers.map memoryHighWeight).foldl Number.add (Number.ofInt 0))),
     ("devbox_browser", normalizeBrowser resolved developers),
     ("devbox_remote_control", normalizeRemoteControl resolved),
     ("devbox_rc_units", rcUnits),
     ("devbox_codex_units", codexUnits),
     ("devbox_codex_remote_control_units", codexRcUnits),
     ("devbox_paseo_units", normalizePaseoUnits hostGate developers),
     ("devbox_orca_units", normalizeOrcaUnits hostGate developers),
     ("devbox_developers", .arr devs)]

/-! ## What a finished run wrote -/

/-- The sections of the variables `vars` and where they came from. -/
structure Generated (client : ClientFacts) (resolved vars tailscale hostVars rcUnits : Val)
    (developers devs : List Val) : Prop where
  tailscale_eq : tailscaleEnabled resolved = .ok tailscale
  developers_eq : (resolved.get "developers").elems = .ok developers
  host_eq : normalizeHost (resolved.get "host") = .ok hostVars
  rcUnits_eq : normalizeRcUnits developers = .ok rcUnits
  devs_eq : developers.mapM (normalizeDeveloper tailscale
    (normalizeHeavyJobGate ((resolved.get "host").get "heavy_job_gate") .undef) client
    (assignClientPorts (developers.map clientPortInput))) = .ok devs
  host : vars.get "devbox_host" = hostVars
  basePort : vars.get "devbox_memory_base_port" = .num memoryBasePort
  browser : vars.get "devbox_browser" = normalizeBrowser resolved developers
  remoteControl : vars.get "devbox_remote_control" = normalizeRemoteControl resolved
  rcUnits : vars.get "devbox_rc_units" = rcUnits
  orcaUnits : vars.get "devbox_orca_units" = normalizeOrcaUnits
    (normalizeHeavyJobGate ((resolved.get "host").get "heavy_job_gate") .undef) developers
  developers : vars.get "devbox_developers" = .arr devs

theorem generated_of_normalize {client : ClientFacts} {resolved vars : Val}
    (h : normalize client resolved = .ok vars) :
    ∃ tailscale hostVars rcUnits developers devs,
      Generated client resolved vars tailscale hostVars rcUnits developers devs := by
  simp only [normalize, bind_eq_ok] at h
  obtain ⟨tailscale, h1, developers, h2, platform, h3, hostVars, h4, operator, h5, network, h6,
    container, h7, cliTargets, h8, rcUnits, h9, codexUnits, h10, codexRcUnits, h11, devs, h12,
    hvars⟩ := h
  simp only [pure_eq_ok, Except.ok.injEq] at hvars
  subst hvars
  exact ⟨tailscale, hostVars, rcUnits, developers, devs, h1, h2, h4, h9, h12,
    rfl, rfl, rfl, rfl, rfl, rfl, rfl⟩

/-- What the generated developer `vdev` keeps of the resolved developer `rdev`. -/
structure GeneratedDeveloper (tailscale : Val) (client : ClientFacts) (ports : List (Val × Number))
    (rdev vdev : Val) : Prop where
  user : vdev.get "user" = rdev.get "user"
  memory : normalizeMemory (rdev.get "memory") = .ok (vdev.get "memory")
  desktop : normalizeDesktop rdev tailscale client ports = .ok (vdev.get "desktop")
  projects : List.Forall₂ (fun p vp ↦ normalizeProject p = .ok vp) (projectsOf rdev)
    (projectsOf vdev)

theorem generatedDeveloper {tailscale hostGate rdev vdev : Val} {client : ClientFacts}
    {ports : List (Val × Number)}
    (h : normalizeDeveloper tailscale hostGate client ports rdev = .ok vdev) :
    GeneratedDeveloper tailscale client ports rdev vdev := by
  simp only [normalizeDeveloper, bind_eq_ok, pure_eq_ok, Except.ok.injEq] at h
  obtain ⟨user, huser, keys, _, identities, _, profiles, _, memory, hmemory, desktop, hdesktop,
    bridge, _, configs, _, declared, hdeclared, projects, hprojects, rfl⟩ := h
  refine ⟨?_, hmemory, hdesktop, ?_⟩
  · unfold Val.read at huser
    split at huser
    · cases huser
    · exact (Except.ok.inj huser).symm
  · rw [projectsOf, listOf_of_elems hdeclared]
    exact mapM_eq_ok.mp hprojects

theorem Generated.developers_match {client : ClientFacts}
    {resolved vars tailscale hostVars rcUnits : Val} {developers devs : List Val}
    (h : Generated client resolved vars tailscale hostVars rcUnits developers devs) :
    List.Forall₂ (GeneratedDeveloper tailscale client
        (assignClientPorts (developers.map clientPortInput)))
      (developersOf resolved) (listOf (vars.get "devbox_developers")) := by
  rw [h.developers, developersOf, listOf_of_elems h.developers_eq]
  exact (mapM_eq_ok.mp h.devs_eq).imp fun _ _ ↦ generatedDeveloper

theorem mapEntries_nodup {fn : Val → Js Val} (out : Fields) {fields result : Fields}
    (hout : out.keys.Nodup)
    (h : mapEntries fn out fields = .ok result) : result.keys.Nodup := by
  induction fields generalizing out with
  | nil =>
      obtain rfl := Except.ok.inj h
      exact hout
  | cons p rest ih =>
      simp only [mapEntries, bind_eq_ok] at h
      obtain ⟨image, _, h⟩ := h
      refine ih _ ?_ h
      unfold assignProp
      split
      · exact hout
      · exact Fields.nodup_keys_set hout _ _

theorem mapValues_nodup {source v : Val} {fn : Val → Js Val} (h : mapValues source fn = .ok v) :
    v.ownFields.keys.Nodup := by
  simp only [mapValues, bind_eq_ok, pure_eq_ok, Except.ok.injEq] at h
  obtain ⟨fields, _, out, hout, rfl⟩ := h
  exact mapEntries_nodup [] List.nodup_nil hout

theorem normalizeMemory_instances {memory v : Val} (h : normalizeMemory memory = .ok v) :
    (v.get "instances").ownFields.keys.Nodup := by
  simp only [normalizeMemory, bind_eq_ok, pure_eq_ok, Except.ok.injEq] at h
  obtain ⟨instances, hinstances, spaces, _, rfl⟩ := h
  exact mapValues_nodup hinstances

/-- A generated unit comes from a project whose unit was resolved. -/
theorem rcUnitRow_inv {dev project row : Val} (h : rcUnitRow dev project = .ok (some row)) :
    (project.get "remote_control").truthy = true ∧ row.get "user" = dev.get "user" ∧
      row.get "project" = project.get "name" ∧
      row.get "agent" = (project.get "remote_control").get "agent" := by
  unfold rcUnitRow at h
  simp only at h
  split at h
  · cases h
  · rename_i hrc
    simp only [bind_eq_ok, pure_eq_ok, Except.ok.injEq, Option.some.injEq] at h
    obtain ⟨dir, _, rfl⟩ := h
    exact ⟨by simpa using hrc, rfl, rfl, rfl⟩

theorem rcUnits_inv {developers : List Val} {units row : Val}
    (h : normalizeRcUnits developers = .ok units) (hrow : row ∈ listOf units) :
    ∃ dev ∈ developers, ∃ project ∈ projectsOf dev, rcUnitRow dev project = .ok (some row) := by
  simp only [normalizeRcUnits, bind_eq_ok, pure_eq_ok, Except.ok.injEq] at h
  obtain ⟨rows, hrows, rfl⟩ := h
  obtain ⟨group, hgroup, hmem⟩ := List.mem_flatten.mp hrow
  obtain ⟨dev, hdev, hgroupOf⟩ := forall₂_exists_left (mapM_eq_ok.mp hrows) hgroup
  simp only [rcUnitRows, bind_eq_ok, pure_eq_ok, Except.ok.injEq] at hgroupOf
  obtain ⟨projects, hprojects, found, hfound, rfl⟩ := hgroupOf
  obtain ⟨some?, hsome, heq⟩ := List.mem_filterMap.mp hmem
  obtain ⟨project, hproject, hrowOf⟩ := forall₂_exists_left (mapM_eq_ok.mp hfound) hsome
  refine ⟨dev, hdev, project, ?_, ?_⟩
  · rw [projectsOf, listOf_of_elems hprojects]
    exact hproject
  · rw [hrowOf]
    exact congrArg Except.ok heq

end RemoteDevbox.Spec
