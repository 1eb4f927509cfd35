import RemoteDevbox.Client.AppConfigs
import RemoteDevbox.Client.Paths
import RemoteDevbox.Spec.Validate.Host
import RemoteDevbox.Spec.Validate.Services

namespace RemoteDevbox.Spec

open Js Client

/-!
# The developers section
-/

def validateOrca (value : Val) (base : String) : Check :=
  .section? value base "must be a mapping" fun value ↦
    let version := value.get "version"
    let enabled := (value.get "enabled").isBoolLit true
    knownFields value ORCA_FIELDS base "unknown Orca field" ++
    optional (value.get "enabled") (value.get "enabled").isBool
      s!"{base}.enabled" "must be true or false" ++
    optional (value.get "relay") (value.get "relay").isBool
      s!"{base}.relay" "must be true or false" ++
    (if !version.isUndef && !matchesRe EXACT_AGENT_VERSION_RE version then
      .fail s!"{base}.version"
        "must be an exact version such as 1.4.197 (without a leading v, tag or range)"
    else .when (enabled && version.isUndef)
      (.fail s!"{base}.version" "required when orca.enabled is true")) ++
    optional (value.get "port") (isPort (value.get "port"))
      s!"{base}.port" "must be an integer in 1..65535" ++
    .when (enabled && (value.get "relay").isBoolLit true &&
        !((value.get "port").orElse 6768).isNumLit (.ofInt 6768))
      (.fail s!"{base}.port" "relay desktop mode requires port 6768") ++
    optional (value.get "pairing_address") (isAddress (value.get "pairing_address"))
      s!"{base}.pairing_address" "must be a nonempty host or URL without whitespace" ++
    validateResources (value.get "resources") s!"{base}.resources" { allowServiceKnobs := true } ++
    .when (enabled && !isNonEmptyString ((value.get "resources").get "memory_max"))
      (.fail s!"{base}.resources.memory_max" "a nonempty ceiling is required when orca.enabled is true")
where
  isAddress : Val → Bool
    | .str s => Text.nonBlank s && !s.toList.any Text.isSpace
    | _ => false

/-- The values of a mapping, none for anything else. -/
def recordValues (v : Val) : List Val :=
  match v with
  | .obj fs => fs.map Prod.snd
  | _ => []

def isOmp (profile : Val) : Bool := profile.isRecord && (profile.get "provider").isStrLit "omp"

def validateAgentVersion (path provider : String) (version : Val) : Check :=
  if !VERSIONED_PROVIDERS.contains provider then
    .fail path s!"version pinning is supported for: {listed VERSIONED_PROVIDERS}"
  else .when (!matchesRe EXACT_AGENT_VERSION_RE version)
    (.fail path "must be an exact version such as 17.4.2 (not a tag or range)")

/-- `issues.some((issue) => issue.path === path)`. Only the checks of this
block write under `agent_versions`. -/
def reportedAt (path : String) (issues : List Issue) : Bool := issues.any fun i ↦ i.path == path

/-- A check that may look at the issues found so far. -/
def Check.thenWith (c : Check) (k : List Issue → Check) : Check := .eval c fun issues ↦ c ++ k issues

def validateAgentVersions (d : Val) (base : String) : Check :=
  let profiles := recordValues (d.get "agent_profiles")
  let needsOmpPin := profiles.any isOmp
  let needsPresetVersion := profiles.any fun p ↦ isOmp p && !(p.get "omp_model_presets").isUndef
  let ompPath := s!"{base}.agent_versions.omp"
  let pinRequired := Check.fail ompPath "an exact OMP version pin is required"
  match d.get "agent_versions" with
  | .undef => .when needsOmpPin pinRequired
  | .obj versions =>
      ((Check.each versions fun p ↦
        validateAgentVersion s!"{base}.agent_versions.{p.1}" p.1 p.2).thenWith fun found ↦
        .when needsOmpPin (.eval (((Val.obj versions).get "omp").orElse "").toStr fun pin ↦
          .when (!Text.test EXACT_AGENT_VERSION_RE pin && !reportedAt ompPath found)
            pinRequired)).thenWith fun found ↦
      .when (needsPresetVersion &&
          !((Val.obj versions).get "omp").isStrLit OMP_MODEL_PRESETS_OMP_VERSION &&
          !reportedAt ompPath found)
        (.fail ompPath
          s!"must be exactly {OMP_MODEL_PRESETS_OMP_VERSION} when omp_model_presets is configured")
  | _ =>
      .fail s!"{base}.agent_versions" "must be a mapping of provider -> exact version" ++
      .when needsOmpPin pinRequired

def validateGitIdentity (p : String) (val : Val) : Check :=
  if val.isRecord then
    .when (!isNonEmptyString (val.get "name")) (.fail s!"{p}.name" "is required") ++
    .when (!isNonEmptyString (val.get "email")) (.fail s!"{p}.email" "is required")
  else .fail p "must be a mapping"

def validateGitIdentities (d : Val) (base : String) : Check :=
  .section? (d.get "git_identities") s!"{base}.git_identities"
    "must be a mapping of key -> identity" (fun gi ↦
      .each gi.ownFields fun p ↦ validateGitIdentity s!"{base}.git_identities.{p.1}" p.2) ++
  optional (d.get "default_git_identity") (isNonEmptyString (d.get "default_git_identity"))
    s!"{base}.default_git_identity" "must be a git identity key"

/-- `Object.hasOwn(v, k)`. -/
def hasOwn (v : Val) (k : String) : Bool := v.ownFields.keys.contains k

def validatePresetAlias (presets : Val) (path name : String) (target : Val) : Check :=
  (if !Text.test OMP_PRESET_NAME_RE name then
    .fail path s!"'{name}' must match ^[a-z][a-z0-9-]*$"
  else if PRESET_RESERVED_NAMES.contains name then
    .fail path "is reserved by the /preset command"
  else .when (hasOwn presets name)
    (.fail path "must not collide with a canonical preset name")) ++
  .when (!namesPreset target) (.fail path "must name a declared canonical preset")
where
  namesPreset : Val → Bool
    | .str t => Text.nonBlank t && hasOwn presets t
    | _ => false

/-- The text after the last colon, when that colon is not the first character. -/
def thinkingOf (selector : String) : String :=
  match Text.split ':' selector with
  | [] => ""
  | [_] => ""
  | ["", _] => ""
  | parts => parts.getLast?.getD ""

def validateRoleSelector (path role : String) (value : Val) : Check :=
  match value with
  | .str selector =>
      if !Text.nonBlank selector then .fail path "must be a non-empty OMP model selector"
      else
        let bareTaskSelector := role == "task" && !selector.toList.contains ':'
        .when (!bareTaskSelector && !OMP_THINKING_LEVELS.contains (thinkingOf selector))
          (.fail path s!"must end with one of these OMP thinking levels: {listed OMP_THINKING_LEVELS}")
  | _ => .fail path "must be a non-empty OMP model selector"

def validatePreset (path name : String) (roleMap : Val) : Check :=
  .when (!Text.test OMP_PRESET_NAME_RE name)
    (.fail path s!"'{name}' must match ^[a-z][a-z0-9-]*$") ++
  if roleMap.isRecord then
    .each OMP_MODEL_ROLE_IDS (fun role ↦
      if hasOwn roleMap role then validateRoleSelector s!"{path}.{role}" role (roleMap.get role)
      else .fail s!"{path}.{role}" "is required") ++
    .each roleMap.ownFields fun p ↦
      .when (!OMP_MODEL_ROLE_IDS.contains p.1)
        (.fail s!"{path}.{p.1}" "is not a built-in OMP model role")
  else .fail path "must be a mapping of every OMP model role to a selector"

/-- The fallbacks from index `i` on, given the selectors already listed. -/
def validateFallbacks (path : String) (seen : List String) (i : ℕ) : List Val → Check
  | [] => .pass
  | .str s :: rest =>
      if !Text.nonBlank s || Text.trim s != s then
        .fail s!"{path}[{i}]" "must be a non-empty trimmed model selector" ++
        validateFallbacks path seen (i + 1) rest
      else if seen.contains s then
        .fail s!"{path}[{i}]" "must not repeat a fallback selector" ++
        validateFallbacks path seen (i + 1) rest
      else validateFallbacks path (s :: seen) (i + 1) rest
  | _ :: rest =>
      .fail s!"{path}[{i}]" "must be a non-empty trimmed model selector" ++
      validateFallbacks path seen (i + 1) rest

def validateFallbackChain (path selector : String) (fallbacks : Val) : Check :=
  .when (selector == "" || Text.trim selector != selector)
    (.fail path "selector must be non-empty and trimmed") ++
  match fallbacks with
  | .arr (f :: fs) => validateFallbacks path [] 0 (f :: fs)
  | _ => .fail path "must be a non-empty list of fallback selectors"

def validateOmpRetryPolicy (raw : Val) (base : String) : Check :=
  .section? raw base "must be a mapping" fun raw ↦
    knownFields raw ["model_fallback", "usage_aware_fallback", "usage_reserve_pct",
      "usage_reserve_policy", "fallback_revert_policy", "fallback_chains"]
      base "unknown OMP retry policy field" ++
    .each ["model_fallback", "usage_aware_fallback"] (fun field ↦
      .when (!(raw.get field).isBool) (.fail s!"{base}.{field}" "must be true or false")) ++
    .when (!isIntegerIn 1 100 (raw.get "usage_reserve_pct"))
      (.fail s!"{base}.usage_reserve_pct" "must be an integer in 1..100") ++
    .eval (raw.get "usage_reserve_policy").toStr (fun s ↦
      .when (!(["confirm", "auto", "fail-closed"] : List String).contains s)
        (.fail s!"{base}.usage_reserve_policy" "must be one of: confirm, auto, fail-closed")) ++
    .eval (raw.get "fallback_revert_policy").toStr (fun s ↦
      .when (!(["cooldown-expiry", "never"] : List String).contains s)
        (.fail s!"{base}.fallback_revert_policy" "must be one of: cooldown-expiry, never")) ++
    match raw.get "fallback_chains" with
    | .obj (c :: cs) =>
        .each (c :: cs) fun p ↦
          validateFallbackChain s!"{base}.fallback_chains.{p.1}" p.1 p.2
    | _ => .fail s!"{base}.fallback_chains" "must be a non-empty mapping of selector to fallback list"

def validateOmpModelPresets (raw provider : Val) (base : String) : Check :=
  .when (!raw.isUndef && !provider.isStrLit "omp")
    (.fail base "is only valid when provider is 'omp'") ++
  .section? raw base "must be a mapping" fun raw ↦
    let defaultPreset := raw.get "default_preset"
    knownFields raw ["default_preset", "aliases", "presets", "retry"]
      base "unknown OMP model presets field" ++
    .when (!(isNonEmptyString defaultPreset && matchesRe OMP_PRESET_NAME_RE defaultPreset))
      (.fail s!"{base}.default_preset" "must match ^[a-z][a-z0-9-]*$") ++
    match raw.get "presets" with
    | .obj (p :: ps) =>
        let presets := Val.obj (p :: ps)
        (match defaultPreset with
          | .str name => .when (!hasOwn presets name)
              (.fail s!"{base}.default_preset" s!"'{name}' is not declared in presets")
          | _ => .pass) ++
        .section? (raw.get "aliases") s!"{base}.aliases"
          "must be a mapping of alias name to canonical preset name" (fun aliases ↦
            .each aliases.ownFields fun a ↦
              validatePresetAlias presets s!"{base}.aliases.{a.1}" a.1 a.2) ++
        .each (p :: ps) (fun entry ↦ validatePreset s!"{base}.presets.{entry.1}" entry.1 entry.2) ++
        validateOmpRetryPolicy (raw.get "retry") s!"{base}.retry"
    | _ => .fail s!"{base}.presets" "must be a non-empty mapping of preset name to role map"

def validateAgentProfile (p key : String) (val : Val) : Check :=
  .when (!Text.test PROFILE_NAME_RE key)
    (.fail p s!"'{key}' must match ^[A-Za-z0-9._-]+$ — it becomes a launcher filename") ++
  .when (RESERVED_PROFILE_NAMES.contains key) (.fail p
    s!"'{key}' is the name of a command on PATH; its launcher would shadow (and then exec) itself — pick something like '{key}-work'") ++
  if val.isRecord then
    .when (!isOneOf PROVIDERS (val.get "provider"))
      (.fail s!"{p}.provider" s!"must be one of: {listed PROVIDERS}") ++
    optional (val.get "memory_space") (isNonEmptyString (val.get "memory_space"))
      s!"{p}.memory_space" "must be a memory space key (or 'none')" ++
    validateOmpModelPresets (val.get "omp_model_presets") (val.get "provider")
      s!"{p}.omp_model_presets"
  else .fail p "must be a mapping"

def validateAgentProfiles (d : Val) (base : String) : Check :=
  .section? (d.get "agent_profiles") s!"{base}.agent_profiles"
    "must be a mapping of key -> profile" (fun ap ↦
      .each ap.ownFields fun p ↦
        validateAgentProfile s!"{base}.agent_profiles.{p.1}" p.1 p.2) ++
  optional (d.get "default_agent_profile") (isNonEmptyString (d.get "default_agent_profile"))
    s!"{base}.default_agent_profile" "must be an agent profile key"

def validateMemoryInstance (p : String) (val : Val) : Check :=
  if val.isRecord then
    .when (!(val.get "engine").isStrLit "hindsight")
      (.fail s!"{p}.engine" "only 'hindsight' is supported") ++
    .when (!isNonEmptyString (val.get "llm_provider")) (.fail s!"{p}.llm_provider" "is required")
  else .fail p "must be a mapping"

def validateMemorySpace (p : String) (val : Val) : Check :=
  if val.isRecord then
    .when (!isNonEmptyString (val.get "instance")) (.fail s!"{p}.instance" "is required") ++
    .when (!isNonEmptyString (val.get "bank")) (.fail s!"{p}.bank" "is required")
  else .fail p "must be a mapping"

def validateMemory (m : Val) (base : String) : Check :=
  .section? m base "must be a mapping" fun m ↦
    .when (!(m.get "enabled").isBool) (.fail s!"{base}.enabled" "must be true or false") ++
    optional (m.get "default_space") (isNonEmptyString (m.get "default_space"))
      s!"{base}.default_space" "must be a memory space key" ++
    .section? (m.get "instances") s!"{base}.instances"
      "must be a mapping of key -> instance" (fun instances ↦
        .each instances.ownFields fun p ↦
          validateMemoryInstance s!"{base}.instances.{p.1}" p.2) ++
    .section? (m.get "spaces") s!"{base}.spaces" "must be a mapping of key -> space" (fun spaces ↦
      .each spaces.ownFields fun p ↦ validateMemorySpace s!"{base}.spaces.{p.1}" p.2)

def validateKeyboard (k : Val) (base : String) : Check :=
  .section? k base "must be a mapping" fun k ↦
    .when (!matchesRe XKB_NAME_RE (k.get "layout")) (.failWith s!"{base}.layout" do
      let shown ← (k.get "layout").toStr
      return s!"'{shown}' must be an XKB layout such as 'tr' or 'us'") ++
    .when (!(k.get "variant").isUndef && !matchesRe XKB_NAME_RE (k.get "variant"))
      (.failWith s!"{base}.variant" do
        let shown ← (k.get "variant").toStr
        return s!"'{shown}' must be an XKB variant such as 'f' or 'intl'") ++
    .when (!(k.get "model").isUndef && !matchesRe XKB_NAME_RE (k.get "model"))
      (.failWith s!"{base}.model" do
        let shown ← (k.get "model").toStr
        return s!"'{shown}' must be an XKB model such as 'pc105'")

def validateDesktopAccess (access : Val) (base : String) : Check :=
  (validateAccessList access base DESKTOP_ACCESS).thenWith fun found ↦
    match access with
    | .arr xs => .when found.isEmpty (.eval (texts xs) fun names ↦
        .when (names.contains "unsafe-public" && 1 < names.eraseDups.length) (.fail base
          "'unsafe-public' already listens on every interface — it cannot be combined with tunnel or tailnet"))
    | _ => .pass

def validateDesktop (d : Val) (base : String) : Check :=
  .section? d base "must be a mapping" fun d ↦
    .when (!(d.get "enabled").isBool) (.fail s!"{base}.enabled" "must be true or false") ++
    optional (d.get "environment") ((d.get "environment").isStrLit "xfce")
      s!"{base}.environment" "only 'xfce' is supported" ++
    optional (d.get "transport") ((d.get "transport").isStrLit "xrdp")
      s!"{base}.transport" "only 'xrdp' is supported" ++
    .when (!(d.get "tailscale_only").isUndef) (.fail s!"{base}.tailscale_only"
      "replaced by 'access' — use access: [tailnet] for the old true, or [tunnel] for the new default") ++
    validateDesktopAccess (d.get "access") s!"{base}.access" ++
    optional (d.get "idle_logout_minutes") (isPositiveInteger (d.get "idle_logout_minutes"))
      s!"{base}.idle_logout_minutes" "must be a positive integer" ++
    optional (d.get "client_port") (isIntegerIn 1024 65535 (d.get "client_port"))
      s!"{base}.client_port" "must be an integer between 1024 and 65535" ++
    validateKeyboard (d.get "keyboard") s!"{base}.keyboard"

/-- The mounts from index `i` on, given the labels already used. -/
def validateMountLabels (base : String) (seen : List String) (i : ℕ) : List Val → Check
  | [] => .pass
  | m :: rest =>
      let at_ := s!"{base}[{i}]"
      if m.isRecord then
        .eval ((m.get "label").orElse "").toStr fun label ↦
          let usable := Text.test MOUNT_LABEL_RE label
          (if !usable then .fail s!"{at_}.label" s!"'{label}' is not usable as a directory name"
          else .when (seen.contains label) (.fail s!"{at_}.label" s!"duplicate label '{label}'")) ++
          .when (!isNonEmptyString (m.get "path")) (.fail s!"{at_}.path" "must be a client path") ++
          validateMountLabels base (if usable then label :: seen else seen) (i + 1) rest
      else
        .fail at_ "must be a mapping with label and path" ++
        validateMountLabels base seen (i + 1) rest

/-- The served path of a mount, normalized, when it has one. -/
def servedPath (env : ClientEnv) (m : Val) : Option String :=
  match m.get "path" with
  | .str p => if Text.nonBlank p then some (normalizePath env p) else none
  | _ => none

def validateLazyMounts (env : ClientEnv) (raw : Val) (base : String) : Check :=
  match raw with
  | .undef => .pass
  | .arr mounts =>
      validateMountLabels base [] 0 mounts ++
      let paths := (mounts.filter Val.isRecord).map (servedPath env)
      .eachIdx paths fun i a ↦ .eachIdx paths fun j b ↦
        match a, b with
        | some a, some b => .when (i < j && pathsOverlap env a b)
            (.fail s!"{base}[{j}].path" s!"overlaps {base}[{i}].path ({a})")
        | _, _ => .pass
  | _ => .fail base "must be a list of \x7b label, path \x7d"

def validateFileBridge (env : ClientEnv) (fb : Val) (base : String) : Check :=
  .section? fb base "must be a mapping" fun fb ↦
    optional (fb.get "sync_disk") (fb.get "sync_disk").isBool
      s!"{base}.sync_disk" "must be true or false" ++
    optionalNamed (fb.get "engine") SYNC_ENGINES
      s!"{base}.engine" s!"must be one of: {listed SYNC_ENGINES}" ++
    optional (fb.get "lazy_mount_on_connect") (fb.get "lazy_mount_on_connect").isBool
      s!"{base}.lazy_mount_on_connect" "must be true or false" ++
    validateLazyMounts env (fb.get "lazy_mounts") s!"{base}.lazy_mounts"

/-- The entries from index `i` on, given the labels already used. -/
def validateAppConfigPaths (env : ClientEnv) (path disk boxDisk : String) (seen : List String)
    (i : ℕ) : List Val → Check
  | [] => .pass
  | raw :: rest =>
      let at_ := s!"{path}.paths[{i}]"
      if raw.isStr || raw.isRecord then
        .eval (resolveEntry raw) fun
          | .error message =>
              .fail at_ message ++ validateAppConfigPaths env path disk boxDisk seen (i + 1) rest
          | .ok entry =>
              .when (seen.contains entry.label)
                (.fail at_ s!"duplicate app config \"{entry.label}\"") ++
              .when (pathsOverlap env entry.client disk)
                (.fail s!"{at_}.client" s!"overlaps the sync disk {disk}") ++
              .when (pathsOverlap env entry.box boxDisk)
                (.fail s!"{at_}.box" s!"overlaps the box sync disk {boxDisk}") ++
              validateAppConfigPaths env path disk boxDisk (entry.label :: seen) (i + 1) rest
      else
        .fail at_ "must be a registry key or an entry mapping" ++
        validateAppConfigPaths env path disk boxDisk seen (i + 1) rest

def validateAppConfigs (env : ClientEnv) (d : Val) (base : String) : Check :=
  let path := s!"{base}.app_configs"
  .section? (d.get "app_configs") path "must be a mapping" fun ac ↦
    optional (ac.get "enabled") (ac.get "enabled").isBool
      s!"{path}.enabled" "must be true or false" ++
    .when ((ac.get "enabled").isBoolLit true &&
        !((d.get "file_bridge").get "sync_disk").isBoolLit true)
      (.fail s!"{path}.enabled"
        "needs file_bridge.sync_disk: true — app configs live inside the sync disk") ++
    match ac.get "paths" with
    | .undef => .pass
    | .arr paths =>
        .eval (d.get "user").toStr fun user ↦
          validateAppConfigPaths env path (normalizePath env s!"~/devbox/{user}")
            s!"/home/{user}/sync" [] 0 paths
    | _ => .fail s!"{path}.paths" "must be a list of registry keys or entry mappings"

def validateProject (path : String) (p : Val) : Check :=
  if p.isRecord then
    .when (!matchesRe PROJECT_NAME_RE (p.get "name")) (.failWith s!"{path}.name" do
      let shown ← (p.get "name").toStr
      return s!"'{shown}' must match ^[A-Za-z0-9._-]+$") ++
    .when (!isNonEmptyString (p.get "repo")) (.fail s!"{path}.repo" "is required") ++
    optional (p.get "branch") (isNonEmptyString (p.get "branch"))
      s!"{path}.branch" "must be a branch name" ++
    .each ["git_identity", "agent_profile", "memory_space"] (fun k ↦
      optional (p.get k) (isNonEmptyString (p.get k)) s!"{path}.{k}" "must be a key name") ++
    optionalNamed (p.get "container_engine") ENGINES
      s!"{path}.container_engine" s!"must be one of: {listed ENGINES}" ++
    .each ["install", "update"] (fun k ↦
      optional (p.get k) (p.get k).isBool s!"{path}.{k}" "must be true or false") ++
    (match p.get "ports" with
      | .undef => .pass
      | .arr xs => .when (!xs.all isPort)
          (.fail s!"{path}.ports" "every port must be an integer in 1..65535")
      | _ => .fail s!"{path}.ports" "must be a list of port numbers") ++
    validateProjectRemoteControl (p.get "remote_control") s!"{path}.remote_control"
  else .fail path "must be a mapping"

def validateProjects (projects : Val) (base : String) : Check :=
  match projects with
  | .undef => .pass
  | .arr ps => .eachIdx ps fun j p ↦ validateProject s!"{base}[{j}]" p
  | _ => .fail base "must be a list"

def validateAgentConfig (raw : Val) (base : String) : Check :=
  .section? raw base "must be a mapping with a source" fun raw ↦
    .when (!isNonEmptyString (raw.get "source"))
      (.fail s!"{base}.source" "is required — the client-side directory to copy from") ++
    optional (raw.get "include_settings") (raw.get "include_settings").isBool
      s!"{base}.include_settings" "must be true or false"

def validateLoginKeys (keys : Val) (base : String) : Check :=
  match keys with
  | .undef => .alert s!"{base}.login_ssh_keys" "no key can log in as this developer"
  | .arr [] => .alert s!"{base}.login_ssh_keys" "no key can log in as this developer"
  | .arr ks => .eachIdx ks fun j k ↦
      .when (!isSshPublicKey k) (.fail s!"{base}.login_ssh_keys[{j}]" "not an SSH public key")
  | _ => .fail s!"{base}.login_ssh_keys" "must be a list of SSH public keys"

def validateDeveloper (env : ClientEnv) (base : String) (d : Val) : Check :=
  if d.isRecord then
    .when (!matchesRe USERNAME_RE (d.get "user")) (.failWith s!"{base}.user" do
      let shown ← (d.get "user").toStr
      return s!"'{shown}' is not a valid Linux username") ++
    optional (d.get "adopt_existing") (d.get "adopt_existing").isBool
      s!"{base}.adopt_existing" "must be true or false" ++
    optionalNamed (d.get "container_engine") ENGINES
      s!"{base}.container_engine" s!"must be one of: {listed ENGINES}" ++
    validateLoginKeys (d.get "login_ssh_keys") base ++
    validateResources (d.get "resources") s!"{base}.resources" { allowMemoryHighWeight := true } ++
    validateResources (d.get "codex_host_resources") s!"{base}.codex_host_resources"
      { allowServiceKnobs := true } ++
    validateHeavyJobGate (d.get "heavy_job_gate") s!"{base}.heavy_job_gate" ++
    optional (d.get "browser") (d.get "browser").isBool s!"{base}.browser" "must be true or false" ++
    optional (d.get "codex_remote_control") (d.get "codex_remote_control").isBool
      s!"{base}.codex_remote_control" "must be true or false" ++
    validateResources (d.get "paseo_resources") s!"{base}.paseo_resources"
      { allowServiceKnobs := true } ++
    optional (d.get "paseo_daemon") (d.get "paseo_daemon").isBool
      s!"{base}.paseo_daemon" "must be true or false" ++
    .when ((d.get "paseo_daemon").isBoolLit true &&
        ((d.get "paseo_resources").get "memory_max").isUndef)
      (.fail s!"{base}.paseo_resources.memory_max" "required when paseo_daemon is true") ++
    validateOrca (d.get "orca") s!"{base}.orca" ++
    .section? (d.get "agent_fleet") s!"{base}.agent_fleet" "must be a mapping" (fun fleet ↦
      .when (!isPositiveInteger (fleet.get "max_sessions"))
        (.fail s!"{base}.agent_fleet.max_sessions" "must be a positive integer")) ++
    validateAgentConfig (d.get "agent_config") s!"{base}.agent_config" ++
    validateGitIdentities d base ++
    validateAgentVersions d base ++
    validateAgentProfiles d base ++
    validateMemory (d.get "memory") s!"{base}.memory" ++
    validateDesktop (d.get "desktop") s!"{base}.desktop" ++
    validateFileBridge env (d.get "file_bridge") s!"{base}.file_bridge" ++
    validateAppConfigs env d base ++
    validateProjects (d.get "projects") s!"{base}.projects"
  else .fail base "must be a mapping"

/-- The Orca runtimes from index `i` on, given the ports already claimed and
the version already pinned. -/
def validateOrcaFleet (claimed : List (Number × String)) (pinned : Option String) (i : ℕ) :
    List Val → Check
  | [] => .pass
  | d :: rest =>
      if ((d.get "orca").get "enabled").isBoolLit true then
        let base := s!"developers[{i}].orca"
        let port := ((d.get "orca").get "port").orElse 6768
        let version := (d.get "orca").get "version"
        .eval (claim port claimed d base) fun (issues, claimed) ↦
          Check.report issues ++
          match version, pinned with
          | .str v, some first =>
              if Text.test EXACT_AGENT_VERSION_RE v then
                .when (v != first) (.fail s!"{base}.version"
                  s!"all enabled developers must use the same Orca version ({first})") ++
                validateOrcaFleet claimed pinned (i + 1) rest
              else validateOrcaFleet claimed pinned (i + 1) rest
          | .str v, none =>
              validateOrcaFleet claimed
                (if Text.test EXACT_AGENT_VERSION_RE v then some v else none) (i + 1) rest
          | _, _ => validateOrcaFleet claimed pinned (i + 1) rest
      else validateOrcaFleet claimed pinned (i + 1) rest
where
  claim (port : Val) (claimed : List (Number × String)) (d : Val) (base : String) :
      Js (List Issue × List (Number × String)) :=
    match port with
    | .num n =>
        if isPort port then
          match claimed.find? fun c ↦ c.1 == n with
          | some first => do
              let shown ← port.toStr
              return ([err s!"{base}.port"
                s!"port {shown} is already claimed by developer '{first.2}'"], claimed)
          | none => do
              let user ← (d.get "user").toStr
              return ([], (n, user) :: claimed)
        else .ok ([], claimed)
    | _ => .ok ([], claimed)

/-- The kind of memory share a developer states, if any. -/
def memoryHighMode (developer : Val) : Option Bool :=
  let high := (developer.get "resources").get "memory_high"
  if isMemoryWeight high then some true
  else if isDirectSize high then some false
  else none

def validateMemoryModes (devs : List Val) : Check :=
  let modes := devs.filterMap memoryHighMode
  .when (modes.contains true && modes.contains false)
    (.fail "developers.resources.memory_high" "direct sizes and weights cannot be mixed")

/-- The desktops from here on, given the client ports already claimed. -/
def validateClientPorts (claimed : List (String × String)) : List Val → Check
  | [] => .pass
  | d :: rest =>
      if ((d.get "desktop").get "enabled").isBoolLit true then
        match (d.get "desktop").get "client_port" with
        | .num n =>
            let key := n.toStr
            match claimed.find? fun c ↦ c.1 == key && c.2 != "" with
            | some first =>
                .eval (d.get "user").toStr fun user ↦
                  .fail s!"developers.{user}.desktop.client_port"
                    s!"port {key} is already claimed by developer '{first.2}'" ++
                  validateClientPorts claimed rest
            | none =>
                .eval (d.get "user").toStr fun user ↦
                  validateClientPorts ((key, user) :: claimed) rest
        | _ => validateClientPorts claimed rest
      else validateClientPorts claimed rest

def validateDevelopers (env : ClientEnv) (raw : Val) : Check :=
  match raw.get "developers" with
  | .arr (d :: ds) =>
      let devs := d :: ds
      .eachIdx devs (fun i d ↦ validateDeveloper env s!"developers[{i}]" d) ++
      validateOrcaFleet [] none 0 devs ++
      validateMemoryModes devs ++
      validateClientPorts [] devs
  | _ => .fail "developers" "at least one developer is required"

/-! ## What a passing check says of each developer -/

/-- Acceptance of one developer, part by part. -/
structure DeveloperPasses (env : ClientEnv) (base : String) (d : Val) : Prop where
  record : d.isRecord = true
  user : matchesRe USERNAME_RE (d.get "user") = true
  engine : d.get "container_engine" = .undef ∨
    ∃ s, (d.get "container_engine").toStr = .ok s ∧ s ∈ ENGINES
  loginKeys : (validateLoginKeys (d.get "login_ssh_keys") base).Passes
  resources : (validateResources (d.get "resources") s!"{base}.resources"
    { allowMemoryHighWeight := true }).Passes
  codexResources : (validateResources (d.get "codex_host_resources")
    s!"{base}.codex_host_resources" { allowServiceKnobs := true }).Passes
  gate : (validateHeavyJobGate (d.get "heavy_job_gate") s!"{base}.heavy_job_gate").Passes
  browser : d.get "browser" = .undef ∨ (d.get "browser").isBool = true
  paseoResources : (validateResources (d.get "paseo_resources") s!"{base}.paseo_resources"
    { allowServiceKnobs := true }).Passes
  orca : (validateOrca (d.get "orca") s!"{base}.orca").Passes
  agentConfig : (validateAgentConfig (d.get "agent_config") s!"{base}.agent_config").Passes
  identities : (validateGitIdentities d base).Passes
  versions : (validateAgentVersions d base).Passes
  profiles : (validateAgentProfiles d base).Passes
  memory : (validateMemory (d.get "memory") s!"{base}.memory").Passes
  desktop : (validateDesktop (d.get "desktop") s!"{base}.desktop").Passes
  fileBridge : (validateFileBridge env (d.get "file_bridge") s!"{base}.file_bridge").Passes
  appConfigs : (validateAppConfigs env d base).Passes
  projects : (validateProjects (d.get "projects") s!"{base}.projects").Passes

theorem developerPasses_of_passes {env : ClientEnv} {base : String} {d : Val}
    (h : (validateDeveloper env base d).Passes) : DeveloperPasses env base d := by
  unfold validateDeveloper at h
  split at h
  · rename_i hrecord
    simp only [Check.passes_append, Check.passes_when, Check.not_passes_failWith, imp_false,
      Bool.not_eq_true', Bool.not_eq_false, passes_optional, passes_optionalNamed,
      and_assoc] at h
    obtain ⟨huser, _, hengine, hlogin, hresources, hcodex, hgate, hbrowser, _, hpaseo, _, _,
      horca, _, hconfig, hidentities, hversions, hprofiles, hmemory, hdesktop, hbridge, happs,
      hprojects⟩ := h
    exact ⟨hrecord, huser, hengine, hlogin, hresources, hcodex, hgate, hbrowser, hpaseo, horca,
      hconfig, hidentities, hversions, hprofiles, hmemory, hdesktop, hbridge, happs, hprojects⟩
  · simp at h

/-- Acceptance of one project, part by part. -/
structure ProjectPasses (path : String) (p : Val) : Prop where
  record : p.isRecord = true
  name : matchesRe PROJECT_NAME_RE (p.get "name") = true
  repo : isNonEmptyString (p.get "repo") = true
  branch : p.get "branch" = .undef ∨ isNonEmptyString (p.get "branch") = true
  choices : ∀ k ∈ ["git_identity", "agent_profile", "memory_space"],
    p.get k = .undef ∨ isNonEmptyString (p.get k) = true
  engine : p.get "container_engine" = .undef ∨
    ∃ s, (p.get "container_engine").toStr = .ok s ∧ s ∈ ENGINES
  ports : p.get "ports" = .undef ∨ ∃ xs, p.get "ports" = .arr xs ∧ ∀ x ∈ xs, isPort x = true
  remoteControl : (validateProjectRemoteControl (p.get "remote_control")
    s!"{path}.remote_control").Passes

theorem projectPasses_of_passes {path : String} {p : Val}
    (h : (validateProject path p).Passes) : ProjectPasses path p := by
  unfold validateProject at h
  split at h
  · rename_i hrecord
    simp only [Check.passes_append, Check.passes_when, Check.not_passes_failWith,
      Check.not_passes_fail, imp_false, Bool.not_eq_true', Bool.not_eq_false, passes_optional,
      passes_optionalNamed, Check.passes_each, and_assoc] at h
    obtain ⟨hname, hrepo, hbranch, hchoices, hengine, _, hports, hremote⟩ := h
    refine ⟨hrecord, hname, hrepo, hbranch, hchoices, hengine, ?_, hremote⟩
    split at hports
    · rename_i hundef
      exact .inl hundef
    · rename_i xs harr
      refine .inr ⟨xs, harr, ?_⟩
      simpa using hports
    · simp at hports
  · simp at h

theorem projectsPass {base : String} {projects : Val}
    (h : (validateProjects projects base).Passes) :
    projects = .undef ∨
      ∃ ps, projects = .arr ps ∧ ∀ p ∈ ps, ∃ path, ProjectPasses path p := by
  unfold validateProjects at h
  split at h
  · exact .inl rfl
  · rename_i ps
    refine .inr ⟨ps, rfl, ?_⟩
    intro p hp
    obtain ⟨j, hj⟩ := List.mem_iff_getElem?.mp hp
    exact ⟨_, projectPasses_of_passes (Check.passes_eachIdx.mp h j p hj)⟩
  · simp at h

/-- Acceptance of the developers section, part by part. -/
structure DevelopersPass (env : ClientEnv) (raw : Val) (devs : List Val) : Prop where
  eq : raw.get "developers" = .arr devs
  each : ∀ dev ∈ devs, ∃ base, DeveloperPasses env base dev
  orca : (validateOrcaFleet [] none 0 devs).Passes
  clientPorts : (validateClientPorts [] devs).Passes

theorem developersPass_of_passes {env : ClientEnv} {raw : Val}
    (h : (validateDevelopers env raw).Passes) : ∃ devs, DevelopersPass env raw devs := by
  unfold validateDevelopers at h
  split at h
  · rename_i d ds heq
    simp only [Check.passes_append, Check.passes_eachIdx, and_assoc] at h
    obtain ⟨heach, horca, _, hports⟩ := h
    refine ⟨d :: ds, heq, ?_, horca, hports⟩
    intro dev hdev
    obtain ⟨i, hi⟩ := List.mem_iff_getElem?.mp hdev
    exact ⟨_, developerPasses_of_passes (heach i dev hi)⟩
  · simp at h

/-- An accepted account name is a string. -/
theorem DeveloperPasses.user_eq {env : ClientEnv} {base : String} {d : Val}
    (h : DeveloperPasses env base d) : ∃ user, d.get "user" = .str user := by
  have huser := h.user
  cases hv : d.get "user" with
  | str user => exact ⟨user, rfl⟩
  | _ =>
      rw [hv] at huser
      cases huser

end RemoteDevbox.Spec
