import RemoteDevbox.Spec.Validate.Shared

namespace RemoteDevbox.Spec

open Js

/-!
# The box-wide services: operator, network, containers, Remote Control, browser
-/

def validateOperator (raw : Val) : Check :=
  match raw.get "operator" with
  | .obj fs =>
      let o := Val.obj fs
      .when (!matchesRe USERNAME_RE (o.get "user")) (.failWith "operator.user" do
        let shown ← (o.get "user").toStr
        return s!"'{shown}' is not a valid Linux username") ++
      match o.get "ssh_authorized_keys" with
      | .arr (k :: ks) =>
          .eachIdx (k :: ks) fun i k ↦
            .when (!isSshPublicKey k)
              (.fail s!"operator.ssh_authorized_keys[{i}]" "not an SSH public key")
      | _ => .fail "operator.ssh_authorized_keys" "at least one SSH public key is required"
  | _ => .fail "operator" "missing operator section"

/-- `isRecord(v) ? v : null`. -/
def recordOrNull (v : Val) : Val := if v.isRecord then v else .null

def isTailnetOnly (access ts : Val) : Bool :=
  match access with
  | .arr (a :: as) =>
      !((a :: as).any fun x ↦ x.isStrLit "public") && (ts.get "enabled").isBoolLit false
  | _ => false

def validateNetwork (raw : Val) : Check :=
  match raw.get "network" with
  | .obj fs =>
      let n := Val.obj fs
      let ts := recordOrNull (n.get "tailscale")
      let ssh := recordOrNull (n.get "ssh")
      .when (!(ts.get "enabled").isBool)
        (.fail "network.tailscale.enabled" "must be true or false") ++
      .when (!(ssh.get "exposure").isUndef) (.fail "network.ssh.exposure"
        "replaced by 'access' — public_and_tailscale becomes [public, tailnet], tailscale_only becomes [tailnet], public_only becomes [public]") ++
      validateAccessList (ssh.get "access") "network.ssh.access" SSH_ACCESS ++
      .when (isTailnetOnly (ssh.get "access") ts)
        (.fail "network.ssh.access" "a tailnet-only sshd needs network.tailscale.enabled: true")
  | _ => .fail "network" "missing network section"

/-- Whether the text of every element is in `names`, read left to right. -/
def allNamed (names : List String) : List Val → Js Bool
  | [] => .ok true
  | x :: xs => do
      let s ← x.toStr
      if names.contains s then allNamed names xs else return false

/-- `Array.isArray(v) && v.length > 0 && v.every(...)` for the engine names. -/
def installsOk (installs : Val) : Js Bool :=
  match installs with
  | .arr (x :: xs) => allNamed ENGINES (x :: xs)
  | _ => .ok false

def includesStr (v : Val) (s : String) : Bool :=
  match v with
  | .arr xs => xs.any fun x ↦ x.isStrLit s
  | _ => false

def validateRuntimeLimit (limit : Val) (path : String) : Check :=
  let allowed : Fields := ["user", "name", "engine", "memory_max", "memory_swap_max",
    "redis_maxmemory"].map fun k ↦ (k, true)
  .each limit.ownFields (fun p ↦
    -- `allowed[key]` also finds the names that every object inherits.
    .when (!(Val.index allowed p.1).truthy)
      (.fail s!"{path}.{p.1}" "unknown container runtime-limit field")) ++
  .when (!matchesRe USERNAME_RE (limit.get "user"))
    (.fail s!"{path}.user" "must be a Linux username") ++
  .when (!matchesRe CONTAINER_NAME_RE (limit.get "name"))
    (.fail s!"{path}.name" "must be a stable container name") ++
  .when (!(limit.get "engine").isStrLit "docker-rootless")
    (.fail s!"{path}.engine" "only 'docker-rootless' is supported") ++
  .each ["memory_max", "memory_swap_max", "redis_maxmemory"] fun k ↦
    let value := limit.get k
    .when ((k == "memory_max" && value.isUndef) || (!value.isUndef && !isAbsoluteSize value))
      (.fail s!"{path}.{k}" "must be an absolute systemd size like '6G'")

/-- The list of limits from index `i` on, given the owners already seen. -/
def validateRuntimeLimits (seen : List String) (i : ℕ) : List Val → Check
  | [] => .pass
  | limit :: rest =>
      let path := s!"container.runtime_limits[{i}]"
      if limit.isRecord then
        validateRuntimeLimit limit path ++
        .eval (limit.get "user").toStr fun user ↦ .eval (limit.get "name").toStr fun name ↦
          let identity := s!"{user}/{name}"
          .when (seen.contains identity) (.fail path s!"duplicates container limit '{identity}'") ++
          validateRuntimeLimits (identity :: seen) (i + 1) rest
      else .fail path "must be a mapping" ++ validateRuntimeLimits seen (i + 1) rest

def validateContainer (raw : Val) : Check :=
  match raw.get "container" with
  | .obj fs =>
      let c := Val.obj fs
      .eval (installsOk (c.get "install_engines")) fun ok ↦
        .when (!ok) (.fail "container.install_engines"
          s!"must be a non-empty list of: {listed ENGINES}") ++
        match c.get "default_engine" with
        | .str engine =>
            if !ENGINES.contains engine then
              .fail "container.default_engine" s!"must be one of: {listed ENGINES}"
            else
              .when (engine != "none" && ok && !includesStr (c.get "install_engines") engine)
                (.fail "container.default_engine"
                  s!"'{engine}' is not listed in container.install_engines") ++
              match c.get "runtime_limits" with
              | .undef => .pass
              | .arr limits => validateRuntimeLimits [] 0 limits
              | _ => .fail "container.runtime_limits" "must be a list"
        | _ => .fail "container.default_engine" s!"must be one of: {listed ENGINES}"
  | _ => .fail "container" "missing container section"

/-- Acceptance of the container section: the default engine is `none` or
installed. -/
theorem containerPasses {raw : Val} (h : (validateContainer raw).Passes) :
    ∃ engine x xs, (raw.get "container").get "default_engine" = .str engine ∧
      (raw.get "container").get "install_engines" = .arr (x :: xs) ∧
      (engine ≠ "none" → includesStr (.arr (x :: xs)) engine = true) ∧
      ((raw.get "container").get "runtime_limits" = .undef ∨
        ∃ limits, (raw.get "container").get "runtime_limits" = .arr limits ∧
          (validateRuntimeLimits [] 0 limits).Passes) := by
  unfold validateContainer at h
  split at h
  · rename_i fs hcontainer
    rw [hcontainer]
    simp only [Check.passes_eval, Check.passes_append, Check.passes_when, Check.not_passes_fail,
      imp_false, Bool.not_eq_true', Bool.not_eq_false] at h
    obtain ⟨ok, hinstalls, rfl, hdefault⟩ := h
    split at hdefault
    · rename_i engine hengine
      split at hdefault
      · simp at hdefault
      · simp only [Check.passes_append, Check.passes_when, Check.not_passes_fail,
          imp_false] at hdefault
        obtain ⟨hlisted, hlimits⟩ := hdefault
        unfold installsOk at hinstalls
        split at hinstalls
        · rename_i x xs harr
          refine ⟨engine, x, xs, hengine, harr, ?_, ?_⟩
          · intro hne
            rw [harr] at hlisted
            simpa [hne] using hlisted
          · split at hlimits
            · rename_i hundef
              exact .inl hundef
            · rename_i limits heq
              exact .inr ⟨limits, heq, hlimits⟩
            · simp at hlimits
        · cases hinstalls
    · simp at hdefault
  · simp at h

def validateSharedServices (raw : Val) : Check :=
  .section? (raw.get "shared_services") "shared_services" "must be a mapping" fun s ↦
    .when (!(s.get "enabled").isBool) (.fail "shared_services.enabled" "must be true or false") ++
    optional (s.get "engine") ((s.get "engine").isStrLit "system-docker")
      "shared_services.engine" "only 'system-docker' is supported"

def isCliTargetList (v : Val) : Bool :=
  match v with
  | .arr xs => xs.all (isOneOf CLI_TARGETS)
  | _ => false

def validateClients (raw : Val) : Check :=
  .section? (raw.get "clients") "clients" "must be a mapping" fun c ↦
    optional (c.get "cli_targets") (isCliTargetList (c.get "cli_targets"))
      "clients.cli_targets" s!"must be a list of: {listed CLI_TARGETS}"

def validateRemoteControl (raw : Val) : Check :=
  .section? (raw.get "remote_control") "remote_control" "must be a mapping" fun rc ↦
    optional (rc.get "enabled") (rc.get "enabled").isBool
      "remote_control.enabled" "must be true or false" ++
    optionalNamed (rc.get "spawn") RC_SPAWNS
      "remote_control.spawn" s!"must be one of: {listed RC_SPAWNS}" ++
    validatePositiveInts rc "remote_control" ["capacity"] ++
    validateResources (rc.get "resources") "remote_control.resources" { allowServiceKnobs := true } ++
    validateBuildEnv (rc.get "build_env") "remote_control.build_env" ++
    .section? (rc.get "autorestart") "remote_control.autorestart" "must be a mapping" (fun ar ↦
      optional (ar.get "enabled") (ar.get "enabled").isBool
        "remote_control.autorestart.enabled" "must be true or false" ++
      validatePositiveInts ar "remote_control.autorestart" ["restart_sec", "burst", "interval"]) ++
    .section? (rc.get "resume") "remote_control.resume" "must be a mapping" (fun re ↦
      .each ["on_boot", "skip_workflow_warning"] (fun k ↦
        optional (re.get k) (re.get k).isBool
          s!"remote_control.resume.{k}" "must be true or false") ++
      validatePositiveInts re "remote_control.resume"
        ["lookback_h", "max_concurrent", "settle_sec", "min_free_mb", "max_attempts",
          "timeout_sec"]) ++
    .section? (rc.get "reap") "remote_control.reap" "must be a mapping" (fun rp ↦
      optional (rp.get "enabled") (rp.get "enabled").isBool
        "remote_control.reap.enabled" "must be true or false" ++
      validatePositiveInts rp "remote_control.reap" ["interval_sec", "grace_sec"])

def validateProjectRemoteControl (raw : Val) (base : String) : Check :=
  if raw.isBoolLit false then .pass
  else .section? raw base
      "must be a mapping, or false to turn Remote Control off for this project" fun raw ↦
    optional (raw.get "enabled") (raw.get "enabled").isBool
      s!"{base}.enabled" "must be true or false" ++
    optional (raw.get "name") (isNonEmptyString (raw.get "name"))
      s!"{base}.name" "must be a non-empty title" ++
    optionalNamed (raw.get "spawn") RC_SPAWNS
      s!"{base}.spawn" s!"must be one of: {listed RC_SPAWNS}" ++
    validatePositiveInts raw base ["capacity"] ++
    validateResources (raw.get "resources") s!"{base}.resources" { allowServiceKnobs := true } ++
    validateBuildEnv (raw.get "build_env") s!"{base}.build_env"

def validateBrowserReap (rp : Val) : Check :=
  .section? rp "browser.reap" "must be a mapping" fun rp ↦
    optional (rp.get "enabled") (rp.get "enabled").isBool
      "browser.reap.enabled" "must be true or false" ++
    validatePositiveInts rp "browser.reap" ["interval_sec", "grace_sec"] ++
    .when (bothNumbers (rp.get "interval_sec") (rp.get "grace_sec")
        fun interval grace ↦ grace.lt interval)
      (.fail "browser.reap.grace_sec"
        "must be greater than or equal to browser.reap.interval_sec")

def validateFailover (f : Val) : Check :=
  .section? f "browser.failover" "must be a mapping" fun f ↦
    optional (f.get "enabled") (f.get "enabled").isBool
      "browser.failover.enabled" "must be true or false" ++
    optional (f.get "autobind") (f.get "autobind").isBool
      "browser.failover.autobind" "must be true or false" ++
    .when ((f.get "enabled").isBoolLit true && !isNonEmptyString (f.get "chrome_user"))
      (.fail "browser.failover.chrome_user"
        "is required — name the developer whose account runs the fallback Chrome") ++
    .each ["cdp_port", "fallback_chrome_port", "client_tunnel_port"] fun k ↦
      optional (f.get k) (isPort (f.get k))
        s!"browser.failover.{k}" "must be an integer in 1..65535"

def validateBrowser (raw : Val) : Check :=
  .section? (raw.get "browser") "browser" "must be a mapping" fun b ↦
    optional (b.get "enabled") (b.get "enabled").isBool "browser.enabled" "must be true or false" ++
    optional (b.get "mcp_port") (isPort (b.get "mcp_port"))
      "browser.mcp_port" "must be an integer in 1..65535" ++
    validateBrowserReap (b.get "reap") ++
    validateFailover (b.get "failover")

end RemoteDevbox.Spec
