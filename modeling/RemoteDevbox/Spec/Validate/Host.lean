import RemoteDevbox.Spec.Validate.Shared

namespace RemoteDevbox.Spec

open Js

/-!
# The platform, runtimes and host sections
-/

def supported : String :=
  " ".intercalate (SUPPORTED_PLATFORM.map Prod.snd)

/-- The platform keys whose text is not the supported one, with that text. -/
def wrongKeys (p : Val) : List (String × String) → Js (List (String × String))
  | [] => .ok []
  | (k, want) :: rest => do
      let s ← ((p.get k).orElse "").toStr
      let more ← wrongKeys p rest
      return if s == want then more else (k, s) :: more

def validatePlatform (raw : Val) : Check :=
  let level := if (raw.get "allow_unsupported_platform").isBoolLit true then Check.alert
    else Check.fail
  match raw.get "platform" with
  | .obj fs =>
      .eval (wrongKeys (.obj fs) SUPPORTED_PLATFORM) fun wrong ↦
        let detail := listed (wrong.map fun p ↦ s!"{p.1} '{p.2}'")
        .when (!wrong.isEmpty) (level "platform" s!"unsupported {detail} (supported: {supported})")
  | _ => level "platform" s!"missing platform section (supported: {supported})"

def validateRuntimes (raw : Val) : Check :=
  .section? (raw.get "runtimes") "runtimes" "must be a mapping of tool -> version" fun r ↦
    .each r.ownFields fun p ↦
      .when (!isNonEmptyString p.2)
        (.fail s!"runtimes.{p.1}" "must be a version string, 'lts' or 'latest'")

def validateHeavyJobGate (value : Val) (path : String) : Check :=
  .section? value path "must be a mapping" fun value ↦
    knownFields value ["enabled", "categories", "wait_timeout_sec", "warn_after_sec", "memory_max",
      "memory_max_by_category", "slots", "total_memory_max"] path "unknown heavy-job gate field" ++
    optional (value.get "enabled") (value.get "enabled").isBool
      s!"{path}.enabled" "must be true or false" ++
    .section? (value.get "categories") s!"{path}.categories" "must be a mapping" (fun categories ↦
      .each categories.ownFields fun p ↦
        if !HEAVY_JOB_CATEGORIES.contains p.1 then
          .fail s!"{path}.categories.{p.1}" "is not a known heavy-job category"
        else .when (!p.2.isBool) (.fail s!"{path}.categories.{p.1}" "must be true or false")) ++
    .each ["wait_timeout_sec", "warn_after_sec"] (fun k ↦
      optional (value.get k) (isIntegerFrom 0 (value.get k))
        s!"{path}.{k}" "must be a non-negative integer") ++
    optional (value.get "memory_max") (isDirectSize (value.get "memory_max"))
      s!"{path}.memory_max" "must be a systemd size like '8G' (or '' for no per-job ceiling)" ++
    optional (value.get "slots") (isIntegerIn 1 16 (value.get "slots"))
      s!"{path}.slots" "must be an integer from 1 to 16" ++
    optional (value.get "total_memory_max") (isDirectSize (value.get "total_memory_max"))
      s!"{path}.total_memory_max"
      "must be a systemd size like '40G' (or '' for no aggregate ceiling)" ++
    .section? (value.get "memory_max_by_category") s!"{path}.memory_max_by_category"
      "must be a mapping" (fun limits ↦
        -- `allowed[category]` also finds the names that every object inherits.
        let allowed : Fields := HEAVY_JOB_CATEGORIES.map fun c ↦ (c, true)
        .each limits.ownFields fun p ↦
          if !(Val.index allowed p.1).truthy then
            .fail s!"{path}.memory_max_by_category.{p.1}" "is not a known heavy-job category"
          else .when (!isDirectSize p.2) (.fail s!"{path}.memory_max_by_category.{p.1}"
            "must be a systemd size like '18G' (or '' for no per-job ceiling)"))

def validateRunawayGuard (value : Val) (path : String) : Check :=
  .section? value path "must be a mapping" fun value ↦
    knownFields value ["enabled", "interval_sec", "grace_sec", "rss_floor_mb", "high_ratio",
      "pressure_full_min", "scan_deadline_sec", "dominance_percent"]
      path "unknown runaway-guard field" ++
    optional (value.get "enabled") (value.get "enabled").isBool
      s!"{path}.enabled" "must be true or false" ++
    validatePositiveInts value path ["interval_sec", "grace_sec", "rss_floor_mb",
      "scan_deadline_sec"] ++
    optional (value.get "high_ratio") (numberIn (.fin (.ofScientific 5 (-1))) (.ofInt 1) (value.get "high_ratio"))
      s!"{path}.high_ratio" "must be a number in 0.5..1.0" ++
    optional (value.get "dominance_percent") (percentage (value.get "dominance_percent"))
      s!"{path}.dominance_percent" "must be a number in 0..100" ++
    optional (value.get "pressure_full_min") (isIntegerIn 1 100 (value.get "pressure_full_min"))
      s!"{path}.pressure_full_min" "must be an integer in 1..100" ++
    .when (bothNumbers (value.get "interval_sec") (value.get "grace_sec")
        fun interval grace ↦ grace.lt interval)
      (.fail s!"{path}.grace_sec" "must be greater than or equal to interval_sec") ++
    .when (bothNumbers (value.get "interval_sec") (value.get "scan_deadline_sec")
        fun interval deadline ↦ interval.le deadline)
      (.fail s!"{path}.scan_deadline_sec" "must be less than interval_sec")
where
  numberIn (lo hi : Number) : Val → Bool
    | .num n => lo.le n && n.le hi
    | _ => false
  percentage : Val → Bool
    | .num n => (Number.ofInt 0).lt n && n.le (.ofInt 100)
    | _ => false

def validatePaseoSessionReap (value : Val) (path : String) : Check :=
  .section? value path "must be a mapping" fun value ↦
    knownFields value ["enabled", "idle_hours", "interval_sec"]
      path "unknown paseo-session-reap field" ++
    optional (value.get "enabled") (value.get "enabled").isBool
      s!"{path}.enabled" "must be true or false" ++
    optional (value.get "idle_hours") (atLeastOne (value.get "idle_hours"))
      s!"{path}.idle_hours" "must be a number of hours >= 1" ++
    optional (value.get "interval_sec") (isPositiveInteger (value.get "interval_sec"))
      s!"{path}.interval_sec" "must be a positive integer" ++
    .when (bothNumbers (value.get "idle_hours") (value.get "interval_sec")
        fun idle interval ↦ (idle.scale 3600).lt interval)
      (.fail s!"{path}.interval_sec" "must not exceed idle_hours")
where
  atLeastOne : Val → Bool
    | .num n => (Number.ofInt 1).le n
    | _ => false

/-- `Number.parseInt(limit, 10)` on a limit of the form `60%`. -/
def leadingDigits (s : String) : ℕ :=
  (s.toList.takeWhile Regex.isDigit).foldl (fun n c ↦ 10 * n + (c.toNat - 48)) 0

def isPressureLimit (v : Val) : Bool :=
  match v with
  | .str s => Text.test PRESSURE_LIMIT_RE s && 1 ≤ leadingDigits s && leadingDigits s ≤ 99
  | _ => false

def validateOomd (oomd : Val) : Check :=
  .section? oomd "host.oomd" "must be a mapping" fun oomd ↦
    optional (oomd.get "enabled") (oomd.get "enabled").isBool
      "host.oomd.enabled" "must be true or false" ++
    optional (oomd.get "memory_pressure_limit") (isPressureLimit (oomd.get "memory_pressure_limit"))
      "host.oomd.memory_pressure_limit" "must be a percentage in 1%..99%" ++
    optional (oomd.get "memory_pressure_duration_sec")
      (isPositiveInteger (oomd.get "memory_pressure_duration_sec"))
      "host.oomd.memory_pressure_duration_sec" "must be a positive integer"

def validateMonitoring (mon : Val) : Check :=
  .section? mon "host.monitoring" "must be a mapping" fun mon ↦
    .when (!(mon.get "enabled").isBool) (.fail "host.monitoring.enabled" "must be true or false") ++
    optional (mon.get "port") (isPort (mon.get "port"))
      "host.monitoring.port" "must be a TCP port in 1..65535" ++
    (match mon.get "access" with
      | .undef => .pass
      | .arr (a :: as) =>
          .each (a :: as) fun entry ↦
            .when (!isOneOf MONITORING_ACCESS entry) (.failWith "host.monitoring.access" do
              let shown ← entry.toStr
              return s!"unknown access \"{shown}\"")
      | _ => .fail "host.monitoring.access" s!"must be a non-empty list of {listed MONITORING_ACCESS}") ++
    optional (mon.get "retention_days") (isPositiveInteger (mon.get "retention_days"))
      "host.monitoring.retention_days" "must be a positive integer" ++
    optional (mon.get "memory_max") (isAbsoluteSize (mon.get "memory_max"))
      "host.monitoring.memory_max" "must be an absolute systemd size like '512M'"

def validateZram (z : Val) : Check :=
  .section? z "host.zram" "must be a mapping" fun z ↦
    .when (!(z.get "enabled").isBool) (.fail "host.zram.enabled" "must be true or false") ++
    optional (z.get "percent") (validateRunawayGuard.percentage (z.get "percent"))
      "host.zram.percent" "must be 1..100"

def validateHost (raw : Val) : Check :=
  .section? (raw.get "host") "host" "must be a mapping" fun h ↦
    optional (h.get "swap_size") (matchesRe SWAP_SIZE_RE (h.get "swap_size"))
      "host.swap_size" "must be a size like '8G'" ++
    optional (h.get "tmp_size") (matchesRe TMP_SIZE_RE (h.get "tmp_size"))
      "host.tmp_size" "must be a size like '4G' or a percentage like '10%'" ++
    optional (h.get "memory_reserve") (isAbsoluteSize (h.get "memory_reserve"))
      "host.memory_reserve" "must be an absolute systemd size like '4G'" ++
    validateOomd (h.get "oomd") ++
    .each ["mosh", "eternal_terminal", "harden_ssh", "hide_pids", "github_cli"] (fun k ↦
      optional (h.get k) (h.get k).isBool s!"host.{k}" "must be true or false") ++
    optional (h.get "umask") (matchesRe UMASK_RE (h.get "umask"))
      "host.umask" "must be an octal umask like '077'" ++
    optional (h.get "swappiness") (isIntegerIn 0 200 (h.get "swappiness"))
      "host.swappiness" "must be an integer in 0..200" ++
    optional (h.get "locales") (isLocaleList (h.get "locales"))
      "host.locales" "must be a list of locale names" ++
    validateHeavyJobGate (h.get "heavy_job_gate") "host.heavy_job_gate" ++
    validateRunawayGuard (h.get "runaway_guard") "host.runaway_guard" ++
    validatePaseoSessionReap (h.get "paseo_session_reap") "host.paseo_session_reap" ++
    validateMonitoring (h.get "monitoring") ++
    validateZram (h.get "zram")
where
  isLocaleList : Val → Bool
    | .arr xs => xs.all isNonEmptyString
    | _ => false

end RemoteDevbox.Spec
