import RemoteDevbox.Spec.Validate.Developers

namespace RemoteDevbox.Spec

open Js Client

/-!
# Structural validation of a parsed configuration
-/

def validateSections (env : ClientEnv) (raw : Val) : Check :=
  validatePlatform raw ++
  validateRuntimes raw ++
  validateHost raw ++
  validateOperator raw ++
  validateNetwork raw ++
  validateContainer raw ++
  validateSharedServices raw ++
  validateClients raw ++
  validateRemoteControl raw ++
  validateBrowser raw ++
  validateDevelopers env raw

/-- The issues of `validateStructure`. The typed spec it hands on is `raw`
itself, exactly when none of them is an error. -/
def validateStructure (env : ClientEnv) (raw : Val) : Check :=
  if raw.isRecord then
    match raw.get "config_version" with
    | .num version =>
        if version != CONFIG_VERSION then
          .fail "config_version"
            s!"unsupported config_version {version.toStr} — if this is a legacy group_vars file, run 'devbox migrate-config'"
        else validateSections env raw
    | _ =>
        .fail "config_version" s!"missing config_version (expected {CONFIG_VERSION.toStr})"
  else .fail "" "devbox.yml must be a YAML mapping at the top level"

theorem passes_validateStructure {env : ClientEnv} {raw : Val} :
    (validateStructure env raw).Passes ↔
      raw.isRecord = true ∧ raw.get "config_version" = .num CONFIG_VERSION ∧
        (validateSections env raw).Passes := by
  unfold validateStructure
  by_cases hraw : raw.isRecord = true
  · rw [if_pos hraw]
    cases hversion : raw.get "config_version" with
    | num version =>
        by_cases hthree : version = CONFIG_VERSION
        · simp [hthree, hraw]
        · simp [hthree]
    | _ => simp
  · simp [hraw]

/-- Acceptance of the structure, section by section. -/
structure Structured (env : ClientEnv) (raw : Val) : Prop where
  record : raw.isRecord = true
  version : raw.get "config_version" = .num CONFIG_VERSION
  platform : (validatePlatform raw).Passes
  runtimes : (validateRuntimes raw).Passes
  host : (validateHost raw).Passes
  operator : (validateOperator raw).Passes
  network : (validateNetwork raw).Passes
  container : (validateContainer raw).Passes
  sharedServices : (validateSharedServices raw).Passes
  clients : (validateClients raw).Passes
  remoteControl : (validateRemoteControl raw).Passes
  browser : (validateBrowser raw).Passes
  developers : (validateDevelopers env raw).Passes

theorem structured_of_passes {env : ClientEnv} {raw : Val}
    (h : (validateStructure env raw).Passes) : Structured env raw := by
  obtain ⟨hrecord, hversion, hsections⟩ := passes_validateStructure.mp h
  simp only [validateSections, Check.passes_append, and_assoc] at hsections
  obtain ⟨h1, h2, h3, h4, h5, h6, h7, h8, h9, h10, h11⟩ := hsections
  exact ⟨hrecord, hversion, h1, h2, h3, h4, h5, h6, h7, h8, h9, h10, h11⟩

end RemoteDevbox.Spec
