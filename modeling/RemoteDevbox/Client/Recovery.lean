import RemoteDevbox.Client.Health

namespace RemoteDevbox.Client.Recovery

open Js Box

/-!
# The recovery registry

Every component that may be recovered is recognised by the pattern of its id.
-/

inductive Ownership where
  | clientAgent
  | clientMount
  | clientSync
  | boxSystemd
  | none

/-- One entry; its pattern is a literal head followed by `tail`. -/
structure RecoveryRegistration where
  component : String
  head : String
  tail : Regex
  policy : RecoveryPolicy
  ownership : Ownership
  recoverableReasons : List String

def RecoveryRegistration.pattern (r : RecoveryRegistration) : Regex :=
  .seq (.lit r.head.toList) r.tail

def RecoveryRegistration.accepts (r : RecoveryRegistration) (id : String) : Bool :=
  Text.test r.pattern id

def UNIT_FAILURES : List String :=
  ["unit_failed", "unit_inactive", "listener_missing", "listener_owner_mismatch"]

def AGENT_FAILURES : List String :=
  ["agent_not_loaded", "agent_not_running", "agent_not_ready", "listener_owner_mismatch"]

/-- `[a-z0-9][a-z0-9_-]*` -/
def INSTANCE_RE : Regex := .seq (.cls idHead) (.star (.cls Spec.nameTail))

def rcUnitChar (c : Char) : Bool :=
  Regex.isLower c || Regex.isDigit c || c == '_' || c == '.' || c == '@' || c == '-'

/-- `[a-z0-9_.@-]+\\.service` -/
def RC_UNIT_RE : Regex := .seq (.plus (.cls rcUnitChar)) (.lit ".service".toList)

/-- A profile, then `last` behind a dot. -/
def PROFILE_THEN_RE (last : String) (rest : Regex) : Regex :=
  .seq PROFILE_RE (.seq (.lit ("." ++ last).toList) rest)

def boxUnit (component : String) (policy : RecoveryPolicy) (more : List String) :
    RecoveryRegistration :=
  ⟨component, component, .eps, policy, .boxSystemd, UNIT_FAILURES ++ more⟩

def mcpRegistration : RecoveryRegistration :=
  ⟨"browser.mcp.*", "browser.mcp.", PROFILE_RE, .automatic, .boxSystemd, UNIT_FAILURES⟩

def memoryRegistration : RecoveryRegistration :=
  ⟨"memory.*", "memory.", PROFILE_THEN_RE "" INSTANCE_RE, .manual, .boxSystemd,
    UNIT_FAILURES ++ ["process_missing"]⟩

def rcRegistration : RecoveryRegistration :=
  ⟨"remote-control.*", "remote-control.agent-rc-", RC_UNIT_RE, .automatic, .boxSystemd,
    UNIT_FAILURES ++ ["process_missing"]⟩

def rdpTunnelRegistration : RecoveryRegistration :=
  ⟨"client.rdp-tunnel.*", "client.rdp-tunnel.", PROFILE_RE, .automatic, .clientAgent,
    AGENT_FAILURES⟩

def browserRegistration : RecoveryRegistration :=
  ⟨"client.browser.*", "client.browser.", PROFILE_RE, .automatic, .clientAgent, AGENT_FAILURES⟩

/-- An agent that is known by its label. -/
def agentRegistration (component last : String) (rest : Regex) : RecoveryRegistration :=
  ⟨component, "client.agent.com.devbox.", PROFILE_THEN_RE last rest, .automatic, .clientAgent,
    AGENT_FAILURES⟩

def browserPortRegistration : RecoveryRegistration :=
  agentRegistration "client.agent.*.browser-port-*" "browser-port-" PORT_NUMBER_RE

def autoBindRegistration : RecoveryRegistration :=
  agentRegistration "client.agent.*.browser-autobind-port-*" "browser-autobind-port-" PORT_NUMBER_RE

def mountAgentRegistration : RecoveryRegistration :=
  agentRegistration "client.agent.*.mount" "mount" .eps

def mountRegistration : RecoveryRegistration :=
  ⟨"client.mount.*", "client.mount.", .plus (.cls idTail), .automatic, .clientMount,
    ["mount_absent", "mount_disconnected_clean"]⟩

def syncRegistration : RecoveryRegistration :=
  ⟨"client.sync.*", "client.sync.", PROFILE_RE, .automatic, .clientSync,
    ["sync_disconnected", "sync_paused", "sync_autostart_unregistered"]⟩

def unrecoverable (component head : String) (tail : Regex) : RecoveryRegistration :=
  ⟨component, head, tail, .none, .none, []⟩

def REGISTRY : List RecoveryRegistration :=
  [boxUnit "desktop.xrdp" .automatic ["tailnet_not_ready"],
   boxUnit "desktop.xrdp-sesman" .confirmationRequired [],
   boxUnit "browser.proxy" .automatic [],
   boxUnit "browser.fallback" .automatic [],
   mcpRegistration,
   memoryRegistration,
   rcRegistration,
   rdpTunnelRegistration,
   browserRegistration,
   browserPortRegistration,
   autoBindRegistration,
   mountAgentRegistration,
   mountRegistration,
   syncRegistration,
   unrecoverable "box.transport" "box.transport" .eps,
   unrecoverable "box.snapshot" "box.snapshot" .eps,
   unrecoverable "profile.*.isolation" "profile." (PROFILE_THEN_RE "isolation" .eps),
   unrecoverable "profile.*.resources" "profile." (PROFILE_THEN_RE "resources" .eps)]

def recoveryRegistrationFor (component : String) : Option RecoveryRegistration :=
  REGISTRY.find? (·.accepts component)

inductive RecoveryDecision where
  | run (registration : RecoveryRegistration)
  | skip (reason : String)
  | refuse (reason : String)

def decideRecovery (result : HealthResult) (registered : RecoveryRegistration) : RecoveryDecision :=
  match result.status with
  | .healthy => .skip "already_healthy"
  | .recovering => .skip "recovery_in_progress"
  | .unknown => .refuse "evidence_unknown"
  | .blocked => .refuse "component_blocked"
  | .degraded | .failed =>
      if result.recovery ≠ registered.policy then .refuse "policy_mismatch"
      else if registered.policy = .none then .refuse "recovery_not_supported"
      else if registered.policy = .confirmationRequired then .refuse "confirmation_required"
      else
        match result.reason with
        | none => .refuse "reason_not_allowlisted"
        | some reason =>
            if reason = "" ∨ !registered.recoverableReasons.contains reason then
              .refuse "reason_not_allowlisted"
            else .run registered

/-! ## Which entries an id can match -/

/-- One entry recognises the id, and no other one does. -/
def RegisteredAs (id : String) (r : RecoveryRegistration) : Prop :=
  r ∈ REGISTRY ∧ r.accepts id = true ∧ ∀ r' ∈ REGISTRY, r'.accepts id = true → r' = r

def comparable (s t : String) : Bool :=
  s.toList.isPrefixOf t.toList || t.toList.isPrefixOf s.toList

theorem accepts_append {r : RecoveryRegistration} {rest : String} :
    r.accepts (r.head ++ rest) = Text.test r.tail rest := by
  rw [Bool.eq_iff_iff, RecoveryRegistration.accepts, Text.test, RecoveryRegistration.pattern,
    Regex.isMatch_seq, String.toList_append]
  constructor
  · rintro ⟨a, b, hsplit, ha, hb⟩
    rw [Regex.isMatch_lit.mp ha] at hsplit
    rwa [List.append_cancel_left hsplit] at hb
  · exact fun h ↦ ⟨_, _, rfl, Regex.isMatch_lit.mpr rfl, h⟩

theorem comparable_of_accepts {r : RecoveryRegistration} {head id : String}
    (h : r.accepts id = true) (hhead : head.toList <+: id.toList) :
    comparable r.head head = true := by
  obtain ⟨a, b, hsplit, ha, _⟩ := Regex.isMatch_seq.mp h
  rw [Regex.isMatch_lit.mp ha] at hsplit
  rw [comparable, Bool.or_eq_true, List.isPrefixOf_iff_prefix, List.isPrefixOf_iff_prefix]
  exact List.prefix_or_prefix_of_prefix ⟨b, hsplit⟩ hhead

theorem prefix_append (head rest : String) : head.toList <+: (head ++ rest).toList := by
  rw [String.toList_append]
  exact List.prefix_append _ _

theorem registry_components_nodup : (REGISTRY.map (·.component)).Nodup := by
  decide +kernel

theorem eq_of_component {r r' : RecoveryRegistration} (h : r ∈ REGISTRY) (h' : r' ∈ REGISTRY)
    (heq : r'.component = r.component) : r' = r :=
  List.inj_on_of_nodup_map registry_components_nodup h' h heq

/-- The entries that stand alone: no other entry shares the head of one. -/
def aloneEntries : List RecoveryRegistration :=
  [boxUnit "browser.proxy" .automatic [],
   boxUnit "browser.fallback" .automatic [],
   mcpRegistration,
   memoryRegistration,
   rcRegistration,
   rdpTunnelRegistration,
   browserRegistration,
   mountRegistration,
   syncRegistration]

theorem aloneEntries_mem {r : RecoveryRegistration} (h : r ∈ aloneEntries) : r ∈ REGISTRY := by
  simp only [aloneEntries, List.mem_cons, List.not_mem_nil, or_false] at h
  rcases h with rfl | rfl | rfl | rfl | rfl | rfl | rfl | rfl | rfl <;> simp [REGISTRY]

theorem aloneEntries_alone : ∀ r ∈ aloneEntries, ∀ r' ∈ REGISTRY,
    comparable r'.head r.head = true → r'.component = r.component := by
  decide +kernel

/-- An id whose head only one entry shares. -/
theorem registered_iff {r : RecoveryRegistration} (hmem : r ∈ aloneEntries) {rest : String} :
    (∃ r', RegisteredAs (r.head ++ rest) r') ↔ Text.test r.tail rest = true := by
  have hunique : ∀ r' ∈ REGISTRY, r'.accepts (r.head ++ rest) = true → r' = r :=
    fun r' hr' haccepts ↦ eq_of_component (aloneEntries_mem hmem) hr'
      (aloneEntries_alone r hmem r' hr' (comparable_of_accepts haccepts (prefix_append _ _)))
  rw [← accepts_append]
  constructor
  · rintro ⟨r', hr', haccepts, _⟩
    exact hunique r' hr' haccepts ▸ haccepts
  · exact fun haccepts ↦ ⟨r, aloneEntries_mem hmem, haccepts, hunique⟩

end RemoteDevbox.Client.Recovery
