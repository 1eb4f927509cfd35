import RemoteDevbox.Client.RecoveryCoverage

namespace RemoteDevbox.Client.Recovery

open Js Box Ansible Spec

/-!
# Recovery of the components of a box

The facts template names its components after accounts, memory instances and
projects; the registry of the client looks for the same names.
-/

/-- One entry recognises a listed component, and its policy is the listed one. -/
def FactCovered (fact : Val) : Prop :=
  ∃ r, RegisteredAs (idOf fact) r ∧
    parseRecovery (idOf fact) (fact.get "recovery") = .ok r.policy

/-- The names of a box that fit the registry. -/
structure FactIds (vars : Val) : Prop where
  servers : ∀ server ∈ mcpServers vars, (Ansible.textOf (server.get "user")).length ≤ 32
  owners : ∀ row ∈ memoryInstances vars, (Ansible.textOf row.user).length ≤ 32
  instances : ∀ row ∈ memoryInstances vars, Text.test INSTANCE_RE row.name = true
  projects : ∀ row ∈ rcRows vars,
    ∀ c ∈ (Ansible.textOf (row.get "project")).toList, Regex.isUpper c = false

theorem rcUnitChar_of_idTail {c : Char} (h : idTail c = true) : rcUnitChar c = true := by
  simp only [idTail, rcUnitChar, Bool.or_eq_true] at h ⊢
  tauto

/-- Of the characters of a project name, the registry refuses the capitals. -/
theorem rcUnitChar_iff {c : Char} (h : wordChar c = true) :
    rcUnitChar c = true ↔ Regex.isUpper c = false := by
  rw [← idTail_iff_of_wordChar h]
  refine ⟨fun hc ↦ ?_, rcUnitChar_of_idTail⟩
  have hat : c ≠ '@' := by
    rintro rfl
    exact absurd h (by decide)
  simp only [rcUnitChar, idTail, Bool.or_eq_true, beq_iff_eq] at hc ⊢
  tauto

/-- An id behind the head of an entry that stands alone. -/
theorem fact_covered_iff {fact : Val} {r : RecoveryRegistration} {rest : String}
    (hmem : r ∈ aloneEntries) (hid : idOf fact = r.head ++ rest)
    (hpolicy : parseRecovery (idOf fact) (fact.get "recovery") = .ok r.policy) :
    FactCovered fact ↔ ∃ r', RegisteredAs (r.head ++ rest) r' := by
  rw [FactCovered, hpolicy, hid]
  constructor
  · exact fun ⟨r', hr', _⟩ ↦ ⟨r', hr'⟩
  · rintro ⟨r', hr'⟩
    have hheads := comparable_of_accepts hr'.2.1 (prefix_append r.head rest)
    have heq : r' = r := eq_of_component (aloneEntries_mem hmem) hr'.1
      (aloneEntries_alone r hmem r' hr'.1 hheads)
    exact ⟨r', hr', by rw [heq]⟩

/-- The box units that are known by one id. -/
def unitEntries : List RecoveryRegistration :=
  [boxUnit "desktop.xrdp" .automatic ["tailnet_not_ready"],
   boxUnit "desktop.xrdp-sesman" .confirmationRequired [],
   boxUnit "browser.proxy" .automatic [],
   boxUnit "browser.fallback" .automatic []]

theorem unitEntries_accept : ∀ r ∈ unitEntries, r.accepts r.component = true ∧
    ∀ r' ∈ REGISTRY, r'.accepts r.component = true → r'.component = r.component := by
  decide +kernel

theorem unit_covered {fact : Val} {r : RecoveryRegistration} (hmem : r ∈ unitEntries)
    (hid : idOf fact = r.component)
    (hpolicy : parseRecovery (idOf fact) (fact.get "recovery") = .ok r.policy) :
    FactCovered fact := by
  have hregistry : r ∈ REGISTRY := by
    simp only [unitEntries, List.mem_cons, List.not_mem_nil, or_false] at hmem
    rcases hmem with rfl | rfl | rfl | rfl <;> simp [REGISTRY]
  obtain ⟨haccepts, honly⟩ := unitEntries_accept r hmem
  rw [FactCovered, hpolicy, hid]
  exact ⟨r, ⟨hregistry, haccepts,
    fun r' hr' h ↦ eq_of_component hregistry hr' (honly r' hr' h)⟩, rfl⟩

theorem desktop_covered {tailnet : Ipv4} {vars : Val} :
    ∀ fact ∈ desktopComponents tailnet vars, FactCovered fact := by
  intro fact hfact
  unfold desktopComponents at hfact
  simp only at hfact
  split at hfact
  · cases hfact
  · simp only [List.mem_cons, List.not_mem_nil, or_false] at hfact
    rcases hfact with rfl | rfl
    · exact unit_covered (r := boxUnit "desktop.xrdp" .automatic ["tailnet_not_ready"])
        (by simp [unitEntries]) rfl rfl
    · exact unit_covered (r := boxUnit "desktop.xrdp-sesman" .confirmationRequired [])
        (by simp [unitEntries]) rfl rfl

theorem failover_covered {vars : Val} : ∀ fact ∈ failoverComponents vars, FactCovered fact := by
  intro fact hfact
  unfold failoverComponents at hfact
  simp only at hfact
  split at hfact
  · simp only [List.mem_cons, List.not_mem_nil, or_false] at hfact
    rcases hfact with rfl | rfl
    · exact unit_covered (r := boxUnit "browser.proxy" .automatic [])
        (by simp [unitEntries]) rfl rfl
    · exact unit_covered (r := boxUnit "browser.fallback" .automatic [])
        (by simp [unitEntries]) rfl rfl
  · cases hfact

section Rows

variable {vars : Val} (h : FactRows vars)
include h

theorem mcp_covered_iff {server : Val} (hserver : server ∈ mcpServers vars) :
    FactCovered (mcpOf server) ↔ (Ansible.textOf (server.get "user")).length ≤ 32 := by
  obtain ⟨user, huser, hname⟩ := h.servers server hserver
  refine (@fact_covered_iff _ mcpRegistration _ (by simp [aloneEntries]) (idOf_mcpOf server)
    rfl).trans (registered_mcp.trans ?_)
  rw [huser, Ansible.textOf, test_profile hname]

theorem memory_covered_iff {row : MemoryRow} (hrow : row ∈ memoryInstances vars) :
    FactCovered (memoryOf row) ↔
      (Ansible.textOf row.user).length ≤ 32 ∧ Text.test INSTANCE_RE row.name = true := by
  obtain ⟨user, huser, hname⟩ := h.memory row hrow
  have hid : idOf (memoryOf row) = "memory." ++ (Ansible.textOf row.user ++ "." ++ row.name) := by
    rw [idOf_memoryOf, joined_assoc]
  have hregistered := @registered_memory _ row.name (user_noDot hname)
  rw [joined_assoc] at hregistered
  rw [huser, Ansible.textOf] at hid ⊢
  refine (@fact_covered_iff _ memoryRegistration _ (by simp [aloneEntries]) hid rfl).trans
    (hregistered.trans ?_)
  rw [test_profile hname]

theorem rc_covered_iff {row : Val} (hrow : row ∈ rcRows vars) :
    FactCovered (rcOf row) ↔
      ∀ c ∈ (Ansible.textOf (row.get "project")).toList, Regex.isUpper c = false := by
  obtain ⟨agent, user, project, hagent, huser, hproject, hprovider, hname, hprojectName⟩ :=
    h.rc row hrow
  have hword : ∀ c ∈ project.toList, wordChar c = true :=
    (Regex.isMatch_plus_cls.mp hprojectName).2
  have hagentChars : ∀ c ∈ agent.toList, idTail c = true := by
    have hall : ∀ a ∈ PROVIDERS, a.toList.all idTail = true := by decide +kernel
    exact List.all_eq_true.mp (hall agent hprovider)
  have huserChars := nameTail_of_userName hname
  have hid : idOf (rcOf row) = "remote-control.agent-rc-" ++
      (agent ++ "-" ++ user ++ "-" ++ project ++ ".service") := by
    have hhead : "remote-control." ++ "agent-rc-" = "remote-control.agent-rc-" := by decide +kernel
    rw [idOf_rcOf, rcUnitOf, rcLabel, hagent, huser, hproject, ← hhead]
    simp only [Ansible.textOf, String.append_assoc]
  refine (@fact_covered_iff _ rcRegistration _ (by simp [aloneEntries]) hid rfl).trans
    (registered_rc.trans ?_)
  rw [hproject, Ansible.textOf]
  constructor
  · rintro ⟨_, hall⟩ c hc
    refine (rcUnitChar_iff (hword c hc)).mp (hall c ?_)
    rw [String.toList_append]
    exact List.mem_append_right _ hc
  · intro hlower
    have hhyphen : ∀ c ∈ "-".toList, c = '-' := by simp
    refine ⟨by simp, fun c hc ↦ ?_⟩
    simp only [String.toList_append, List.mem_append] at hc
    rcases hc with (((hc | hc) | hc) | hc) | hc
    · exact rcUnitChar_of_idTail (hagentChars c hc)
    · rw [hhyphen c hc]
      decide
    · exact rcUnitChar_of_idTail (idTail_of_nameTail (huserChars c hc))
    · rw [hhyphen c hc]
      decide
    · exact (rcUnitChar_iff (hword c hc)).mpr (hlower c hc)

theorem facts_covered_iff {tailnet : Ipv4} {facts : Val}
    (hfacts : healthComponents tailnet vars = .ok facts) :
    (∀ fact ∈ listOf (facts.get "components"), FactCovered fact) ↔ FactIds vars := by
  rw [healthComponents_eq h] at hfacts
  obtain rfl := Except.ok.inj hfacts
  change (∀ fact ∈ desktopComponents tailnet vars ++ failoverComponents vars ++
    (mcpServers vars).map mcpOf ++ (memoryInstances vars).map memoryOf ++ (rcRows vars).map rcOf,
      FactCovered fact) ↔ _
  simp only [List.forall_mem_append, List.forall_mem_map]
  constructor
  · rintro ⟨⟨⟨⟨_, _⟩, hmcp⟩, hmemory⟩, hrc⟩
    exact
      { servers := fun server hserver ↦ (mcp_covered_iff h hserver).mp (hmcp server hserver)
        owners := fun row hrow ↦ ((memory_covered_iff h hrow).mp (hmemory row hrow)).1
        instances := fun row hrow ↦ ((memory_covered_iff h hrow).mp (hmemory row hrow)).2
        projects := fun row hrow ↦ (rc_covered_iff h hrow).mp (hrc row hrow) }
  · intro hids
    refine ⟨⟨⟨⟨desktop_covered, failover_covered⟩, ?_⟩, ?_⟩, ?_⟩
    · exact fun server hserver ↦ (mcp_covered_iff h hserver).mpr (hids.servers server hserver)
    · exact fun row hrow ↦
        (memory_covered_iff h hrow).mpr ⟨hids.owners row hrow, hids.instances row hrow⟩
    · exact fun row hrow ↦ (rc_covered_iff h hrow).mpr (hids.projects row hrow)

end Rows

/-- The registry knows every component that a box and a client report exactly
when the names fit it, and no dashboard agent is wanted. -/
theorem recovery_covers_iff {env home : ClientEnv} {client : ClientFacts} {doc : Doc}
    {resolved vars facts : Val} (haccepts : Accepts env doc resolved)
    (hvars : normalize client resolved = .ok vars) {tailnet : Ipv4}
    (hfacts : healthComponents tailnet vars = .ok facts) {cfg : Config} {profile : String}
    {mode : BrowserMode} {installed : List String} {evidence : ClientEvidence}
    {results : List HealthResult}
    (hresults : collectClientHealth home cfg profile mode installed evidence = .ok results) :
    ((∀ fact ∈ listOf (facts.get "components"), FactCovered fact) ∧ ∀ c ∈ results, Covered c) ↔
      FactIds vars ∧ ClientIds cfg profile mode installed := by
  obtain ⟨devs, haccepted⟩ := accepted haccepts
  obtain ⟨_, _, _, _, _, gen⟩ := generated_of_normalize hvars
  exact and_congr (facts_covered_iff (factRows haccepted gen) hfacts) (client_covered_iff hresults)

/-- No probe of an agent finds it, and nothing else is configured. -/
def nothingLoaded : ClientEvidence where
  agent := fun _ ↦ ⟨some (false, ⟨none, none⟩), none, fun _ ↦ none⟩
  mount := fun _ ↦ ⟨false, none, none, some true⟩
  session := none
  registered := none
  box := fun _ ↦ some .healthy

theorem plainFacts :
    ∃ resolved vars facts, Accepts homeEnv plainProject resolved ∧
      normalize noClient resolved = .ok vars ∧ healthComponents someTailnet vars = .ok facts ∧
      FactIds vars := by
  have hfacts : ((varsOf homeEnv noClient plainProject.val).map fun vars ↦
      (healthComponents someTailnet vars).isOk && (mcpServers vars).isEmpty &&
        (memoryInstances vars).isEmpty && (rcRows vars).all fun row ↦
          (Ansible.textOf (row.get "project")).toList.all fun c ↦ !Regex.isUpper c) = some true := by
    decide +kernel
  obtain ⟨vars, hvars, hchecks⟩ := Option.map_eq_some_iff.mp hfacts
  obtain ⟨resolved, haccepts, hnormalize⟩ := vars_eq_some hvars
  simp only [Bool.and_eq_true, List.isEmpty_iff, List.all_eq_true, Bool.not_eq_true'] at hchecks
  obtain ⟨⟨⟨hok, hservers⟩, hmemory⟩, hprojects⟩ := hchecks
  have hids : FactIds vars :=
    { servers := fun server hserver ↦ by
        rw [hservers] at hserver
        cases hserver
      owners := fun row hrow ↦ by
        rw [hmemory] at hrow
        cases hrow
      instances := fun row hrow ↦ by
        rw [hmemory] at hrow
        cases hrow
      projects := hprojects }
  cases hrendered : healthComponents someTailnet vars with
  | ok facts => exact ⟨resolved, vars, facts, haccepts, hnormalize, hrendered, hids⟩
  | error _ =>
      rw [hrendered] at hok
      cases hok

/-- The agent of the dashboard has failed, and no entry recognises it. -/
theorem dashboard_unrecognised :
    (∃ resolved vars facts, Accepts homeEnv plainProject resolved ∧
      normalize noClient resolved = .ok vars ∧ healthComponents someTailnet vars = .ok facts) ∧
    ∃ results, collectClientHealth macHome (dashboardConfig (some ⟨.ofInt 19999⟩)) "ada" .client []
        nothingLoaded = .ok results ∧
      ∃ c ∈ results, c.id = "client.agent.com.devbox.ada.monitoring" ∧ c.status = .failed ∧
        c.recovery = .automatic ∧ recoveryRegistrationFor c.id = none ∧ ¬ Covered c := by
  obtain ⟨resolved, vars, facts, haccepts, hnormalize, hfacts, _⟩ := plainFacts
  refine ⟨⟨resolved, vars, facts, haccepts, hnormalize, hfacts⟩, [⟨"client.agent.com.devbox.ada.monitoring", .failed,
    some "agent_not_loaded", .automatic⟩], by decide +kernel, _, List.mem_singleton_self _, rfl, rfl,
    rfl, by decide +kernel, ?_⟩
  rintro ⟨r, ⟨hmem, haccepts, _⟩, _⟩
  have hnone : ∀ r ∈ REGISTRY,
      r.accepts "client.agent.com.devbox.ada.monitoring" = false := by decide +kernel
  rw [hnone r hmem] at haccepts
  cases haccepts

/-- A desktop, a project with a port, a mount, the sync disk and the browser. -/
def busyConfig : Config where
  hostPrefix := "box"
  default := "ada"
  profiles := [⟨"ada", [⟨"site", [.ofInt 3000]⟩], [⟨"data", "/Users/ada/data"⟩], true,
    some ⟨.ofInt 13389⟩, some ⟨.ofInt 19222, true⟩⟩]
  monitoring := none

theorem busy_unmonitored : ¬ Wanted busyConfig "ada" .client "monitoring" := by
  generalize hname : "monitoring" = name
  intro hwanted
  cases hwanted with
  | monitoring _ _ hmonitoring => cases hmonitoring
  | autoBind => exact (fixed_ne_port "monitoring" (by simp [FIXED_NAMES]) _).2 hname
  | desktop | browser | mount => exact absurd hname (by decide)

/-- The registry knows the six components of that client, and those of the box. -/
theorem busy_covered :
    ∃ vars facts results, healthComponents someTailnet vars = .ok facts ∧
      collectClientHealth macHome busyConfig "ada" .client [] nothingLoaded = .ok results ∧
      results.length = 6 ∧
      (∀ fact ∈ listOf (facts.get "components"), FactCovered fact) ∧ ∀ c ∈ results, Covered c := by
  obtain ⟨_, vars, facts, haccepts, hvars, hfacts, hids⟩ := plainFacts
  have hlength : (collectClientHealth macHome busyConfig "ada" .client [] nothingLoaded).map
      List.length = .ok 6 := by decide +kernel
  cases hresults : collectClientHealth macHome busyConfig "ada" .client [] nothingLoaded with
  | error _ =>
      rw [hresults] at hlength
      cases hlength
  | ok results =>
      rw [hresults] at hlength
      refine ⟨vars, facts, results, hfacts, rfl, Except.ok.inj hlength,
        (recovery_covers_iff haccepts hvars hfacts hresults).mpr ⟨hids, busy_unmonitored, ?_, ?_⟩⟩
      · exact fun _ ↦ by decide +kernel
      · intro m hm
        obtain rfl := List.mem_singleton.mp hm
        exact List.all_eq_true.mp (by decide +kernel)

end RemoteDevbox.Client.Recovery
