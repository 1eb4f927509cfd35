import RemoteDevbox.Client.Agents

namespace RemoteDevbox.Client

open Js

/-!
# `devbox agent up` and `devbox agent down`

Each command reconciles the launch agents on disk with one configuration.
Configurations change between the commands; the agents on disk stay.
-/

/-- The plists in `~/Library/LaunchAgents`, by label, and the browser mode that
was last stored for each profile. -/
structure Machine where
  agents : List String
  mode : String → BrowserMode

/-- How the installation of one agent ends: with the agent running, before its
plist was written, after it was written, or with the plist taken back. -/
inductive Attempt where
  | installed
  | refused
  | kept
  | withdrawn

/-- How launchd answers during one command. -/
structure Launchd where
  install : String → Attempt
  bootout : String → Bool

/-- The labels on disk when a command, or a part of it, is over. -/
structure Ended where
  agents : List String
  completed : Bool

def Ended.andThen (r : Ended) (next : List String → Ended) : Ended :=
  if r.completed then next r.agents else r

/-- A computation that may end the command. -/
def orDie {α : Type} (x : Js α) (agents : List String) (next : α → Ended) : Ended :=
  match x with
  | .ok a => next a
  | .error _ => ⟨agents, false⟩

section Commands

variable (launchd : Launchd) (env : ClientEnv)

def removeAgent (label : String) (agents : List String) : Ended :=
  if launchd.bootout label then ⟨agents.filter (· != label), true⟩ else ⟨agents, false⟩

def removeAgents : List String → List String → Ended
  | [], agents => ⟨agents, true⟩
  | label :: labels, agents => (removeAgent launchd label agents).andThen (removeAgents labels)

def installAgent (spec : AgentSpec) (agents : List String) : Ended :=
  match launchd.install spec.label with
  | .installed => ⟨agents.insert spec.label, true⟩
  | .refused => ⟨agents, false⟩
  | .kept => ⟨agents.insert spec.label, false⟩
  | .withdrawn => ⟨agents.filter (· != spec.label), false⟩

def installAgents : List AgentSpec → List String → Ended
  | [], agents => ⟨agents, true⟩
  | spec :: specs, agents => (installAgent launchd spec agents).andThen (installAgents specs)

/-- Those of the labels that no spec has. -/
def unwanted (specs : List AgentSpec) (labels : List String) : List String :=
  labels.filter fun label ↦ !(specs.map (·.label)).contains label

def reconcileAutoBindPorts (cfg : Config) (profile : String) (agents : List String) : Ended :=
  orDie (autoBindAgents env cfg profile) agents fun specs ↦
    (removeAgents launchd
      (unwanted specs (installedBrowserAutoBindPortAgentLabels profile agents)) agents).andThen
    (installAgents launchd specs)

/-- Autobind agents are reconciled in client mode only. -/
def upPorts (cfg : Config) (profile : String) (mode : BrowserMode) (agents : List String) : Ended :=
  if (browserFailoverOf cfg profile).isSome && mode == .client then
    reconcileAutoBindPorts launchd env cfg profile agents
  else ⟨agents, true⟩

def runAgentUp (cfg : Config) (profile : String) (mode : BrowserMode) (agents : List String) :
    Ended :=
  (removeAgents launchd (legacyBrowserAgentLabelsFor cfg profile) agents).andThen fun agents ↦
  orDie (agentsFor env cfg profile) agents fun described ↦
  let specs := upSpecs profile mode described
  (installAgents launchd specs agents).andThen fun agents ↦
  (upPorts launchd env cfg profile mode agents).andThen fun agents ↦
  removeAgents launchd (unwanted specs (installedAgentLabels profile agents)) agents

def agentLabelsForDown (cfg : Config) (profile : String) (agents : List String) :
    Js (List String) := do
  let described ← agentsFor env cfg profile
  return (described.map (·.label) ++ installedAgentLabels profile agents ++
    installedAnyBrowserPortAgentLabels profile agents ++
    legacyBrowserAgentLabelsFor cfg profile).dedup

def runAgentDown (cfg : Config) (profile : String) (agents : List String) : Ended :=
  orDie (agentLabelsForDown env cfg profile agents) agents fun labels ↦
    removeAgents launchd labels agents

def runBrowserBind (cfg : Config) (profile : String) (mode : BrowserMode)
    (target : BrowserPortTarget) (agents : List String) : Ended :=
  if mode != .client then ⟨agents, false⟩
  else
    orDie (browserPortsFor cfg profile target) agents fun ports ↦
    orDie (ports.mapM fun port ↦ browserPortAgent env profile port (hostFor cfg profile)) agents
      fun specs ↦ installAgents launchd specs agents

def runBrowserUnbind (cfg : Config) (profile : String) (target : BrowserPortTarget)
    (agents : List String) : Ended :=
  orDie (browserPortsFor cfg profile target) agents fun ports ↦
    removeAgents launchd (ports.map (browserPortLabel profile)) agents

/-- Everything server mode must stop. -/
def browserModeServerAgentLabelsFor (cfg : Config) (profile : String)
    (installedPorts : List String) : List String :=
  agentLabel profile "browser" :: legacyBrowserAgentLabelsFor cfg profile ++ installedPorts

def browserSupervisor (cfg : Config) (profile : String) : Js AgentSpec := do
  let described ← agentsFor env cfg profile
  match described.find? fun spec ↦ spec.label == agentLabel profile "browser" with
  | some spec => .ok spec
  | none => die s!"browser failover is not configured for '{profile}'"

def runBrowserMode (cfg : Config) (profile : String) (mode : BrowserMode) (agents : List String) :
    Ended :=
  orDie (browserProfile cfg profile) agents fun _ ↦
  match mode with
  | .server =>
      removeAgents launchd (browserModeServerAgentLabelsFor cfg profile
        (installedAnyBrowserPortAgentLabels profile agents)) agents
  | .client =>
      (removeAgents launchd (legacyBrowserAgentLabelsFor cfg profile) agents).andThen fun agents ↦
      orDie (browserSupervisor env cfg profile) agents fun supervisor ↦
      (installAgents launchd [supervisor] agents).andThen fun agents ↦
      reconcileAutoBindPorts launchd env cfg profile agents

end Commands

inductive Command where
  | up
  | down
  | bind (target : BrowserPortTarget)
  | unbind (target : BrowserPortTarget)
  | browserMode (mode : BrowserMode)

/-- One command of one profile under the configuration of the moment. -/
def Command.run (command : Command) (launchd : Launchd) (env : ClientEnv) (cfg : Config)
    (profile : String) (m : Machine) : Ended :=
  match command with
  | .up => runAgentUp launchd env cfg profile (m.mode profile) m.agents
  | .down => runAgentDown launchd env cfg profile m.agents
  | .bind target => runBrowserBind launchd env cfg profile (m.mode profile) target m.agents
  | .unbind target => runBrowserUnbind launchd cfg profile target m.agents
  | .browserMode mode => runBrowserMode launchd env cfg profile mode m.agents

/-- The mode is stored last, by a mode command that got that far. -/
def Machine.after (m : Machine) (command : Command) (profile : String) (ended : Ended) : Machine :=
  match command with
  | .browserMode mode =>
      ⟨ended.agents, if ended.completed then Function.update m.mode profile mode else m.mode⟩
  | _ => ⟨ended.agents, m.mode⟩

/-- Reached from a machine without agents, by any commands under any
configurations, whether or not they completed. -/
inductive Reachable : Machine → Prop where
  | start (mode : String → BrowserMode) : Reachable ⟨[], mode⟩
  | step {m : Machine} (h : Reachable m) (command : Command) (launchd : Launchd) (env : ClientEnv)
      (cfg : Config) (profile : String) :
      Reachable (m.after command profile (command.run launchd env cfg profile m))

/-! ## What a part of a command does to the labels -/

theorem Ended.andThen_completed {r : Ended} {next : List String → Ended} :
    (r.andThen next).completed = true ↔ r.completed = true ∧ (next r.agents).completed = true := by
  unfold Ended.andThen
  by_cases h : r.completed = true <;> simp [h]

theorem Ended.andThen_agents {r : Ended} {next : List String → Ended} (h : r.completed = true) :
    (r.andThen next).agents = (next r.agents).agents := by
  rw [Ended.andThen, if_pos h]

/-- Whether or not the first part completed, the labels come from either part. -/
theorem Ended.andThen_mem {P : String → Prop} {r : Ended} {next : List String → Ended}
    (hr : ∀ l ∈ r.agents, P l) (hnext : ∀ agents, (∀ l ∈ agents, P l) →
      ∀ l ∈ (next agents).agents, P l) : ∀ l ∈ (r.andThen next).agents, P l := by
  unfold Ended.andThen
  split
  · exact hnext _ hr
  · exact hr

theorem orDie_completed {α : Type} {x : Js α} {agents : List String} {next : α → Ended} :
    (orDie x agents next).completed = true ↔ ∃ a, x = .ok a ∧ (next a).completed = true := by
  cases x with
  | ok a => simp [orDie]
  | error e => simp [orDie]

theorem orDie_mem {α : Type} {P : String → Prop} {x : Js α} {agents : List String}
    {next : α → Ended} (hagents : ∀ l ∈ agents, P l)
    (hnext : ∀ a, x = .ok a → ∀ l ∈ (next a).agents, P l) :
    ∀ l ∈ (orDie x agents next).agents, P l := by
  cases x with
  | ok a => exact hnext a rfl
  | error e => exact hagents

section Parts

variable {launchd : Launchd} {agents : List String}

theorem removeAgent_mem {label l : String} (hcompleted : (removeAgent launchd label agents).completed) :
    l ∈ (removeAgent launchd label agents).agents ↔ l ∈ agents ∧ l ≠ label := by
  unfold removeAgent at hcompleted ⊢
  split
  · simp
  · rename_i h
    rw [if_neg h] at hcompleted
    cases hcompleted

theorem removeAgent_subset {label l : String} (h : l ∈ (removeAgent launchd label agents).agents) :
    l ∈ agents := by
  unfold removeAgent at h
  split at h
  · exact (List.mem_filter.mp h).1
  · exact h

theorem removeAgents_mem {labels : List String} {l : String}
    (hcompleted : (removeAgents launchd labels agents).completed) :
    l ∈ (removeAgents launchd labels agents).agents ↔ l ∈ agents ∧ l ∉ labels := by
  induction labels generalizing agents with
  | nil => simp [removeAgents]
  | cons label labels ih =>
      obtain ⟨hone, hrest⟩ := Ended.andThen_completed.mp hcompleted
      rw [removeAgents, Ended.andThen_agents hone, ih hrest, removeAgent_mem hone, List.mem_cons,
        not_or, and_assoc]

theorem removeAgents_subset {labels : List String} {l : String}
    (h : l ∈ (removeAgents launchd labels agents).agents) : l ∈ agents := by
  induction labels generalizing agents l with
  | nil => exact h
  | cons label labels ih =>
      refine Ended.andThen_mem (P := (· ∈ agents)) ?_ ?_ l h
      · exact fun l hl ↦ removeAgent_subset hl
      · exact fun rest hrest l hl ↦ hrest l (ih hl)

theorem installAgents_mem {specs : List AgentSpec} {l : String}
    (hcompleted : (installAgents launchd specs agents).completed) :
    l ∈ (installAgents launchd specs agents).agents ↔ l ∈ agents ∨ l ∈ specs.map (·.label) := by
  induction specs generalizing agents with
  | nil => simp [installAgents]
  | cons spec specs ih =>
      obtain ⟨hone, hrest⟩ := Ended.andThen_completed.mp hcompleted
      have hinsert : (installAgent launchd spec agents).agents = agents.insert spec.label := by
        unfold installAgent at hone ⊢
        cases hanswer : launchd.install spec.label <;> simp_all
      rw [installAgents, Ended.andThen_agents hone, ih hrest, hinsert, List.mem_insert_iff,
        List.map_cons, List.mem_cons, or_comm (a := l = spec.label), or_assoc]

theorem installAgents_subset {specs : List AgentSpec} {l : String}
    (h : l ∈ (installAgents launchd specs agents).agents) :
    l ∈ agents ∨ l ∈ specs.map (·.label) := by
  induction specs generalizing agents l with
  | nil => exact .inl h
  | cons spec specs ih =>
      refine Ended.andThen_mem (P := fun l ↦ l ∈ agents ∨ l ∈ (spec :: specs).map (·.label))
        ?_ ?_ l h
      · intro l hl
        unfold installAgent at hl
        rw [List.map_cons, List.mem_cons]
        cases hanswer : launchd.install spec.label with
        | installed | kept =>
            rw [hanswer] at hl
            exact (List.mem_insert_iff.mp hl).elim (fun h ↦ .inr (.inl h)) .inl
        | refused =>
            rw [hanswer] at hl
            exact .inl hl
        | withdrawn =>
            rw [hanswer] at hl
            exact .inl (List.mem_filter.mp hl).1
      · intro rest hrest l hl
        rcases ih hl with hl | hl
        · exact hrest l hl
        · exact .inr (List.mem_cons_of_mem _ hl)

end Parts

/-! ## Every label on disk is of a known kind -/

/-- A label that some command derives. -/
def Derived (label : String) : Prop :=
  ∃ profile name, label = agentLabel profile name ∧ (name ∈ FIXED_NAMES ∨
    ∃ port, validPort port = true ∧
      (name = browserPortName port.toStr ∨ name = browserAutoBindPortName port.toStr))

section Derived

variable {launchd : Launchd} {env : ClientEnv} {cfg : Config} {profile : String}
  {agents : List String}

theorem derived_agentsFor {specs : List AgentSpec} (h : agentsFor env cfg profile = .ok specs) :
    ∀ l ∈ specs.map (·.label), Derived l := by
  intro l hl
  obtain ⟨name, hname, rfl⟩ := agentsFor_label h hl
  exact ⟨profile, name, rfl, .inl hname⟩

theorem derived_autoBind {specs : List AgentSpec} (h : autoBindAgents env cfg profile = .ok specs) :
    ∀ l ∈ specs.map (·.label), Derived l := by
  intro l hl
  obtain ⟨port, _, _, _, _, _, _, hvalid, rfl⟩ := (autoBindAgents_label h).mp hl
  exact ⟨profile, _, rfl, .inr ⟨port, hvalid, .inr rfl⟩⟩

theorem derived_removeAgents {labels : List String} (h : ∀ l ∈ agents, Derived l) :
    ∀ l ∈ (removeAgents launchd labels agents).agents, Derived l :=
  fun l hl ↦ h l (removeAgents_subset hl)

theorem derived_installAgents {specs : List AgentSpec} (h : ∀ l ∈ agents, Derived l)
    (hspecs : ∀ l ∈ specs.map (·.label), Derived l) :
    ∀ l ∈ (installAgents launchd specs agents).agents, Derived l :=
  fun l hl ↦ (installAgents_subset hl).elim (h l) (hspecs l)

theorem derived_reconcile (h : ∀ l ∈ agents, Derived l) :
    ∀ l ∈ (reconcileAutoBindPorts launchd env cfg profile agents).agents, Derived l := by
  refine orDie_mem h fun specs hspecs ↦ ?_
  refine Ended.andThen_mem (derived_removeAgents h) fun rest hrest ↦ ?_
  exact derived_installAgents hrest (derived_autoBind hspecs)

theorem derived_run {command : Command} {m : Machine} (h : ∀ l ∈ m.agents, Derived l) :
    ∀ l ∈ (command.run launchd env cfg profile m).agents, Derived l := by
  cases command with
  | up =>
      refine Ended.andThen_mem (derived_removeAgents h) fun rest hrest ↦ ?_
      refine orDie_mem hrest fun specs hspecs ↦ ?_
      refine Ended.andThen_mem ?_ fun rest hrest ↦ ?_
      · refine derived_installAgents hrest fun l hl ↦ derived_agentsFor hspecs l ?_
        obtain ⟨spec, hspec, rfl⟩ := List.mem_map.mp hl
        exact List.mem_map.mpr ⟨spec, (List.mem_filter.mp hspec).1, rfl⟩
      · refine Ended.andThen_mem ?_ fun rest hrest ↦ derived_removeAgents hrest
        unfold upPorts
        split
        · exact derived_reconcile hrest
        · exact hrest
  | down => exact orDie_mem h fun labels _ ↦ derived_removeAgents h
  | bind target =>
      unfold Command.run runBrowserBind
      simp only
      split
      · exact h
      · refine orDie_mem h fun ports _ ↦ orDie_mem h fun specs hspecs ↦ ?_
        refine derived_installAgents h fun l hl ↦ ?_
        obtain ⟨port, _, hvalid, rfl⟩ :=
          (portAgents_label (fun _ _ ↦ browserPortAgent_inv) hspecs).mp hl
        exact ⟨profile, _, rfl, .inr ⟨port, hvalid, .inl rfl⟩⟩
  | unbind target => exact orDie_mem h fun ports _ ↦ derived_removeAgents h
  | browserMode mode =>
      refine orDie_mem h fun _ _ ↦ ?_
      cases mode with
      | server => exact derived_removeAgents h
      | client =>
          refine Ended.andThen_mem (derived_removeAgents h) fun rest hrest ↦ ?_
          refine orDie_mem hrest fun supervisor hsupervisor ↦ ?_
          refine Ended.andThen_mem ?_ fun rest hrest ↦ derived_reconcile hrest
          refine derived_installAgents hrest fun l hl ↦ ?_
          obtain ⟨specs, hspecs, hfind⟩ := bind_eq_ok.mp hsupervisor
          split at hfind
          · rename_i spec hspec
            obtain rfl := Except.ok.inj hfind
            refine derived_agentsFor hspecs l ?_
            rw [List.map_singleton, List.mem_singleton] at hl
            exact List.mem_map.mpr ⟨spec, List.mem_of_find?_eq_some hspec, hl.symm⟩
          · cases hfind

end Derived

theorem derived_of_reachable {m : Machine} (h : Reachable m) : ∀ l ∈ m.agents, Derived l := by
  induction h with
  | start mode => exact fun l hl ↦ absurd hl List.not_mem_nil
  | step _ command launchd env cfg profile ih =>
      cases command <;> exact derived_run ih

/-! ## What `agent up` leaves -/

/-- The global labels are not under any profile. -/
theorem agentLabel_notMem_legacy {cfg : Config} {profile name : String}
    (hname : '.' ∉ name.toList) :
    agentLabel profile name ∉ legacyBrowserAgentLabelsFor cfg profile := by
  have hglobal : ∀ other : String, '.' ∉ other.toList →
      agentLabel profile name ≠ String.ofList ("com.devbox".toList ++ '.' :: other.toList) := by
    intro other hother heq
    have hlists := congrArg String.toList heq
    rw [agentLabel_toList, String.toList_ofList] at hlists
    have hlength := congrArg List.length ((append_sep_inj_last hname hother).mp hlists).1
    rw [String.toList_append, List.length_append] at hlength
    have hlonger : "com.devbox".toList.length < "com.devbox.".toList.length := by decide +kernel
    omega
  unfold legacyBrowserAgentLabelsFor
  split
  · intro hmem
    rcases List.mem_cons.mp hmem with heq | hmem
    · exact hglobal "agent-chrome" (by decide +kernel) (heq.trans (by decide +kernel))
    · exact hglobal "cdp-tunnel" (by decide +kernel)
        ((List.mem_singleton.mp hmem).trans (by decide +kernel))
  · exact List.not_mem_nil

section Up

variable {launchd : Launchd} {env : ClientEnv} {cfg : Config} {profile name : String}
  {mode : BrowserMode} {agents : List String}

theorem mem_unwanted {specs : List AgentSpec} {labels : List String} {l : String} :
    l ∈ unwanted specs labels ↔ l ∈ labels ∧ l ∉ specs.map (·.label) := by
  simp [unwanted]

theorem mem_installedAgentLabels (hname : '.' ∉ name.toList) :
    agentLabel profile name ∈ installedAgentLabels profile agents ↔
      agentLabel profile name ∈ agents ∧ name ∈ ["desktop", "browser", "mount"] := by
  have hkinds : ∀ kind ∈ ["desktop", "browser", "mount"], '.' ∉ kind.toList := by decide +kernel
  rw [installedAgentLabels, List.mem_filter, List.contains_iff_mem, List.mem_map]
  refine and_congr_right fun _ ↦ ⟨?_, fun hmem ↦ ⟨name, hmem, rfl⟩⟩
  rintro ⟨kind, hkind, heq⟩
  obtain ⟨_, rfl⟩ := (agentLabel_inj (hkinds _ hkind) hname).mp heq
  exact hkind

theorem mem_installedAutoBind (hname : '.' ∉ name.toList) :
    agentLabel profile name ∈ installedBrowserAutoBindPortAgentLabels profile agents ↔
      agentLabel profile name ∈ agents ∧ ∃ text, Text.test PORT_NUMBER_RE text = true ∧
        name = browserAutoBindPortName text := by
  refine (@mem_installedBrowserPortLabels _ _ browserAutoBindPortName ?_ _).trans ?_
  · exact fun text ↦ congrArg (· ++ text) (String.append_empty).symm
  · refine and_congr_right fun _ ↦ exists_congr fun text ↦ and_congr_right fun htext ↦ ?_
    rw [agentLabel_inj hname (browserAutoBindPortName_noDot (portText_noDot htext)),
      and_iff_right rfl]

/-- The autobind agents after they were reconciled. -/
theorem reconcile_mem (hname : '.' ∉ name.toList) (hfixed : name ∉ FIXED_NAMES)
    (hcompleted : (reconcileAutoBindPorts launchd env cfg profile agents).completed = true) :
    agentLabel profile name ∈ (reconcileAutoBindPorts launchd env cfg profile agents).agents ↔
      Wanted cfg profile .client name ∨ (agentLabel profile name ∈ agents ∧
        ∀ text, Text.test PORT_NUMBER_RE text = true → name ≠ browserAutoBindPortName text) := by
  obtain ⟨specs, hspecs, hcompleted⟩ := orDie_completed.mp hcompleted
  obtain ⟨hremoved, hinstalled⟩ := Ended.andThen_completed.mp hcompleted
  have hagents : (reconcileAutoBindPorts launchd env cfg profile agents).agents =
      (installAgents launchd specs (removeAgents launchd (unwanted specs
        (installedBrowserAutoBindPortAgentLabels profile agents)) agents).agents).agents := by
    rw [reconcileAutoBindPorts, hspecs]
    exact Ended.andThen_agents hremoved
  rw [hagents, installAgents_mem hinstalled, removeAgents_mem hremoved, mem_unwanted,
    mem_installedAutoBind hname, autoBindAgents_wanted hspecs hname hfixed]
  constructor
  · rintro (⟨hmem, hkept⟩ | hwanted)
    · by_cases hwanted : Wanted cfg profile .client name
      · exact .inl hwanted
      · refine .inr ⟨hmem, fun text htext heq ↦ hkept ⟨⟨hmem, text, htext, heq⟩, hwanted⟩⟩
    · exact .inl hwanted
  · rintro (hwanted | ⟨hmem, hother⟩)
    · exact .inr hwanted
    · exact .inl ⟨hmem, fun ⟨⟨_, text, htext, heq⟩, _⟩ ↦ hother text htext heq⟩

/-- The fixed kinds are not touched by the reconciliation of the ports. -/
theorem reconcile_mem_fixed (hfixed : name ∈ FIXED_NAMES)
    (hcompleted : (reconcileAutoBindPorts launchd env cfg profile agents).completed = true) :
    agentLabel profile name ∈ (reconcileAutoBindPorts launchd env cfg profile agents).agents ↔
      agentLabel profile name ∈ agents := by
  have hname := fixed_noDot _ hfixed
  obtain ⟨specs, hspecs, hcompleted⟩ := orDie_completed.mp hcompleted
  obtain ⟨hremoved, hinstalled⟩ := Ended.andThen_completed.mp hcompleted
  have hagents : (reconcileAutoBindPorts launchd env cfg profile agents).agents =
      (installAgents launchd specs (removeAgents launchd (unwanted specs
        (installedBrowserAutoBindPortAgentLabels profile agents)) agents).agents).agents := by
    rw [reconcileAutoBindPorts, hspecs]
    exact Ended.andThen_agents hremoved
  rw [hagents, installAgents_mem hinstalled, removeAgents_mem hremoved, mem_unwanted,
    mem_installedAutoBind hname, autoBindAgents_label hspecs]
  constructor
  · rintro (⟨hmem, _⟩ | ⟨port, _, _, _, _, _, _, hvalid, heq⟩)
    · exact hmem
    · obtain ⟨_, heq⟩ := (agentLabel_inj hname (autoBindName_noDot hvalid)).mp heq
      exact ((fixed_ne_port _ hfixed _).2 heq).elim
  · intro hmem
    exact .inl ⟨hmem, fun ⟨⟨_, text, _, heq⟩, _⟩ ↦ (fixed_ne_port _ hfixed _).2 heq⟩

/-- The parts of an `agent up` that completed. -/
theorem up_parts (hcompleted : (runAgentUp launchd env cfg profile mode agents).completed = true) :
    ∃ specs, agentsFor env cfg profile = .ok specs ∧ ∃ installed reconciled : List String,
      (∀ name, '.' ∉ name.toList → (agentLabel profile name ∈ installed ↔
        agentLabel profile name ∈ agents ∨
          agentLabel profile name ∈ (upSpecs profile mode specs).map (·.label))) ∧
      ((((browserFailoverOf cfg profile).isSome && mode == .client) = true ∧
          (reconcileAutoBindPorts launchd env cfg profile installed).completed = true ∧
          reconciled = (reconcileAutoBindPorts launchd env cfg profile installed).agents) ∨
        (((browserFailoverOf cfg profile).isSome && mode == .client) = false ∧
          reconciled = installed)) ∧
      ∀ name, '.' ∉ name.toList →
        (agentLabel profile name ∈ (runAgentUp launchd env cfg profile mode agents).agents ↔
          agentLabel profile name ∈ reconciled ∧ (name ∈ ["desktop", "browser", "mount"] →
            agentLabel profile name ∈ (upSpecs profile mode specs).map (·.label))) := by
  obtain ⟨hlegacy, hcompleted⟩ := Ended.andThen_completed.mp hcompleted
  obtain ⟨specs, hspecs, hcompleted⟩ := orDie_completed.mp hcompleted
  obtain ⟨hinstalled, hcompleted⟩ := Ended.andThen_completed.mp hcompleted
  obtain ⟨hreconciled, hremoved⟩ := Ended.andThen_completed.mp hcompleted
  let installed := (installAgents launchd (upSpecs profile mode specs)
    (removeAgents launchd (legacyBrowserAgentLabelsFor cfg profile) agents).agents).agents
  let reconciled := (upPorts launchd env cfg profile mode installed).agents
  have hafter : (runAgentUp launchd env cfg profile mode agents).agents =
      (removeAgents launchd (unwanted (upSpecs profile mode specs)
        (installedAgentLabels profile reconciled)) reconciled).agents := by
    rw [runAgentUp, Ended.andThen_agents hlegacy, hspecs]
    simp only [orDie]
    rw [Ended.andThen_agents hinstalled, Ended.andThen_agents hreconciled]
  refine ⟨specs, hspecs, installed, reconciled, fun name hname ↦ ?_, ?_, fun name hname ↦ ?_⟩
  · rw [installAgents_mem hinstalled, removeAgents_mem hlegacy,
      and_iff_left (agentLabel_notMem_legacy hname)]
  · by_cases hports : ((browserFailoverOf cfg profile).isSome && mode == .client) = true
    · rw [upPorts, if_pos hports] at hreconciled
      exact .inl ⟨hports, hreconciled, congrArg Ended.agents (if_pos hports)⟩
    · have hsame : upPorts launchd env cfg profile mode installed = ⟨installed, true⟩ := if_neg hports
      have hagents : (upPorts launchd env cfg profile mode installed).agents = installed := by
        rw [hsame]
      exact .inr ⟨by simpa using hports, hagents⟩
  · rw [hafter, removeAgents_mem hremoved, mem_unwanted, mem_installedAgentLabels hname]
    refine and_congr_right fun hmem ↦ ?_
    rw [and_iff_right hmem, not_and_not_right]

/-- What is left by an `agent up` that completed: the wanted agents, a
monitoring agent, and the autobind agents when they are not reconciled. -/
theorem up_mem (hderived : ∀ l ∈ agents, Derived l) (hname : '.' ∉ name.toList)
    (hmanual : ∀ text, name ≠ browserPortName text)
    (hcompleted : (runAgentUp launchd env cfg profile mode agents).completed = true) :
    agentLabel profile name ∈ (runAgentUp launchd env cfg profile mode agents).agents ↔
      Wanted cfg profile mode name ∨ (agentLabel profile name ∈ agents ∧ (name = "monitoring" ∨
        (((browserFailoverOf cfg profile).isSome && mode == .client) = false ∧
          ∃ port, validPort port = true ∧ name = browserAutoBindPortName port.toStr))) := by
  obtain ⟨specs, hspecs, installed, reconciled, hinstalled, hreconciled, hafter⟩ :=
    up_parts hcompleted
  rw [hafter name hname]
  by_cases hfixed : name ∈ FIXED_NAMES
  · -- one of the four kinds: installed if wanted, removed if it is scanned for
    have hspec : agentLabel profile name ∈ (upSpecs profile mode specs).map (·.label) ↔ _ :=
      upSpecs_label hspecs hfixed
    have hkept : agentLabel profile name ∈ reconciled ↔ agentLabel profile name ∈ installed := by
      rcases hreconciled with ⟨_, hdone, rfl⟩ | ⟨_, rfl⟩
      · exact reconcile_mem_fixed hfixed hdone
      · exact Iff.rfl
    have hnoPort : ¬ ∃ port, validPort port = true ∧ name = browserAutoBindPortName port.toStr :=
      fun ⟨_, _, heq⟩ ↦ (fixed_ne_port _ hfixed _).2 heq
    rw [hkept, hinstalled name hname, hspec]
    by_cases hmonitoring : name = "monitoring"
    · have hnoScan : name ∉ ["desktop", "browser", "mount"] := by
        rw [hmonitoring]
        decide
      simp only [hmonitoring, true_or, and_true] at hnoScan ⊢
      tauto
    · have hscan : name ∈ ["desktop", "browser", "mount"] := by
        simp only [FIXED_NAMES, List.mem_cons, List.not_mem_nil, or_false] at hfixed ⊢
        tauto
      simp only [hscan, hmonitoring, hnoPort, forall_const, and_false, or_false]
      tauto
  · have hnoScan : name ∉ ["desktop", "browser", "mount"] := by
      simp only [FIXED_NAMES, List.mem_cons, List.not_mem_nil, or_false] at hfixed ⊢
      tauto
    have hmonitoring : name ≠ "monitoring" := by
      rintro rfl
      exact hfixed (by simp [FIXED_NAMES])
    have hnoSpec : agentLabel profile name ∉ (upSpecs profile mode specs).map (·.label) := by
      intro hmem
      obtain ⟨spec, hspec, hlabel⟩ := List.mem_map.mp hmem
      obtain ⟨kind, hkind, heq⟩ := agentsFor_label hspecs
        (List.mem_map.mpr ⟨spec, (List.mem_filter.mp hspec).1, hlabel⟩)
      obtain ⟨_, rfl⟩ := (agentLabel_inj hname (fixed_noDot _ hkind)).mp heq
      exact hfixed hkind
    -- an agent on disk under such a name is an autobind agent
    have hport : agentLabel profile name ∈ agents →
        ∃ port, validPort port = true ∧ name = browserAutoBindPortName port.toStr := by
      intro hmem
      obtain ⟨profile', name', heq, hkind⟩ := hderived _ hmem
      rcases hkind with hkind | ⟨port, hvalid, rfl | rfl⟩
      · obtain ⟨_, rfl⟩ := (agentLabel_inj hname (fixed_noDot _ hkind)).mp heq
        exact (hfixed hkind).elim
      · obtain ⟨_, rfl⟩ := (agentLabel_inj hname (browserPortName_port_noDot hvalid)).mp heq
        exact (hmanual _ rfl).elim
      · obtain ⟨_, rfl⟩ := (agentLabel_inj hname (autoBindName_noDot hvalid)).mp heq
        exact ⟨port, hvalid, rfl⟩
    simp only [hnoScan, IsEmpty.forall_iff, and_true, hmonitoring, false_or]
    rcases hreconciled with ⟨hports, hdone, rfl⟩ | ⟨hports, rfl⟩
    · rw [reconcile_mem hname hfixed hdone, hinstalled name hname, or_iff_left hnoSpec]
      have hclient : mode = .client := by
        simp only [Bool.and_eq_true, beq_iff_eq] at hports
        exact hports.2
      rw [hclient] at hports ⊢
      simp only [hports, Bool.true_eq_false, false_and, and_false, or_false]
      refine or_iff_left ?_
      rintro ⟨hmem, hother⟩
      obtain ⟨port, hvalid, heq⟩ := hport hmem
      exact hother _ (validPort_text hvalid) heq
    · rw [hinstalled name hname, or_iff_left hnoSpec]
      have hunwanted : ¬ Wanted cfg profile mode name := by
        intro hwanted
        cases hwanted with
        | autoBind hp hfailover _ hmode _ =>
            rw [browserFailoverOf_some hp, hfailover, hmode] at hports
            cases hports
        | desktop | browser | monitoring | mount => exact hfixed (by simp [FIXED_NAMES])
      simp only [hunwanted, false_or, hports, true_and]
      exact ⟨fun hmem ↦ ⟨hmem, hport hmem⟩, fun h ↦ h.1⟩

theorem mem_installedManual (hname : '.' ∉ name.toList) :
    agentLabel profile name ∈ installedBrowserPortAgentLabels profile agents ↔
      agentLabel profile name ∈ agents ∧ ∃ text, Text.test PORT_NUMBER_RE text = true ∧
        name = browserPortName text := by
  refine (@mem_installedBrowserPortLabels _ _ browserPortName ?_ _).trans ?_
  · exact fun text ↦ congrArg (· ++ text) (String.append_empty).symm
  · refine and_congr_right fun _ ↦ exists_congr fun text ↦ and_congr_right fun htext ↦ ?_
    rw [agentLabel_inj hname (browserPortName_noDot (portText_noDot htext)), and_iff_right rfl]

/-- What is left by an `agent down` that completed. -/
theorem down_mem (hderived : ∀ l ∈ agents, Derived l) (hname : '.' ∉ name.toList)
    (hcompleted : (runAgentDown launchd env cfg profile agents).completed = true) :
    agentLabel profile name ∈ (runAgentDown launchd env cfg profile agents).agents ↔
      agentLabel profile name ∈ agents ∧ name = "monitoring" ∧
        ¬ Wanted cfg profile .client "monitoring" := by
  obtain ⟨labels, hlabels, hremoved⟩ := orDie_completed.mp hcompleted
  obtain ⟨specs, hspecs, hlist⟩ := bind_eq_ok.mp hlabels
  have hafter : (runAgentDown launchd env cfg profile agents).agents =
      (removeAgents launchd labels agents).agents := by
    rw [runAgentDown, hlabels]
    rfl
  have hall : upSpecs profile .client specs = specs := by simp [upSpecs]
  have hmonitoring : agentLabel profile "monitoring" ∈
      (upSpecs profile .client specs).map (·.label) ↔ _ :=
    upSpecs_label hspecs (by simp [FIXED_NAMES])
  rw [hall] at hmonitoring
  rw [hafter, removeAgents_mem hremoved, ← Except.ok.inj hlist]
  simp only [List.mem_dedup, List.mem_append, installedAnyBrowserPortAgentLabels,
    mem_installedAgentLabels hname, mem_installedManual hname, mem_installedAutoBind hname,
    agentLabel_notMem_legacy hname, or_false, not_or]
  refine and_congr_right fun hmem ↦ ?_
  constructor
  · rintro ⟨⟨hspec, hscan⟩, hmanual, hauto⟩
    obtain ⟨profile', name', heq, hkind⟩ := hderived _ hmem
    rcases hkind with hkind | ⟨port, hvalid, rfl | rfl⟩
    · obtain ⟨_, rfl⟩ := (agentLabel_inj hname (fixed_noDot _ hkind)).mp heq
      have hlast : name = "monitoring" := by
        have hnoScan : name ∉ ["desktop", "browser", "mount"] := fun h ↦ hscan ⟨hmem, h⟩
        simp only [FIXED_NAMES, List.mem_cons, List.not_mem_nil, or_false] at hkind hnoScan
        tauto
      subst hlast
      exact ⟨rfl, fun hwanted ↦ hspec (hmonitoring.mpr hwanted)⟩
    · obtain ⟨_, rfl⟩ := (agentLabel_inj hname (browserPortName_port_noDot hvalid)).mp heq
      exact (hmanual ⟨hmem, _, validPort_text hvalid, rfl⟩).elim
    · obtain ⟨_, rfl⟩ := (agentLabel_inj hname (autoBindName_noDot hvalid)).mp heq
      exact (hauto ⟨hmem, _, validPort_text hvalid, rfl⟩).elim
  · rintro ⟨rfl, hunwanted⟩
    have hfixed : "monitoring" ∈ FIXED_NAMES := by simp [FIXED_NAMES]
    refine ⟨⟨fun hspec ↦ hunwanted (hmonitoring.mp hspec), fun h ↦ absurd h.2 (by decide)⟩, ?_, ?_⟩
    · rintro ⟨_, text, _, heq⟩
      exact (fixed_ne_port _ hfixed text).1 heq
    · rintro ⟨_, text, _, heq⟩
      exact (fixed_ne_port _ hfixed text).2 heq

end Up

/-! ## Reconciliation over histories of configurations -/

/-- Of the agents of the profile, the manual binds aside, exactly those that the
configuration wants are installed. -/
def UpReconciled (cfg : Config) (profile : String) (mode : BrowserMode) (agents : List String) :
    Prop :=
  ∀ name, '.' ∉ name.toList → (∀ text, name ≠ browserPortName text) →
    (agentLabel profile name ∈ agents ↔ Wanted cfg profile mode name)

/-- No agent of the profile is installed. -/
def DownReconciled (profile : String) (agents : List String) : Prop :=
  ∀ name, '.' ∉ name.toList → agentLabel profile name ∉ agents

/-- No monitoring agent is left from a configuration that had one. -/
def MonitoringCurrent (cfg : Config) (profile : String) (m : Machine) : Prop :=
  agentLabel profile "monitoring" ∈ m.agents → Wanted cfg profile (m.mode profile) "monitoring"

/-- No autobind agent is left where `agent up` does not look for one. -/
def AutoBindCurrent (cfg : Config) (profile : String) (m : Machine) : Prop :=
  (browserFailoverOf cfg profile).isSome = false ∨ m.mode profile = .server →
    ∀ port, validPort port = true → browserAutoBindPortLabel profile port ∉ m.agents

theorem wanted_monitoring {cfg : Config} {profile : String} {mode mode' : BrowserMode}
    (h : Wanted cfg profile mode "monitoring") : Wanted cfg profile mode' "monitoring" := by
  generalize hname : "monitoring" = name at h
  cases h with
  | monitoring hp hdefault hmonitoring => exact .monitoring hp hdefault hmonitoring
  | autoBind => exact ((fixed_ne_port "monitoring" (by simp [FIXED_NAMES]) _).2 hname).elim
  | desktop | browser | mount => exact absurd hname (by decide)

/-- In every history of commands and configurations, each completed `agent up`
and each completed `agent down` reconciles exactly when nothing is left over
that it does not look for. -/
theorem agents_reconciled_iff {m : Machine} (h : Reachable m) (launchd : Launchd) (env : ClientEnv)
    (cfg : Config) (profile : String) :
    ((Command.up.run launchd env cfg profile m).completed = true →
      (UpReconciled cfg profile (m.mode profile) (Command.up.run launchd env cfg profile m).agents ↔
        MonitoringCurrent cfg profile m ∧ AutoBindCurrent cfg profile m)) ∧
    ((Command.down.run launchd env cfg profile m).completed = true →
      (DownReconciled profile (Command.down.run launchd env cfg profile m).agents ↔
        MonitoringCurrent cfg profile m)) := by
  have hderived := derived_of_reachable h
  have hfixed : "monitoring" ∈ FIXED_NAMES := by simp [FIXED_NAMES]
  have hnoDot := fixed_noDot _ hfixed
  constructor
  · intro hcompleted
    constructor
    · intro hreconciled
      refine ⟨fun hmem ↦ ?_, fun hoff port hvalid hmem ↦ ?_⟩
      · have hmanual := fun text ↦ (fixed_ne_port _ hfixed text).1
        refine (hreconciled _ hnoDot hmanual).mp ?_
        exact (up_mem hderived hnoDot hmanual hcompleted).mpr (.inr ⟨hmem, .inl rfl⟩)
      · have hmanual : ∀ text, browserAutoBindPortName port.toStr ≠ browserPortName text :=
          fun text ↦ browserPortName_ne.symm
        have hleft := (up_mem hderived (autoBindName_noDot hvalid) hmanual hcompleted).mpr
          (.inr ⟨hmem, .inr ⟨?_, port, hvalid, rfl⟩⟩)
        · have hwanted := (hreconciled _ (autoBindName_noDot hvalid) hmanual).mp hleft
          generalize hname : browserAutoBindPortName port.toStr = name at hwanted
          cases hwanted with
          | autoBind hp hfailover _ hmode _ =>
              rw [browserFailoverOf_some hp, hfailover, hmode] at hoff
              rcases hoff with hoff | hoff <;> cases hoff
          | desktop | browser | monitoring | mount =>
              exact (fixed_ne_port _ (by simp [FIXED_NAMES]) _).2 hname.symm
        · rcases hoff with hoff | hoff <;> simp [hoff]
    · rintro ⟨hmonitoring, hauto⟩ name hname hmanual
      refine (up_mem hderived hname hmanual hcompleted).trans (or_iff_left_of_imp ?_)
      rintro ⟨hmem, rfl | ⟨hoff, port, hvalid, rfl⟩⟩
      · exact hmonitoring hmem
      · refine (hauto ?_ port hvalid hmem).elim
        cases hmode : m.mode profile with
        | client => exact .inl (by simpa [hmode] using hoff)
        | server => exact .inr rfl
  · intro hcompleted
    constructor
    · intro hreconciled hmem
      by_contra hunwanted
      refine hreconciled _ hnoDot ((down_mem hderived hnoDot hcompleted).mpr ⟨hmem, rfl, ?_⟩)
      exact fun hwanted ↦ hunwanted (wanted_monitoring hwanted)
    · intro hmonitoring name hname hmem
      obtain ⟨hbefore, rfl, hunwanted⟩ := (down_mem hderived hname hcompleted).mp hmem
      exact hunwanted (wanted_monitoring (hmonitoring hbefore))

/-- launchd takes and releases everything. -/
def willing : Launchd := ⟨fun _ ↦ .installed, fun _ ↦ true⟩

/-- A machine without agents after one `agent up` with the dashboard. -/
def withDashboard : Machine :=
  Machine.after ⟨[], fun _ ↦ .client⟩ .up "ada"
    (Command.up.run willing macHome (dashboardConfig (some ⟨.ofInt 19999⟩)) "ada"
      ⟨[], fun _ ↦ .client⟩)

theorem withDashboard_reachable : Reachable withDashboard := .step (.start _) _ _ _ _ _

/-- The dashboard is taken out of the configuration, and its agent stays:
`agent up` does not look for it, and `agent down` does not list it. -/
theorem dashboard_left_behind :
    Reachable withDashboard ∧
      ((Command.up.run willing macHome (dashboardConfig none) "ada" withDashboard).completed = true ∧
        ¬ UpReconciled (dashboardConfig none) "ada" .client
          (Command.up.run willing macHome (dashboardConfig none) "ada" withDashboard).agents) ∧
      (Command.down.run willing macHome (dashboardConfig none) "ada" withDashboard).completed = true ∧
        ¬ DownReconciled "ada"
          (Command.down.run willing macHome (dashboardConfig none) "ada" withDashboard).agents := by
  have hfixed : "monitoring" ∈ FIXED_NAMES := by simp [FIXED_NAMES]
  have hnoDot := fixed_noDot _ hfixed
  refine ⟨withDashboard_reachable, ⟨by decide +kernel, fun hreconciled ↦ ?_⟩, by decide +kernel,
    fun hreconciled ↦ hreconciled "monitoring" hnoDot (by decide +kernel)⟩
  have hwanted := (hreconciled "monitoring" hnoDot fun text ↦ (fixed_ne_port _ hfixed text).1).mp
    (by decide +kernel)
  generalize hname : "monitoring" = name at hwanted
  cases hwanted with
  | monitoring _ _ hmonitoring => cases hmonitoring
  | autoBind => exact ((fixed_ne_port "monitoring" hfixed _).2 hname).elim
  | desktop | browser | mount => exact absurd hname (by decide)

theorem dashboard_reconciled :
    (UpReconciled (dashboardConfig (some ⟨.ofInt 19999⟩)) "ada" .client
        (Command.up.run willing macHome (dashboardConfig (some ⟨.ofInt 19999⟩)) "ada"
          withDashboard).agents ↔
      MonitoringCurrent (dashboardConfig (some ⟨.ofInt 19999⟩)) "ada" withDashboard ∧
        AutoBindCurrent (dashboardConfig (some ⟨.ofInt 19999⟩)) "ada" withDashboard) ∧
    (DownReconciled "ada" (Command.down.run willing macHome
        (dashboardConfig (some ⟨.ofInt 19999⟩)) "ada" withDashboard).agents ↔
      MonitoringCurrent (dashboardConfig (some ⟨.ofInt 19999⟩)) "ada" withDashboard) := by
  obtain ⟨hup, hdown⟩ := agents_reconciled_iff withDashboard_reachable willing macHome
    (dashboardConfig (some ⟨.ofInt 19999⟩)) "ada"
  exact ⟨hup (by decide +kernel), hdown (by decide +kernel)⟩

end RemoteDevbox.Client
