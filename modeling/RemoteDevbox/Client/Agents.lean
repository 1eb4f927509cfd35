import RemoteDevbox.Client.Config

namespace RemoteDevbox.Client

open Js

/-!
# The launch agents of a profile

What a profile should have running is described once per configuration and
handed to launchd under one label each.
-/

inductive AgentMode where
  | daemon
  | interval
  deriving DecidableEq

inductive BrowserMode where
  | client
  | server
  deriving DecidableEq

/-- One word of a command line. The two supervisor scripts are kept as the
options they are rendered from. -/
inductive Word where
  | text (s : String)
  | browserSupervisor (dataDir : String) (clientTunnelPort : Number) (host : String)
  | portForwardSupervisor (readyFile : String) (port : Number) (host : String)
  deriving DecidableEq

structure AgentSpec where
  label : String
  mode : AgentMode
  argv : List Word
  intervalSeconds : Option ℕ
  readyFile : Option String
  forwardPort : Option Number

def BOX_RDP_PORT : String := "3389"

def LEGACY_BROWSER_AGENT_LABELS : List String := ["com.devbox.agent-chrome", "com.devbox.cdp-tunnel"]

/-- `com.devbox.${profile}.${name}`. -/
def agentLabel (profile name : String) : String := "com.devbox." ++ profile ++ "." ++ name

def browserPortName (port : String) : String := "browser-port-" ++ port

def browserAutoBindPortName (port : String) : String := "browser-autobind-port-" ++ port

def browserPortLabel (profile : String) (port : Number) : String :=
  agentLabel profile (browserPortName port.toStr)

def browserAutoBindPortLabel (profile : String) (port : Number) : String :=
  agentLabel profile (browserAutoBindPortName port.toStr)

def logDirFor (home : String) : String := joinPath home ".local/state/devbox"

def readyFileFor (env : ClientEnv) (label : String) : String :=
  joinPath (logDirFor env.homedir) (label ++ ".ready")

def renderPortForwardSupervisor (readyFile : String) (port : Number) (host : String) : Js Word :=
  if !isAbsolute readyFile then die "browser port ready file must be absolute"
  else if !validPort port then die "browser port must be an integer in 1..65535"
  else .ok (.portForwardSupervisor readyFile port host)

def renderBrowserSupervisor (dataDir : String) (clientTunnelPort : Number) (host : String) :
    Js Word :=
  if !isAbsolute dataDir then die "browser data directory must be absolute"
  else if !validPort clientTunnelPort then
    die "browser client tunnel port must be an integer in 1..65535"
  else .ok (.browserSupervisor dataDir clientTunnelPort host)

/-- A daemon that holds one local port forward. -/
def portForwardAgent (env : ClientEnv) (label : String) (port : Number) (host : String) :
    Js AgentSpec := do
  let script ← renderPortForwardSupervisor (readyFileFor env label) port host
  return {
    label := label
    mode := .daemon
    argv := [.text "sh", .text "-c", script]
    intervalSeconds := none
    readyFile := some (readyFileFor env label)
    forwardPort := some port }

def browserPortAgent (env : ClientEnv) (profile : String) (port : Number) (host : String) :
    Js AgentSpec :=
  if !validPort port then die "browser port must be an integer in 1..65535"
  else portForwardAgent env (browserPortLabel profile port) port host

def browserAutoBindAgent (env : ClientEnv) (profile : String) (port : Number) (host : String) :
    Js AgentSpec :=
  if !validPort port then die "browser port must be an integer in 1..65535"
  else portForwardAgent env (browserAutoBindPortLabel profile port) port host

def browserProfile (cfg : Config) (profile : String) : Js (Profile × ProfileBrowserFailover) :=
  match profileOf cfg profile with
  | some selected =>
      match selected.browserFailover with
      | some failover => .ok (selected, failover)
      | none => die s!"browser failover is not configured for '{profile}'"
  | none => die s!"browser failover is not configured for '{profile}'"

/-- Which project ports `devbox browser bind` is asked for. -/
structure BrowserPortTarget where
  project : Option String
  all : Bool
  port : Option Number

/-- The valid ones, each once and in order. -/
def declaredPorts (projects : List Project) : List Number :=
  ((projects.flatMap (·.ports)).filter validPort).dedup.mergeSort fun a b ↦ a.le b

def browserPortsFor (cfg : Config) (profile : String) (target : BrowserPortTarget) :
    Js (List Number) := do
  let (selected, _) ← browserProfile cfg profile
  let named := target.project.any (· != "")
  if named.toNat + target.all.toNat + target.port.isSome.toNat != 1 then
    die "choose exactly one browser bind target: <project>, --all, or --port <port>"
  else
    match target.port with
    | some port =>
        if validPort port then .ok [port] else die "browser port must be an integer in 1..65535"
    | none =>
        let projects :=
          if target.all then selected.projects
          else selected.projects.filter fun project ↦ target.project == some project.name
        if projects.isEmpty then die s!"no project of that name is configured for '{profile}'"
        else if (declaredPorts projects).isEmpty then die "no declared ports to bind"
        else .ok (declaredPorts projects)

def browserAutoBindPorts (cfg : Config) (profile : String) : Js (List Number) := do
  let (selected, failover) ← browserProfile cfg profile
  return if failover.autoBind then declaredPorts selected.projects else []

def autoBindAgents (env : ClientEnv) (cfg : Config) (profile : String) : Js (List AgentSpec) := do
  let ports ← browserAutoBindPorts cfg profile
  ports.mapM fun port ↦ browserAutoBindAgent env profile port (hostFor cfg profile)

def legacyBrowserAgentLabelsFor (cfg : Config) (profile : String) : List String :=
  if (browserFailoverOf cfg profile).isSome then LEGACY_BROWSER_AGENT_LABELS else []

def desktopAgents (cfg : Config) (profile : String) (p : Profile) : List AgentSpec :=
  match p.desktop with
  | some desktop =>
      if truthyPort desktop.clientPort then
        [{ label := agentLabel profile "desktop"
           mode := .daemon
           argv := ["ssh", "-N", "-o", "ExitOnForwardFailure=yes", "-o", "ServerAliveInterval=15",
              "-o", "ServerAliveCountMax=3", "-L",
              "127.0.0.1:" ++ desktop.clientPort.toStr ++ ":127.0.0.1:" ++ BOX_RDP_PORT,
              hostFor cfg profile].map .text
           intervalSeconds := none
           readyFile := none
           forwardPort := none }]
      else []
  | none => []

def browserAgents (env : ClientEnv) (cfg : Config) (profile : String) (p : Profile) :
    Js (List AgentSpec) :=
  match p.browserFailover with
  | some failover => do
      let script ← renderBrowserSupervisor
        (joinPath env.homedir (".local/share/devbox/browser/" ++ profile))
        failover.clientTunnelPort (hostFor cfg profile)
      return [{
        label := agentLabel profile "browser"
        mode := .daemon
        argv := [.text "sh", .text "-c", script]
        intervalSeconds := none
        readyFile := none
        forwardPort := none }]
  | none => .ok []

/-- The dashboard is one agent for the whole box, under the default profile. -/
def monitoringAgents (env : ClientEnv) (cfg : Config) (profile : String) : Js (List AgentSpec) :=
  match cfg.monitoring with
  | some monitoring =>
      if profile == cfg.default then do
        let spec ← portForwardAgent env (agentLabel profile "monitoring") monitoring.port
          (hostFor cfg profile)
        return [spec]
      else .ok []
  | none => .ok []

def mountAgents (cfg : Config) (profile : String) : List AgentSpec :=
  if (lazyMountsFor cfg profile).isEmpty then []
  else
    [{ label := agentLabel profile "mount"
       mode := .interval
       argv := ["devbox", "mount", "up", "-p", profile].map .text
       intervalSeconds := some 60
       readyFile := none
       forwardPort := none }]

def agentsFor (env : ClientEnv) (cfg : Config) (profile : String) : Js (List AgentSpec) :=
  match profileOf cfg profile with
  | none => .ok []
  | some p => do
      let browser ← browserAgents env cfg profile p
      let monitoring ← monitoringAgents env cfg profile
      return desktopAgents cfg profile p ++ browser ++ monitoring ++ mountAgents cfg profile

/-- Without the browser agent, unless the browser runs on the client. -/
def upSpecs (profile : String) (mode : BrowserMode) (specs : List AgentSpec) : List AgentSpec :=
  specs.filter fun spec ↦ spec.label != agentLabel profile "browser" || mode == .client

/-! ## What is on disk -/

/-- The labels of this profile that `agent up` may remove. -/
def installedAgentLabels (profile : String) (installed : List String) : List String :=
  installed.filter fun label ↦
    (["desktop", "browser", "mount"].map (agentLabel profile)).contains label

def portNumberChar (c : Char) : Bool := Regex.isDigit c && c != '0'

/-- `[1-9][0-9]*` -/
def PORT_NUMBER_RE : Regex :=
  .seq (.cls portNumberChar) (.star (.cls Regex.isDigit))

def installedBrowserPortLabelsWithPrefix (start : String) (installed : List String) : List String :=
  installed.filter fun label ↦ Text.test (.seq (.lit start.toList) PORT_NUMBER_RE) label

def installedBrowserPortAgentLabels (profile : String) (installed : List String) : List String :=
  installedBrowserPortLabelsWithPrefix (agentLabel profile (browserPortName "")) installed

def installedBrowserAutoBindPortAgentLabels (profile : String) (installed : List String) :
    List String :=
  installedBrowserPortLabelsWithPrefix (agentLabel profile (browserAutoBindPortName "")) installed

def installedAnyBrowserPortAgentLabels (profile : String) (installed : List String) : List String :=
  (installedBrowserPortAgentLabels profile installed ++
    installedBrowserAutoBindPortAgentLabels profile installed).dedup

/-! ## Labels -/

theorem agentLabel_toList (profile name : String) :
    (agentLabel profile name).toList =
      ("com.devbox." ++ profile).toList ++ '.' :: name.toList := by
  rw [agentLabel, String.toList_append, String.toList_append, List.append_assoc]
  rfl

/-- A label names its profile and its kind: the kind is what follows the last dot. -/
theorem agentLabel_inj {profile profile' name name' : String} (h : '.' ∉ name.toList)
    (h' : '.' ∉ name'.toList) :
    agentLabel profile name = agentLabel profile' name' ↔ profile = profile' ∧ name = name' := by
  constructor
  · intro heq
    have hlists := congrArg String.toList heq
    rw [agentLabel_toList, agentLabel_toList] at hlists
    obtain ⟨hprofile, hname⟩ := (append_sep_inj_last h h').mp hlists
    rw [String.toList_append, String.toList_append] at hprofile
    exact ⟨String.toList_inj.mp (List.append_cancel_left hprofile), String.toList_inj.mp hname⟩
  · rintro ⟨rfl, rfl⟩
    rfl

theorem validPort_text {port : Number} (h : validPort port = true) :
    Text.test PORT_NUMBER_RE port.toStr = true := by
  obtain ⟨z, hz, hlo, hhi⟩ := Spec.isPort_iff.mp h
  obtain ⟨n, rfl⟩ := Int.eq_ofNat_of_zero_le (by omega : 0 ≤ z)
  obtain rfl := Val.num.inj hz
  have hpos : n ≠ 0 := by omega
  have hshort : (Decimal.digits n).length ≤ 21 := by
    have hlength := (Nat.digits_length_le_iff (b := 10) (k := 5) (by norm_num) n).mpr (by omega)
    rw [Decimal.digits, List.length_reverse]
    omega
  have hne := Nat.digits_ne_nil_iff_ne_zero (b := 10).mpr hpos
  have hhead : Decimal.digits n = (Nat.digits 10 n).getLast hne ::
      (Nat.digits 10 n).dropLast.reverse := by
    conv_lhs => rw [Decimal.digits, ← List.dropLast_append_getLast hne]
    rw [List.reverse_append]
    rfl
  have hlast := Nat.getLast_digit_ne_zero 10 hpos
  have hdigit : ∀ d ∈ Decimal.digits n, Regex.isDigit (Decimal.digitChar d) = true := by
    intro d hd
    exact Decimal.isDigit_digitChar (Decimal.digit_lt hd)
  rw [Text.test, Number.toStr, String.toList_ofList, Number.text_ofInt (by omega) hshort, hhead,
    List.map_cons]
  rw [hhead, List.forall_mem_cons] at hdigit
  refine Regex.isMatch_head_tail.mpr ⟨_, _, rfl, ?_, ?_⟩
  · have hnonzero : ∀ d < 10, d ≠ 0 → portNumberChar (Decimal.digitChar d) = true := by decide
    exact hnonzero _ (Decimal.digit_lt (hhead ▸ List.mem_cons_self)) hlast
  · intro c hc
    obtain ⟨d, hd, rfl⟩ := List.mem_map.mp hc
    exact hdigit.2 d hd

theorem portText_noDot {text : String} (h : Text.test PORT_NUMBER_RE text = true) :
    '.' ∉ text.toList := by
  obtain ⟨c, v, hlist, hc, hv⟩ := Regex.isMatch_head_tail.mp h
  rw [hlist, List.mem_cons, not_or]
  refine ⟨?_, fun hmem ↦ absurd (hv _ hmem) (by decide)⟩
  rintro rfl
  exact absurd hc (by decide)

theorem noDot_append {s t : String} (hs : '.' ∉ s.toList) (ht : '.' ∉ t.toList) :
    '.' ∉ (s ++ t).toList := by
  rw [String.toList_append, List.mem_append, not_or]
  exact ⟨hs, ht⟩

theorem browserPortName_noDot {text : String} (h : '.' ∉ text.toList) :
    '.' ∉ (browserPortName text).toList :=
  noDot_append (s := "browser-port-") (by decide +kernel) h

theorem browserAutoBindPortName_noDot {text : String} (h : '.' ∉ text.toList) :
    '.' ∉ (browserAutoBindPortName text).toList :=
  noDot_append (s := "browser-autobind-port-") (by decide +kernel) h

/-- The two kinds of port agents never share a label. -/
theorem browserPortName_ne {text text' : String} :
    browserPortName text ≠ browserAutoBindPortName text' := by
  have hne := Text.append_ne (p := "browser-port-") (q := "browser-autobind-port-")
    (by decide +kernel) (by decide +kernel) text text'
  exact hne

/-- What the scan of the directory takes for a port agent of the profile. -/
theorem mem_installedBrowserPortLabels {profile : String} {installed : List String}
    {portName : String → String} (hname : ∀ text, portName text = portName "" ++ text)
    {label : String} :
    label ∈ installedBrowserPortLabelsWithPrefix (agentLabel profile (portName "")) installed ↔
      label ∈ installed ∧ ∃ text, Text.test PORT_NUMBER_RE text = true ∧
        label = agentLabel profile (portName text) := by
  have hlabel : ∀ text, (agentLabel profile (portName text)).toList =
      (agentLabel profile (portName "")).toList ++ text.toList := by
    intro text
    rw [agentLabel_toList, agentLabel_toList, hname text, String.toList_append (s := portName ""),
      List.append_assoc, List.cons_append]
  rw [installedBrowserPortLabelsWithPrefix, List.mem_filter]
  refine and_congr_right fun _ ↦ ?_
  simp only [Text.test, Regex.isMatch_seq, Regex.isMatch_lit]
  constructor
  · rintro ⟨_, text, hsplit, rfl, htext⟩
    refine ⟨String.ofList text, by rwa [String.toList_ofList], ?_⟩
    rw [← String.toList_inj, hlabel, String.toList_ofList, hsplit]
  · rintro ⟨text, htext, rfl⟩
    exact ⟨_, text.toList, (hlabel text).symm, rfl, htext⟩

/-! ## The labels of described agents -/

/-- What the configuration asks a profile to run, by the last part of the label. -/
inductive Wanted (cfg : Config) (profile : String) (mode : BrowserMode) : String → Prop where
  | desktop {p : Profile} {desktop : ProfileDesktop} (hp : profileOf cfg profile = some p)
      (hdesktop : p.desktop = some desktop) (hport : truthyPort desktop.clientPort = true) :
      Wanted cfg profile mode "desktop"
  | browser (hfailover : (browserFailoverOf cfg profile).isSome = true) (hmode : mode = .client) :
      Wanted cfg profile mode "browser"
  | monitoring (hp : (profileOf cfg profile).isSome = true) (hdefault : profile = cfg.default)
      (hmonitoring : cfg.monitoring.isSome = true) : Wanted cfg profile mode "monitoring"
  | mount (hmounts : lazyMountsFor cfg profile ≠ []) : Wanted cfg profile mode "mount"
  | autoBind {p : Profile} {failover : ProfileBrowserFailover} {port : Number}
      (hp : profileOf cfg profile = some p) (hfailover : p.browserFailover = some failover)
      (hauto : failover.autoBind = true) (hmode : mode = .client)
      (hport : port ∈ declaredPorts p.projects) :
      Wanted cfg profile mode (browserAutoBindPortName port.toStr)

def FIXED_NAMES : List String := ["desktop", "browser", "monitoring", "mount"]

theorem fixed_noDot : ∀ name ∈ FIXED_NAMES, '.' ∉ name.toList := by
  decide +kernel

theorem fixed_ne_port : ∀ name ∈ FIXED_NAMES, ∀ text,
    name ≠ browserPortName text ∧ name ≠ browserAutoBindPortName text := by
  have hfixed : ∀ name ∈ FIXED_NAMES, '-' ∉ name.toList := by decide +kernel
  have hdash : ∀ (s text : String), '-' ∈ s.toList → '-' ∈ (s ++ text).toList := by
    intro s text h
    rw [String.toList_append]
    exact List.mem_append_left _ h
  intro name hname text
  constructor
  · rintro rfl
    exact hfixed _ hname (hdash "browser-port-" text (by decide +kernel))
  · rintro rfl
    exact hfixed _ hname (hdash "browser-autobind-port-" text (by decide +kernel))

section Described

variable {env : ClientEnv} {cfg : Config} {profile : String} {p : Profile}

theorem portForwardAgent_label {label host : String} {port : Number} {spec : AgentSpec}
    (h : portForwardAgent env label port host = .ok spec) : spec.label = label := by
  obtain ⟨script, _, h⟩ := bind_eq_ok.mp h
  rw [← Except.ok.inj h]

theorem desktopAgents_label {label : String} :
    label ∈ (desktopAgents cfg profile p).map (·.label) ↔ label = agentLabel profile "desktop" ∧
      ∃ desktop, p.desktop = some desktop ∧ truthyPort desktop.clientPort = true := by
  unfold desktopAgents
  cases p.desktop with
  | none => simp
  | some desktop => by_cases h : truthyPort desktop.clientPort = true <;> simp [h]

theorem browserAgents_label {specs : List AgentSpec} {label : String}
    (h : browserAgents env cfg profile p = .ok specs) :
    label ∈ specs.map (·.label) ↔
      label = agentLabel profile "browser" ∧ p.browserFailover.isSome = true := by
  unfold browserAgents at h
  cases hfailover : p.browserFailover with
  | none =>
      rw [hfailover] at h
      obtain rfl := Except.ok.inj h
      simp
  | some failover =>
      rw [hfailover] at h
      obtain ⟨script, _, h⟩ := bind_eq_ok.mp h
      obtain rfl := Except.ok.inj h
      simp

theorem monitoringAgents_label {specs : List AgentSpec} {label : String}
    (h : monitoringAgents env cfg profile = .ok specs) :
    label ∈ specs.map (·.label) ↔ label = agentLabel profile "monitoring" ∧
      profile = cfg.default ∧ cfg.monitoring.isSome = true := by
  unfold monitoringAgents at h
  cases hmonitoring : cfg.monitoring with
  | none =>
      rw [hmonitoring] at h
      obtain rfl := Except.ok.inj h
      simp
  | some monitoring =>
      rw [hmonitoring] at h
      simp only at h
      split at h
      · rename_i hdefault
        obtain ⟨spec, hspec, h⟩ := bind_eq_ok.mp h
        obtain rfl := Except.ok.inj h
        simp [portForwardAgent_label hspec, beq_iff_eq.mp hdefault]
      · rename_i hother
        obtain rfl := Except.ok.inj h
        simp only [beq_iff_eq] at hother
        simp [hother]

theorem mountAgents_label {label : String} :
    label ∈ (mountAgents cfg profile).map (·.label) ↔
      label = agentLabel profile "mount" ∧ lazyMountsFor cfg profile ≠ [] := by
  unfold mountAgents
  by_cases h : lazyMountsFor cfg profile = [] <;> simp [h]

/-- The four kinds that a configuration describes, whatever the browser mode. -/
theorem agentsFor_label {specs : List AgentSpec} (h : agentsFor env cfg profile = .ok specs)
    {label : String} (hlabel : label ∈ specs.map (·.label)) :
    ∃ name ∈ FIXED_NAMES, label = agentLabel profile name := by
  unfold agentsFor at h
  split at h
  · obtain rfl := Except.ok.inj h
    cases hlabel
  · obtain ⟨browser, hbrowser, h⟩ := bind_eq_ok.mp h
    obtain ⟨monitoring, hmonitoring, h⟩ := bind_eq_ok.mp h
    obtain rfl := Except.ok.inj h
    simp only [List.map_append, List.mem_append, desktopAgents_label, browserAgents_label hbrowser,
      monitoringAgents_label hmonitoring, mountAgents_label] at hlabel
    rcases hlabel with ((⟨rfl, _⟩ | ⟨rfl, _⟩) | ⟨rfl, _⟩) | ⟨rfl, _⟩ <;>
      exact ⟨_, by simp [FIXED_NAMES], rfl⟩

theorem browserFailoverOf_some (hp : profileOf cfg profile = some p) :
    browserFailoverOf cfg profile = p.browserFailover := by
  rw [browserFailoverOf, hp]
  rfl

/-- `agent up` installs, of the four kinds, the wanted ones. -/
theorem upSpecs_label {mode : BrowserMode} {specs : List AgentSpec}
    (h : agentsFor env cfg profile = .ok specs) {name : String} (hname : name ∈ FIXED_NAMES) :
    agentLabel profile name ∈ (upSpecs profile mode specs).map (·.label) ↔
      Wanted cfg profile mode name := by
  have hsame : ∀ other ∈ FIXED_NAMES,
      (agentLabel profile name = agentLabel profile other ↔ name = other) := by
    intro other hother
    rw [agentLabel_inj (fixed_noDot _ hname) (fixed_noDot _ hother), and_iff_right rfl]
  have hup : agentLabel profile name ∈ (upSpecs profile mode specs).map (·.label) ↔
      agentLabel profile name ∈ specs.map (·.label) ∧ (name = "browser" → mode = .client) := by
    have hbrowser := hsame "browser" (by simp [FIXED_NAMES])
    simp only [upSpecs, List.mem_map, List.mem_filter, Bool.or_eq_true, bne_iff_ne, ne_eq,
      beq_iff_eq]
    constructor
    · rintro ⟨spec, ⟨hspec, hmode⟩, hlabel⟩
      refine ⟨⟨spec, hspec, hlabel⟩, fun heq ↦ hmode.resolve_left ?_⟩
      rw [hlabel, hbrowser]
      exact not_not.mpr heq
    · rintro ⟨⟨spec, hspec, hlabel⟩, hmode⟩
      refine ⟨spec, ⟨hspec, ?_⟩, hlabel⟩
      rw [hlabel, hbrowser]
      exact (em (name = "browser")).symm.imp id hmode
  rw [hup]
  unfold agentsFor at h
  cases hp : profileOf cfg profile with
  | none =>
      rw [hp] at h
      obtain rfl := Except.ok.inj h
      refine ⟨fun hmem ↦ absurd hmem.1 List.not_mem_nil, ?_⟩
      rintro (⟨hp', _, _⟩ | ⟨hfailover, _⟩ | ⟨hsome, _, _⟩ | ⟨hmounts⟩ | ⟨hp', _, _, _, _⟩)
      · rw [hp] at hp'
        cases hp'
      · rw [browserFailoverOf, hp] at hfailover
        cases hfailover
      · rw [hp] at hsome
        cases hsome
      · rw [lazyMountsFor, hp] at hmounts
        exact (hmounts rfl).elim
      · rw [hp] at hp'
        cases hp'
  | some p =>
      rw [hp] at h
      obtain ⟨browser, hbrowser, h⟩ := bind_eq_ok.mp h
      obtain ⟨monitoring, hmonitoring, h⟩ := bind_eq_ok.mp h
      obtain rfl := Except.ok.inj h
      simp only [List.map_append, List.mem_append, desktopAgents_label, browserAgents_label hbrowser,
        monitoringAgents_label hmonitoring, mountAgents_label,
        hsame "desktop" (by simp [FIXED_NAMES]), hsame "browser" (by simp [FIXED_NAMES]),
        hsame "monitoring" (by simp [FIXED_NAMES]), hsame "mount" (by simp [FIXED_NAMES])]
      constructor
      · rintro ⟨((⟨rfl, desktop, hdesktop, hport⟩ | ⟨rfl, hfailover⟩) | ⟨rfl, hdefault, hsome⟩) |
          ⟨rfl, hmounts⟩, hmode⟩
        · exact .desktop hp hdesktop hport
        · exact .browser (by rwa [browserFailoverOf_some hp]) (hmode rfl)
        · exact .monitoring (by rw [hp]; rfl) hdefault hsome
        · exact .mount hmounts
      · intro hwanted
        cases hwanted with
        | desktop hp' hdesktop hport =>
            obtain rfl := Option.some.inj (hp.symm.trans hp')
            exact ⟨.inl (.inl (.inl ⟨rfl, _, hdesktop, hport⟩)), (by simp)⟩
        | browser hfailover hmode =>
            rw [browserFailoverOf_some hp] at hfailover
            exact ⟨.inl (.inl (.inr ⟨rfl, hfailover⟩)), fun _ ↦ hmode⟩
        | monitoring _ hdefault hsome => exact ⟨.inl (.inr ⟨rfl, hdefault, hsome⟩), (by simp)⟩
        | mount hmounts => exact ⟨.inr ⟨rfl, hmounts⟩, (by simp)⟩
        | autoBind _ _ _ _ _ => exact ((fixed_ne_port _ hname _).2 rfl).elim

theorem browserPortAgent_inv {port : Number} {host : String} {spec : AgentSpec}
    (h : browserPortAgent env profile port host = .ok spec) :
    validPort port = true ∧ spec.label = browserPortLabel profile port := by
  unfold browserPortAgent at h
  split at h
  · cases h
  · rename_i hvalid
    exact ⟨by simpa using hvalid, portForwardAgent_label h⟩

theorem browserAutoBindAgent_inv {port : Number} {host : String} {spec : AgentSpec}
    (h : browserAutoBindAgent env profile port host = .ok spec) :
    validPort port = true ∧ spec.label = browserAutoBindPortLabel profile port := by
  unfold browserAutoBindAgent at h
  split at h
  · cases h
  · rename_i hvalid
    exact ⟨by simpa using hvalid, portForwardAgent_label h⟩

/-- One agent for each port that was asked for. -/
theorem portAgents_label {agent : Number → Js AgentSpec} {label : Number → String}
    (hagent : ∀ port spec, agent port = .ok spec → validPort port = true ∧ spec.label = label port)
    {ports : List Number} {specs : List AgentSpec} (h : ports.mapM agent = .ok specs) {l : String} :
    l ∈ specs.map (·.label) ↔ ∃ port ∈ ports, validPort port = true ∧ l = label port := by
  have hpairs := mapM_eq_ok.mp h
  constructor
  · intro hl
    obtain ⟨spec, hspec, rfl⟩ := List.mem_map.mp hl
    obtain ⟨port, hport, hok⟩ := forall₂_exists_left hpairs hspec
    obtain ⟨hvalid, hlabel⟩ := hagent port spec hok
    exact ⟨port, hport, hvalid, hlabel⟩
  · rintro ⟨port, hport, _, rfl⟩
    obtain ⟨spec, hspec, hok⟩ := forall₂_exists_left hpairs.flip hport
    exact List.mem_map.mpr ⟨spec, hspec, (hagent port spec hok).2⟩

theorem autoBindAgents_label {specs : List AgentSpec}
    (h : autoBindAgents env cfg profile = .ok specs) {l : String} :
    l ∈ specs.map (·.label) ↔ ∃ port p failover, profileOf cfg profile = some p ∧
      p.browserFailover = some failover ∧ failover.autoBind = true ∧
      port ∈ declaredPorts p.projects ∧ validPort port = true ∧
      l = browserAutoBindPortLabel profile port := by
  obtain ⟨ports, hports, hspecs⟩ := bind_eq_ok.mp h
  obtain ⟨selected, hselected, hports⟩ := bind_eq_ok.mp hports
  have hfound : profileOf cfg profile = some selected.1 ∧
      selected.1.browserFailover = some selected.2 := by
    unfold browserProfile at hselected
    cases hp : profileOf cfg profile with
    | none => simp [hp, die] at hselected
    | some p =>
        cases hfailover : p.browserFailover with
        | none => simp [hp, hfailover, die] at hselected
        | some failover =>
            simp only [hp, hfailover, Except.ok.injEq] at hselected
            subst hselected
            exact ⟨rfl, hfailover⟩
  have hlist := Except.ok.inj hports
  rw [portAgents_label (fun _ _ ↦ browserAutoBindAgent_inv) hspecs, ← hlist]
  constructor
  · rintro ⟨port, hport, hvalid, rfl⟩
    split at hport
    · rename_i hauto
      exact ⟨port, _, _, hfound.1, hfound.2, hauto, hport, hvalid, rfl⟩
    · cases hport
  · rintro ⟨port, p, failover, hp, hfailover, hauto, hport, hvalid, rfl⟩
    obtain rfl := Option.some.inj (hp.symm.trans hfound.1)
    obtain rfl := Option.some.inj (hfailover.symm.trans hfound.2)
    exact ⟨port, by rwa [if_pos hauto], hvalid, rfl⟩

theorem validPort_of_declared {projects : List Project} {port : Number}
    (h : port ∈ declaredPorts projects) : validPort port = true := by
  rw [declaredPorts, List.mem_mergeSort, List.mem_dedup, List.mem_filter] at h
  exact h.2

theorem autoBindName_noDot {port : Number} (h : validPort port = true) :
    '.' ∉ (browserAutoBindPortName port.toStr).toList :=
  browserAutoBindPortName_noDot (portText_noDot (validPort_text h))

theorem browserPortName_port_noDot {port : Number} (h : validPort port = true) :
    '.' ∉ (browserPortName port.toStr).toList :=
  browserPortName_noDot (portText_noDot (validPort_text h))

/-- The autobind agents of a configuration, in client mode, are the wanted ones. -/
theorem autoBindAgents_wanted {specs : List AgentSpec}
    (h : autoBindAgents env cfg profile = .ok specs) {name : String} (hname : '.' ∉ name.toList)
    (hfixed : name ∉ FIXED_NAMES) :
    agentLabel profile name ∈ specs.map (·.label) ↔ Wanted cfg profile .client name := by
  rw [autoBindAgents_label h]
  constructor
  · rintro ⟨port, p, failover, hp, hfailover, hauto, hport, hvalid, hlabel⟩
    obtain ⟨_, rfl⟩ := (agentLabel_inj hname (autoBindName_noDot hvalid)).mp hlabel
    exact .autoBind hp hfailover hauto rfl hport
  · intro hwanted
    cases hwanted with
    | autoBind hp hfailover hauto _ hport =>
        exact ⟨_, _, _, hp, hfailover, hauto, hport, validPort_of_declared hport, rfl⟩
    | desktop | browser | monitoring | mount => exact (hfixed (by simp [FIXED_NAMES])).elim

end Described

/-- A configuration of one profile, with the dashboard of the box or without. -/
def dashboardConfig (monitoring : Option MonitoringConfig) : Config where
  hostPrefix := "box"
  default := "ada"
  profiles := [⟨"ada", [], [], false, none, none⟩]
  monitoring := monitoring

def macHome : ClientEnv := ⟨"/Users/ada", "/Users/ada"⟩

end RemoteDevbox.Client
