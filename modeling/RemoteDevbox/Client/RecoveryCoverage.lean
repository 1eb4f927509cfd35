import RemoteDevbox.Ansible.FactsAccepted
import RemoteDevbox.Client.Recovery

namespace RemoteDevbox.Client.Recovery

open Js Box Ansible

/-!
# What the recovery registry covers

The ids are put together by several collectors, and recognised by one table.
-/

/-! ## The patterns, on names that are put together -/

theorem test_profileThen {last : String} {rest : Regex} {s : String} :
    Text.test (PROFILE_THEN_RE last rest) s = true ↔
      ∃ p t, s.toList = p ++ '.' :: (last.toList ++ t) ∧ Regex.isMatch PROFILE_RE p = true ∧
        Regex.isMatch rest t = true := by
  simp only [Text.test, PROFILE_THEN_RE, Regex.isMatch_seq, Regex.isMatch_lit]
  constructor
  · rintro ⟨p, _, hsplit, hp, _, t, rfl, rfl, ht⟩
    refine ⟨p, t, ?_, hp, ht⟩
    rw [← hsplit, String.toList_append, List.append_assoc]
    rfl
  · rintro ⟨p, t, hsplit, hp, ht⟩
    refine ⟨p, '.' :: (last.toList ++ t), hsplit.symm, hp, _, t, ?_, rfl, ht⟩
    rw [String.toList_append, List.append_assoc]
    rfl

theorem profile_noDot {p : List Char} (h : Regex.isMatch PROFILE_RE p = true) : '.' ∉ p := by
  obtain ⟨_, v, rfl, ⟨c, hc, rfl⟩, hv⟩ := by
    simpa only [PROFILE_RE, Regex.isMatch_seq, Regex.isMatch_cls] using h
  have htail := (Regex.isMatch_upTo_cls.mp hv).2
  rw [List.singleton_append, List.mem_cons, not_or]
  refine ⟨?_, fun hmem ↦ absurd (htail _ hmem) (by decide)⟩
  rintro rfl
  exact absurd hc (by decide)

theorem toList_joined (s t : String) : (s ++ "." ++ t).toList = s.toList ++ '.' :: t.toList := by
  rw [String.toList_append, String.toList_append, List.append_assoc]
  rfl

/-- A name without a dot behind a profile. -/
theorem test_profileThen_last {profile name last : String} {rest : Regex}
    (hname : '.' ∉ name.toList) (hlast : '.' ∉ last.toList)
    (hrest : ∀ t, Regex.isMatch rest t = true → '.' ∉ t) :
    Text.test (PROFILE_THEN_RE last rest) (profile ++ "." ++ name) = true ↔
      Text.test PROFILE_RE profile = true ∧ ∃ t, name = last ++ t ∧ Text.test rest t = true := by
  rw [test_profileThen, toList_joined]
  constructor
  · rintro ⟨p, t, hsplit, hp, ht⟩
    have hnoDot : '.' ∉ last.toList ++ t := by
      rw [List.mem_append, not_or]
      exact ⟨hlast, hrest t ht⟩
    obtain ⟨rfl, heq⟩ := (append_sep_inj_last hname hnoDot).mp hsplit
    refine ⟨hp, String.ofList t, ?_, by rwa [Text.test, String.toList_ofList]⟩
    rw [← String.toList_inj, String.toList_append, heq, String.toList_ofList]
  · rintro ⟨hp, t, rfl, ht⟩
    exact ⟨_, t.toList, by rw [String.toList_append], hp, ht⟩

/-- Any name behind an account. -/
theorem test_profileThen_first {user name : String} {rest : Regex} (huser : '.' ∉ user.toList) :
    Text.test (PROFILE_THEN_RE "" rest) (user ++ "." ++ name) = true ↔
      Text.test PROFILE_RE user = true ∧ Text.test rest name = true := by
  rw [test_profileThen, toList_joined]
  constructor
  · rintro ⟨p, t, hsplit, hp, ht⟩
    obtain ⟨rfl, heq⟩ := (append_sep_inj huser (profile_noDot hp)).mp hsplit
    refine ⟨hp, ?_⟩
    rw [Text.test, heq]
    exact ht
  · rintro ⟨hp, ht⟩
    exact ⟨_, name.toList, rfl, hp, ht⟩

theorem user_noDot {user : String} (h : Text.test Spec.USERNAME_RE user = true) :
    '.' ∉ user.toList :=
  fun hmem ↦ absurd (nameTail_of_userName h _ hmem) (by decide)

theorem joined_assoc (head s t : String) : head ++ s ++ "." ++ t = head ++ (s ++ "." ++ t) := by
  simp only [String.append_assoc]

theorem registered_mcp {user : String} :
    (∃ r, RegisteredAs ("browser.mcp." ++ user) r) ↔ Text.test PROFILE_RE user = true :=
  registered_iff (r := mcpRegistration) (by simp [aloneEntries])

theorem registered_memory {user name : String} (huser : '.' ∉ user.toList) :
    (∃ r, RegisteredAs ("memory." ++ user ++ "." ++ name) r) ↔
      Text.test PROFILE_RE user = true ∧ Text.test INSTANCE_RE name = true := by
  have hiff := @registered_iff memoryRegistration (by simp [aloneEntries]) (user ++ "." ++ name)
  rw [joined_assoc]
  exact hiff.trans (test_profileThen_first huser)

theorem registered_rc {unit : String} :
    (∃ r, RegisteredAs ("remote-control.agent-rc-" ++ (unit ++ ".service")) r) ↔
      unit ≠ "" ∧ ∀ c ∈ unit.toList, rcUnitChar c = true := by
  refine (registered_iff (r := rcRegistration) (by simp [aloneEntries])).trans ?_
  have hempty : unit ≠ "" ↔ unit.toList ≠ [] := by simp
  rw [Text.test, hempty, ← Regex.isMatch_plus_cls]
  simp only [rcRegistration, RC_UNIT_RE, Regex.isMatch_seq, Regex.isMatch_lit, String.toList_append]
  constructor
  · rintro ⟨a, _, hsplit, ha, rfl⟩
    rwa [← List.append_cancel_right hsplit]
  · exact fun h ↦ ⟨_, _, rfl, h, rfl⟩

theorem registered_rdpTunnel {profile : String} :
    (∃ r, RegisteredAs ("client.rdp-tunnel." ++ profile) r) ↔ Text.test PROFILE_RE profile = true :=
  registered_iff (r := rdpTunnelRegistration) (by simp [aloneEntries])

theorem registered_browser {profile : String} :
    (∃ r, RegisteredAs ("client.browser." ++ profile) r) ↔ Text.test PROFILE_RE profile = true :=
  registered_iff (r := browserRegistration) (by simp [aloneEntries])

theorem registered_sync {profile : String} :
    (∃ r, RegisteredAs ("client.sync." ++ profile) r) ↔ Text.test PROFILE_RE profile = true :=
  registered_iff (r := syncRegistration) (by simp [aloneEntries])

theorem registered_mount {profile label : String} :
    (∃ r, RegisteredAs ("client.mount." ++ profile ++ "." ++ label) r) ↔
      ∀ c ∈ (profile ++ "." ++ label).toList, idTail c = true := by
  have hiff := @registered_iff mountRegistration (by simp [aloneEntries])
    (profile ++ "." ++ label)
  rw [joined_assoc]
  refine hiff.trans (Regex.isMatch_plus_cls.trans (and_iff_right ?_))
  rw [toList_joined]
  exact List.append_ne_nil_of_right_ne_nil _ (List.cons_ne_nil _ _)

/-! ## Launch agents -/

theorem eps_noDot : ∀ t, Regex.isMatch .eps t = true → '.' ∉ t := by
  intro t ht
  rw [Regex.isMatch_eps.mp ht]
  exact List.not_mem_nil

theorem portNumber_noDot : ∀ t, Regex.isMatch PORT_NUMBER_RE t = true → '.' ∉ t := by
  intro t ht
  have hnoDot := @portText_noDot (String.ofList t) (by rwa [Text.test, String.toList_ofList])
  rwa [String.toList_ofList] at hnoDot

/-- The last parts of a label that the registry knows. -/
def KnownLabelName (name : String) : Prop :=
  name = "mount" ∨ ∃ text, Text.test PORT_NUMBER_RE text = true ∧
    (name = browserPortName text ∨ name = browserAutoBindPortName text)

theorem agent_id (profile name : String) :
    "client.agent." ++ agentLabel profile name =
      "client.agent.com.devbox." ++ (profile ++ "." ++ name) := by
  have hhead : "client.agent." ++ "com.devbox." = "client.agent.com.devbox." := by decide +kernel
  rw [← hhead, agentLabel]
  simp only [String.append_assoc]

theorem accepts_agent {component last profile name : String} {rest : Regex}
    (hname : '.' ∉ name.toList) (hlast : '.' ∉ last.toList)
    (hrest : ∀ t, Regex.isMatch rest t = true → '.' ∉ t) :
    (agentRegistration component last rest).accepts ("client.agent." ++ agentLabel profile name) =
        true ↔
      Text.test PROFILE_RE profile = true ∧ ∃ t, name = last ++ t ∧ Text.test rest t = true := by
  rw [agent_id]
  have haccepts := @accepts_append (agentRegistration component last rest) (profile ++ "." ++ name)
  refine (Bool.eq_iff_iff.mp haccepts).trans ?_
  exact test_profileThen_last hname hlast hrest

theorem registered_agent {profile name : String} (hname : '.' ∉ name.toList) :
    (∃ r, RegisteredAs ("client.agent." ++ agentLabel profile name) r) ↔
      Text.test PROFILE_RE profile = true ∧ KnownLabelName name := by
  have hmount := @accepts_agent "client.agent.*.mount" "mount" profile name .eps hname
    (by decide +kernel) eps_noDot
  have hmanual := @accepts_agent "client.agent.*.browser-port-*" "browser-port-" profile name
    PORT_NUMBER_RE hname (by decide +kernel) portNumber_noDot
  have hauto := @accepts_agent "client.agent.*.browser-autobind-port-*" "browser-autobind-port-"
    profile name PORT_NUMBER_RE hname (by decide +kernel) portNumber_noDot
  -- only the three entries for labels share the head
  have hthree : ∀ r ∈ REGISTRY, r.accepts ("client.agent." ++ agentLabel profile name) = true →
      r = mountAgentRegistration ∨ r = browserPortRegistration ∨ r = autoBindRegistration := by
    intro r hr haccepts
    rw [agent_id] at haccepts
    have hcomparable := comparable_of_accepts haccepts (prefix_append _ _)
    have hcomponents : ∀ r ∈ REGISTRY, comparable r.head "client.agent.com.devbox." = true →
        r.component = mountAgentRegistration.component ∨
          r.component = browserPortRegistration.component ∨
          r.component = autoBindRegistration.component := by decide +kernel
    rcases hcomponents r hr hcomparable with heq | heq | heq
    · exact .inl (eq_of_component (by simp [REGISTRY]) hr heq)
    · exact .inr (.inl (eq_of_component (by simp [REGISTRY]) hr heq))
    · exact .inr (.inr (eq_of_component (by simp [REGISTRY]) hr heq))
  have hmountName : ∀ t, Text.test .eps t = true → "mount" ++ t = "mount" := by
    intro t ht
    have hnil : t = "" := String.toList_inj.mp (Regex.isMatch_eps.mp ht)
    rw [hnil, String.append_empty]
  have hmount_ne : ∀ t, "mount" ≠ browserPortName t ∧ "mount" ≠ browserAutoBindPortName t :=
    fixed_ne_port "mount" (by simp [FIXED_NAMES])
  constructor
  · rintro ⟨r, hr, haccepts, _⟩
    rcases hthree r hr haccepts with rfl | rfl | rfl
    · obtain ⟨hprofile, t, rfl, ht⟩ := hmount.mp haccepts
      exact ⟨hprofile, .inl (hmountName t ht)⟩
    · obtain ⟨hprofile, t, rfl, ht⟩ := hmanual.mp haccepts
      exact ⟨hprofile, .inr ⟨t, ht, .inl rfl⟩⟩
    · obtain ⟨hprofile, t, rfl, ht⟩ := hauto.mp haccepts
      exact ⟨hprofile, .inr ⟨t, ht, .inr rfl⟩⟩
  · rintro ⟨hprofile, rfl | ⟨text, htext, rfl | rfl⟩⟩
    · refine ⟨mountAgentRegistration, by simp [REGISTRY],
        hmount.mpr ⟨hprofile, "", (String.append_empty).symm, rfl⟩, fun r hr haccepts ↦ ?_⟩
      rcases hthree r hr haccepts with rfl | rfl | rfl
      · rfl
      · obtain ⟨_, t, heq, _⟩ := hmanual.mp haccepts
        exact ((hmount_ne t).1 heq).elim
      · obtain ⟨_, t, heq, _⟩ := hauto.mp haccepts
        exact ((hmount_ne t).2 heq).elim
    · refine ⟨browserPortRegistration, by simp [REGISTRY],
        hmanual.mpr ⟨hprofile, text, rfl, htext⟩, fun r hr haccepts ↦ ?_⟩
      rcases hthree r hr haccepts with rfl | rfl | rfl
      · obtain ⟨_, t, heq, ht⟩ := hmount.mp haccepts
        exact ((hmount_ne text).1 (heq.trans (hmountName t ht)).symm).elim
      · rfl
      · obtain ⟨_, t, heq, _⟩ := hauto.mp haccepts
        exact (browserPortName_ne heq).elim
    · refine ⟨autoBindRegistration, by simp [REGISTRY],
        hauto.mpr ⟨hprofile, text, rfl, htext⟩, fun r hr haccepts ↦ ?_⟩
      rcases hthree r hr haccepts with rfl | rfl | rfl
      · obtain ⟨_, t, heq, ht⟩ := hmount.mp haccepts
        exact ((hmount_ne text).2 (heq.trans (hmountName t ht)).symm).elim
      · obtain ⟨_, t, heq, _⟩ := hmanual.mp haccepts
        exact (browserPortName_ne heq.symm).elim
      · rfl

/-! ## What the client emits -/

/-- The component is recognised by one entry, and carries its policy when it has
gone bad. -/
def Covered (c : HealthResult) : Prop :=
  ∃ r, RegisteredAs c.id r ∧ (c.status = .degraded ∨ c.status = .failed → c.recovery = r.policy)

/-- A component of the client whose policy is the automatic one, if it was probed. -/
structure ClientComponent (c : LocalHealthResult) : Prop where
  head : "client.".toList <+: c.id.toList
  recovery : c.status ≠ .unknown → c.recovery = .automatic

theorem combineHealth_id {box : String → Option HealthStatus} {c : LocalHealthResult} :
    (combineHealth box c).id = c.id := by
  unfold combineHealth downstreamResult
  split
  · split
    · rfl
    · split <;> rfl
  · rfl

theorem combineHealth_recovery {box : String → Option HealthStatus} {c : LocalHealthResult}
    (h : ClientComponent c)
    (hbad : (combineHealth box c).status = .degraded ∨ (combineHealth box c).status = .failed) :
    (combineHealth box c).recovery = .automatic := by
  have hsame : c.status = .degraded ∨ c.status = .failed → c.recovery = .automatic := by
    intro hbad
    refine h.recovery ?_
    rcases hbad with hbad | hbad <;> simp [hbad]
  unfold combineHealth downstreamResult at hbad ⊢
  cases hremote : c.remoteComponent with
  | none =>
      rw [hremote] at hbad
      exact hsame hbad
  | some remote =>
      rw [hremote] at hbad
      by_cases hhealthy : c.status = .healthy
      · have hrecovery := h.recovery (by simp [hhealthy])
        simp only [hhealthy, ne_eq, not_true_eq_false, if_false] at hbad ⊢
        split <;> exact hrecovery
      · simp only [ne_eq, hhealthy, not_false_eq_true, if_true] at hbad ⊢
        exact hsame hbad

theorem client_policy {id : String} {r : RecoveryRegistration} (hhead : "client.".toList <+: id.toList)
    (h : RegisteredAs id r) : r.policy = .automatic := by
  have hpolicies : ∀ r ∈ REGISTRY, comparable r.head "client." = true → r.policy = .automatic := by
    decide +kernel
  exact hpolicies r h.1 (comparable_of_accepts h.2.1 hhead)

theorem covered_iff {box : String → Option HealthStatus} {c : LocalHealthResult}
    (h : ClientComponent c) : Covered (combineHealth box c) ↔ ∃ r, RegisteredAs c.id r := by
  rw [Covered, combineHealth_id]
  constructor
  · exact fun ⟨r, hr, _⟩ ↦ ⟨r, hr⟩
  · rintro ⟨r, hr⟩
    exact ⟨r, hr, fun hbad ↦ (combineHealth_recovery h hbad).trans (client_policy h.head hr).symm⟩

theorem agent_component (spec : AgentSpec) (profile : String) (evidence : AgentEvidence) :
    ClientComponent (probeAgentHealth spec profile evidence) := by
  have hhead : ∀ head rest : String, "client.".toList <+: head.toList →
      "client.".toList <+: (head ++ rest).toList :=
    fun head rest h ↦ h.trans (prefix_append head rest)
  constructor
  · unfold probeAgentHealth agentHealthIdentity
    split
    · exact hhead _ _ (by decide +kernel)
    · split
      · exact hhead _ _ (by decide +kernel)
      · exact hhead _ _ (by decide +kernel)
  · change (agentVerdict spec evidence).1 ≠ _ → (agentVerdict spec evidence).2.2 = _
    unfold agentVerdict
    repeat' split
    all_goals simp

theorem mount_component (profile label : String) (evidence : MountRecoveryEvidence) :
    ClientComponent (mountHealthFromEvidence profile label evidence) ∧
      (mountHealthFromEvidence profile label evidence).id =
        "client.mount." ++ profile ++ "." ++ label := by
  have hid : (mountHealthFromEvidence profile label evidence).id =
      "client.mount." ++ profile ++ "." ++ label := by
    unfold mountHealthFromEvidence
    simp only
    split
    · rfl
    · rfl
    · split <;> rfl
  refine ⟨⟨?_, ?_⟩, hid⟩
  · have hfixed : "client.".toList <+: "client.mount.".toList := by decide +kernel
    rw [hid, joined_assoc]
    exact hfixed.trans (prefix_append _ _)
  · intro _
    unfold mountHealthFromEvidence
    simp only
    split
    · rfl
    · rfl
    · split <;> rfl

theorem sync_component {cfg : Config} {profile : String} {session : Option SyncStatus}
    {registered : Option Bool} {c : LocalHealthResult}
    (h : c ∈ collectSyncHealth cfg profile session registered) :
    ClientComponent c ∧ c.id = "client.sync." ++ profile := by
  have hid : c.id = "client.sync." ++ profile ∧ c.recovery = .automatic := by
    unfold collectSyncHealth at h
    split at h
    · split at h
      · rw [List.mem_singleton.mp h]
        exact ⟨rfl, rfl⟩
      · rw [List.mem_singleton.mp h]
        unfold syncHealthFromStatus
        simp only
        repeat' split
        all_goals exact ⟨rfl, rfl⟩
    · cases h
  have hfixed : "client.".toList <+: "client.sync.".toList := by decide +kernel
  refine ⟨⟨?_, fun _ ↦ hid.2⟩, hid.1⟩
  rw [hid.1]
  exact hfixed.trans (prefix_append _ _)

theorem sync_emitted {cfg : Config} {profile : String} {session : Option SyncStatus}
    {registered : Option Bool} (h : syncDiskEnabled cfg profile = true) :
    ∃ c, c ∈ collectSyncHealth cfg profile session registered := by
  unfold collectSyncHealth
  rw [if_pos h]
  cases session with
  | none => exact ⟨_, List.mem_singleton_self _⟩
  | some evidence => exact ⟨_, List.mem_singleton_self _⟩

/-! ## Which agents are probed -/

/-- The profile has some agent: one that its configuration wants, or a port
agent that is installed. -/
def HasAgent (cfg : Config) (profile : String) (mode : BrowserMode) (installed : List String) :
    Prop :=
  (∃ name, Wanted cfg profile mode name) ∨
    ∃ label ∈ installedAnyBrowserPortAgentLabels profile installed, labelPort label ≤ 65535

/-- The last part of the label of a probed agent. -/
def ProbedName (cfg : Config) (profile : String) (mode : BrowserMode) (name : String) : Prop :=
  (name ∈ FIXED_NAMES ∧ Wanted cfg profile mode name) ∨
    ∃ port, validPort port = true ∧
      (name = browserPortName port.toStr ∨ name = browserAutoBindPortName port.toStr)

theorem probedName_noDot {cfg : Config} {profile name : String} {mode : BrowserMode}
    (h : ProbedName cfg profile mode name) : '.' ∉ name.toList := by
  rcases h with ⟨hfixed, _⟩ | ⟨port, hvalid, rfl | rfl⟩
  · exact fixed_noDot _ hfixed
  · exact browserPortName_port_noDot hvalid
  · exact autoBindName_noDot hvalid

section Specs

variable {env : ClientEnv} {cfg : Config} {profile host : String} {mode : BrowserMode}

theorem installedPortAgent_spec {specs more : List AgentSpec} {label : String}
    (h : installedPortAgent env profile host specs label = .ok more) {spec : AgentSpec}
    (hspec : spec ∈ more) : labelPort label ≤ 65535 ∧ ∃ port, validPort port = true ∧
      (spec.label = browserPortLabel profile port ∨
        spec.label = browserAutoBindPortLabel profile port) := by
  unfold installedPortAgent at h
  split at h
  · obtain rfl := Except.ok.inj h
    cases hspec
  · rename_i hlisted
    obtain ⟨agent, hagent, h⟩ := bind_eq_ok.mp h
    obtain rfl := Except.ok.inj h
    obtain rfl := List.mem_singleton.mp hspec
    have hshort : labelPort label ≤ 65535 := by
      simp only [Bool.or_eq_true, decide_eq_true_eq, not_or] at hlisted
      omega
    refine ⟨hshort, .ofInt (labelPort label), ?_⟩
    split at hagent
    · exact ⟨(browserAutoBindAgent_inv hagent).1, .inr (browserAutoBindAgent_inv hagent).2⟩
    · exact ⟨(browserPortAgent_inv hagent).1, .inl (browserPortAgent_inv hagent).2⟩

theorem installedPortAgents_spec {labels : List String} {specs all : List AgentSpec}
    (h : installedPortAgents env profile host specs labels = .ok all) :
    specs ⊆ all ∧ (∀ spec ∈ all, spec ∈ specs ∨
      ((∃ label ∈ labels, labelPort label ≤ 65535) ∧ ∃ port, validPort port = true ∧
        (spec.label = browserPortLabel profile port ∨
          spec.label = browserAutoBindPortLabel profile port))) ∧
      ((∃ label ∈ labels, labelPort label ≤ 65535) → all ≠ []) := by
  induction labels generalizing specs with
  | nil =>
      obtain rfl := Except.ok.inj h
      exact ⟨List.Subset.refl _, fun _ hspec ↦ .inl hspec, fun ⟨_, hmem, _⟩ ↦ by cases hmem⟩
  | cons label labels ih =>
      obtain ⟨more, hmore, hrest⟩ := bind_eq_ok.mp h
      obtain ⟨hsubset, hall, hne⟩ := ih hrest
      refine ⟨fun spec hspec ↦ hsubset (List.mem_append_left _ hspec), fun spec hspec ↦ ?_, ?_⟩
      · rcases hall spec hspec with hspec | ⟨⟨other, hother, hshort⟩, hport⟩
        · rcases List.mem_append.mp hspec with hspec | hspec
          · exact .inl hspec
          · obtain ⟨hshort, hport⟩ := installedPortAgent_spec hmore hspec
            exact .inr ⟨⟨label, List.mem_cons_self, hshort⟩, hport⟩
        · exact .inr ⟨⟨other, List.mem_cons_of_mem _ hother, hshort⟩, hport⟩
      · rintro ⟨other, hother, hshort⟩
        rcases List.mem_cons.mp hother with rfl | hother
        · -- listed already, or listed now
          have hlisted : specs ++ more ≠ [] := by
            unfold installedPortAgent at hmore
            split at hmore
            · rename_i hfound
              have hmem : other ∈ specs.map (·.label) := by
                simp only [Bool.or_eq_true, decide_eq_true_eq, List.contains_iff_mem] at hfound
                exact hfound.resolve_right (by omega)
              obtain ⟨spec, hspec, _⟩ := List.mem_map.mp hmem
              exact List.ne_nil_of_mem (List.mem_append_left _ hspec)
            · obtain ⟨agent, _, hmore⟩ := bind_eq_ok.mp hmore
              obtain rfl := Except.ok.inj hmore
              simp
          obtain ⟨spec, hspec⟩ := List.exists_mem_of_ne_nil _ hlisted
          exact List.ne_nil_of_mem (hsubset hspec)
        · exact hne ⟨other, hother, hshort⟩

theorem configured_specs {installed : List String} {specs : List AgentSpec}
    (h : configuredAgentSpecs env cfg profile mode installed = .ok specs) :
    (∀ spec ∈ specs, ∃ name, spec.label = agentLabel profile name ∧
      ProbedName cfg profile mode name) ∧
    (∀ name ∈ FIXED_NAMES, Wanted cfg profile mode name →
      agentLabel profile name ∈ specs.map (·.label)) ∧
    (specs ≠ [] ↔ HasAgent cfg profile mode installed) := by
  obtain ⟨described, hdescribed, h⟩ := bind_eq_ok.mp h
  obtain ⟨autoBind, hautoBind, h⟩ := bind_eq_ok.mp h
  obtain ⟨hsubset, hall, hne⟩ := installedPortAgents_spec h
  have hup : ∀ spec ∈ upSpecs profile mode described, ∃ name ∈ FIXED_NAMES,
      spec.label = agentLabel profile name ∧ Wanted cfg profile mode name := by
    intro spec hspec
    obtain ⟨name, hname, hlabel⟩ := agentsFor_label hdescribed
      (List.mem_map.mpr ⟨spec, (List.mem_filter.mp hspec).1, rfl⟩)
    refine ⟨name, hname, hlabel, (upSpecs_label hdescribed hname).mp ?_⟩
    exact List.mem_map.mpr ⟨spec, hspec, hlabel⟩
  have hauto : ∀ spec ∈ autoBind, ∃ port, validPort port = true ∧
      spec.label = browserAutoBindPortLabel profile port ∧
      Wanted cfg profile mode (browserAutoBindPortName port.toStr) := by
    intro spec hspec
    split at hautoBind
    · rename_i hclient
      simp only [Bool.and_eq_true, beq_iff_eq] at hclient
      obtain ⟨port, p, failover, hp, hfailover, hauto, hport, hvalid, hlabel⟩ :=
        (autoBindAgents_label hautoBind).mp (List.mem_map.mpr ⟨spec, hspec, rfl⟩)
      exact ⟨port, hvalid, hlabel, .autoBind hp hfailover hauto hclient.1 hport⟩
    · obtain rfl := Except.ok.inj hautoBind
      cases hspec
  refine ⟨fun spec hspec ↦ ?_, fun name hname hwanted ↦ ?_, ?_, ?_⟩
  · rcases hall spec hspec with hspec | ⟨_, port, hvalid, hlabel | hlabel⟩
    · rcases List.mem_append.mp hspec with hspec | hspec
      · obtain ⟨name, hname, hlabel, hwanted⟩ := hup spec hspec
        exact ⟨name, hlabel, .inl ⟨hname, hwanted⟩⟩
      · obtain ⟨port, hvalid, hlabel, _⟩ := hauto spec hspec
        exact ⟨_, hlabel, .inr ⟨port, hvalid, .inr rfl⟩⟩
    · exact ⟨_, hlabel, .inr ⟨port, hvalid, .inl rfl⟩⟩
    · exact ⟨_, hlabel, .inr ⟨port, hvalid, .inr rfl⟩⟩
  · obtain ⟨spec, hspec, hlabel⟩ :=
      List.mem_map.mp ((upSpecs_label hdescribed hname).mpr hwanted)
    exact List.mem_map.mpr ⟨spec, hsubset (List.mem_append_left _ hspec), hlabel⟩
  · intro hspecs
    obtain ⟨spec, hspec⟩ := List.exists_mem_of_ne_nil _ hspecs
    rcases hall spec hspec with hspec | ⟨hinstalled, _⟩
    · rcases List.mem_append.mp hspec with hspec | hspec
      · obtain ⟨name, _, _, hwanted⟩ := hup spec hspec
        exact .inl ⟨name, hwanted⟩
      · obtain ⟨port, _, _, hwanted⟩ := hauto spec hspec
        exact .inl ⟨_, hwanted⟩
    · exact .inr hinstalled
  · rintro (⟨name, hwanted⟩ | hinstalled)
    · by_cases hfixed : name ∈ FIXED_NAMES
      · obtain ⟨spec, hspec, _⟩ :=
          List.mem_map.mp ((upSpecs_label hdescribed hfixed).mpr hwanted)
        exact List.ne_nil_of_mem (hsubset (List.mem_append_left _ hspec))
      · cases hwanted with
        | autoBind hp hfailover hauto hmode hport =>
            have hclient : (mode == .client && (browserFailoverOf cfg profile).isSome) = true := by
              rw [hmode, browserFailoverOf_some hp, hfailover]
              rfl
            rw [if_pos hclient] at hautoBind
            obtain ⟨spec, hspec, _⟩ := List.mem_map.mp ((autoBindAgents_label hautoBind).mpr
              ⟨_, _, _, hp, hfailover, hauto, hport, validPort_of_declared hport, rfl⟩)
            exact List.ne_nil_of_mem (hsubset (List.mem_append_right _ hspec))
        | desktop | browser | monitoring | mount => exact (hfixed (by simp [FIXED_NAMES])).elim
    · exact hne hinstalled

end Specs

/-- Every probed agent but the one for the dashboard is recognised, for a profile
whose name fits. -/
theorem registered_spec {cfg : Config} {profile name : String} {mode : BrowserMode}
    {spec : AgentSpec} {evidence : AgentEvidence} (hlabel : spec.label = agentLabel profile name)
    (hname : ProbedName cfg profile mode name) :
    (∃ r, RegisteredAs (probeAgentHealth spec profile evidence).id r) ↔
      Text.test PROFILE_RE profile = true ∧ name ≠ "monitoring" := by
  have hnoDot := probedName_noDot hname
  have hid : (probeAgentHealth spec profile evidence).id =
      if name = "desktop" then "client.rdp-tunnel." ++ profile
      else if name = "browser" then "client.browser." ++ profile
      else "client.agent." ++ agentLabel profile name := by
    have hdesktop := @agentLabel_inj profile profile name "desktop" hnoDot
      (fixed_noDot "desktop" (by simp [FIXED_NAMES]))
    have hbrowser := @agentLabel_inj profile profile name "browser" hnoDot
      (fixed_noDot "browser" (by simp [FIXED_NAMES]))
    rw [and_iff_right rfl] at hdesktop hbrowser
    simp only [probeAgentHealth, agentHealthIdentity, hlabel, hdesktop, hbrowser]
    split_ifs <;> rfl
  rw [hid]
  by_cases hdesktop : name = "desktop"
  · rw [if_pos hdesktop, registered_rdpTunnel]
    exact (and_iff_left (by rw [hdesktop]; decide)).symm
  · by_cases hbrowser : name = "browser"
    · rw [if_neg hdesktop, if_pos hbrowser, registered_browser]
      exact (and_iff_left (by rw [hbrowser]; decide)).symm
    · rw [if_neg hdesktop, if_neg hbrowser, registered_agent hnoDot]
      refine and_congr_right fun _ ↦ ⟨?_, fun hmonitoring ↦ ?_⟩
      · rintro (rfl | ⟨text, _, rfl | rfl⟩)
        · decide
        · exact (fixed_ne_port "monitoring" (by simp [FIXED_NAMES]) text).1.symm
        · exact (fixed_ne_port "monitoring" (by simp [FIXED_NAMES]) text).2.symm
      · rcases hname with ⟨hfixed, _⟩ | ⟨port, hvalid, hport⟩
        · simp only [FIXED_NAMES, List.mem_cons, List.not_mem_nil, or_false] at hfixed
          exact .inl (by tauto)
        · exact .inr ⟨port.toStr, validPort_text hvalid, hport⟩

/-- The names of a client's components fit the registry. -/
structure ClientIds (cfg : Config) (profile : String) (mode : BrowserMode)
    (installed : List String) : Prop where
  monitoring : ¬ Wanted cfg profile mode "monitoring"
  name : HasAgent cfg profile mode installed ∨ syncDiskEnabled cfg profile = true →
    Text.test PROFILE_RE profile = true
  mounts : ∀ m ∈ lazyMountsFor cfg profile,
    ∀ c ∈ (profile ++ "." ++ m.label).toList, idTail c = true

theorem planMounts_eq {env : ClientEnv} {cfg : Config} {profile : String} {plans : List String}
    (h : planMounts env cfg profile = .ok plans) :
    plans = (lazyMountsFor cfg profile).map (·.label) := by
  refine ((map_eq_of_forall₂ (f := (·.label)) (g := id) (mapM_eq_ok.mp h) ?_).trans
    (List.map_id _)).symm
  intro mount label hplan
  unfold planMount at hplan
  split at hplan
  · cases hplan
  · exact Except.ok.inj hplan

theorem client_covered_iff {env : ClientEnv} {cfg : Config} {profile : String} {mode : BrowserMode}
    {installed : List String} {evidence : ClientEvidence} {results : List HealthResult}
    (h : collectClientHealth env cfg profile mode installed evidence = .ok results) :
    (∀ c ∈ results, Covered c) ↔ ClientIds cfg profile mode installed := by
  obtain ⟨specs, hspecs, h⟩ := bind_eq_ok.mp h
  obtain ⟨mounts, hmounts, h⟩ := bind_eq_ok.mp h
  obtain ⟨plans, hplans, hmounts⟩ := bind_eq_ok.mp hmounts
  obtain rfl := Except.ok.inj h
  obtain rfl := Except.ok.inj hmounts
  obtain ⟨hnames, hwanted, hsome⟩ := configured_specs hspecs
  have hagent : ∀ spec ∈ specs, ∀ name, spec.label = agentLabel profile name →
      ProbedName cfg profile mode name →
      (Covered (combineHealth evidence.box
        (probeAgentHealth spec profile (evidence.agent spec.label))) ↔
        Text.test PROFILE_RE profile = true ∧ name ≠ "monitoring") :=
    fun spec _ name hlabel hname ↦
      (covered_iff (agent_component _ _ _)).trans (registered_spec hlabel hname)
  have hmount : ∀ label, (Covered (combineHealth evidence.box
      (mountHealthFromEvidence profile label (evidence.mount label))) ↔
        ∀ c ∈ (profile ++ "." ++ label).toList, idTail c = true) := by
    intro label
    obtain ⟨hcomponent, hid⟩ := mount_component profile label (evidence.mount label)
    rw [covered_iff hcomponent, hid, registered_mount]
  have hsync : ∀ c ∈ collectSyncHealth cfg profile evidence.session evidence.registered,
      (Covered (combineHealth evidence.box c) ↔ Text.test PROFILE_RE profile = true) := by
    intro c hc
    obtain ⟨hcomponent, hid⟩ := sync_component hc
    rw [covered_iff hcomponent, hid, registered_sync]
  simp only [List.map_append, List.map_map, List.forall_mem_append, List.forall_mem_map,
    Function.comp_apply]
  constructor
  · rintro ⟨⟨hagents, hmounts⟩, hsyncs⟩
    refine ⟨fun hmonitoring ↦ ?_, ?_, fun m hm ↦ ?_⟩
    · have hfixed : "monitoring" ∈ FIXED_NAMES := by simp [FIXED_NAMES]
      obtain ⟨spec, hspec, hlabel⟩ := List.mem_map.mp (hwanted _ hfixed hmonitoring)
      have hcovered := (hagent spec hspec _ hlabel (.inl ⟨hfixed, hmonitoring⟩)).mp (hagents spec hspec)
      exact hcovered.2 rfl
    · rintro (hhas | henabled)
      · obtain ⟨spec, hspec⟩ := List.exists_mem_of_ne_nil _ (hsome.mpr hhas)
        obtain ⟨name, hlabel, hname⟩ := hnames spec hspec
        exact ((hagent spec hspec name hlabel hname).mp (hagents spec hspec)).1
      · obtain ⟨c, hc⟩ := @sync_emitted _ _ evidence.session evidence.registered henabled
        exact (hsync c hc).mp (hsyncs c hc)
    · refine (hmount m.label).mp (hmounts _ ?_)
      rw [planMounts_eq hplans]
      exact List.mem_map.mpr ⟨m, hm, rfl⟩
  · rintro ⟨hmonitoring, hprofile, hlabels⟩
    refine ⟨⟨fun spec hspec ↦ ?_, fun label hlabel ↦ ?_⟩, fun c hc ↦ ?_⟩
    · obtain ⟨name, hlabel, hname⟩ := hnames spec hspec
      refine (hagent spec hspec name hlabel hname).mpr ⟨?_, ?_⟩
      · exact hprofile (.inl (hsome.mp (List.ne_nil_of_mem hspec)))
      · rintro rfl
        rcases hname with ⟨_, hname⟩ | ⟨port, _, heq | heq⟩
        · exact hmonitoring hname
        · exact (fixed_ne_port "monitoring" (by simp [FIXED_NAMES]) _).1 heq
        · exact (fixed_ne_port "monitoring" (by simp [FIXED_NAMES]) _).2 heq
    · rw [planMounts_eq hplans] at hlabel
      obtain ⟨m, hm, rfl⟩ := List.mem_map.mp hlabel
      exact (hmount m.label).mpr (hlabels m hm)
    · refine (hsync c hc).mpr (hprofile (.inr ?_))
      unfold collectSyncHealth at hc
      split at hc
      · assumption
      · cases hc

end RemoteDevbox.Client.Recovery
