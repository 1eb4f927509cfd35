import RemoteDevbox.Ansible.Vars

namespace RemoteDevbox.Ansible

open Js Client Spec

/-!
# The ports a box binds

Nine parties bind ports, and the checks keep some of them apart: a party's own
ports from each other, a project's from the ones the box reserves, the MCP
servers' from the browser stack's.
-/

/-- Who binds a port. -/
inductive Party where
  | project
  | mcp
  | cdp
  | fallbackChrome
  | clientTunnel
  | orca
  | monitoring
  | memory
  | reserved
  deriving DecidableEq

/-- The ports of the browser stack, with failover on. -/
def failoverPort (vars : Val) (k : String) : List Val :=
  let failover := (vars.get "devbox_browser").get "failover"
  if truth (failover.get "enabled") then [failover.get k] else []

def boundPorts (vars : Val) : Party → List Val
  | .project => (listOf (vars.get "devbox_developers")).flatMap fun dev ↦
      (projectsOf dev).flatMap fun project ↦ listOf (project.get "ports")
  | .mcp =>
      if truth ((vars.get "devbox_browser").get "enabled") then
        (listOf ((vars.get "devbox_browser").get "servers")).map fun server ↦ server.get "port"
      else []
  | .cdp => failoverPort vars "cdp_port"
  | .fallbackChrome => failoverPort vars "fallback_chrome_port"
  | .clientTunnel => failoverPort vars "client_tunnel_port"
  | .orca => (listOf (vars.get "devbox_orca_units")).map fun unit ↦ unit.get "port"
  | .monitoring =>
      let mon := (vars.get "devbox_host").get "monitoring"
      if truth (mon.get "enabled") then [mon.get "port"] else []
  | .memory => (memoryInstances vars).map fun row ↦ .num row.port
  | .reserved => RESERVED_PORTS.map .num

/-- No two ports of the box are the same. -/
structure PortsDistinct (vars : Val) : Prop where
  each : ∀ party, (boundPorts vars party).Nodup
  apart : ∀ a b, a ≠ b → (boundPorts vars a).Disjoint (boundPorts vars b)

/-- The parties that are kept apart from each other. -/
def keptApart : Party → Party → Bool
  | .project, .reserved => true
  | .mcp, .cdp => true
  | .mcp, .fallbackChrome => true
  | .mcp, .clientTunnel => true
  | .memory, .reserved => true
  | _, _ => false

/-- No party binds a port twice, and the parties kept apart share none. -/
structure PortsChecked (vars : Val) : Prop where
  each : ∀ party, (boundPorts vars party).Nodup
  apart : ∀ a b, keptApart a b = true → (boundPorts vars a).Disjoint (boundPorts vars b)

/-! ## Counting up from a base -/

theorem nodup_countUp {α : Type} (xs : List α) (base : ℤ) :
    (xs.zipIdx.map fun p ↦ Val.num ((Number.ofInt base).add (.ofInt p.2))).Nodup := by
  have hports : (xs.zipIdx.map fun p ↦ Val.num ((Number.ofInt base).add (.ofInt p.2))) =
      (List.range xs.length).map fun i : ℕ ↦ Val.num (.ofInt (base + i)) := by
    rw [List.range_eq_range', ← List.zipIdx_map_snd 0 xs, List.map_map]
    simp [Function.comp_def, Number.add_ofInt]
  rw [hports]
  refine List.nodup_range.map ?_
  intro i j hij
  have hsum := Number.ofInt_inj.mp (Val.num.inj hij)
  omega

theorem strictEq_self_of_isPort {v : Val} (h : isPort v = true) : v.strictEq v = true := by
  obtain ⟨n, rfl, _⟩ := isPort_iff.mp h
  simp [Val.strictEq, Number.ofInt, Number.isNaN]

/-! ## Project ports -/

theorem portIssues_nodup {claims : List PortClaim} (hports : ∀ c ∈ claims, isPort c.port = true)
    (h : (portIssues claims).Passes) :
    (claims.map PortClaim.port).Nodup ∧ ∀ c ∈ claims, isReserved c.port = false := by
  have hclaim : ∀ i c, claims[i]? = some c →
      isReserved c.port = false ∧ othersAt claims i c.port = [] := by
    intro i c hc
    have hpass := Check.passes_eachIdx.mp h i c hc
    split at hpass
    · exact (Check.not_passes_failWith _ _ hpass).elim
    · rename_i hfree
      refine ⟨by simpa using hfree, ?_⟩
      simpa using hpass
  refine ⟨?_, ?_⟩
  · rw [List.nodup_iff_getElem?_ne_getElem?]
    intro i j hij hj heq
    simp only [List.getElem?_map] at heq
    have hjlt : j < claims.length := by simpa using hj
    have hi : claims[i]? = some claims[i] := List.getElem?_eq_getElem (by omega)
    have hjget : claims[j]? = some claims[j] := List.getElem?_eq_getElem hjlt
    rw [hi, hjget] at heq
    have hport : claims[i].port = claims[j].port := by simpa using heq
    have hother : claims[j] ∈ othersAt claims i claims[i].port := by
      refine List.mem_map.mpr ⟨(claims[j], j), List.mem_filter.mpr ⟨?_, ?_⟩, rfl⟩
      · exact List.mem_zipIdx_iff_getElem?.mpr hjget
      · rw [hport]
        simp only [Bool.and_eq_true, bne_iff_ne]
        exact ⟨by omega, strictEq_self_of_isPort (hports _ (List.getElem_mem hjlt))⟩
    rw [(hclaim i _ hi).2] at hother
    cases hother
  · intro c hc
    obtain ⟨i, hi⟩ := List.mem_iff_getElem?.mp hc
    exact (hclaim i c hi).1

/-- The ports a project states. -/
def statedPorts (project : Val) : List Val := listOf (project.get "ports")

theorem claimsOfProject_ports {dev project : Val} {path : String} {claims : List PortClaim}
    (hlist : project.get "ports" = .undef ∨ ∃ xs, project.get "ports" = .arr xs)
    (h : claimsOfProject dev project path = .ok claims) :
    claims.map PortClaim.port = statedPorts project := by
  simp only [claimsOfProject, bind_eq_ok] at h
  obtain ⟨ports, hports, hclaims⟩ := h
  have hstated : ports = statedPorts project := by
    rcases hlist with hundef | ⟨xs, harr⟩
    · rw [hundef] at hports
      rw [statedPorts, hundef]
      exact (Except.ok.inj hports).symm
    · rw [harr] at hports
      rw [statedPorts, harr]
      exact (Except.ok.inj hports).symm
  rw [← hstated]
  have hpairs := mapM_eq_ok.mp hclaims
  clear hports hclaims hstated
  induction hpairs with
  | nil => rfl
  | cons hclaim _ ih =>
      simp only [bind_eq_ok, pure_eq_ok, Except.ok.injEq] at hclaim
      obtain ⟨user, _, name, _, rfl⟩ := hclaim
      rw [List.map_cons, ih]

theorem claimsOfProjects_ports {dev : Val} {base : String} {j : ℕ} {projects : List Val}
    {claims : List PortClaim}
    (hlist : ∀ p ∈ projects, p.get "ports" = .undef ∨ ∃ xs, p.get "ports" = .arr xs)
    (h : claimsOfProjects dev base j projects = .ok claims) :
    claims.map PortClaim.port = projects.flatMap statedPorts := by
  induction projects generalizing j claims with
  | nil =>
      obtain rfl := Except.ok.inj h
      rfl
  | cons p rest ih =>
      simp only [claimsOfProjects, bind_eq_ok, pure_eq_ok, Except.ok.injEq] at h
      obtain ⟨here, hhere, more, hmore, rfl⟩ := h
      rw [List.map_append, List.flatMap_cons, ih (fun q hq ↦ hlist q (by simp [hq])) hmore,
        claimsOfProject_ports (hlist p (by simp)) hhere]

theorem portClaims_ports {i : ℕ} {devs : List Val} {claims : List PortClaim}
    (hlist : ∀ dev ∈ devs, ∀ p ∈ projectsOf dev,
      p.get "ports" = .undef ∨ ∃ xs, p.get "ports" = .arr xs)
    (h : portClaims i devs = .ok claims) :
    claims.map PortClaim.port = devs.flatMap fun dev ↦ (projectsOf dev).flatMap statedPorts := by
  induction devs generalizing i claims with
  | nil =>
      obtain rfl := Except.ok.inj h
      rfl
  | cons dev rest ih =>
      simp only [portClaims, bind_eq_ok, pure_eq_ok, Except.ok.injEq] at h
      obtain ⟨projects, hprojects, here, hhere, more, hmore, rfl⟩ := h
      have hprojectsOf : projectsOf dev = projects := listOf_orElse_nil hprojects
      rw [List.map_append, List.flatMap_cons, ih (fun d hd ↦ hlist d (by simp [hd])) hmore,
        claimsOfProjects_ports (fun p hp ↦ hlist dev (by simp) p (hprojectsOf ▸ hp)) hhere,
        hprojectsOf]

/-! ## MCP ports -/

theorem mcpPortIssues_apart {spec : Val} {developers : List Val}
    (h : (mcpPortIssues spec developers).Passes) :
    ((spec.get "browser").get "enabled").isBoolLit false = true ∨
      ∀ server ∈ assignMcpPorts (browserUsers developers) (mcpBasePort spec),
        ∀ claim ∈ browserClaims ((spec.get "browser").get "failover"), server.port ≠ claim.1 := by
  unfold mcpPortIssues at h
  simp only at h
  split at h
  · rename_i hoff
    exact .inl hoff
  · right
    intro server hserver claim hclaim
    split at h
    · rename_i hnone
      rw [List.getLast?_eq_none_iff.mp hnone] at hserver
      cases hserver
    · split at h
      · exact (Check.not_passes_fail _ _ h).elim
      · have hpass := Check.passes_each.mp h claim hclaim
        split at hpass
        · exact (Check.not_passes_failWith _ _ hpass).elim
        · rename_i hfree
          intro heq
          have hmiss := List.find?_eq_none.mp hfree server hserver
          exact hmiss (by simp [heq])

/-! ## Orca ports -/

/-- The port of an enabled Orca runtime. -/
def orcaPort (dev : Val) : Option Val :=
  if ((dev.get "orca").get "enabled").isBoolLit true then
    some (((dev.get "orca").get "port").orElse DEFAULT_ORCA_PORT)
  else none

/-- A port claimed without an issue is new, and is remembered. -/
theorem claim_kept {n : Number} {claimed claimed' : List (Number × String)} {d : Val} {base : String}
    {issues : List Issue} (hport : isPort (.num n) = true)
    (h : validateOrcaFleet.claim (.num n) claimed d base = .ok (issues, claimed'))
    (hno : hasErrors issues = false) :
    (∀ c ∈ claimed, c.1 ≠ n) ∧ (∃ user, (n, user) ∈ claimed') ∧ ∀ c ∈ claimed, c ∈ claimed' := by
  simp only [validateOrcaFleet.claim, hport, if_true] at h
  split at h
  · simp only [bind_eq_ok, pure_eq_ok, Except.ok.injEq, Prod.mk.injEq] at h
    obtain ⟨shown, _, rfl, _⟩ := h
    cases hno
  · rename_i hfree
    simp only [bind_eq_ok, pure_eq_ok, Except.ok.injEq, Prod.mk.injEq] at h
    obtain ⟨user, _, _, rfl⟩ := h
    refine ⟨?_, ⟨user, by simp⟩, fun c hc ↦ by simp [hc]⟩
    intro c hc heq
    exact List.find?_eq_none.mp hfree c hc (by simp [heq])

/-- The fleet check keeps each enabled port and refuses it a second time. -/
theorem orcaFleet_nodup {claimed : List (Number × String)} {pinned : Option String} {i : ℕ}
    {devs : List Val} (hports : ∀ dev ∈ devs, ∀ port, orcaPort dev = some port → isPort port = true)
    (h : (validateOrcaFleet claimed pinned i devs).Passes) :
    (devs.filterMap orcaPort).Nodup ∧
      ∀ port ∈ devs.filterMap orcaPort, ∀ c ∈ claimed, port ≠ .num c.1 := by
  induction devs generalizing claimed pinned i with
  | nil => simp
  | cons dev rest ih =>
      have hrest : ∀ d ∈ rest, ∀ port, orcaPort d = some port → isPort port = true :=
        fun d hd ↦ hports d (by simp [hd])
      unfold validateOrcaFleet at h
      split at h
      · rename_i hon
        have hport : orcaPort dev = some (((dev.get "orca").get "port").orElse DEFAULT_ORCA_PORT) :=
          if_pos hon
        have hvalid := hports dev (by simp) _ hport
        obtain ⟨n, hn, _⟩ := isPort_iff.mp hvalid
        rw [hn] at hport hvalid
        rw [List.filterMap_cons_some hport]
        have hdefault : ((dev.get "orca").get "port").orElse 6768 = .num (.ofInt n) := hn
        simp only [hdefault, Check.passes_eval] at h
        obtain ⟨⟨issues, claimed'⟩, hclaim, hpass⟩ := h
        obtain ⟨hissues, hpass⟩ := Check.passes_append.mp hpass
        obtain ⟨hfresh, hkept⟩ := claim_kept hvalid hclaim (Check.passes_report.mp hissues)
        have hfleet : ∃ pinned', (validateOrcaFleet claimed' pinned' (i + 1) rest).Passes := by
          split at hpass
          · split at hpass
            · exact ⟨_, (Check.passes_append.mp hpass).2⟩
            · exact ⟨_, hpass⟩
          · exact ⟨_, hpass⟩
          · exact ⟨_, hpass⟩
        obtain ⟨pinned', hfleet⟩ := hfleet
        obtain ⟨hnodup, hother⟩ := ih hrest hfleet
        refine ⟨List.nodup_cons.mpr ⟨?_, hnodup⟩, ?_⟩
        · intro hmem
          obtain ⟨user, hhead⟩ := hkept.1
          exact hother _ hmem _ hhead rfl
        · intro port hport' c hc
          rcases List.mem_cons.mp hport' with rfl | hmem
          · intro heq
            exact hfresh c hc (Val.num.inj heq).symm
          · exact hother port hmem c (hkept.2 c hc)
      · rename_i hoff
        have hnone : orcaPort dev = none := if_neg hoff
        rw [List.filterMap_cons_none hnone]
        exact ih hrest h

/-! ## Every party of the generated file -/

theorem resolveProject_ports {spec dev project rp : Val}
    (h : ResolvedProject spec dev project rp) :
    rp.get "ports" = (project.get "ports").orElse (.arr []) := by
  obtain ⟨r, path, hr, rfl⟩ := h
  simp only [resolveProject, bind_eq_ok, pure_eq_ok, Except.ok.injEq] at hr
  obtain ⟨name, _, unit, _, rfl⟩ := hr
  rfl

theorem normalizeProject_ports {p vp : Val} {ports : List Val}
    (hports : p.get "ports" = .arr ports) (h : normalizeProject p = .ok vp) :
    vp.get "ports" = .arr ports := by
  simp only [normalizeProject, bind_eq_ok, pure_eq_ok, Except.ok.injEq] at h
  obtain ⟨name, _, spread, hspread, rfl⟩ := h
  rw [hports] at hspread
  obtain rfl := Except.ok.inj hspread
  rfl

section Accepted

variable {env : ClientEnv} {client : ClientFacts}
  {doc resolved vars tailscale hostVars rcUnits : Val} {devs developers vdevs : List Val}

theorem stated_isPort (h : Accepted env doc resolved devs) {dev project : Val} (hdev : dev ∈ devs)
    (hproject : project ∈ projectsOf dev) :
    project.get "ports" = .undef ∨
      ∃ xs, project.get "ports" = .arr xs ∧ ∀ x ∈ xs, isPort x = true := by
  obtain ⟨base, hpasses⟩ := h.developers.each dev hdev
  rcases projectsPass hpasses.projects with hundef | ⟨ps, harr, hps⟩
  · rw [projectsOf, hundef] at hproject
    cases hproject
  · rw [projectsOf, harr] at hproject
    obtain ⟨path, hpath⟩ := hps project hproject
    exact hpath.ports

theorem statedPorts_generated (h : Accepted env doc resolved devs)
    (gen : Generated client resolved vars tailscale hostVars rcUnits developers vdevs) :
    boundPorts vars .project = devs.flatMap fun dev ↦ (projectsOf dev).flatMap statedPorts := by
  symm
  refine flatMap_eq_of_forall₂ (developers_match h gen) ?_
  rintro dev vdev ⟨rdev, ⟨hdev, hresolved⟩, hgenerated⟩
  refine flatMap_eq_of_forall₂ (forall₂_comp hresolved.projects_match hgenerated.projects) ?_
  rintro project vp ⟨rp, ⟨hproject, hrp⟩, hvp⟩
  have hports := resolveProject_ports hrp
  rcases stated_isPort h hdev hproject with hundef | ⟨xs, harr, _⟩
  · rw [hundef] at hports
    rw [normalizeProject_ports hports hvp, statedPorts, hundef]
    rfl
  · rw [harr] at hports
    rw [normalizeProject_ports hports hvp, statedPorts, harr]

theorem project_checked (h : Accepted env doc resolved devs)
    (gen : Generated client resolved vars tailscale hostVars rcUnits developers vdevs) :
    (boundPorts vars .project).Nodup ∧
      (boundPorts vars .project).Disjoint (boundPorts vars .reserved) := by
  obtain ⟨claims, hclaims, hpass⟩ := h.referenced.ports
  have hports : claims.map PortClaim.port = boundPorts vars .project := by
    rw [statedPorts_generated h gen]
    refine portClaims_ports ?_ hclaims
    intro dev hdev p hp
    rcases stated_isPort h hdev hp with hundef | ⟨xs, harr, _⟩
    · exact .inl hundef
    · exact .inr ⟨xs, harr⟩
  have hvalid : ∀ c ∈ claims, isPort c.port = true := by
    intro c hc
    have hmem : c.port ∈ claims.map PortClaim.port := List.mem_map.mpr ⟨c, hc, rfl⟩
    rw [hports, statedPorts_generated h gen] at hmem
    obtain ⟨dev, hdev, hmem⟩ := List.mem_flatMap.mp hmem
    obtain ⟨project, hproject, hmem⟩ := List.mem_flatMap.mp hmem
    rcases stated_isPort h hdev hproject with hundef | ⟨xs, harr, hall⟩
    · rw [statedPorts, hundef] at hmem
      cases hmem
    · rw [statedPorts, harr] at hmem
      exact hall _ hmem
  obtain ⟨hnodup, hfree⟩ := portIssues_nodup hvalid hpass
  rw [← hports]
  refine ⟨hnodup, ?_⟩
  intro port hport hreserved
  obtain ⟨c, hc, rfl⟩ := List.mem_map.mp hport
  obtain ⟨n, hn, heq⟩ := List.mem_map.mp hreserved
  have hlit : isReserved c.port = true := by
    rw [← heq]
    refine List.any_eq_true.mpr ⟨n, hn, ?_⟩
    obtain ⟨z, hz, _⟩ := isPort_iff.mp (hvalid c hc)
    rw [← heq] at hz
    obtain rfl := Val.num.inj hz
    simp [Val.isNumLit, Number.ofInt, Number.isNaN]
  rw [hfree c hc] at hlit
  cases hlit

theorem browserUsers_match (h : Accepted env doc resolved devs)
    (gen : Generated client resolved vars tailscale hostVars rcUnits developers vdevs) :
    browserUsers developers = browserUsers devs := by
  have hlist : developersOf resolved = developers := listOf_of_elems gen.developers_eq
  have hfilterMap : ∀ ds : List Val, browserUsers ds = ds.filterMap fun dev ↦
      if (dev.get "browser").truthy then some (dev.get "user") else none := by
    intro ds
    rw [browserUsers, ← List.filterMap_eq_filter, List.map_filterMap]
    refine congrArg (ds.filterMap ·) (funext fun dev ↦ ?_)
    cases hbrowser : (dev.get "browser").truthy <;> simp [Option.guard, hbrowser]
  rw [← hlist, hfilterMap, hfilterMap]
  symm
  refine filterMap_eq_of_forall₂ h.developers_match ?_
  rintro dev rdev ⟨_, hdev⟩
  rw [hdev.fields "browser" (by decide), hdev.fields "user" (by decide)]

/-- What the validator leaves of the ports a browser section states. -/
structure BrowserPorts (browser : Val) : Prop where
  mcp : browser.get "mcp_port" = .undef ∨ isPort (browser.get "mcp_port") = true
  failover : ∀ k ∈ ["cdp_port", "fallback_chrome_port", "client_tunnel_port"],
    (browser.get "failover").get k = .undef ∨ isPort ((browser.get "failover").get k) = true

theorem browserPorts (h : (validateBrowser doc).Passes) : BrowserPorts (doc.get "browser") := by
  rcases Check.section_cases h with habsent | hk
  · refine ⟨.inl (habsent _), ?_⟩
    intro k _
    rw [habsent "failover"]
    exact .inl rfl
  · simp only [Check.passes_append, passes_optional, and_assoc] at hk
    obtain ⟨_, hmcp, _, hfailover⟩ := hk
    refine ⟨hmcp, ?_⟩
    intro k hmem
    rcases Check.section_cases hfailover with habsent | hk
    · exact .inl (habsent k)
    · simp only [Check.passes_append, Check.passes_each, passes_optional] at hk
      exact hk.2 k hmem

theorem orElse_port {v : Val} (h : v = .undef ∨ isPort v = true) (d : Number) :
    v.orElse (.num d) = .num (numberOr v d) := by
  rcases h with rfl | h
  · rfl
  · obtain ⟨n, rfl, _⟩ := isPort_iff.mp h
    rfl

/-- The servers of the generated file are the ones the range check counted. -/
theorem servers_checked (h : Accepted env doc resolved devs)
    (gen : Generated client resolved vars tailscale hostVars rcUnits developers vdevs) {port : Val}
    (hport : port ∈ boundPorts vars .mcp) :
    truth (((doc.get "browser").get "enabled").orElse true) = true ∧
      ∃ server ∈ assignMcpPorts (browserUsers devs) (mcpBasePort doc), port = .num server.port := by
  have hbrowser := h.fields "browser" (by decide)
  simp only [boundPorts, gen.browser] at hport
  split at hport
  · rename_i hon
    have henabled : (normalizeBrowser resolved developers).get "enabled" =
        ((doc.get "browser").get "enabled").orElse true := by
      rw [← hbrowser]
      rfl
    refine ⟨henabled ▸ hon, ?_⟩
    have hservers : (normalizeBrowser resolved developers).get "servers" =
        .arr ((assignMcpPorts (browserUsers developers) (mcpBasePort resolved)).map mcpServerRow) :=
      rfl
    rw [hservers, browserUsers_match h gen] at hport
    simp only [mcpBasePort, hbrowser] at hport
    obtain ⟨row, hrow, rfl⟩ := List.mem_map.mp hport
    obtain ⟨server, hserver, rfl⟩ := List.mem_map.mp hrow
    exact ⟨server, hserver, rfl⟩
  · cases hport

theorem mcp_nodup (h : Accepted env doc resolved devs)
    (gen : Generated client resolved vars tailscale hostVars rcUnits developers vdevs) :
    (boundPorts vars .mcp).Nodup := by
  have hbrowser := h.fields "browser" (by decide)
  have hbase : ∃ base : ℤ, mcpBasePort resolved = .ofInt base := by
    rw [mcpBasePort, hbrowser]
    rcases (browserPorts h.structured.browser).mcp with hundef | hport
    · rw [hundef]
      exact ⟨9522, rfl⟩
    · obtain ⟨n, hn, _⟩ := isPort_iff.mp hport
      rw [hn]
      exact ⟨n, rfl⟩
  obtain ⟨base, hbase⟩ := hbase
  have hservers : (normalizeBrowser resolved developers).get "servers" =
      .arr ((assignMcpPorts (browserUsers developers) (mcpBasePort resolved)).map mcpServerRow) :=
    rfl
  simp only [boundPorts, gen.browser]
  split
  · rw [hservers, hbase]
    simpa [listOf, assignMcpPorts, Function.comp_def, mcpServerRow, Val.get, Fields.lookup] using
      nodup_countUp (browserUsers developers) base
  · exact List.nodup_nil

theorem mcp_apart (h : Accepted env doc resolved devs)
    (gen : Generated client resolved vars tailscale hostVars rcUnits developers vdevs)
    {k : String} {d : Number} (hk : k ∈ ["cdp_port", "fallback_chrome_port", "client_tunnel_port"])
    (hclaim : ∀ failover, ∃ path, (numberOr (failover.get k) d, path) ∈ browserClaims failover)
    (hdefault : ∀ failover, (normalizeFailover failover).get k = (failover.get k).orElse (.num d)) :
    (boundPorts vars .mcp).Disjoint (failoverPort vars k) := by
  have hbrowser := h.fields "browser" (by decide)
  intro port hmcp hfailover
  obtain ⟨hon, server, hserver, rfl⟩ := servers_checked h gen hmcp
  simp only [failoverPort, gen.browser] at hfailover
  split at hfailover
  · have hport : (normalizeBrowser resolved developers).get "failover" =
        normalizeFailover ((doc.get "browser").get "failover") := by
      rw [← hbrowser]
      rfl
    rw [hport, hdefault, orElse_port ((browserPorts h.structured.browser).failover k hk),
      List.mem_singleton] at hfailover
    obtain ⟨path, hpath⟩ := hclaim ((doc.get "browser").get "failover")
    rcases mcpPortIssues_apart h.referenced.mcp with hoff | hapart
    · cases henabled : (doc.get "browser").get "enabled" with
      | bool b =>
          rw [henabled] at hon hoff
          cases b
          · cases hon
          · cases hoff
      | _ =>
          rw [henabled] at hoff
          cases hoff
    · exact hapart server hserver _ hpath (Val.num.inj hfailover)
  · cases hfailover

theorem orcaUnitRow_port (hostGate dev : Val) :
    (orcaUnitRow hostGate dev).map (fun unit ↦ unit.get "port") = orcaPort dev := by
  cases hon : ((dev.get "orca").get "enabled").isBoolLit true with
  | false => simp [orcaUnitRow, orcaPort, hon]
  | true =>
      simp only [orcaUnitRow, orcaPort, hon, Bool.not_true, Bool.false_eq_true, if_false, if_true]
      rfl

theorem orcaPorts_match (h : Accepted env doc resolved devs)
    (gen : Generated client resolved vars tailscale hostVars rcUnits developers vdevs) :
    boundPorts vars .orca = devs.filterMap orcaPort := by
  have hlist : developersOf resolved = developers := listOf_of_elems gen.developers_eq
  have hmatch := h.developers_match.imp fun _ _ hd ↦ hd.2
  rw [hlist] at hmatch
  have hrows : boundPorts vars .orca = developers.filterMap orcaPort := by
    simp only [boundPorts, gen.orcaUnits, normalizeOrcaUnits, listOf]
    rw [List.map_filterMap]
    exact congrArg (developers.filterMap ·) (funext (orcaUnitRow_port _))
  rw [hrows]
  symm
  refine filterMap_eq_of_forall₂ hmatch ?_
  intro dev rdev hdev
  rw [orcaPort, orcaPort, hdev.fields "orca" (by decide)]

theorem orcaPort_isPort {base : String} {dev port : Val}
    (h : (validateOrca (dev.get "orca") base).Passes) (hport : orcaPort dev = some port) :
    isPort port = true := by
  unfold orcaPort at hport
  split at hport
  · rename_i hon
    obtain rfl := Option.some.inj hport
    rcases Check.section_cases h with habsent | hk
    · rw [habsent "enabled"] at hon
      cases hon
    · simp only [Check.passes_append, passes_optional, and_assoc] at hk
      obtain ⟨_, _, _, _, hvalid, _⟩ := hk
      rw [orElse_port hvalid]
      rcases hvalid with hundef | hvalid
      · rw [hundef]
        exact isPort_iff.mpr ⟨6768, rfl, by omega, by omega⟩
      · obtain ⟨n, hn, hrange⟩ := isPort_iff.mp hvalid
        rw [hn]
        exact isPort_iff.mpr ⟨n, rfl, hrange⟩
  · cases hport

theorem orca_nodup (h : Accepted env doc resolved devs)
    (gen : Generated client resolved vars tailscale hostVars rcUnits developers vdevs) :
    (boundPorts vars .orca).Nodup := by
  rw [orcaPorts_match h gen]
  refine (orcaFleet_nodup ?_ h.developers.orca).1
  intro dev hdev port hport
  obtain ⟨base, hpasses⟩ := h.developers.each dev hdev
  exact orcaPort_isPort hpasses.orca hport

theorem memory_ports (gen : Generated client resolved vars tailscale hostVars rcUnits developers
    vdevs) : ∃ rows : List (Val × String), boundPorts vars .memory =
      rows.zipIdx.map fun p ↦ .num ((Number.ofInt 9077).add (.ofInt p.2)) := by
  refine ⟨(listOf (vars.get "devbox_developers")).flatMap instancesOf, ?_⟩
  simp only [boundPorts, memoryInstances, gen.basePort, List.map_map]
  rfl

/-- The memory ports start above everything the box reserves. -/
theorem memory_checked (gen : Generated client resolved vars tailscale hostVars rcUnits developers
    vdevs) : (boundPorts vars .memory).Nodup ∧
      (boundPorts vars .memory).Disjoint (boundPorts vars .reserved) := by
  obtain ⟨rows, hrows⟩ := memory_ports gen
  rw [hrows]
  refine ⟨nodup_countUp rows 9077, ?_⟩
  intro port hport hreserved
  obtain ⟨p, _, rfl⟩ := List.mem_map.mp hport
  obtain ⟨n, hn, heq⟩ := List.mem_map.mp hreserved
  have hsum := Val.num.inj heq
  rw [Number.add_ofInt] at hsum
  simp only [RESERVED_PORTS, List.mem_cons, List.not_mem_nil, or_false] at hn
  rcases hn with rfl | rfl | rfl
  all_goals
    have hint := Number.ofInt_inj.mp hsum
    omega

theorem failoverPort_nodup (vars : Val) (k : String) : (failoverPort vars k).Nodup := by
  unfold failoverPort
  simp only
  split
  · exact List.nodup_singleton _
  · exact List.nodup_nil

theorem nodup_reserved : (RESERVED_PORTS.map Val.num).Nodup := by
  refine List.Nodup.map (fun _ _ ↦ Val.num.inj) ?_
  decide +kernel

end Accepted

/-- Every accepted configuration keeps the parties' own ports apart, a
project's from the reserved ones, the MCP servers' from the browser stack's,
and the memory instances' from the reserved ones. -/
theorem ports_checked {env : ClientEnv} {client : ClientFacts} {doc : Doc} {resolved vars : Val}
    (h : Accepts env doc resolved) (hvars : normalize client resolved = .ok vars) :
    PortsChecked vars := by
  obtain ⟨devs, haccepted⟩ := accepted h
  obtain ⟨_, _, _, _, _, gen⟩ := generated_of_normalize hvars
  obtain ⟨hproject, hprojectReserved⟩ := project_checked haccepted gen
  obtain ⟨hmemory, hmemoryReserved⟩ := memory_checked gen
  refine ⟨?_, ?_⟩
  · intro party
    cases party with
    | project => exact hproject
    | mcp => exact mcp_nodup haccepted gen
    | cdp => exact failoverPort_nodup vars _
    | fallbackChrome => exact failoverPort_nodup vars _
    | clientTunnel => exact failoverPort_nodup vars _
    | orca => exact orca_nodup haccepted gen
    | monitoring =>
        simp only [boundPorts]
        split
        · exact List.nodup_singleton _
        · exact List.nodup_nil
    | memory => exact hmemory
    | reserved => exact nodup_reserved
  · intro a b hapart
    unfold keptApart at hapart
    split at hapart
    · exact hprojectReserved
    · exact mcp_apart haccepted gen (by simp) (fun _ ↦ ⟨_, .head _⟩) fun _ ↦ rfl
    · exact mcp_apart haccepted gen (by simp) (fun _ ↦ ⟨_, .tail _ (.tail _ (.head _))⟩)
        fun _ ↦ rfl
    · exact mcp_apart haccepted gen (by simp) (fun _ ↦ ⟨_, .tail _ (.head _)⟩) fun _ ↦ rfl
    · exact hmemoryReserved
    · cases hapart

/-! ## The parties nothing keeps apart -/

/-- A configuration in which the failover ports, the monitoring port and one
developer's Orca port are all `port`, with what else the developer declares. -/
def crowd (port : ℤ) (browser developer : Fields) : Val :=
  specWith
    [("host", .obj [("monitoring", .obj [("enabled", true), ("port", .num (.ofInt port))])]),
     ("browser", .obj browser)]
    ([("orca", .obj [("enabled", true), ("version", "1.4.197"), ("port", .num (.ofInt port)),
        ("resources", .obj [("memory_max", "4G")])]),
      ("memory", .obj [("enabled", true),
        ("instances", .obj [("main", .obj [("engine", "hindsight"), ("llm_provider", "openai")])])]),
      ("projects", .arr [.obj [("name", "app"), ("repo", "git@host:app.git"),
        ("ports", .arr [9077])]])] ++ developer)

def failoverAt (port : ℤ) : Fields :=
  [("failover", .obj [("enabled", true), ("chrome_user", "ada"),
    ("cdp_port", .num (.ofInt port)), ("fallback_chrome_port", .num (.ofInt port)),
    ("client_tunnel_port", .num (.ofInt port))])]

/-- Everything but the MCP servers on the first memory port. -/
def crowdedSpec : Doc := ⟨crowd 9077 (failoverAt 9077) [], by decide +kernel⟩

/-- The MCP servers there instead of the browser stack. -/
def crowdedMcp : Doc :=
  ⟨crowd 9077 [("mcp_port", 9077)] [("browser", true)], by decide +kernel⟩

/-- The same parties on the ports of the box. -/
def crowdedReserved : Doc :=
  ⟨crowd 22 (failoverAt 22 ++ [("mcp_port", 3389)]) [("browser", true)], by decide +kernel⟩

/-- Two parties of the generated file share a port. -/
def sharePort (vars : Val) (a b : Party) : Bool :=
  (boundPorts vars a).any fun port ↦ (boundPorts vars b).any port.strictEq

theorem not_disjoint_of_sharePort {vars : Val} {a b : Party} (h : sharePort vars a b = true) :
    ¬ (boundPorts vars a).Disjoint (boundPorts vars b) := by
  obtain ⟨port, hport, hany⟩ := List.any_eq_true.mp h
  obtain ⟨other, hother, heq⟩ := List.any_eq_true.mp hany
  have hsame : port = other := by
    cases port <;> cases other <;> simp_all [Val.strictEq]
  exact fun hdisjoint ↦ hdisjoint hport (hsame ▸ hother)

/-- In the generated file of `doc`, every one of `as` collides with every one
of `bs`. -/
def AllCollide (doc : Doc) (as bs : List Party) : Prop :=
  ∃ resolved vars, Accepts homeEnv doc resolved ∧ normalize noClient resolved = .ok vars ∧
    ∀ a ∈ as, ∀ b ∈ bs, ¬ (boundPorts vars a).Disjoint (boundPorts vars b)

theorem allCollide_of_sharePort {doc : Doc} {as bs : List Party}
    (h : ((varsOf homeEnv noClient doc.val).map fun vars ↦
      as.all fun a ↦ bs.all (sharePort vars a)) = some true) : AllCollide doc as bs := by
  obtain ⟨vars, hvars, hall⟩ := Option.map_eq_some_iff.mp h
  obtain ⟨resolved, hresolved, hnormalize⟩ := vars_eq_some hvars
  refine ⟨resolved, vars, hresolved, hnormalize, ?_⟩
  intro a ha b hb
  exact not_disjoint_of_sharePort (List.all_eq_true.mp (List.all_eq_true.mp hall a ha) b hb)

def crowdedParties : List Party :=
  [.project, .cdp, .fallbackChrome, .clientTunnel, .orca, .monitoring, .memory]

theorem crowdedSpec_collides : AllCollide crowdedSpec crowdedParties crowdedParties :=
  allCollide_of_sharePort (by decide +kernel)

theorem crowdedMcp_collides :
    AllCollide crowdedMcp [.mcp] [.project, .orca, .monitoring, .memory] :=
  allCollide_of_sharePort (by decide +kernel)

theorem crowdedReserved_collides :
    AllCollide crowdedReserved [.reserved]
      [.mcp, .cdp, .fallbackChrome, .clientTunnel, .orca, .monitoring] :=
  allCollide_of_sharePort (by decide +kernel)

/-- Whatever two parties are not kept apart, some accepted configuration gives
them one port. -/
theorem unchecked_collide {a b : Party} (hne : a ≠ b) (hab : keptApart a b = false)
    (hba : keptApart b a = false) :
    ∃ doc resolved vars, Accepts homeEnv doc resolved ∧ normalize noClient resolved = .ok vars ∧
      ¬ (boundPorts vars a).Disjoint (boundPorts vars b) := by
  have hcollide : ∀ {doc as bs}, AllCollide doc as bs → ∀ x ∈ as, ∀ y ∈ bs,
      ∃ doc resolved vars, Accepts homeEnv doc resolved ∧
        normalize noClient resolved = .ok vars ∧
        ¬ (boundPorts vars x).Disjoint (boundPorts vars y) ∧
        ¬ (boundPorts vars y).Disjoint (boundPorts vars x) := by
    rintro doc as bs ⟨resolved, vars, haccepts, hvars, hall⟩ x hx y hy
    exact ⟨doc, resolved, vars, haccepts, hvars, hall x hx y hy,
      fun hdisjoint ↦ hall x hx y hy hdisjoint.symm⟩
  have hcover : (a ∈ crowdedParties ∧ b ∈ crowdedParties) ∨
      (a ∈ [Party.mcp] ∧ b ∈ [Party.project, .orca, .monitoring, .memory]) ∨
      (b ∈ [Party.mcp] ∧ a ∈ [Party.project, .orca, .monitoring, .memory]) ∨
      (a ∈ [Party.reserved] ∧
        b ∈ [Party.mcp, .cdp, .fallbackChrome, .clientTunnel, .orca, .monitoring]) ∨
      (b ∈ [Party.reserved] ∧
        a ∈ [Party.mcp, .cdp, .fallbackChrome, .clientTunnel, .orca, .monitoring]) := by
    revert hne hab hba
    cases a <;> cases b <;> decide
  rcases hcover with ⟨ha, hb⟩ | ⟨ha, hb⟩ | ⟨hb, ha⟩ | ⟨ha, hb⟩ | ⟨hb, ha⟩
  · obtain ⟨doc, resolved, vars, haccepts, hvars, h, _⟩ := hcollide crowdedSpec_collides a ha b hb
    exact ⟨doc, resolved, vars, haccepts, hvars, h⟩
  · obtain ⟨doc, resolved, vars, haccepts, hvars, h, _⟩ := hcollide crowdedMcp_collides a ha b hb
    exact ⟨doc, resolved, vars, haccepts, hvars, h⟩
  · obtain ⟨doc, resolved, vars, haccepts, hvars, _, h⟩ := hcollide crowdedMcp_collides b hb a ha
    exact ⟨doc, resolved, vars, haccepts, hvars, h⟩
  · obtain ⟨doc, resolved, vars, haccepts, hvars, h, _⟩ :=
      hcollide crowdedReserved_collides a ha b hb
    exact ⟨doc, resolved, vars, haccepts, hvars, h⟩
  · obtain ⟨doc, resolved, vars, haccepts, hvars, _, h⟩ :=
      hcollide crowdedReserved_collides b hb a ha
    exact ⟨doc, resolved, vars, haccepts, hvars, h⟩

/-- A project and an Orca runtime on one port, among others. -/
theorem crowded_not_distinct :
    ∃ resolved vars, Accepts homeEnv crowdedSpec resolved ∧
      normalize noClient resolved = .ok vars ∧ ¬ PortsDistinct vars := by
  obtain ⟨resolved, vars, haccepts, hvars, hall⟩ := crowdedSpec_collides
  refine ⟨resolved, vars, haccepts, hvars, ?_⟩
  intro hdistinct
  exact hall .project (by decide) .orca (by decide) (hdistinct.apart _ _ (by decide))

theorem crowded_ports_checked :
    ∃ resolved vars, Accepts homeEnv crowdedMcp resolved ∧
      normalize noClient resolved = .ok vars ∧ PortsChecked vars := by
  obtain ⟨resolved, vars, haccepts, hvars⟩ := exists_vars homeEnv noClient crowdedMcp
    (by decide +kernel)
  exact ⟨resolved, vars, haccepts, hvars, ports_checked haccepts hvars⟩

end RemoteDevbox.Ansible
