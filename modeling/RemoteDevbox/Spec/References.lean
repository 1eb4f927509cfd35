import RemoteDevbox.Spec.Issues
import RemoteDevbox.Spec.Ports

namespace RemoteDevbox.Spec

open Js

/-!
# Cross-section validation

Every name a project or a default points at exists, nothing is declared
twice, and no two projects claim the same port.
-/

/-- Ports the box itself owns: sshd, Eternal Terminal, xRDP. -/
def RESERVED_PORTS : List Number := [.ofInt 22, .ofInt 2022, .ofInt 3389]

/-- `Object.keys(v ?? \x7b\x7d)`. -/
def keysOf (v : Val) : List String := (v.orElse (.obj [])).ownFields.keys

/-- `names.includes(v)` for a list of strings. -/
def listsName (names : List String) (v : Val) : Bool :=
  match v with
  | .str s => names.contains s
  | _ => false

/-- `xs.includes(v)`. -/
def includes (xs v : Val) : Js Bool :=
  match xs, v with
  | .arr ys, v => .ok (ys.any fun y ↦ y.strictEq v)
  | .str s, .str t => .ok (decide (t.toList <:+: s.toList))
  | _, _ => .error .typeError

/-- `none` is a literal, not a lookup. -/
def isSpaceRef (value : Val) (spaces : List String) : Bool :=
  value.isStrLit "none" || listsName spaces value

def installEngines (spec : Val) : Val := (spec.get "container").get "install_engines"

def isEngineInstalled (spec engine : Val) : Js Bool :=
  if engine.isStrLit "none" then .ok true else includes (installEngines spec) engine

def unknownRef (path : String) (value : Val) (what : String) (available : List String) : Check :=
  .failWith path do
    let shown ← value.toStr
    return s!"unknown {what} '{shown}'" ++
      if available.isEmpty then " (none declared)" else s!" (declared: {listed available})"

def uninstalledEngine (path : String) (engine spec : Val) : Check :=
  .failWith path do
    let shown ← engine.toStr
    let engines ← (installEngines spec).elems
    let installed ← Val.join ", " engines
    return s!"container engine '{shown}' is not in container.install_engines ({installed})"

/-- A reference that is stated must satisfy `known`. -/
def knownRef (value : Val) (known : Bool) (path what : String) (available : List String) : Check :=
  .when (value.truthy && !known) (unknownRef path value what available)

def engineRef (spec engine : Val) (path : String) : Check :=
  .when engine.truthy (.eval (isEngineInstalled spec engine) fun installed ↦
    .when (!installed) (uninstalledEngine path engine spec))

/-! ## Projects -/

structure PortClaim where
  port : Val
  path : String
  label : String

/-- The names a developer declares. -/
structure Declared where
  identities : List String
  profiles : List String
  instances : List String
  spaces : List String

def declared (dev : Val) : Declared where
  identities := keysOf (dev.get "git_identities")
  profiles := keysOf (dev.get "agent_profiles")
  instances := keysOf ((dev.get "memory").get "instances")
  spaces := keysOf ((dev.get "memory").get "spaces")

/-- A member of a list that must differ from those before it. -/
def isRepeat (seen : List Val) (v : Val) : Bool := seen.any fun w ↦ w.strictEq v

def validateProjectRefs (spec dev project : Val) (path : String) : Check :=
  let d := declared dev
  let git := project.get "git_identity"
  let agent := project.get "agent_profile"
  let space := project.get "memory_space"
  knownRef git (listsName d.identities git) s!"{path}.git_identity" "git identity" d.identities ++
  knownRef agent (listsName d.profiles agent) s!"{path}.agent_profile" "agent profile" d.profiles ++
  knownRef space (isSpaceRef space d.spaces) s!"{path}.memory_space" "memory space" d.spaces ++
  engineRef spec (project.get "container_engine") s!"{path}.container_engine"

/-- The projects from index `j` on, given the names already seen. -/
def validateProjectsRefs (spec dev : Val) (base : String) (seen : List Val) (j : ℕ) :
    List Val → Check
  | [] => .pass
  | project :: rest =>
      let path := s!"{base}.projects[{j}]"
      .eval (project.read "name") fun name ↦
        (if isRepeat seen name then .failWith s!"{path}.name" do
            let shown ← name.toStr
            let user ← (dev.get "user").toStr
            return s!"duplicate project '{shown}' for developer '{user}'"
          else .pass) ++
        validateProjectRefs spec dev project path ++
        validateProjectsRefs spec dev base (name :: seen) (j + 1) rest

def claimsOfProject (dev project : Val) (path : String) : Js (List PortClaim) := do
  let ports ← ((project.get "ports").orElse (.arr [])).spread
  ports.mapM fun port ↦ do
    let user ← (dev.get "user").toStr
    let name ← (project.get "name").toStr
    return ⟨port, s!"{path}.ports", s!"{user}/{name}"⟩

def claimsOfProjects (dev : Val) (base : String) (j : ℕ) : List Val → Js (List PortClaim)
  | [] => .ok []
  | project :: rest => do
      let here ← claimsOfProject dev project s!"{base}.projects[{j}]"
      let more ← claimsOfProjects dev base (j + 1) rest
      return here ++ more

/-- Every port a project claims, in declaration order. -/
def portClaims (i : ℕ) : List Val → Js (List PortClaim)
  | [] => .ok []
  | dev :: rest => do
      let projects ← ((dev.get "projects").orElse (.arr [])).elems
      let here ← claimsOfProjects dev s!"developers[{i}]" 0 projects
      let more ← portClaims (i + 1) rest
      return here ++ more

/-- The claims of `port` other than the one at position `i`. -/
def othersAt (claims : List PortClaim) (i : ℕ) (port : Val) : List PortClaim :=
  (claims.zipIdx.filter fun p ↦ p.2 != i && p.1.port.strictEq port).map Prod.fst

def isReserved (port : Val) : Bool := RESERVED_PORTS.any port.isNumLit

def portIssues (claims : List PortClaim) : Check :=
  .eachIdx claims fun i claim ↦
    if isReserved claim.port then .failWith claim.path do
      let shown ← claim.port.toStr
      return s!"port {shown} is reserved by the box (sshd / Eternal Terminal / xRDP)"
    else
      let others := othersAt claims i claim.port
      .when (!others.isEmpty) (.failWith claim.path do
        let shown ← claim.port.toStr
        return s!"port {shown} is also claimed by {listed (others.map PortClaim.label)}")

/-! ## The MCP range -/

/-- The ports the browser stack owns, with where they are stated. -/
def browserClaims (failover : Val) : List (Number × String) :=
  [(numberOr (failover.get "cdp_port") DEFAULT_CDP_PORT, "browser.failover.cdp_port"),
   (numberOr (failover.get "client_tunnel_port") DEFAULT_CLIENT_TUNNEL_PORT,
     "browser.failover.client_tunnel_port"),
   (numberOr (failover.get "fallback_chrome_port") DEFAULT_FALLBACK_CHROME_PORT,
     "browser.failover.fallback_chrome_port")]

def mcpPortIssues (spec : Val) (developers : List Val) : Check :=
  let browser := spec.get "browser"
  if (browser.get "enabled").isBoolLit false then .pass
  else
    let servers := assignMcpPorts (browserUsers developers) (mcpBasePort spec)
    match servers.getLast? with
    | none => .pass
    | some last =>
        let plural := if servers.length = 1 then "" else "s"
        let verb := if servers.length = 1 then "s" else ""
        let need := s!"{servers.length} browser-enabled developer{plural} need{verb} one MCP server each, on ports {(mcpBasePort spec).toStr}..{last.port.toStr}"
        if MAX_PORT.lt last.port then
          .fail "browser.mcp_port"
            s!"{need}, which runs past the last valid port ({MAX_PORT.toStr}) — lower browser.mcp_port"
        else
          .each (browserClaims (browser.get "failover")) fun claim ↦
            match servers.find? fun server ↦ server.port == claim.1 with
            | some hit => .failWith "browser.mcp_port" do
                let user ← hit.user.toStr
                return s!"{need}, but {user}'s {hit.port.toStr} is already {claim.2} — move browser.mcp_port"
            | none => .pass

/-! ## Developers -/

def validateMemoryRefs (dev : Val) (base : String) : Check :=
  let d := declared dev
  let memory := dev.get "memory"
  .eval ((memory.get "spaces").orElse (.obj [])).entries (fun spaces ↦
    .each spaces fun p ↦ .eval (p.2.read "instance") fun target ↦
      .when (!listsName d.instances target)
        (unknownRef s!"{base}.memory.spaces.{p.1}.instance" target "memory instance" d.instances)) ++
  .when (memory.truthy && (memory.get "enabled").isBoolLit false && !d.spaces.isEmpty)
    (.alert s!"{base}.memory"
      s!"memory is disabled but {d.spaces.length} space(s) are declared — they will be ignored") ++
  .eval ((dev.get "agent_profiles").orElse (.obj [])).entries fun profiles ↦
    .each profiles fun p ↦ .eval (p.2.read "memory_space") fun space ↦
      knownRef space (isSpaceRef space d.spaces)
        s!"{base}.agent_profiles.{p.1}.memory_space" "memory space" d.spaces

def validateDesktopRefs (spec dev : Val) (base : String) : Check :=
  let desktop := dev.get "desktop"
  let access := (desktop.get "access").orElse (.arr [])
  .when (desktop.get "enabled").truthy (
    .eval (includes access "tailnet") (fun tailnet ↦
      .when (tailnet && !(((spec.get "network").get "tailscale").get "enabled").truthy)
        (.fail s!"{base}.desktop.access"
          "'tailnet' needs network.tailscale.enabled: true — there is no private network to listen on")) ++
    .eval (includes access "unsafe-public") fun unsafePublic ↦
      .when unsafePublic (.alert s!"{base}.desktop.access"
        "the desktop will be reachable from the internet, and RDP authenticates with a password — every other door on this box is key-only"))

def validateDeveloperRefs (spec dev : Val) (base : String) : Check :=
  let d := declared dev
  let git := dev.get "default_git_identity"
  let agent := dev.get "default_agent_profile"
  let space := (dev.get "memory").get "default_space"
  .when ((dev.get "user").strictEq ((spec.get "operator").get "user"))
    (.alert s!"{base}.user"
      "this developer IS the operator account; operator privileges stay, so developer hardening cannot fully apply") ++
  knownRef git (listsName d.identities git) s!"{base}.default_git_identity" "git identity"
    d.identities ++
  knownRef agent (listsName d.profiles agent) s!"{base}.default_agent_profile" "agent profile"
    d.profiles ++
  knownRef space (isSpaceRef space d.spaces) s!"{base}.memory.default_space" "memory space"
    d.spaces ++
  validateMemoryRefs dev base ++
  validateDesktopRefs spec dev base ++
  engineRef spec (dev.get "container_engine") s!"{base}.container_engine" ++
  .eval ((dev.get "projects").orElse (.arr [])).elems fun projects ↦
    validateProjectsRefs spec dev base [] 0 projects

/-- The developers from index `i` on, given the accounts already seen. -/
def validateDevelopersRefs (spec : Val) (seen : List Val) (i : ℕ) : List Val → Check
  | [] => .pass
  | dev :: rest =>
      let base := s!"developers[{i}]"
      .eval (dev.read "user") fun user ↦
        (if isRepeat seen user then .failWith s!"{base}.user" do
            let shown ← user.toStr
            let first := seen.reverse.findIdx fun w ↦ w.strictEq user
            return s!"duplicate developer '{shown}' (already declared at developers[{first}])"
          else .pass) ++
        validateDeveloperRefs spec dev base ++
        validateDevelopersRefs spec (user :: seen) (i + 1) rest

def validateLimitRefs (spec : Val) (users : List Val) : Check :=
  .eval (((spec.get "container").get "runtime_limits").orElse (.arr [])).elems fun limits ↦
    .eachIdx limits fun i limit ↦ .eval (limit.read "user") fun user ↦
      .when (!isRepeat users user) (.failWith s!"container.runtime_limits[{i}].user" do
        let shown ← user.toStr
        return s!"no developer named '{shown}' — rootless container limits need an owning account") ++
      .eval (includes (installEngines spec) (limit.get "engine")) fun installed ↦
        .when (!installed)
          (uninstalledEngine s!"container.runtime_limits[{i}].engine" (limit.get "engine") spec)

def validateChromeUser (spec : Val) (users : List Val) : Check :=
  let chromeUser := ((spec.get "browser").get "failover").get "chrome_user"
  .when (chromeUser.truthy && !isRepeat users chromeUser)
    (.failWith "browser.failover.chrome_user" do
      let shown ← chromeUser.toStr
      return s!"no developer named '{shown}' — the fallback Chrome needs an account to run as")

/-- The source's one function; the spec has passed `validateStructure`, so the
sections it reads are mappings. -/
def validateReferences (spec : Val) : Check :=
  .eval (spec.get "developers").elems fun developers ↦
    let users := developers.map fun dev ↦ dev.get "user"
    validateDevelopersRefs spec [] 0 developers ++
    validateLimitRefs spec users ++
    .eval (portClaims 0 developers) portIssues ++
    validateChromeUser spec users ++
    mcpPortIssues spec developers

/-! ## What a passing check says of each developer and project -/

theorem passes_knownRef {value : Val} {known : Bool} {path what : String}
    {available : List String} :
    (knownRef value known path what available).Passes ↔ (value.truthy = true → known = true) := by
  simp [knownRef, unknownRef]

theorem passes_engineRef {spec engine : Val} {path : String} :
    (engineRef spec engine path).Passes ↔
      (engine.truthy = true → isEngineInstalled spec engine = .ok true) := by
  unfold engineRef uninstalledEngine
  rw [Check.passes_when]
  refine imp_congr_right fun _ ↦ ?_
  rw [Check.passes_eval]
  constructor
  · rintro ⟨installed, hok, hpass⟩
    rw [hok]
    cases installed <;> simp_all
  · intro h
    exact ⟨true, h, by simp⟩

/-- The values of a list that are not strictly equal to an earlier one. -/
def Fresh (seen : List Val) : List Val → Prop
  | [] => True
  | v :: vs => isRepeat seen v = false ∧ Fresh (v :: seen) vs

/-- Names that are all strings are fresh only when they are distinct. -/
theorem nodup_of_fresh {seen vs : List Val} (hstr : ∀ v ∈ vs, ∃ s, v = .str s)
    (h : Fresh seen vs) : vs.Nodup ∧ ∀ v ∈ vs, v ∉ seen := by
  induction vs generalizing seen with
  | nil => simp
  | cons v vs ih =>
      obtain ⟨hfresh, hrest⟩ := h
      obtain ⟨hnodup, hother⟩ := ih (fun w hw ↦ hstr w (List.mem_cons_of_mem _ hw)) hrest
      obtain ⟨s, rfl⟩ := hstr v List.mem_cons_self
      refine ⟨List.nodup_cons.mpr ⟨fun hmem ↦ hother _ hmem List.mem_cons_self, hnodup⟩, ?_⟩
      intro w hw
      rcases List.mem_cons.mp hw with rfl | hw
      · intro hmem
        have hrepeat : isRepeat seen (.str s) = true :=
          List.any_eq_true.mpr ⟨_, hmem, by simp [Val.strictEq]⟩
        rw [hfresh] at hrepeat
        cases hrepeat
      · exact fun hmem ↦ hother w hw (List.mem_cons_of_mem _ hmem)

/-- The references of one project are known ones. -/
structure ProjectRefs (spec dev project : Val) : Prop where
  git : (project.get "git_identity").truthy = true →
    listsName (keysOf (dev.get "git_identities")) (project.get "git_identity") = true
  agent : (project.get "agent_profile").truthy = true →
    listsName (keysOf (dev.get "agent_profiles")) (project.get "agent_profile") = true
  space : (project.get "memory_space").truthy = true →
    isSpaceRef (project.get "memory_space") (keysOf ((dev.get "memory").get "spaces")) = true
  engine : (project.get "container_engine").truthy = true →
    isEngineInstalled spec (project.get "container_engine") = .ok true

theorem projectRefs_of_passes {spec dev project : Val} {path : String}
    (h : (validateProjectRefs spec dev project path).Passes) : ProjectRefs spec dev project := by
  simp only [validateProjectRefs, declared, Check.passes_append, passes_knownRef,
    passes_engineRef, and_assoc] at h
  obtain ⟨hgit, hagent, hspace, hengine⟩ := h
  exact ⟨hgit, hagent, hspace, hengine⟩

theorem projectsRefs_of_passes {spec dev : Val} {base : String} {projects seen : List Val} {j : ℕ}
    (h : (validateProjectsRefs spec dev base seen j projects).Passes) :
    (∀ project ∈ projects, ProjectRefs spec dev project) ∧
      Fresh seen (projects.map fun p ↦ p.get "name") := by
  induction projects generalizing seen j with
  | nil => simp [Fresh]
  | cons project rest ih =>
      simp only [validateProjectsRefs, Check.passes_eval, Check.passes_append] at h
      obtain ⟨name, hname, ⟨hfresh, hrefs⟩, hrest⟩ := h
      obtain ⟨hall, hnames⟩ := ih hrest
      have hget : project.get "name" = name := by
        unfold Val.read at hname
        split at hname
        · cases hname
        · exact Except.ok.inj hname
      refine ⟨?_, ?_⟩
      · intro q hq
        rcases List.mem_cons.mp hq with rfl | hq
        · exact projectRefs_of_passes hrefs
        · exact hall q hq
      · rw [List.map_cons, hget]
        refine ⟨?_, hnames⟩
        cases hrepeat : isRepeat seen name with
        | false => rfl
        | true => simp [hrepeat] at hfresh

/-- The references a developer states are known ones. -/
structure DeveloperRefs (spec dev : Val) : Prop where
  git : (dev.get "default_git_identity").truthy = true →
    listsName (keysOf (dev.get "git_identities")) (dev.get "default_git_identity") = true
  agent : (dev.get "default_agent_profile").truthy = true →
    listsName (keysOf (dev.get "agent_profiles")) (dev.get "default_agent_profile") = true
  space : ((dev.get "memory").get "default_space").truthy = true →
    isSpaceRef ((dev.get "memory").get "default_space")
      (keysOf ((dev.get "memory").get "spaces")) = true
  pinned : ∀ p ∈ ((dev.get "agent_profiles").orElse (.obj [])).ownFields,
    (p.2.get "memory_space").truthy = true →
      isSpaceRef (p.2.get "memory_space") (keysOf ((dev.get "memory").get "spaces")) = true
  engine : (dev.get "container_engine").truthy = true →
    isEngineInstalled spec (dev.get "container_engine") = .ok true
  projects : ∃ projects, ((dev.get "projects").orElse (.arr [])).elems = .ok projects ∧
    (∀ project ∈ projects, ProjectRefs spec dev project) ∧
    Fresh [] (projects.map fun p ↦ p.get "name")

theorem entries_eq_ok {v : Val} {fields : Fields} (h : v.entries = .ok fields) :
    v.ownFields = fields := by
  unfold Val.entries at h
  split at h
  · cases h
  · exact Except.ok.inj h

theorem read_eq_ok {v x : Val} {k : String} (h : v.read k = .ok x) : v.get k = x := by
  unfold Val.read at h
  split at h
  · cases h
  · exact Except.ok.inj h

theorem developerRefs_of_passes {spec dev : Val} {base : String}
    (h : (validateDeveloperRefs spec dev base).Passes) : DeveloperRefs spec dev := by
  simp only [validateDeveloperRefs, validateMemoryRefs, declared, Check.passes_append,
    passes_knownRef, passes_engineRef, Check.passes_eval, and_assoc] at h
  obtain ⟨_, hgit, hagent, hspace, _, _, ⟨profiles, hprofiles, hpinned⟩, _, hengine, projects,
    hprojects, hrefs⟩ := h
  obtain ⟨hall, hfresh⟩ := projectsRefs_of_passes hrefs
  refine ⟨hgit, hagent, hspace, ?_, hengine, projects, hprojects, hall, hfresh⟩
  intro p hp
  rw [entries_eq_ok hprofiles] at hp
  have hpin := Check.passes_each.mp hpinned p hp
  rw [Check.passes_eval] at hpin
  obtain ⟨space, hread, hknown⟩ := hpin
  rw [passes_knownRef] at hknown
  rwa [read_eq_ok hread]

theorem developersRefs_of_passes {spec : Val} {devs seen : List Val} {i : ℕ}
    (h : (validateDevelopersRefs spec seen i devs).Passes) :
    (∀ dev ∈ devs, DeveloperRefs spec dev) ∧ Fresh seen (devs.map fun d ↦ d.get "user") := by
  induction devs generalizing seen i with
  | nil => simp [Fresh]
  | cons dev rest ih =>
      simp only [validateDevelopersRefs, Check.passes_eval, Check.passes_append] at h
      obtain ⟨user, huser, ⟨hfresh, hrefs⟩, hrest⟩ := h
      obtain ⟨hall, husers⟩ := ih hrest
      refine ⟨?_, ?_⟩
      · intro d hd
        rcases List.mem_cons.mp hd with rfl | hd
        · exact developerRefs_of_passes hrefs
        · exact hall d hd
      · rw [List.map_cons, read_eq_ok huser]
        refine ⟨?_, husers⟩
        cases hrepeat : isRepeat seen user with
        | false => rfl
        | true => simp [hrepeat] at hfresh

/-- Acceptance of the references, part by part. -/
structure Referenced (spec : Val) (developers : List Val) : Prop where
  developers_eq : (spec.get "developers").elems = .ok developers
  refs : ∀ dev ∈ developers, DeveloperRefs spec dev
  users : Fresh [] (developers.map fun d ↦ d.get "user")
  limits : (validateLimitRefs spec (developers.map fun d ↦ d.get "user")).Passes
  ports : ∃ claims, portClaims 0 developers = .ok claims ∧ (portIssues claims).Passes
  chromeUser : (validateChromeUser spec (developers.map fun d ↦ d.get "user")).Passes
  mcp : (mcpPortIssues spec developers).Passes

theorem referenced_of_passes {spec : Val} (h : (validateReferences spec).Passes) :
    ∃ developers, Referenced spec developers := by
  simp only [validateReferences, Check.passes_eval, Check.passes_append, and_assoc] at h
  obtain ⟨developers, heq, hdevs, hlimits, hports, hchrome, hmcp⟩ := h
  obtain ⟨hall, husers⟩ := developersRefs_of_passes hdevs
  exact ⟨developers, heq, hall, husers, hlimits, hports, hchrome, hmcp⟩

end RemoteDevbox.Spec
