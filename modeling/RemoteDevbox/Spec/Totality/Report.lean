import RemoteDevbox.Spec.Totality.Generator

namespace RemoteDevbox.Spec

open Js Client

/-!
# Where the plan report comes to an end

The report reads less than the generator and writes everything it reads as
text. A value has no text when it is, or holds, a mapping with a key
`toString`.
-/

/-- The value has a text. -/
def Shown (v : Val) : Prop := Returns v.toStr

@[simp, grind ←] theorem shown_undef : Shown .undef := ⟨_, rfl⟩

@[simp, grind ←] theorem shown_null : Shown .null := ⟨_, rfl⟩

@[simp, grind ←] theorem shown_bool (b : Bool) : Shown (.bool b) := ⟨_, rfl⟩

@[simp, grind ←] theorem shown_num (n : Number) : Shown (.num n) := ⟨_, rfl⟩

@[simp, grind ←] theorem shown_str (s : String) : Shown (.str s) := ⟨_, rfl⟩

@[grind ←] theorem shown_orElse {a b : Val} (ha : Shown a) (hb : Shown b) :
    Shown (a.orElse b) := by
  unfold Val.orElse
  split
  · exact hb
  · exact ha

theorem shown_of_orElse {a b : Val} (h : Shown (a.orElse b)) : Shown a := by
  cases a with
  | undef => exact shown_undef
  | null => exact shown_null
  | _ => exact h

theorem join_returns {xs : List Val} (h : ∀ x ∈ xs, Shown x) (sep : String) :
    Returns (Val.join sep xs) := by
  have hparts : Returns (Val.joinParts xs) := by
    induction xs with
    | nil => exact returns_ok _
    | cons x xs ih =>
        rw [List.forall_mem_cons] at h
        have hrest := ih h.2
        rw [Val.joinParts]
        split
        · exact hrest.bind fun _ _ ↦ returns_ok _
        · exact h.1.bind fun _ _ ↦ hrest.bind fun _ _ ↦ returns_ok _
  exact hparts.bind fun _ _ ↦ returns_ok _

theorem pairTexts_returns {fields : Fields} (h : ∀ p ∈ fields, Shown p.2) (pre sep : String) :
    Returns (pairTexts pre sep fields) := by
  induction fields with
  | nil => exact returns_ok _
  | cons p fields ih =>
      rw [List.forall_mem_cons] at h
      exact h.1.bind fun _ _ ↦ (ih h.2).bind fun _ _ ↦ returns_ok _

theorem suffixed_returns {v : Val} (h : Shown v) (text : String) : Returns (suffixed text v) := by
  unfold suffixed
  split
  · exact h.bind fun _ _ ↦ returns_ok _
  · exact returns_ok _

theorem entryTexts_returns {k : String} {fields : Fields}
    (h : ∀ p ∈ fields, p.2.isNullish = false ∧ Shown (p.2.get k)) (text : String → String → String) :
    Returns (entryTexts k text fields) := by
  induction fields with
  | nil => exact returns_ok _
  | cons p fields ih =>
      obtain ⟨key, v⟩ := p
      rw [List.forall_mem_cons] at h
      simp only [entryTexts, read_of_present h.1.1, ok_bind]
      exact h.1.2.bind fun _ _ ↦ (ih h.2).bind fun _ _ ↦ returns_ok _

/-- A step that is taken only under a condition. -/
theorem returns_ite {α β : Type} {c : Prop} [Decidable c] {P : α → Prop} {x : Js α} {a : α}
    {f : α → Js β} (hx : c → Ends P x) (ha : ¬ c → P a) (hf : ∀ a, P a → Returns (f a)) :
    Returns (if c then x >>= f else Except.ok a >>= f) := by
  split
  · rename_i hc
    obtain ⟨b, hb, hP⟩ := hx hc
    rw [hb]
    exact hf b hP
  · rename_i hc
    exact hf a (ha hc)

/-! ## One developer -/

/-- The gate settings that are written out. -/
structure GateText (gate : Val) : Prop where
  wait : Shown (gate.get "wait_timeout_sec")
  warn : Shown (gate.get "warn_after_sec")
  memory : Shown (gate.get "memory_max")
  slots : Shown (gate.get "slots")
  total : Shown (gate.get "total_memory_max")
  categories : ∀ p ∈ (gate.get "memory_max_by_category").ownFields, Shown p.2

theorem shown_merge {fs gs : Fields} (hf : ∀ p ∈ fs, Shown p.2) (hg : ∀ p ∈ gs, Shown p.2) :
    ∀ p ∈ Fields.merge fs gs, Shown p.2 :=
  Fields.forall_merge hf hg

theorem shown_gateField {host developer d : Val} {k : String} (hhost : Shown (host.get k))
    (hdev : Shown (developer.get k)) (hd : Shown d) : Shown (gateField host developer k d) :=
  shown_orElse hdev (shown_orElse hhost hd)

theorem heavyJobsLine_returns {dev hostGate : Val} (hhost : GateText hostGate)
    (hdev : GateText (dev.get "heavy_job_gate")) : Returns (heavyJobsLine dev hostGate) := by
  have hcategories := shown_merge hhost.categories hdev.categories
  have htail : ∀ f : String → String → Js String, (∀ a b, Returns (f a b)) → Returns (do
      let slots ← (gateField hostGate (dev.get "heavy_job_gate") "slots" 1).toStr
      let total ← suffixed " · total " (((dev.get "heavy_job_gate").get "total_memory_max").orElse
        (hostGate.get "total_memory_max"))
      f slots total) := by
    intro f hf
    refine (shown_gateField hhost.slots hdev.slots (shown_num _)).bind fun _ _ ↦ ?_
    exact (suffixed_returns (shown_orElse hdev.total hhost.total) _).bind fun _ _ ↦ hf _ _
  unfold heavyJobsLine
  simp only
  split
  · exact returns_ok _
  · refine (shown_gateField hhost.wait hdev.wait (shown_num _)).bind fun _ _ ↦ ?_
    refine (shown_gateField hhost.warn hdev.warn (shown_num _)).bind fun _ _ ↦ ?_
    split
    · refine (shown_orElse hdev.memory hhost.memory).bind fun _ _ ↦ ?_
      refine (pairTexts_returns hcategories _ _).bind fun _ _ ↦ ?_
      exact htail _ fun _ _ ↦ returns_ok _
    · exact htail _ fun _ _ ↦ returns_ok _

/-- The limits of a slice, as they are written out. -/
structure LimitText (resources : Val) : Prop where
  high : resources.get "memory_high" = .undef ∨ (∃ s, resources.get "memory_high" = .str s) ∨
    isMemoryWeight (resources.get "memory_high") = true
  rest : ∀ p ∈ resources.ownFields, p.1 ≠ "memory_high" → Shown p.2

theorem formatMemoryLimit_returns {v : Val}
    (h : (∃ s, v = .str s) ∨ isMemoryWeight v = true) : Returns (formatMemoryLimit v) := by
  rcases h with ⟨s, rfl⟩ | hweight
  · exact returns_ok _
  · unfold isMemoryWeight at hweight
    split at hweight
    · rename_i k n
      simp only [Bool.and_eq_true, beq_iff_eq] at hweight
      obtain ⟨⟨rfl, _⟩, _⟩ := hweight
      exact ⟨_, rfl⟩
    · cases hweight

theorem resourcesLine_returns {resources : Val} (h : LimitText resources) :
    Returns (resourcesLine resources) := by
  have hrest : Returns (pairTexts "" " "
      (resources.ownFields.filter fun p ↦ p.1 != "memory_high")) := by
    refine pairTexts_returns (fun p hp ↦ ?_) _ _
    obtain ⟨hmem, hne⟩ := List.mem_filter.mp hp
    exact h.rest p hmem (by simpa using hne)
  unfold resourcesLine
  simp only
  split
  · exact hrest.bind fun _ _ ↦ returns_ok _
  · rename_i hstated
    have hhigh := h.high.resolve_left (by
      intro heq
      simp [heq, Val.isUndef] at hstated)
    refine (formatMemoryLimit_returns hhigh).bind fun _ _ ↦ ?_
    exact hrest.bind fun _ _ ↦ returns_ok _

theorem agentsLine_returns {dev : Val}
    (h : ∀ p ∈ (dev.get "agent_profiles").ownFields,
      p.2.isNullish = false ∧ Shown (p.2.get "provider")) : Returns (agentsLine dev) := by
  unfold agentsLine
  rw [ownFields_orElse_nil]
  simp only
  split
  · exact returns_ok _
  · exact (entryTexts_returns h _).bind fun _ _ ↦ returns_ok _

structure OrcaText (orca : Val) : Prop where
  version : Shown (orca.get "version")
  port : Shown (orca.get "port")
  pairing : Shown (orca.get "pairing_address")
  ceiling : Shown ((orca.get "resources").get "memory_max")

theorem orcaLine_returns {orca : Val} (h : OrcaText orca) : Returns (orcaLine orca) := by
  have hceiling : Returns (((orca.get "resources").get "memory_max").orElse "unset").toStr :=
    shown_orElse h.ceiling (shown_str _)
  refine h.version.bind fun _ _ ↦ (shown_orElse h.port (shown_num _)).bind fun _ _ ↦ ?_
  simp only
  split
  · exact hceiling.bind fun _ _ ↦ returns_ok _
  · refine (shown_orElse h.pairing (shown_str _)).bind fun _ _ ↦ ?_
    exact hceiling.bind fun _ _ ↦ returns_ok _

theorem memoryLine_returns {memory : Val}
    (hinstances : ∀ p ∈ (memory.get "instances").ownFields,
      p.2.isNullish = false ∧ Shown (p.2.get "llm_provider"))
    (hspaces : ∀ p ∈ (memory.get "spaces").ownFields,
      p.2.isNullish = false ∧ Shown (p.2.get "bank")) : Returns (memoryLine memory) := by
  unfold memoryLine
  rw [ownFields_orElse_nil, ownFields_orElse_nil]
  exact (entryTexts_returns hinstances _).bind fun _ _ ↦
    (entryTexts_returns hspaces _).bind fun _ _ ↦ returns_ok _

theorem xkbName_returns {layout variant : Val} (hlayout : Shown layout) (hvariant : Shown variant) :
    Returns (xkbName layout variant) := by
  unfold xkbName
  split
  · exact hlayout.bind fun _ _ ↦ hvariant.bind fun _ _ ↦ returns_ok _
  · exact hlayout

theorem shown_optionalText (v : Option String) : Shown (optionalText v) := by
  cases v with
  | none => exact shown_null
  | some s => exact shown_str s

structure DesktopText (desktop : Val) : Prop where
  environment : Shown (desktop.get "environment")
  transport : Shown (desktop.get "transport")
  access : desktop.get "access" = .undef ∨ Lists Shown (desktop.get "access")
  idle : Shown (desktop.get "idle_logout_minutes")
  layout : Shown ((desktop.get "keyboard").get "layout")
  variant : Shown ((desktop.get "keyboard").get "variant")

theorem describeKeyboard_returns {dev : Val} (h : DesktopText (dev.get "desktop"))
    (client : ClientFacts) : Returns (describeKeyboard dev client) := by
  unfold describeKeyboard
  simp only
  split
  · exact (xkbName_returns h.layout h.variant).bind fun _ _ ↦ returns_ok _
  · cases client.keyboard with
    | none => exact returns_ok _
    | some k =>
        exact (xkbName_returns (shown_str _) (shown_optionalText _)).bind fun _ _ ↦ returns_ok _

/-- A list, or the fallback for one that is absent. -/
theorem lists_orElse {P : Val → Prop} {v : Val} (h : v = .undef ∨ Lists P v) (xs : List Val)
    (hxs : ∀ x ∈ xs, P x) : Lists P (v.orElse (.arr xs)) := by
  rcases h with rfl | ⟨ys, rfl, hys⟩
  · exact ⟨xs, rfl, hxs⟩
  · exact ⟨ys, rfl, hys⟩

theorem Lists.join_returns {v : Val} (h : Lists Shown v) (sep : String) {f : String → Js String}
    (hf : ∀ s, Returns (f s)) : Returns (do
      let xs ← v.elems
      let shown ← Val.join sep xs
      f shown) := by
  obtain ⟨xs, rfl, hxs⟩ := h
  exact (RemoteDevbox.Spec.join_returns hxs sep).bind fun _ _ ↦ hf _

theorem shown_default_access (tailscale : Val) :
    ∃ xs : List Val, defaultDesktopAccess tailscale = .arr xs ∧ ∀ x ∈ xs, Shown x := by
  unfold defaultDesktopAccess
  split
  · exact ⟨_, rfl, by simp⟩
  · exact ⟨_, rfl, by simp⟩

theorem desktopLine_returns {dev clientPort : Val} (h : DesktopText (dev.get "desktop"))
    (hport : Shown clientPort) (tailscale : Val) (client : ClientFacts) :
    Returns (desktopLine dev tailscale clientPort client) := by
  obtain ⟨paths, hpaths, hshown⟩ := shown_default_access tailscale
  have haccess := lists_orElse h.access _ hshown
  have hkeyboard := describeKeyboard_returns h client
  unfold desktopLine
  refine h.environment.bind fun _ _ ↦ h.transport.bind fun _ _ ↦ ?_
  rw [hpaths]
  refine haccess.join_returns _ fun _ ↦ (suffixed_returns hport _).bind fun _ _ ↦ ?_
  simp only
  split
  · exact h.idle.bind fun _ _ ↦ hkeyboard.bind fun _ _ ↦ returns_ok _
  · exact hkeyboard.bind fun _ _ ↦ returns_ok _

theorem appConfigLabels_returns {apps : List Val} (h : ∀ raw ∈ apps, Registered raw) :
    Ends (fun labels ↦ ∀ x ∈ labels, Shown x) (apps.mapM appConfigLabel) := by
  refine Ends.mapM fun raw hraw ↦ ?_
  obtain ⟨entry, hentry⟩ := h raw hraw
  simp [appConfigLabel, hentry]

theorem mountLabels_returns {mounts : List Val}
    (h : ∀ m ∈ mounts, m.isNullish = false ∧ Shown (m.get "label")) :
    Ends (fun labels ↦ ∀ x ∈ labels, Shown x) (mounts.mapM labelOf) := by
  refine Ends.mapM fun m hm ↦ ?_
  simpa [labelOf, read_of_present (h m hm).1] using (h m hm).2

theorem fileBridgeLine_returns {dev : Val} {mounts : List Val}
    (hengine : Shown ((dev.get "file_bridge").get "engine"))
    (happs : Lists Registered (((dev.get "app_configs").get "paths").orElse (.arr [])))
    (hmounts : ∀ m ∈ mounts, m.isNullish = false ∧ Shown (m.get "label")) :
    Returns (fileBridgeLine dev mounts) := by
  have htail : ∀ f : List String → Js String, (∀ a, Returns (f a)) → Returns (do
      let mounted ←
        if mounts.isEmpty then .ok []
        else do
          let labels ← mounts.mapM labelOf
          let shown ← Val.join ", " labels
          let moment :=
            if ((dev.get "file_bridge").get "lazy_mount_on_connect").truthy then " (on connect)" else ""
          pure [s!"mounts {shown}{moment}"]
      f mounted) := by
    intro f hf
    split
    · exact hf _
    · obtain ⟨labels, hlabels, hshown⟩ := mountLabels_returns hmounts
      rw [hlabels]
      exact (RemoteDevbox.Spec.join_returns hshown _).bind fun _ _ ↦ hf _
  unfold fileBridgeLine
  simp only
  refine returns_ite (P := fun apps ↦ ∀ raw ∈ apps, Registered raw) (fun _ ↦ happs.elems)
    (fun _ raw hraw ↦ absurd hraw List.not_mem_nil) fun apps hregistered ↦ ?_
  obtain ⟨labels, hlabels, hshown⟩ := appConfigLabels_returns hregistered
  rw [hlabels, ok_bind]
  split
  · refine (shown_orElse hengine (shown_str _)).bind fun _ _ ↦ ?_
    exact (RemoteDevbox.Spec.join_returns hshown _).bind fun _ _ ↦ htail _ fun _ ↦ returns_ok _
  · exact htail _ fun _ ↦ returns_ok _

/-- A project as the report reads it. -/
structure ProjectText (p : Val) : Prop where
  name : ∃ s, p.get "name" = .str s
  git : Shown (p.get "git_identity")
  agent : Shown (p.get "agent_profile")
  engine : Shown (p.get "container_engine")
  memory : Shown (p.get "memory_space")
  ports : Lists Shown (p.get "ports")

theorem nameText_returns {p : Val} (h : ProjectText p) : Returns (nameText p) := by
  obtain ⟨name, hname⟩ := h.name
  simp [nameText, read_of_present (present_of_get hname (by simp)), hname]

theorem projectLine_returns {p : Val} (h : ProjectText p) (width : ℕ) :
    Returns (projectLine width p) := by
  refine (nameText_returns h).bind fun _ _ ↦ ?_
  refine (shown_orElse h.git (shown_str _)).bind fun _ _ ↦ ?_
  refine (shown_orElse h.agent (shown_str _)).bind fun _ _ ↦ ?_
  refine h.engine.bind fun _ _ ↦ (shown_orElse h.memory (shown_str _)).bind fun _ _ ↦ ?_
  obtain ⟨ports, hports, hshown⟩ := h.ports
  rw [hports]
  exact (RemoteDevbox.Spec.join_returns hshown _).bind fun _ _ ↦ returns_ok _

theorem projectLines_returns {projects : List Val} (h : ∀ p ∈ projects, ProjectText p) :
    Returns (projectLines projects) := by
  unfold projectLines
  split
  · exact returns_ok _
  · refine (mapM_returns.mpr fun p hp ↦ nameText_returns (h p hp)).bind fun _ _ ↦ ?_
    exact (mapM_returns.mpr fun p hp ↦ projectLine_returns (h p hp) _).bind
      fun _ _ ↦ returns_ok _

/-- A developer as the report reads it. -/
structure DeveloperText (dev : Val) : Prop where
  user : ∃ s, dev.get "user" = .str s
  loginKeys : ∃ xs, dev.get "login_ssh_keys" = .arr xs
  gate : GateText (dev.get "heavy_job_gate")
  resources : LimitText (dev.get "resources")
  profiles : ∀ p ∈ (dev.get "agent_profiles").ownFields,
    p.2.isNullish = false ∧ Shown (p.2.get "provider")
  paseo : Shown ((dev.get "paseo_resources").get "memory_max")
  orca : OrcaText (dev.get "orca")
  instances : ∀ p ∈ ((dev.get "memory").get "instances").ownFields,
    p.2.isNullish = false ∧ Shown (p.2.get "llm_provider")
  spaces : ∀ p ∈ ((dev.get "memory").get "spaces").ownFields,
    p.2.isNullish = false ∧ Shown (p.2.get "bank")
  desktop : DesktopText (dev.get "desktop")
  engine : Shown ((dev.get "file_bridge").get "engine")
  mounts : Lists (fun m ↦ m.isNullish = false ∧ Shown (m.get "label"))
    (((dev.get "file_bridge").get "lazy_mounts").orElse (.arr []))
  appConfigs : Lists Registered (((dev.get "app_configs").get "paths").orElse (.arr []))
  projects : Lists ProjectText (dev.get "projects")

theorem lineIf_returns {c : Bool} {value : Js String} (h : Returns value) (label : String) :
    Returns (lineIf c label value) := by
  unfold lineIf
  split
  · exact h.bind fun _ _ ↦ returns_ok _
  · exact returns_ok _

theorem developerLines_returns {dev clientPort hostGate : Val} (h : DeveloperText dev)
    (hport : Shown clientPort) (hgate : GateText hostGate) (tailscale : Val)
    (client : ClientFacts) : Returns (developerLines dev tailscale client clientPort hostGate) := by
  obtain ⟨user, huser⟩ := h.user
  obtain ⟨keys, hkeys⟩ := h.loginKeys
  obtain ⟨mounts, hmounts, hlabels⟩ := h.mounts
  obtain ⟨projects, hprojects, htexts⟩ := h.projects
  have hpaseo : Returns (((dev.get "paseo_resources").get "memory_max").orElse "unset").toStr :=
    shown_orElse h.paseo (shown_str _)
  simp only [developerLines, read_of_present (present_of_get huser (by simp)), huser, ok_bind,
    Val.toStr, arrayLength, hkeys, Val.elems, pure_eq_ok]
  refine (heavyJobsLine_returns hgate h.gate).bind fun _ _ ↦ ?_
  refine (resourcesLine_returns h.resources).bind fun _ _ ↦ ?_
  refine (agentsLine_returns h.profiles).bind fun _ _ ↦ ?_
  refine (lineIf_returns (returns_ok _) _).bind fun _ _ ↦ ?_
  refine (lineIf_returns (hpaseo.bind fun _ _ ↦ returns_ok _) _).bind fun _ _ ↦ ?_
  refine (lineIf_returns (orcaLine_returns h.orca) _).bind fun _ _ ↦ ?_
  have htail : ∀ f : List String → List String → List String → Js (List String),
      (∀ a b c, Returns (f a b c)) → Returns (do
        let desktop ← lineIf ((dev.get "desktop").get "enabled").truthy "desktop"
          (desktopLine dev tailscale clientPort client)
        let bridge ← lineIf (((dev.get "file_bridge").get "sync_disk").truthy || !mounts.isEmpty)
          "file bridge" (fileBridgeLine dev mounts)
        let rows ← projectLines projects
        f desktop bridge rows) := by
    intro f hf
    refine (lineIf_returns (desktopLine_returns h.desktop hport _ _) _).bind fun _ _ ↦ ?_
    refine (lineIf_returns (fileBridgeLine_returns h.engine h.appConfigs hlabels) _).bind
      fun _ _ ↦ ?_
    exact (projectLines_returns htexts).bind fun _ _ ↦ hf _ _ _
  rw [hmounts, hprojects]
  simp only [ok_bind]
  split
  · refine (memoryLine_returns h.instances h.spaces).bind fun _ _ ↦ ?_
    exact htail _ fun _ _ _ ↦ returns_ok _
  · exact htail _ fun _ _ _ ↦ returns_ok _

/-! ## The report -/

structure RuntimeLimitText (limit : Val) : Prop where
  present : limit.isNullish = false
  user : Shown (limit.get "user")
  name : Shown (limit.get "name")
  memory : Shown (limit.get "memory_max")
  redis : Shown (limit.get "redis_maxmemory")

theorem limitText_returns {limit : Val} (h : RuntimeLimitText limit) :
    Returns (limitText limit) := by
  simp only [limitText, read_of_present h.present, ok_bind]
  refine (suffixed_returns h.redis _).bind fun _ _ ↦ h.user.bind fun _ _ ↦ ?_
  exact h.name.bind fun _ _ ↦ h.memory.bind fun _ _ ↦ returns_ok _

/-- A resolved spec as the report reads it. -/
structure SpecText (resolved : Val) : Prop where
  tailscale : ∃ b, ((resolved.get "network").get "tailscale").get "enabled" = .bool b
  platform : (resolved.get "platform").isNullish = false
  distribution : Shown ((resolved.get "platform").get "distribution")
  version : Shown ((resolved.get "platform").get "version")
  architecture : Shown ((resolved.get "platform").get "architecture")
  operatorUser : Shown ((resolved.get "operator").get "user")
  operatorKeys : ∃ xs, (resolved.get "operator").get "ssh_authorized_keys" = .arr xs
  ssh : ((resolved.get "network").get "ssh").isNullish = false
  access : ((resolved.get "network").get "ssh").get "access" = .undef ∨
    Lists Shown (((resolved.get "network").get "ssh").get "access")
  defaultEngine : Shown ((resolved.get "container").get "default_engine")
  engines : Lists Shown ((resolved.get "container").get "install_engines")
  limits : Lists RuntimeLimitText (((resolved.get "container").get "runtime_limits").orElse (.arr []))
  sharedEngine : Shown ((resolved.get "shared_services").get "engine")
  cliTargets : (resolved.get "clients").get "cli_targets" = .undef ∨
    Lists Shown ((resolved.get "clients").get "cli_targets")
  runtimes : ∀ p ∈ (resolved.get "runtimes").ownFields, Shown p.2
  gate : GateText ((resolved.get "host").get "heavy_job_gate")
  developers : Lists DeveloperText (resolved.get "developers")

theorem titleLine_returns {resolved : Val} (h : SpecText resolved) :
    Returns (titleLine (resolved.get "platform")) := by
  simp only [titleLine, read_of_present h.platform, ok_bind]
  exact h.distribution.bind fun _ _ ↦ h.version.bind fun _ _ ↦ h.architecture.bind
    fun _ _ ↦ returns_ok _

theorem operatorLine_returns {resolved : Val} (h : SpecText resolved) :
    Returns (operatorLine (resolved.get "operator")) := by
  obtain ⟨keys, hkeys⟩ := h.operatorKeys
  simp only [operatorLine, read_of_present (present_of_get hkeys (by simp)), hkeys, arrayLength,
    Val.elems, ok_bind, pure_eq_ok]
  exact h.operatorUser.bind fun _ _ ↦ returns_ok _

theorem networkLine_returns {resolved : Val} (h : SpecText resolved) :
    Returns (networkLine resolved) := by
  obtain ⟨tailscale, htailscale⟩ := h.tailscale
  have hnetwork : (resolved.get "network").isNullish = false :=
    present_of_get (k := "ssh") rfl (by rintro heq; have := h.ssh; rw [heq] at this; cases this)
  have hresolved : resolved.isNullish = false :=
    present_of_get (k := "network") rfl (by rintro heq; rw [heq] at hnetwork; cases hnetwork)
  have haccess : Lists Shown ((((resolved.get "network").get "ssh").get "access").orElse
      (defaultSshAccess (.bool tailscale))) := by
    cases tailscale with
    | true => exact lists_orElse h.access _ (by simp)
    | false => exact lists_orElse h.access _ (by simp)
  simp only [networkLine, tailscaleEnabled_eq htailscale, read_of_present hresolved,
    read_of_present hnetwork, read_of_present h.ssh, ok_bind]
  exact haccess.join_returns _ fun _ ↦ returns_ok _

theorem containersLine_returns {resolved : Val} (h : SpecText resolved) :
    Returns (containersLine (resolved.get "container")) := by
  obtain ⟨xs, hxs, _⟩ := h.engines
  simp only [containersLine, read_of_present (present_of_get hxs (by simp)), ok_bind]
  exact h.defaultEngine.bind fun _ _ ↦ h.engines.join_returns _ fun _ ↦ returns_ok _

theorem limitsLine_returns {resolved : Val} (h : SpecText resolved) :
    Returns (limitsLine (resolved.get "container")) := by
  obtain ⟨limits, hlimits, htexts⟩ := h.limits
  simp only [limitsLine, hlimits, Val.elems, ok_bind]
  exact (mapM_returns.mpr fun limit hlimit ↦ limitText_returns (htexts limit hlimit)).bind
    fun _ _ ↦ returns_ok _

theorem sharedServicesLine_returns {resolved : Val} (h : SpecText resolved) :
    Returns (sharedServicesLine (resolved.get "shared_services")) := by
  unfold sharedServicesLine
  split
  · exact h.sharedEngine.bind fun _ _ ↦ returns_ok _
  · exact returns_ok _

theorem clientCliLine_returns {resolved : Val} (h : SpecText resolved) :
    Returns (clientCliLine (resolved.get "clients")) := by
  obtain ⟨targets, htargets, hshown⟩ := lists_orElse h.cliTargets
    (DEFAULT_CLI_TARGETS.map .str) (by simp)
  simp only [clientCliLine, htargets, Val.elems, ok_bind]
  exact (join_returns hshown _).bind fun _ _ ↦ returns_ok _

theorem renderPlan_returns {resolved : Val} (h : SpecText resolved) (issues : List Issue)
    (secretNames : List String) (client : ClientFacts) :
    Returns (renderPlan resolved issues secretNames client) := by
  obtain ⟨tailscale, htailscale⟩ := h.tailscale
  obtain ⟨developers, hdevelopers, htexts⟩ := h.developers
  refine (titleLine_returns h).bind fun _ _ ↦ (operatorLine_returns h).bind fun _ _ ↦ ?_
  refine (networkLine_returns h).bind fun _ _ ↦ (containersLine_returns h).bind fun _ _ ↦ ?_
  refine (limitsLine_returns h).bind fun _ _ ↦ (sharedServicesLine_returns h).bind fun _ _ ↦ ?_
  refine (clientCliLine_returns h).bind fun _ _ ↦ ?_
  have hruntimes : Returns (runtimesLine (resolved.get "runtimes")) := by
    rw [runtimesLine, ownFields_orElse_nil]
    exact (pairTexts_returns h.runtimes _ _).bind fun _ _ ↦ returns_ok _
  refine hruntimes.bind fun _ _ ↦ ?_
  simp only [hdevelopers, Val.elems, tailscaleEnabled_eq htailscale, ok_bind]
  refine (mapM_returns.mpr fun dev hdev ↦ developerLines_returns (htexts dev hdev) ?_ h.gate _
    _).bind fun _ _ ↦ returns_ok _
  unfold portOf
  split
  · exact shown_num _
  · exact shown_undef

end RemoteDevbox.Spec
