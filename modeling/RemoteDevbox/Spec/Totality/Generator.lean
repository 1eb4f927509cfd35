import RemoteDevbox.Spec.Emittable
import RemoteDevbox.Spec.Load

namespace RemoteDevbox.Spec

open Js Client

/-!
# Where the generator comes to an end

Each function of the generator takes plain data to plain data. The ones that
iterate or read through a value say what that value has to be.
-/

/-! ## Presence -/

theorem read_of_present {v : Val} (h : v.isNullish = false) (k : String) :
    v.read k = .ok (v.get k) := by
  simp [Val.read, h]

theorem present_of_get {v x : Val} {k : String} (h : v.get k = x) (hx : x ≠ .undef) :
    v.isNullish = false := by
  cases v with
  | undef => exact absurd h.symm hx
  | null => exact absurd h.symm hx
  | _ => rfl

/-- Absent, or a list. -/
def ListOrAbsent (v : Val) : Prop := v = .undef ∨ ∃ xs, v = .arr xs

/-- Whatever the value lists, or the fallback, satisfies `P`. -/
def Lists (P : Val → Prop) (v : Val) : Prop := ∃ xs, v = .arr xs ∧ ∀ x ∈ xs, P x

theorem ListOrAbsent.lists {v : Val} (h : ListOrAbsent v) (hv : Clean v) (xs : List Val)
    (hxs : ∀ x ∈ xs, emittable x = true) :
    Lists (fun x ↦ emittable x = true) (v.orElse (.arr xs)) := by
  rcases h with rfl | ⟨ys, rfl⟩
  · exact ⟨xs, rfl, hxs⟩
  · exact ⟨ys, rfl, clean_arr.mp hv⟩

theorem Lists.spread {P : Val → Prop} {v : Val} (h : Lists P v) :
    Ends (fun xs ↦ ∀ x ∈ xs, P x) v.spread := by
  obtain ⟨xs, rfl, hxs⟩ := h
  exact ⟨xs, rfl, hxs⟩

theorem Lists.elems {P : Val → Prop} {v : Val} (h : Lists P v) :
    Ends (fun xs ↦ ∀ x ∈ xs, P x) v.elems := by
  obtain ⟨xs, rfl, hxs⟩ := h
  exact ⟨xs, rfl, hxs⟩

/-! ## Gates, resources and the host -/

@[grind ←] theorem clean_canonicalOrSame {v : Val} (h : Clean v) : Clean (canonicalOrSame v) := by
  cases v with
  | str s => exact clean_str _
  | _ => exact h

@[simp, grind ←] theorem clean_canonicalOrNull (v : Val) : Clean (canonicalOrNull v) := by
  unfold canonicalOrNull
  split
  · split
    · exact clean_str _
    · exact clean_null
  · exact clean_null

@[grind ←] theorem clean_gateField {host developer d : Val} (hhost : Clean host)
    (hdev : Clean developer) (hd : Clean d) (k : String) :
    Clean (gateField host developer k d) := by
  unfold gateField
  grind

@[grind ←] theorem clean_gateCategory {host developer : Val} (hhost : Clean host)
    (hdev : Clean developer) (c : String) : Clean (gateCategory host developer c) := by
  unfold gateCategory
  grind

@[grind ←] theorem clean_gateCategoryMemory {host developer : Val} (hhost : Clean host)
    (hdev : Clean developer) (c : String) : Clean (gateCategoryMemory host developer c) := by
  unfold gateCategoryMemory
  grind

@[grind ←] theorem clean_normalizeHeavyJobGate {host developer : Val} (hhost : Clean host)
    (hdev : Clean developer) : Clean (normalizeHeavyJobGate host developer) := by
  simp only [normalizeHeavyJobGate, clean_obj, List.forall_mem_cons, List.forall_mem_map,
    List.mem_filterMap, val_ofNat, List.not_mem_nil]
  grind

theorem clean_normalizeDirectMemoryResources {resources : Fields}
    (h : ∀ p ∈ resources, Clean p.2) (includeServiceKnobs : Bool) :
    ∀ p ∈ normalizeDirectMemoryResources resources includeServiceKnobs, Clean p.2 := by
  intro p hp
  obtain ⟨key, _, hkey⟩ := List.mem_filterMap.mp hp
  have hlookup := clean_lookup h key
  simp only at hkey
  split at hkey
  · cases hkey
  · obtain rfl := Option.some.inj hkey
    split
    · exact clean_canonicalOrSame hlookup
    · exact hlookup

@[grind ←] theorem clean_serviceResources {v : Val} (h : Clean v) :
    Clean (serviceResources v.ownFields) :=
  clean_obj.mpr (clean_normalizeDirectMemoryResources (clean_ownFields h) true)

@[grind ←] theorem clean_normalizeRunawayGuard {host : Val} (h : Clean host) :
    Clean (normalizeRunawayGuard host) := by
  simp only [normalizeRunawayGuard, clean_obj, List.forall_mem_cons, val_ofNat, List.not_mem_nil]
  grind

@[grind ←] theorem clean_normalizePaseoSessionReap {host : Val} (h : Clean host) :
    Clean (normalizePaseoSessionReap host) := by
  simp only [normalizePaseoSessionReap, clean_obj, List.forall_mem_cons, val_ofNat,
    List.not_mem_nil]
  grind

theorem normalizeMonitoring_ends {host : Val} (h : Clean host)
    (haccess : ListOrAbsent ((host.get "monitoring").get "access")) :
    Ends Clean (normalizeMonitoring host) := by
  have hmon := clean_get h "monitoring"
  have hlist := haccess.lists (clean_get hmon "access") ["tunnel"] (by simp [emittable])
  refine hlist.spread.bind fun access haccess ↦ ?_
  simp only [pure_eq_ok, ends_ok, clean_obj, List.forall_mem_cons, clean_arr, val_ofNat,
    List.not_mem_nil]
  grind

theorem normalizeHost_ends {host : Val} (h : Clean host)
    (hlocales : ListOrAbsent (host.get "locales"))
    (haccess : ListOrAbsent ((host.get "monitoring").get "access")) :
    Ends Clean (normalizeHost host) := by
  have hlist := hlocales.lists (clean_get h "locales") ["en_US.UTF-8"] (by simp [emittable])
  refine hlist.spread.bind fun locales hlocales ↦ ?_
  refine (normalizeMonitoring_ends h haccess).bind fun monitoring hmonitoring ↦ ?_
  simp only [pure_eq_ok, ends_ok, clean_obj, List.forall_mem_cons, clean_arr, val_ofNat,
    List.not_mem_nil]
  grind

/-! ## Box-wide services -/

theorem normalizePlatform_ends {platform : Val} (h : Clean platform)
    (hpresent : platform.isNullish = false) : Ends Clean (normalizePlatform platform) := by
  simp only [normalizePlatform, read_of_present hpresent, ok_bind, pure_eq_ok, ends_ok, clean_obj,
    List.forall_mem_cons, List.not_mem_nil]
  grind

theorem normalizeOperator_ends {operator : Val} (h : Clean operator)
    (hkeys : Lists (fun x ↦ emittable x = true) (operator.get "ssh_authorized_keys")) :
    Ends Clean (normalizeOperator operator) := by
  have hpresent : operator.isNullish = false := by
    obtain ⟨xs, hxs, _⟩ := hkeys
    exact present_of_get hxs (by simp)
  simp only [normalizeOperator, read_of_present hpresent, ok_bind]
  refine hkeys.spread.bind fun keys hkeys ↦ ?_
  simp only [pure_eq_ok, ends_ok, clean_obj, List.forall_mem_cons, clean_arr, List.not_mem_nil]
  grind

theorem tailscaleEnabled_eq {resolved : Val} {b : Bool}
    (h : ((resolved.get "network").get "tailscale").get "enabled" = .bool b) :
    tailscaleEnabled resolved = .ok (.bool b) := by
  have htailscale := present_of_get h (by simp)
  have hnetwork : (resolved.get "network").isNullish = false :=
    present_of_get (k := "tailscale") rfl (by rintro heq; rw [heq] at htailscale; cases htailscale)
  have hresolved : resolved.isNullish = false :=
    present_of_get (k := "network") rfl (by rintro heq; rw [heq] at hnetwork; cases hnetwork)
  simp only [tailscaleEnabled, read_of_present hresolved, read_of_present hnetwork,
    read_of_present htailscale, ok_bind, h]

@[grind ←] theorem clean_defaultSshAccess (tailscale : Val) :
    Clean (defaultSshAccess tailscale) := by
  unfold defaultSshAccess
  split <;> simp [emittable]

theorem lists_defaultDesktopAccess (tailscale : Val) : ∃ xs : List Val,
    defaultDesktopAccess tailscale = .arr xs ∧ ∀ x ∈ xs, emittable x = true := by
  unfold defaultDesktopAccess
  split
  · exact ⟨_, rfl, by simp [emittable]⟩
  · exact ⟨_, rfl, by simp [emittable]⟩

theorem normalizeNetwork_ends {resolved : Val} (h : Clean resolved)
    (hssh : ((resolved.get "network").get "ssh").isNullish = false) {tailscale : Val}
    (htailscale : Clean tailscale) : Ends Clean (normalizeNetwork resolved tailscale) := by
  have hnetwork : (resolved.get "network").isNullish = false :=
    present_of_get (k := "ssh") rfl (by rintro heq; rw [heq] at hssh; cases hssh)
  have hresolved : resolved.isNullish = false :=
    present_of_get (k := "network") rfl (by rintro heq; rw [heq] at hnetwork; cases hnetwork)
  simp only [normalizeNetwork, read_of_present hresolved, read_of_present hnetwork,
    read_of_present hssh, ok_bind, pure_eq_ok, ends_ok, clean_obj, List.forall_mem_cons,
    List.not_mem_nil]
  grind

theorem normalizeRuntimeLimit_ends {limit : Val} (h : Clean limit)
    (hpresent : limit.isNullish = false) :
    Ends (fun v ↦ emittable v = true) (normalizeRuntimeLimit limit) := by
  have hsized : ∀ memory swap : Val, ∀ p ∈ (limit.ownFields.set "memory_max"
      (canonicalOrNull memory)).set "memory_swap_max" (canonicalOrNull swap), Clean p.2 :=
    fun _ _ ↦ Fields.forall_set (Fields.forall_set (clean_ownFields h) _ (clean_canonicalOrNull _)) _
      (clean_canonicalOrNull _)
  simp only [normalizeRuntimeLimit, read_of_present hpresent, ok_bind, pure_eq_ok, ends_ok,
    emittable_obj]
  split
  · exact hsized _ _
  · exact Fields.forall_set (hsized _ _) _ (clean_canonicalOrNull _)

theorem normalizeContainer_ends {container : Val} (h : Clean container)
    (hengines : Lists (fun x ↦ emittable x = true) (container.get "install_engines"))
    (hlimits : Lists (fun x ↦ emittable x = true ∧ x.isNullish = false)
      ((container.get "runtime_limits").orElse (.arr []))) :
    Ends Clean (normalizeContainer container) := by
  have hpresent : container.isNullish = false := by
    obtain ⟨xs, hxs, _⟩ := hengines
    exact present_of_get hxs (by simp)
  simp only [normalizeContainer, read_of_present hpresent, ok_bind]
  refine hengines.spread.bind fun engines hengines ↦ hlimits.elems.bind fun declared hdeclared ↦ ?_
  refine (Ends.mapM fun limit hlimit ↦ normalizeRuntimeLimit_ends (.inr (hdeclared limit hlimit).1)
    (hdeclared limit hlimit).2).bind fun limits hlimits ↦ ?_
  simp only [pure_eq_ok, ends_ok, clean_obj, List.forall_mem_cons, clean_arr, List.not_mem_nil]
  grind

@[grind ←] theorem clean_normalizeFailover {failover : Val} (h : Clean failover) :
    Clean (normalizeFailover failover) := by
  simp only [normalizeFailover, clean_obj, List.forall_mem_cons, List.not_mem_nil]
  grind

@[grind ←] theorem clean_normalizeBrowserReap {reap : Val} (h : Clean reap) :
    Clean (normalizeBrowserReap reap) := by
  simp only [normalizeBrowserReap, clean_obj, List.forall_mem_cons, val_ofNat, List.not_mem_nil]
  grind

theorem clean_mcpServers {developers : List Val} (h : ∀ dev ∈ developers, Clean dev) (base : Number) :
    Clean (.arr ((assignMcpPorts (browserUsers developers) base).map mcpServerRow)) := by
  rw [clean_arr]
  intro row hrow
  obtain ⟨server, hserver, rfl⟩ := List.mem_map.mp hrow
  obtain ⟨p, hp, rfl⟩ := List.mem_map.mp hserver
  obtain ⟨dev, hdev, huser⟩ := List.mem_map.mp (List.fst_mem_of_mem_zipIdx hp)
  have hclean : Clean p.1 := huser ▸ clean_get (h dev (List.mem_filter.mp hdev).1) "user"
  exact emittable_obj.mpr (by simp [hclean])

theorem clean_normalizeBrowser {resolved : Val} (h : Clean resolved) {developers : List Val}
    (hdevs : ∀ dev ∈ developers, Clean dev) : Clean (normalizeBrowser resolved developers) := by
  have hservers := clean_mcpServers hdevs (mcpBasePort resolved)
  simp only [normalizeBrowser, clean_obj, List.forall_mem_cons, List.not_mem_nil]
  grind

@[grind ←] theorem clean_normalizeRcReap {reap : Val} (h : Clean reap) :
    Clean (normalizeRcReap reap) := by
  simp only [normalizeRcReap, clean_obj, List.forall_mem_cons, val_ofNat, List.not_mem_nil]
  grind

@[grind ←] theorem clean_normalizeRemoteControl {resolved : Val} (h : Clean resolved) :
    Clean (normalizeRemoteControl resolved) := by
  simp only [normalizeRemoteControl, clean_obj, List.forall_mem_cons, val_ofNat, List.not_mem_nil]
  grind

/-! ## Units -/

/-- Rows are plain data. -/
theorem clean_rows {rows : List (Option Val)}
    (h : ∀ row ∈ rows, ∀ v, row = some v → emittable v = true) :
    ∀ v ∈ rows.filterMap id, emittable v = true := by
  intro v hv
  obtain ⟨row, hrow, hsome⟩ := List.mem_filterMap.mp hv
  exact h row hrow v hsome

/-- Every row that there is satisfies `P`. -/
def RowOf (P : Val → Prop) (row : Option Val) : Prop := ∀ v, row = some v → P v

@[simp] theorem rowOf_none {P : Val → Prop} : RowOf P none := by simp [RowOf]

@[simp] theorem rowOf_some {P : Val → Prop} {v : Val} : RowOf P (some v) ↔ P v := by
  simp [RowOf]

theorem rowsOf_ends {developers : List Val} {row : Val → Js (Option Val)}
    (h : ∀ dev ∈ developers, Ends (RowOf fun v ↦ emittable v = true) (row dev)) :
    Ends Clean (rowsOf developers row) := by
  refine (Ends.mapM h).bind fun rows hrows ↦ ?_
  simpa using clean_rows hrows

/-- A project as the generator reads it. -/
structure ProjectShape (p : Val) : Prop where
  clean : Clean p
  name : ∃ s, p.get "name" = .str s
  ports : Lists (fun x ↦ emittable x = true) (p.get "ports")

theorem rcUnitRow_ends {dev project : Val} (hdev : Clean dev)
    (huser : ∃ s, dev.get "user" = .str s) (hproject : ProjectShape project) :
    Ends (RowOf fun v ↦ emittable v = true) (rcUnitRow dev project) := by
  obtain ⟨user, huser⟩ := huser
  obtain ⟨name, hname⟩ := hproject.name
  have hclean := hproject.clean
  unfold rcUnitRow
  simp only
  split
  · simp
  · simp only [projectDir, huser, hname, Val.toStr, ok_bind, pure_eq_ok, ends_ok, rowOf_some,
      emittable_obj, List.forall_mem_cons, List.not_mem_nil]
    have henv : Clean (.obj ((project.get "remote_control").get "build_env").ownFields) :=
      clean_obj.mpr (clean_ownFields (by grind))
    grind

theorem clean_gateEnvelope {dev hostGate : Val} (hdev : Clean dev) (hgate : Clean hostGate) :
    ∀ p ∈ gateEnvelope dev hostGate, Clean p.2 := by
  have hgates := clean_normalizeHeavyJobGate hgate (clean_get hdev "heavy_job_gate")
  simp only [gateEnvelope, List.forall_mem_cons, List.not_mem_nil]
  have hon : ∀ names : List String, Clean (.arr (names.map .str)) := by
    intro names
    simp [emittable]
  grind

theorem clean_codexUnitEnvelope {dev resolved hostGate : Val} (hdev : Clean dev)
    (hresolved : Clean resolved) (hgate : Clean hostGate) :
    ∀ p ∈ codexUnitEnvelope dev resolved hostGate, Clean p.2 := by
  have hdefaults : ∀ p ∈ RC_DEFAULT_RESOURCES, Clean p.2 := by
    simp [RC_DEFAULT_RESOURCES, val_ofNat]
  have hrc := clean_ownFields (clean_get (clean_get hresolved "remote_control") "resources")
  have hown := clean_ownFields (clean_get hdev "codex_host_resources")
  have hmerged := Fields.forall_merge (Fields.forall_merge hdefaults hrc) hown
  rw [codexUnitEnvelope, List.forall_mem_append]
  exact ⟨clean_gateEnvelope hdev hgate, List.forall_mem_singleton.mpr
    (clean_obj.mpr (clean_normalizeDirectMemoryResources hmerged true))⟩

theorem codexProfile_find {profiles : Fields} (h : ∀ p ∈ profiles, p.2.isNullish = false) :
    Returns (codexProfile.find profiles) := by
  induction profiles with
  | nil => exact returns_ok _
  | cons p profiles ih =>
      obtain ⟨k, value⟩ := p
      rw [List.forall_mem_cons] at h
      simp only [codexProfile.find, read_of_present h.1, ok_bind]
      split
      · exact returns_ok _
      · exact ih h.2

theorem ownFields_orElse_nil (v : Val) : (v.orElse (.obj [])).ownFields = v.ownFields := by
  cases v <;> rfl

theorem entries_orElse_nil (v : Val) : (v.orElse (.obj [])).entries = .ok v.ownFields := by
  cases v <;> rfl

theorem codexUnitRow_ends {resolved hostGate dev : Val} (hdev : Clean dev)
    (hresolved : Clean resolved) (hgate : Clean hostGate) (huser : ∃ s, dev.get "user" = .str s)
    (hprofiles : ∀ p ∈ (dev.get "agent_profiles").ownFields, p.2.isNullish = false) :
    Ends (RowOf fun v ↦ emittable v = true) (codexUnitRow resolved hostGate dev) := by
  obtain ⟨user, huser⟩ := huser
  obtain ⟨found, hfound⟩ := codexProfile_find hprofiles
  simp only [codexUnitRow, codexProfile, entries_orElse_nil, ok_bind, hfound]
  cases found with
  | none => simp
  | some profile =>
      simp only
      split
      · simp
      · have henvelope := clean_codexUnitEnvelope hdev hresolved hgate
        simp only [profileDir, huser, Val.toStr, ok_bind, pure_eq_ok, ends_ok, rowOf_some,
          emittable_obj, List.forall_mem_append, List.forall_mem_cons]
        simpa using henvelope

theorem codexRemoteControlRow_ends {resolved hostGate dev : Val} (hdev : Clean dev)
    (hresolved : Clean resolved) (hgate : Clean hostGate) (huser : ∃ s, dev.get "user" = .str s) :
    Ends (RowOf fun v ↦ emittable v = true) (codexRemoteControlRow resolved hostGate dev) := by
  obtain ⟨user, huser⟩ := huser
  unfold codexRemoteControlRow
  split
  · simp
  · have henvelope := clean_codexUnitEnvelope hdev hresolved hgate
    simp only [profileDir, huser, Val.toStr, ok_bind, pure_eq_ok, ends_ok, rowOf_some,
      emittable_obj, List.forall_mem_append, List.forall_mem_cons]
    simpa using henvelope

theorem clean_normalizePaseoUnits {hostGate : Val} (hgate : Clean hostGate)
    {developers : List Val} (h : ∀ dev ∈ developers, Clean dev) :
    Clean (normalizePaseoUnits hostGate developers) := by
  rw [normalizePaseoUnits, clean_arr]
  intro row hrow
  obtain ⟨dev, hdev, hrowOf⟩ := List.mem_filterMap.mp hrow
  have hclean := h dev hdev
  unfold paseoUnitRow at hrowOf
  split at hrowOf
  · cases hrowOf
  · obtain rfl := Option.some.inj hrowOf
    have henvelope := clean_gateEnvelope hclean hgate
    simp only [emittable_obj, List.forall_mem_append, List.forall_mem_cons, List.not_mem_nil]
    grind

theorem clean_normalizeOrcaUnits {hostGate : Val} (hgate : Clean hostGate)
    {developers : List Val} (h : ∀ dev ∈ developers, Clean dev) :
    Clean (normalizeOrcaUnits hostGate developers) := by
  rw [normalizeOrcaUnits, clean_arr]
  intro row hrow
  obtain ⟨dev, hdev, hrowOf⟩ := List.mem_filterMap.mp hrow
  have hclean := h dev hdev
  unfold orcaUnitRow at hrowOf
  simp only at hrowOf
  split at hrowOf
  · cases hrowOf
  · obtain rfl := Option.some.inj hrowOf
    have henvelope := clean_gateEnvelope hclean hgate
    simp only [emittable_obj, List.forall_mem_append, List.forall_mem_cons, List.not_mem_nil]
    grind

/-! ## Developers -/

theorem mapEntries_ends {fn : Val → Js Val} {fields out : Fields}
    (h : ∀ p ∈ fields, Ends Clean (fn p.2)) (hout : ∀ p ∈ out, Clean p.2) :
    Ends (fun result ↦ ∀ p ∈ result, Clean p.2) (mapEntries fn out fields) := by
  induction fields generalizing out with
  | nil => simpa [mapEntries] using hout
  | cons p fields ih =>
      rw [List.forall_mem_cons] at h
      refine h.1.bind fun image himage ↦ ih h.2 ?_
      unfold assignProp
      split
      · exact hout
      · exact Fields.forall_set hout _ himage

theorem mapValues_ends {source : Val} {f : Val → Js Val}
    (h : ∀ p ∈ source.ownFields, Ends Clean (f p.2)) : Ends Clean (mapValues source f) := by
  simp only [mapValues, entries_orElse_nil, ok_bind]
  refine (mapEntries_ends h (by simp)).bind fun out hout ↦ ?_
  simpa using hout

theorem normalizeIdentity_ends {id : Val} (h : Clean id) (hpresent : id.isNullish = false) :
    Ends Clean (normalizeIdentity id) := by
  simp only [normalizeIdentity, read_of_present hpresent, ok_bind, pure_eq_ok, ends_ok, clean_obj,
    List.forall_mem_cons, List.not_mem_nil]
  grind

theorem normalizeInstance_ends {i : Val} (h : Clean i) (hpresent : i.isNullish = false) :
    Ends Clean (normalizeInstance i) := by
  simp only [normalizeInstance, read_of_present hpresent, ok_bind, pure_eq_ok, ends_ok, clean_obj,
    List.forall_mem_cons, List.not_mem_nil]
  grind

theorem normalizeSpace_ends {s : Val} (h : Clean s) (hpresent : s.isNullish = false) :
    Ends Clean (normalizeSpace s) := by
  simp only [normalizeSpace, read_of_present hpresent, ok_bind, pure_eq_ok, ends_ok, clean_obj,
    List.forall_mem_cons, List.not_mem_nil]
  grind

/-- The chains of a retry policy are lists. -/
def ChainShape (p : Val) : Prop :=
  ∀ q ∈ ((((p.get "omp_model_presets").get "retry").get "fallback_chains").ownFields),
    Lists (fun x ↦ emittable x = true) q.2

theorem normalizeRetry_ends {retry : Val} (h : Clean retry)
    (hchains : ∀ q ∈ (retry.get "fallback_chains").ownFields,
      Lists (fun x ↦ emittable x = true) q.2) : Ends Clean (normalizeRetry retry) := by
  have hmap := mapValues_ends (f := fun fallbacks ↦ do
    let list ← fallbacks.spread
    return .arr list) fun q hq ↦ (hchains q hq).spread.bind fun list hlist ↦ by simpa using hlist
  refine hmap.bind fun chains hclean ↦ ?_
  rw [pure_eq_ok, ends_ok, clean_obj]
  exact Fields.forall_set (clean_ownFields h) _ hclean

theorem normalizePresets_ends {presets : Val} (h : Clean presets)
    (hchains : ∀ q ∈ ((presets.get "retry").get "fallback_chains").ownFields,
      Lists (fun x ↦ emittable x = true) q.2) : Ends Clean (normalizePresets presets) := by
  have hroles : Ends Clean (mapValues (presets.get "presets")
      fun roles ↦ .ok (.obj roles.ownFields)) := by
    refine mapValues_ends fun p hp ↦ ?_
    rw [ends_ok, clean_obj]
    exact clean_ownFields (clean_ownFields (clean_get h "presets") p hp)
  have haliases : ∀ p ∈ (if (presets.get "aliases").truthy then
      [("aliases", Val.obj (presets.get "aliases").ownFields)] else []), Clean p.2 := by
    split
    · simpa using clean_ownFields (clean_get h "aliases")
    · simp
  refine hroles.bind fun roles hclean ↦ ?_
  simp only
  split
  · refine (normalizeRetry_ends (clean_get h "retry") hchains).bind fun retry hretry ↦ ?_
    simp only [pure_eq_ok, ok_bind, ends_ok, clean_obj, List.forall_mem_append,
      List.forall_mem_cons, List.not_mem_nil]
    grind
  · simp only [pure_eq_ok, ok_bind, ends_ok, clean_obj, List.forall_mem_append,
      List.forall_mem_cons, List.not_mem_nil]
    grind

theorem normalizeProfile_ends {p : Val} (h : Clean p) (hpresent : p.isNullish = false)
    (hchains : ChainShape p) : Ends Clean (normalizeProfile p) := by
  simp only [normalizeProfile, read_of_present hpresent, ok_bind]
  split
  · refine (normalizePresets_ends (clean_get h _) hchains).bind fun presets hpresets ↦ ?_
    simp only [pure_eq_ok, ok_bind, ends_ok, clean_obj, List.forall_mem_append,
      List.forall_mem_cons, List.not_mem_nil]
    grind
  · simp only [pure_eq_ok, ends_ok, clean_obj, List.forall_mem_append, List.forall_mem_cons,
      List.not_mem_nil]
    grind

@[grind ←] theorem clean_developerResources {dev : Val} (h : Clean dev) :
    Clean (developerResources dev) := by
  have hresources := clean_get h "resources"
  have hhigh := clean_get hresources "memory_high"
  have hdirect := clean_normalizeDirectMemoryResources (clean_ownFields hresources) false
  simp only [developerResources, clean_obj, List.forall_mem_append]
  refine ⟨fun p hp ↦ hdirect p (List.mem_filter.mp hp).1, ?_⟩
  split
  · simpa using clean_canonicalOrSame hhigh
  · split
    · simpa using clean_get hhigh "weight"
    · simp

/-- The entries of the mapping `v` are values a field can be read of. -/
def Entered (v : Val) : Prop := ∀ p ∈ v.ownFields, p.2.isNullish = false

theorem normalizeMemory_ends {memory : Val} (h : Clean memory)
    (hinstances : Entered (memory.get "instances")) (hspaces : Entered (memory.get "spaces")) :
    Ends Clean (normalizeMemory memory) := by
  refine (mapValues_ends fun p hp ↦ normalizeInstance_ends
    (clean_ownFields (clean_get h _) p hp) (hinstances p hp)).bind fun instances hi ↦ ?_
  refine (mapValues_ends fun p hp ↦ normalizeSpace_ends
    (clean_ownFields (clean_get h _) p hp) (hspaces p hp)).bind fun spaces hs ↦ ?_
  simp only [pure_eq_ok, ends_ok, clean_obj, List.forall_mem_cons, List.not_mem_nil]
  grind

theorem clean_portOf (ports : List (Val × Number)) (user : Val) : Clean (portOf ports user) := by
  unfold portOf
  split
  · exact clean_num _
  · exact clean_undef

theorem normalizeDesktop_ends {dev tailscale : Val} {client : ClientFacts}
    {ports : List (Val × Number)} (h : Clean dev)
    (haccess : ListOrAbsent ((dev.get "desktop").get "access"))
    (hkeyboard : Ends Clean (resolveKeyboard dev client)) :
    Ends Clean (normalizeDesktop dev tailscale client ports) := by
  have hdesktop := clean_get h "desktop"
  have hport := clean_portOf ports (dev.get "user")
  obtain ⟨paths, hpaths, hclean⟩ := lists_defaultDesktopAccess tailscale
  simp only [normalizeDesktop, hpaths]
  refine (haccess.lists (clean_get hdesktop _) _ hclean).spread.bind fun access haccess ↦ ?_
  refine hkeyboard.bind fun keyboard hkeyboard ↦ ?_
  simp only [pure_eq_ok, ends_ok, clean_obj, List.forall_mem_cons, clean_arr, List.not_mem_nil]
  grind

theorem normalizeFileBridge_ends {fb : Val} (h : Clean fb)
    (hmounts : Lists (fun m ↦ emittable m = true ∧ m.isNullish = false)
      ((fb.get "lazy_mounts").orElse (.arr []))) : Ends Clean (normalizeFileBridge fb) := by
  have hmount : ∀ m, emittable m = true ∧ m.isNullish = false →
      Ends (fun v ↦ emittable v = true) (normalizeMount m) := by
    intro m hm
    have hclean : Clean m := .inr hm.1
    simp only [normalizeMount, read_of_present hm.2, ok_bind, pure_eq_ok, ends_ok, emittable_obj,
      List.forall_mem_cons, List.not_mem_nil]
    grind
  refine hmounts.elems.bind fun declared hdeclared ↦ ?_
  refine (Ends.mapM fun m hm ↦ hmount m (hdeclared m hm)).bind fun mounts hmounts ↦ ?_
  simp only [pure_eq_ok, ends_ok, clean_obj, List.forall_mem_cons, clean_arr, List.not_mem_nil]
  grind

/-- An entry of the registry, or one of its own. -/
def Registered (raw : Val) : Prop := ∃ entry, resolveEntry raw = .ok (.ok entry)

theorem appConfigRow_ends {raw : Val} (h : Registered raw) :
    Ends (RowOf fun v ↦ emittable v = true) (appConfigRow raw) := by
  obtain ⟨entry, hentry⟩ := h
  simp only [appConfigRow, hentry, ok_bind, pure_eq_ok, ends_ok, rowOf_some, emittable_obj]
  simp [emittable]

theorem normalizeAppConfigs_ends {ac : Val} (h : Clean ac)
    (hpaths : Lists Registered ((ac.get "paths").orElse (.arr []))) :
    Ends Clean (normalizeAppConfigs ac) := by
  refine hpaths.elems.bind fun declared hdeclared ↦ ?_
  refine (Ends.mapM fun raw hraw ↦ appConfigRow_ends (hdeclared raw hraw)).bind fun rows hrows ↦ ?_
  have hclean := clean_rows hrows
  simp only [pure_eq_ok, ends_ok, clean_obj, List.forall_mem_cons, clean_arr, List.not_mem_nil]
  grind

theorem normalizeProject_ends {p : Val} (h : ProjectShape p) :
    Ends (fun v ↦ emittable v = true) (normalizeProject p) := by
  obtain ⟨name, hname⟩ := h.name
  have hclean := h.clean
  simp only [normalizeProject, read_of_present (present_of_get hname (by simp)), ok_bind]
  refine h.ports.spread.bind fun ports hports ↦ ?_
  simp only [pure_eq_ok, ends_ok, emittable_obj, List.forall_mem_cons, clean_arr, List.not_mem_nil]
  grind

@[grind ←] theorem clean_normalizeAgentConfig {raw : Val} (h : Clean raw) :
    Clean (normalizeAgentConfig raw) := by
  unfold normalizeAgentConfig
  split
  · simp only [clean_obj, List.forall_mem_cons, List.not_mem_nil]
    grind
  · exact clean_null

/-- A developer as the generator reads it. -/
structure DeveloperShape (client : ClientFacts) (dev : Val) : Prop where
  clean : Clean dev
  user : ∃ s, dev.get "user" = .str s
  loginKeys : Lists (fun x ↦ emittable x = true) (dev.get "login_ssh_keys")
  identities : Entered (dev.get "git_identities")
  profiles : Entered (dev.get "agent_profiles")
  chains : ∀ p ∈ (dev.get "agent_profiles").ownFields, ChainShape p.2
  instances : Entered ((dev.get "memory").get "instances")
  spaces : Entered ((dev.get "memory").get "spaces")
  access : ListOrAbsent ((dev.get "desktop").get "access")
  keyboard : Ends Clean (resolveKeyboard dev client)
  mounts : Lists (fun m ↦ emittable m = true ∧ m.isNullish = false)
    (((dev.get "file_bridge").get "lazy_mounts").orElse (.arr []))
  appConfigs : Lists Registered (((dev.get "app_configs").get "paths").orElse (.arr []))
  projects : Lists ProjectShape (dev.get "projects")

theorem normalizeDeveloper_ends {tailscale hostGate dev : Val} {client : ClientFacts}
    {ports : List (Val × Number)} (hgate : Clean hostGate) (h : DeveloperShape client dev) :
    Ends (fun v ↦ emittable v = true) (normalizeDeveloper tailscale hostGate client ports dev) := by
  have hclean := h.clean
  obtain ⟨user, huser⟩ := h.user
  simp only [normalizeDeveloper, read_of_present (present_of_get huser (by simp)), ok_bind]
  refine h.loginKeys.spread.bind fun loginKeys hkeys ↦ ?_
  refine (mapValues_ends fun p hp ↦ normalizeIdentity_ends
    (clean_ownFields (clean_get hclean _) p hp) (h.identities p hp)).bind fun identities hids ↦ ?_
  refine (mapValues_ends fun p hp ↦ normalizeProfile_ends
    (clean_ownFields (clean_get hclean _) p hp) (h.profiles p hp)
    (h.chains p hp)).bind fun profiles hprofiles ↦ ?_
  refine (normalizeMemory_ends (clean_get hclean _) h.instances h.spaces).bind
    fun memory hmemory ↦ ?_
  refine (normalizeDesktop_ends hclean h.access h.keyboard).bind fun desktop hdesktop ↦ ?_
  refine (normalizeFileBridge_ends (clean_get hclean _) h.mounts).bind fun bridge hbridge ↦ ?_
  refine (normalizeAppConfigs_ends (clean_get hclean _) h.appConfigs).bind
    fun configs hconfigs ↦ ?_
  refine h.projects.elems.bind fun declared hdeclared ↦ ?_
  refine (Ends.mapM fun p hp ↦ normalizeProject_ends (hdeclared p hp)).bind
    fun projects hprojects ↦ ?_
  have hversions : Clean (.obj (dev.get "agent_versions").ownFields) :=
    clean_obj.mpr (clean_ownFields (clean_get hclean _))
  simp only [pure_eq_ok, ends_ok, emittable_obj, List.forall_mem_cons, clean_arr,
    List.not_mem_nil]
  grind

/-! ## The whole spec -/

/-- A resolved spec as the generator reads it. -/
structure SpecShape (client : ClientFacts) (resolved : Val) : Prop where
  clean : Clean resolved
  tailscale : ∃ b, ((resolved.get "network").get "tailscale").get "enabled" = .bool b
  platform : (resolved.get "platform").isNullish = false
  locales : ListOrAbsent ((resolved.get "host").get "locales")
  monitoring : ListOrAbsent (((resolved.get "host").get "monitoring").get "access")
  operator : Lists (fun x ↦ emittable x = true)
    ((resolved.get "operator").get "ssh_authorized_keys")
  ssh : ((resolved.get "network").get "ssh").isNullish = false
  engines : Lists (fun x ↦ emittable x = true) ((resolved.get "container").get "install_engines")
  limits : Lists (fun x ↦ emittable x = true ∧ x.isNullish = false)
    (((resolved.get "container").get "runtime_limits").orElse (.arr []))
  cliTargets : ListOrAbsent ((resolved.get "clients").get "cli_targets")
  developers : Lists (DeveloperShape client) (resolved.get "developers")

theorem rcUnits_ends {client : ClientFacts} {developers : List Val}
    (h : ∀ dev ∈ developers, DeveloperShape client dev) : Ends Clean (normalizeRcUnits developers) := by
  have hrows : ∀ dev ∈ developers,
      Ends (fun rows ↦ ∀ v ∈ rows, emittable v = true) (rcUnitRows dev) := by
    intro dev hdev
    have hshape := h dev hdev
    refine hshape.projects.elems.bind fun projects hprojects ↦ ?_
    refine (Ends.mapM fun p hp ↦ rcUnitRow_ends hshape.clean hshape.user (hprojects p hp)).bind
      fun rows hrows ↦ ?_
    simpa using clean_rows hrows
  refine (Ends.mapM hrows).bind fun rows hrows ↦ ?_
  simp only [pure_eq_ok, ends_ok, clean_arr, List.mem_flatten]
  rintro v ⟨group, hgroup, hv⟩
  exact hrows group hgroup v hv

theorem normalize_ends {client : ClientFacts} {resolved : Val} (h : SpecShape client resolved) :
    Ends (fun v ↦ emittable v = true) (normalize client resolved) := by
  have hclean := h.clean
  obtain ⟨tailscale, htailscale⟩ := h.tailscale
  have hgate : Clean (normalizeHeavyJobGate
      ((resolved.get "host").get "heavy_job_gate") .undef) := by grind
  simp only [normalize, tailscaleEnabled_eq htailscale, ok_bind]
  refine h.developers.elems.bind fun developers hdevs ↦ ?_
  have hdevsClean : ∀ dev ∈ developers, Clean dev := fun dev hdev ↦ (hdevs dev hdev).clean
  refine (normalizePlatform_ends (clean_get hclean _) h.platform).bind fun platform hplatform ↦ ?_
  refine (normalizeHost_ends (clean_get hclean _) h.locales h.monitoring).bind
    fun host hhost ↦ ?_
  refine (normalizeOperator_ends (clean_get hclean _) h.operator).bind fun operator hoperator ↦ ?_
  refine (normalizeNetwork_ends hclean h.ssh (clean_bool _)).bind fun network hnetwork ↦ ?_
  refine (normalizeContainer_ends (clean_get hclean _) h.engines h.limits).bind
    fun container hcontainer ↦ ?_
  have htargets := h.cliTargets.lists (clean_get (clean_get hclean _) _)
    (DEFAULT_CLI_TARGETS.map .str) (by simp [emittable])
  refine htargets.spread.bind fun cliTargets htargets ↦ ?_
  refine (rcUnits_ends hdevs).bind fun rcUnits hrc ↦ ?_
  refine (rowsOf_ends fun dev hdev ↦ codexUnitRow_ends (hdevsClean dev hdev) hclean hgate
    (hdevs dev hdev).user (hdevs dev hdev).profiles).bind fun codexUnits hcodex ↦ ?_
  refine (rowsOf_ends fun dev hdev ↦ codexRemoteControlRow_ends (hdevsClean dev hdev) hclean hgate
    (hdevs dev hdev).user).bind fun codexRcUnits hcodexRc ↦ ?_
  refine (Ends.mapM fun dev hdev ↦ normalizeDeveloper_ends hgate (hdevs dev hdev)).bind
    fun devs hdevelopers ↦ ?_
  have hbrowser := clean_normalizeBrowser hclean hdevsClean
  have hpaseo := clean_normalizePaseoUnits hgate hdevsClean
  have horca := clean_normalizeOrcaUnits hgate hdevsClean
  have hruntimes : Clean (.obj (resolved.get "runtimes").ownFields) :=
    clean_obj.mpr (clean_ownFields (clean_get hclean _))
  simp only [pure_eq_ok, ends_ok, emittable_obj, List.forall_mem_cons, clean_arr,
    List.not_mem_nil]
  grind

end RemoteDevbox.Spec
