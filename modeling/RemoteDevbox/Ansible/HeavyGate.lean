import RemoteDevbox.Ansible.FactsAccepted
import RemoteDevbox.Box.HeavyCommand
import RemoteDevbox.Spec.GateStages

namespace RemoteDevbox.Ansible

open Js Client Spec Box

/-!
# The gate's settings in the environments of a developer

Every agent entry point, the user manager and every agent unit carries the
gate's settings as environment variables, each through its own template.
-/

/-! ## The templates -/

/-- `{{ v | default(d) }}`: only an undefined value is replaced. -/
def defaulted (v d : Val) : Val := if v.isUndef then d else v

/-- `{{ v }}`, of the kinds of value that the templates print. -/
def printed : Val → String
  | .str s => s
  | .num n => n.toStr
  | _ => ""

@[simp] theorem printed_str (s : String) : printed (.str s) = s := rfl

def ALL_CATEGORIES : Val := .arr (HEAVY_JOB_CATEGORIES.map .str)

/-- The assignments the templates share. -/
def gateAssignments (categories waitTimeout warnAfter memoryMax memoryMaxByCategory : Val) :
    Environment :=
  [("DEVBOX_HEAVY_JOB_CATEGORIES", ",".intercalate ((listOf categories).map printed)),
   ("DEVBOX_HEAVY_JOB_WAIT_TIMEOUT_SEC", printed waitTimeout),
   ("DEVBOX_HEAVY_JOB_WARN_AFTER_SEC", printed warnAfter),
   ("DEVBOX_HEAVY_JOB_MEMORY_MAX", printed memoryMax)] ++
  memoryMaxByCategory.ownFields.map fun p ↦ (categoryLimitVar p.1, printed p.2)

/-- `heavy-gate.env.j2`, and the unit templates of Codex, its Remote Control and
Paseo. -/
def rowEnvironment (row : Val) : Environment :=
  gateAssignments (defaulted (row.get "heavy_job_gate_categories") ALL_CATEGORIES)
    (defaulted (row.get "heavy_job_gate_wait_timeout_sec") 1800)
    (defaulted (row.get "heavy_job_gate_warn_after_sec") 5)
    (defaulted (row.get "heavy_job_gate_memory_max") "8G")
    (defaulted (row.get "heavy_job_gate_memory_max_by_category") (.obj []))

/-- `orca-serve.service.j2`, the one that has hardly a default. -/
def orcaEnvironment (row : Val) : Environment :=
  gateAssignments (row.get "heavy_job_gate_categories") (row.get "heavy_job_gate_wait_timeout_sec")
    (row.get "heavy_job_gate_warn_after_sec") (row.get "heavy_job_gate_memory_max")
    (defaulted (row.get "heavy_job_gate_memory_max_by_category") (.obj []))

/-- `... | dict2items | selectattr('value', 'equalto', true) | map(attribute='key')`. -/
def enabledCategories (categories : Val) : Val :=
  .arr (categories.ownFields.filterMap fun p ↦
    if p.2.isBoolLit true then some (.str p.1) else none)

def defaultCategories : Val := .obj (HEAVY_JOB_CATEGORIES.map fun c ↦ (c, true))

/-- `heavy-gate-environment.conf.j2`, for the user manager. -/
def managerEnvironment (dev : Val) : Environment :=
  let gate := dev.get "heavy_job_gate"
  gateAssignments (enabledCategories (defaulted (gate.get "categories") defaultCategories))
    (defaulted (gate.get "wait_timeout_sec") 1800) (defaulted (gate.get "warn_after_sec") 5)
    (defaulted (gate.get "memory_max") "8G")
    (defaulted (gate.get "memory_max_by_category") (.obj []))

/-- The row of one agent profile. -/
def profileRow (dev : Val) (name : String) (profile : Val) : Val :=
  let gate := defaulted (dev.get "heavy_job_gate") (.obj [])
  .obj
    [("user", dev.get "user"),
     ("name", name),
     ("provider", profile.get "provider"),
     ("omp_model_presets", defaulted (profile.get "omp_model_presets") .null),
     ("heavy_job_gate_enabled",
       (defaulted (dev.get "heavy_job_gate") (.obj [("enabled", true)])).get "enabled"),
     ("heavy_job_gate_categories",
       enabledCategories (defaulted (gate.get "categories") defaultCategories)),
     ("heavy_job_gate_wait_timeout_sec", defaulted (gate.get "wait_timeout_sec") 1800),
     ("heavy_job_gate_warn_after_sec", defaulted (gate.get "warn_after_sec") 5),
     ("heavy_job_gate_memory_max", defaulted (gate.get "memory_max") "8G"),
     ("heavy_job_gate_memory_max_by_category",
       defaulted (gate.get "memory_max_by_category") (.obj [])),
     ("is_default", (dev.get "default_agent_profile").isStrLit name)]

def profileRows (dev : Val) : List Val :=
  (defaulted (dev.get "agent_profiles") (.obj [])).ownFields.map fun p ↦ profileRow dev p.1 p.2

/-! ## Everything written for one developer -/

/-- The rows of a list that are about one developer. -/
def rowsFor (vars : Val) (key : String) (user : Val) : List Val :=
  (listOf (vars.get key)).filter fun row ↦ (row.get "user").strictEq user

/-- A template that is skipped where the gate is off. -/
def ifEnabled (environment : Val → Environment) (row : Val) : List Environment :=
  if truth (defaulted (row.get "heavy_job_gate_enabled") true) then [environment row] else []

def developerEnvironments (dev : Val) : List Environment :=
  (profileRows dev).flatMap (ifEnabled rowEnvironment) ++
    (if truth ((dev.get "heavy_job_gate").get "enabled") then [managerEnvironment dev] else [])

def UNIT_LISTS : List String :=
  ["devbox_codex_units", "devbox_codex_remote_control_units", "devbox_paseo_units"]

/-- Every environment with the gate's settings that the roles write for `user`. -/
def gateEnvironments (vars user : Val) : List Environment :=
  (rowsFor vars "devbox_developers" user).flatMap developerEnvironments ++
    UNIT_LISTS.flatMap (fun key ↦ (rowsFor vars key user).flatMap (ifEnabled rowEnvironment)) ++
    (rowsFor vars "devbox_orca_units" user).flatMap (ifEnabled orcaEnvironment)

/-! ## What a developer's environments carry -/

/-- The categories of a gate that are on. -/
def onCategories (gate : Val) : Val :=
  .arr ((HEAVY_JOB_CATEGORIES.filter fun c ↦ ((gate.get "categories").get c).isBoolLit true).map
    .str)

/-- Every category of the gate is on or off. -/
def Switched (gate : Val) : Prop :=
  ∀ c ∈ HEAVY_JOB_CATEGORIES, ∃ b, (gate.get "categories").get c = .bool b

/-- The categories and the limits of `gate`, whatever the other settings are. -/
def Carries (gate : Val) (env : Environment) : Prop :=
  ∃ categories waitTimeout warnAfter, (Switched gate → categories = onCategories gate) ∧
    env = gateAssignments categories waitTimeout warnAfter (gate.get "memory_max")
      (gate.get "memory_max_by_category")

/-- A row that repeats the categories and the limits of `gate`. -/
structure GateRow (gate row : Val) : Prop where
  categories : (row.get "heavy_job_gate_categories").isUndef = false ∧
    (Switched gate → row.get "heavy_job_gate_categories" = onCategories gate)
  memory_max : row.get "heavy_job_gate_memory_max" = gate.get "memory_max"
  by_category : row.get "heavy_job_gate_memory_max_by_category" =
    gate.get "memory_max_by_category"

theorem defaulted_eq {v d : Val} (h : v.isUndef = false) : defaulted v d = v := by
  rw [defaulted, h]
  rfl

theorem gate_limits_defined (host developer : Val) :
    ((normalizeHeavyJobGate host developer).get "memory_max").isUndef = false ∧
      ((normalizeHeavyJobGate host developer).get "memory_max_by_category").isUndef = false := by
  refine ⟨?_, rfl⟩
  change ((canonicalOrNull (gateField host developer "memory_max" "8G")).orElse "8G").isUndef = _
  generalize gateField host developer "memory_max" "8G" = v
  cases v with
  | str s => cases h : canonicalMemorySize s <;> simp [canonicalOrNull, h] <;> rfl
  | _ => rfl

theorem gate_categories {c : String} (host developer : Val) (hc : c ∈ HEAVY_JOB_CATEGORIES) :
    ((normalizeHeavyJobGate host developer).get "categories").get c =
      gateCategory host developer c := by
  simp only [HEAVY_JOB_CATEGORIES, List.mem_cons, List.not_mem_nil, or_false] at hc
  rcases hc with rfl | rfl | rfl | rfl <;> rfl

/-- The two filters on the switches: the templates' and the generator's. -/
theorem enabledCategories_gate (host developer : Val) :
    enabledCategories ((normalizeHeavyJobGate host developer).get "categories") =
      onCategories (normalizeHeavyJobGate host developer) := by
  have hfields : ((normalizeHeavyJobGate host developer).get "categories").ownFields =
      HEAVY_JOB_CATEGORIES.map fun c ↦ (c, gateCategory host developer c) := rfl
  have hon : (HEAVY_JOB_CATEGORIES.filter fun c ↦
      (((normalizeHeavyJobGate host developer).get "categories").get c).isBoolLit true) =
        HEAVY_JOB_CATEGORIES.filter fun c ↦ (gateCategory host developer c).isBoolLit true := by
    refine List.filter_congr fun c hc ↦ ?_
    rw [gate_categories host developer hc]
  rw [enabledCategories, hfields, onCategories, hon, List.filterMap_map, ← List.filterMap_eq_filter,
    List.map_filterMap]
  refine congrArg Val.arr (List.filterMap_congr fun c _ ↦ ?_)
  cases h : (gateCategory host developer c).isBoolLit true <;> simp [h, Option.guard]

theorem onCategories_of_truthy {gate : Val} (h : Switched gate) :
    Val.arr ((HEAVY_JOB_CATEGORIES.filter fun c ↦ ((gate.get "categories").get c).truthy).map .str) =
      onCategories gate := by
  refine congrArg (fun on ↦ Val.arr (on.map .str)) (List.filter_congr fun c hc ↦ ?_)
  obtain ⟨b, hb⟩ := h c hc
  rw [hb]
  cases b <;> rfl

section Rows

variable {host developer row : Val}

theorem carries_rowEnvironment (h : GateRow (normalizeHeavyJobGate host developer) row) :
    Carries (normalizeHeavyJobGate host developer) (rowEnvironment row) := by
  obtain ⟨hmemory, hcategory⟩ := gate_limits_defined host developer
  rw [rowEnvironment, h.memory_max, h.by_category, defaulted_eq hmemory, defaulted_eq hcategory,
    defaulted_eq h.categories.1]
  exact ⟨_, _, _, h.categories.2, rfl⟩

theorem carries_orcaEnvironment (h : GateRow (normalizeHeavyJobGate host developer) row) :
    Carries (normalizeHeavyJobGate host developer) (orcaEnvironment row) := by
  obtain ⟨_, hcategory⟩ := gate_limits_defined host developer
  rw [orcaEnvironment, h.memory_max, h.by_category, defaulted_eq hcategory]
  exact ⟨_, _, _, h.categories.2, rfl⟩

theorem carries_managerEnvironment {dev : Val}
    (h : dev.get "heavy_job_gate" = normalizeHeavyJobGate host developer) :
    Carries (normalizeHeavyJobGate host developer) (managerEnvironment dev) := by
  obtain ⟨hmemory, hcategory⟩ := gate_limits_defined host developer
  rw [managerEnvironment, h, defaulted_eq hmemory, defaulted_eq hcategory]
  exact ⟨_, _, _, fun _ ↦ enabledCategories_gate host developer, rfl⟩

theorem gateRow_profile {dev : Val} {name : String} {profile : Val}
    (h : dev.get "heavy_job_gate" = normalizeHeavyJobGate host developer) :
    GateRow (normalizeHeavyJobGate host developer) (profileRow dev name profile) := by
  obtain ⟨hmemory, hcategory⟩ := gate_limits_defined host developer
  have hgate : defaulted (dev.get "heavy_job_gate") (.obj []) =
      normalizeHeavyJobGate host developer := by
    rw [h]
    rfl
  refine ⟨⟨rfl, fun _ ↦ ?_⟩, ?_, ?_⟩
  · change enabledCategories (defaulted ((defaulted (dev.get "heavy_job_gate") (.obj [])).get
      "categories") defaultCategories) = _
    rw [hgate]
    exact enabledCategories_gate host developer
  · change defaulted ((defaulted (dev.get "heavy_job_gate") (.obj [])).get "memory_max") "8G" = _
    rw [hgate, defaulted_eq hmemory]
  · change defaulted ((defaulted (dev.get "heavy_job_gate") (.obj [])).get
      "memory_max_by_category") (.obj []) = _
    rw [hgate, defaulted_eq hcategory]

theorem carries_of_ifEnabled {gate : Val} {environment : Val → Environment} {env : Environment}
    (hcarries : Carries gate (environment row)) (h : env ∈ ifEnabled environment row) :
    Carries gate env := by
  unfold ifEnabled at h
  split at h
  · rwa [List.mem_singleton.mp h]
  · cases h

theorem carries_developerEnvironments {dev : Val} {env : Environment}
    (h : dev.get "heavy_job_gate" = normalizeHeavyJobGate host developer)
    (henv : env ∈ developerEnvironments dev) :
    Carries (normalizeHeavyJobGate host developer) env := by
  rcases List.mem_append.mp henv with henv | henv
  · obtain ⟨row, hrow, henv⟩ := List.mem_flatMap.mp henv
    obtain ⟨p, _, rfl⟩ := List.mem_map.mp hrow
    exact carries_of_ifEnabled (carries_rowEnvironment (gateRow_profile h)) henv
  · split at henv
    · rw [List.mem_singleton.mp henv]
      exact carries_managerEnvironment h
    · cases henv

end Rows

/-! ## Which developer a unit's row repeats -/

/-- The row of `dev`, whose gate has the host's settings behind its own. -/
def RowOf (hostGate dev row : Val) : Prop :=
  row.get "user" = dev.get "user" ∧
    GateRow (normalizeHeavyJobGate hostGate (dev.get "heavy_job_gate")) row

theorem mem_rowsOf {developers : List Val} {f : Val → Js (Option Val)} {out row : Val}
    (h : rowsOf developers f = .ok out) (hrow : row ∈ listOf out) :
    ∃ dev ∈ developers, f dev = .ok (some row) := by
  simp only [rowsOf, bind_eq_ok, pure_eq_ok, Except.ok.injEq] at h
  obtain ⟨rows, hrows, rfl⟩ := h
  obtain ⟨found, hfound, hsome⟩ := List.mem_filterMap.mp hrow
  obtain ⟨dev, hdev, heq⟩ := forall₂_exists_left (mapM_eq_ok.mp hrows) hfound
  exact ⟨dev, hdev, heq.trans (congrArg Except.ok hsome)⟩

theorem codexUnitRow_rowOf {resolved hostGate dev row : Val}
    (h : codexUnitRow resolved hostGate dev = .ok (some row)) : RowOf hostGate dev row := by
  simp only [codexUnitRow, bind_eq_ok] at h
  obtain ⟨profile, _, h⟩ := h
  cases profile with
  | none => cases h
  | some profile =>
      simp only at h
      split at h
      · cases h
      · simp only [bind_eq_ok, pure_eq_ok, Except.ok.injEq, Option.some.injEq] at h
        obtain ⟨home, _, rfl⟩ := h
        exact ⟨rfl, ⟨rfl, onCategories_of_truthy⟩, rfl, rfl⟩

theorem codexRemoteControlRow_rowOf {resolved hostGate dev row : Val}
    (h : codexRemoteControlRow resolved hostGate dev = .ok (some row)) :
    RowOf hostGate dev row := by
  unfold codexRemoteControlRow at h
  split at h
  · cases h
  · simp only [bind_eq_ok, pure_eq_ok, Except.ok.injEq, Option.some.injEq] at h
    obtain ⟨home, _, rfl⟩ := h
    exact ⟨rfl, ⟨rfl, onCategories_of_truthy⟩, rfl, rfl⟩

theorem paseoUnitRow_rowOf {hostGate dev row : Val} (h : paseoUnitRow hostGate dev = some row) :
    RowOf hostGate dev row := by
  unfold paseoUnitRow at h
  split at h
  · cases h
  · obtain rfl := Option.some.inj h
    exact ⟨rfl, ⟨rfl, onCategories_of_truthy⟩, rfl, rfl⟩

theorem orcaUnitRow_rowOf {hostGate dev row : Val} (h : orcaUnitRow hostGate dev = some row) :
    RowOf hostGate dev row := by
  unfold orcaUnitRow at h
  simp only at h
  split at h
  · cases h
  · obtain rfl := Option.some.inj h
    exact ⟨rfl, ⟨rfl, onCategories_of_truthy⟩, rfl, rfl⟩

/-- Every environment of an account carries the gate of a developer it belongs to. -/
theorem gateEnvironments_carry {client : ClientFacts} {resolved vars user : Val} {env : Environment}
    (h : normalize client resolved = .ok vars) (henv : env ∈ gateEnvironments vars user) :
    ∃ rdev ∈ developersOf resolved, (rdev.get "user").strictEq user = true ∧
      Carries (developerGate ((resolved.get "host").get "heavy_job_gate")
        (rdev.get "heavy_job_gate")) env := by
  simp only [Spec.normalize, bind_eq_ok] at h
  obtain ⟨tailscale, _, developers, hdevelopers, _, _, _, _, _, _, _, _, _, _, _, _, _, _,
    codexUnits, hcodex, codexRcUnits, hcodexRc, devs, hdevs, hvars⟩ := h
  simp only [pure_eq_ok, Except.ok.injEq] at hvars
  rw [developersOf, listOf_of_elems hdevelopers]
  have hunit : ∀ (environment : Val → Environment) (row : Val),
      (∀ gate host developer, gate = normalizeHeavyJobGate host developer → GateRow gate row →
        Carries gate (environment row)) →
      (∃ dev ∈ developers, RowOf (normalizeHeavyJobGate
        ((resolved.get "host").get "heavy_job_gate") .undef) dev row) →
      (row.get "user").strictEq user = true → env ∈ ifEnabled environment row →
      ∃ rdev ∈ developers, (rdev.get "user").strictEq user = true ∧
        Carries (developerGate ((resolved.get "host").get "heavy_job_gate")
          (rdev.get "heavy_job_gate")) env := by
    rintro environment row hcarries ⟨dev, hdev, huser, hgate⟩ hrow henabled
    refine ⟨dev, hdev, huser ▸ hrow, carries_of_ifEnabled ?_ henabled⟩
    exact hcarries _ _ _ rfl hgate
  rcases List.mem_append.mp henv with henv | henv
  · rcases List.mem_append.mp henv with henv | henv
    · obtain ⟨vdev, hvdev, henv⟩ := List.mem_flatMap.mp henv
      obtain ⟨hmem, huser⟩ := List.mem_filter.mp hvdev
      have hlist : listOf (vars.get "devbox_developers") = devs := by
        rw [← hvars]
        rfl
      rw [hlist] at hmem
      obtain ⟨rdev, hrdev, hnormal⟩ := forall₂_exists_left (mapM_eq_ok.mp hdevs) hmem
      refine ⟨rdev, hrdev, ?_, ?_⟩
      · rwa [← (generatedDeveloper hnormal).user]
      · exact carries_developerEnvironments (normalizeDeveloper_gate hnormal) henv
    · obtain ⟨key, hkey, henv⟩ := List.mem_flatMap.mp henv
      obtain ⟨row, hrow, henabled⟩ := List.mem_flatMap.mp henv
      obtain ⟨hmem, huser⟩ := List.mem_filter.mp hrow
      refine hunit _ row ?_ ?_ huser henabled
      · rintro _ host developer rfl hgate
        exact carries_rowEnvironment hgate
      · rw [← hvars] at hmem
        simp only [UNIT_LISTS, List.mem_cons, List.not_mem_nil, or_false] at hkey
        rcases hkey with rfl | rfl | rfl
        · obtain ⟨dev, hdev, heq⟩ := mem_rowsOf hcodex hmem
          exact ⟨dev, hdev, codexUnitRow_rowOf heq⟩
        · obtain ⟨dev, hdev, heq⟩ := mem_rowsOf hcodexRc hmem
          exact ⟨dev, hdev, codexRemoteControlRow_rowOf heq⟩
        · obtain ⟨dev, hdev, heq⟩ := List.mem_filterMap.mp hmem
          exact ⟨dev, hdev, paseoUnitRow_rowOf heq⟩
  · obtain ⟨row, hrow, henabled⟩ := List.mem_flatMap.mp henv
    obtain ⟨hmem, huser⟩ := List.mem_filter.mp hrow
    refine hunit _ row ?_ ?_ huser henabled
    · rintro _ host developer rfl hgate
      exact carries_orcaEnvironment hgate
    · rw [← hvars] at hmem
      obtain ⟨dev, hdev, heq⟩ := List.mem_filterMap.mp hmem
      exact ⟨dev, hdev, orcaUnitRow_rowOf heq⟩

/-! ## The limits as the gate reads them -/

theorem categoryLimitVar_ne {name : String}
    (h : name.length < "DEVBOX_HEAVY_JOB_MEMORY_MAX_".length) (category : String) :
    categoryLimitVar category ≠ name := by
  intro heq
  have hlong : (categoryLimitVar category).length =
      "DEVBOX_HEAVY_JOB_MEMORY_MAX_".length + (upper category).length := String.length_append _ _
  rw [heq] at hlong
  exact absurd hlong (ne_of_lt (Nat.lt_add_right _ h))

theorem categoryLimitVar_inj : ∀ c ∈ HEAVY_JOB_CATEGORIES, ∀ d ∈ HEAVY_JOB_CATEGORIES,
    categoryLimitVar c = categoryLimitVar d → c = d := by
  decide +kernel

section Values

variable {categories waitTimeout warnAfter memoryMax memoryMaxByCategory : Val}

theorem value_overall :
    (gateAssignments categories waitTimeout warnAfter memoryMax memoryMaxByCategory).value
      "DEVBOX_HEAVY_JOB_MEMORY_MAX" = some (printed memoryMax) := by
  rw [gateAssignments, Environment.value_append, Environment.value_eq_none]
  · rfl
  · intro p hp
    obtain ⟨q, _, rfl⟩ := List.mem_map.mp hp
    exact categoryLimitVar_ne (by decide +kernel) q.1

theorem value_categories :
    (gateAssignments categories waitTimeout warnAfter memoryMax memoryMaxByCategory).value
      "DEVBOX_HEAVY_JOB_CATEGORIES" =
        some (",".intercalate ((listOf categories).map printed)) := by
  rw [gateAssignments, Environment.value_append, Environment.value_eq_none]
  · rfl
  · intro p hp
    obtain ⟨q, _, rfl⟩ := List.mem_map.mp hp
    exact categoryLimitVar_ne (by decide +kernel) q.1

theorem value_category {category : String} (h : category ∈ HEAVY_JOB_CATEGORIES) :
    (gateAssignments categories waitTimeout warnAfter memoryMax memoryMaxByCategory).value
      (categoryLimitVar category) =
    Environment.value (memoryMaxByCategory.ownFields.map fun p ↦
      (categoryLimitVar p.1, printed p.2)) (categoryLimitVar category) := by
  have hfixed : ∀ c ∈ HEAVY_JOB_CATEGORIES, ∀ name ∈ ["DEVBOX_HEAVY_JOB_CATEGORIES",
      "DEVBOX_HEAVY_JOB_WAIT_TIMEOUT_SEC", "DEVBOX_HEAVY_JOB_WARN_AFTER_SEC",
      "DEVBOX_HEAVY_JOB_MEMORY_MAX"], name ≠ categoryLimitVar c := by
    decide +kernel
  rw [gateAssignments, Environment.value_append]
  refine (congrArg _ (Environment.value_eq_none ?_)).trans Option.or_none
  intro p hp
  simp only [List.mem_cons, List.not_mem_nil, or_false] at hp
  rcases hp with rfl | rfl | rfl | rfl <;> exact hfixed category h _ (by simp)

end Values

/-- Each stated limit has its own variable, and an absent one has none. -/
theorem value_filterMap {f g : String → Val} {ks : List String} {k : String}
    (hks : ∀ c ∈ ks, c ∈ HEAVY_JOB_CATEGORIES) (hk : k ∈ ks) :
    Environment.value ((ks.filterMap fun c ↦ if (f c).isUndef then none else some (c, g c)).map
      fun p ↦ (categoryLimitVar p.1, printed p.2)) (categoryLimitVar k) =
      if (f k).isUndef then none else some (printed (g k)) := by
  have hcategory := hks k hk
  have habsent : ∀ ks : List String, (∀ c ∈ ks, c ∈ HEAVY_JOB_CATEGORIES) → k ∉ ks →
      Environment.value ((ks.filterMap fun c ↦ if (f c).isUndef then none else some (c, g c)).map
        fun p ↦ (categoryLimitVar p.1, printed p.2)) (categoryLimitVar k) = none := by
    intro ks hks hk
    refine Environment.value_eq_none ?_
    intro p hp heq
    obtain ⟨q, hq, rfl⟩ := List.mem_map.mp hp
    obtain ⟨c, hc, hsome⟩ := List.mem_filterMap.mp hq
    split at hsome
    · cases hsome
    · obtain rfl := Option.some.inj hsome
      exact hk (categoryLimitVar_inj c (hks c hc) k hcategory heq ▸ hc)
  induction ks with
  | nil => cases hk
  | cons c ks ih =>
      have htail : ∀ d ∈ ks, d ∈ HEAVY_JOB_CATEGORIES := fun d hd ↦ hks d (List.mem_cons_of_mem c hd)
      rw [List.filterMap_cons]
      by_cases hin : k ∈ ks
      · have hrest := ih htail hin
        by_cases hundef : (f c).isUndef = true
        · simpa only [hundef, if_true] using hrest
        · simp only [hundef, Bool.false_eq_true, if_false, List.map_cons, Environment.value, hrest]
          by_cases hk' : (f k).isUndef = true
          · have hne : categoryLimitVar c ≠ categoryLimitVar k := by
              intro heq
              rw [categoryLimitVar_inj c (hks c List.mem_cons_self) k hcategory heq] at hundef
              exact hundef hk'
            simp [hk', hne]
          · simp [hk']
      · obtain rfl := (List.mem_cons.mp hk).resolve_right hin
        have hrest := habsent ks htail hin
        by_cases hundef : (f k).isUndef = true
        · simpa only [hundef, if_true] using hrest
        · simp only [hundef, Bool.false_eq_true, if_false, List.map_cons, Environment.value, hrest]
          rfl

/-- A category is found in the list that its environment carries if it is on. -/
theorem categoryEnabled_on {env : Environment} {on : String → Bool} {category : String}
    (h : env.value "DEVBOX_HEAVY_JOB_CATEGORIES" =
      some (",".intercalate (HEAVY_JOB_CATEGORIES.filter on)))
    (hcategory : category ∈ HEAVY_JOB_CATEGORIES) : categoryEnabled env category = on category := by
  rw [categoryEnabled, Environment.orMissing, h, Option.getD_some]
  simp only [HEAVY_JOB_CATEGORIES, List.mem_cons, List.not_mem_nil, or_false] at hcategory
  simp only [HEAVY_JOB_CATEGORIES, List.filter_cons, List.filter_nil]
  -- sixteen lists, and four categories to look for in each
  cases hbuild : on "build" <;> cases htypecheck : on "typecheck" <;>
    cases hgenerate : on "generate" <;> cases htest : on "test" <;>
    rcases hcategory with rfl | rfl | rfl | rfl <;>
    simp only [hbuild, htypecheck, hgenerate, htest] <;> decide +kernel

theorem carried_category {gate : Val} {env : Environment} {category : String}
    (h : Carries gate env) (hgate : Switched gate) (hcategory : category ∈ HEAVY_JOB_CATEGORIES) :
    categoryEnabled env category = ((gate.get "categories").get category).isBoolLit true := by
  obtain ⟨categories, waitTimeout, warnAfter, hcategories, rfl⟩ := h
  have hvalue : (gateAssignments categories waitTimeout warnAfter (gate.get "memory_max")
      (gate.get "memory_max_by_category")).value "DEVBOX_HEAVY_JOB_CATEGORIES" =
        some (",".intercalate (HEAVY_JOB_CATEGORIES.filter fun c ↦
          ((gate.get "categories").get c).isBoolLit true)) := by
    refine value_categories.trans ?_
    rw [hcategories hgate, onCategories, listOf, List.map_map]
    exact congrArg (fun on ↦ some (",".intercalate on)) (List.map_id _)
  exact categoryEnabled_on hvalue hcategory

/-- The two limits that a job of the category finds in its environment. -/
theorem carried_limits {host developer : Val} {env : Environment} {category : String}
    (h : Carries (normalizeHeavyJobGate host developer) env)
    (hcategory : category ∈ HEAVY_JOB_CATEGORIES) :
    env.value "DEVBOX_HEAVY_JOB_MEMORY_MAX" =
        some (printed ((normalizeHeavyJobGate host developer).get "memory_max")) ∧
      env.value (categoryLimitVar category) =
        let limit := ((normalizeHeavyJobGate host developer).get "memory_max_by_category").get
          category
        if limit.isUndef then none else some (printed limit) := by
  obtain ⟨categories, waitTimeout, warnAfter, -, rfl⟩ := h
  refine ⟨value_overall, (value_category hcategory).trans ?_⟩
  refine (value_filterMap (f := gateCategoryMemory host developer)
    (g := fun c ↦ canonicalOrSame (gateCategoryMemory host developer c))
    (fun _ hc ↦ hc) hcategory).trans ?_
  rw [gate_category hcategory]
  generalize gateCategoryMemory host developer category = limit
  cases limit <;> rfl

/-! ## The ceiling the gate applies -/

theorem memoryMax_of_values {env : Environment} {category overall c : String}
    (hoverall : env.value "DEVBOX_HEAVY_JOB_MEMORY_MAX" = some overall)
    (hcategory : env.value (categoryLimitVar category) = some c ∧ c ≠ "" ∨
      (env.value (categoryLimitVar category) = none ∨
        env.value (categoryLimitVar category) = some "") ∧
        c = if overall = "" then "8G" else overall)
    (hc : c ≠ "infinity") : Box.memoryMax env category = c := by
  have hread : env.orWord "DEVBOX_HEAVY_JOB_MEMORY_MAX" "8G" =
      if overall = "" then "8G" else overall := by
    simp [Environment.orWord, hoverall]
  rw [Box.memoryMax, hread]
  rcases hcategory with ⟨hvalue, hne⟩ | ⟨hnone | hempty, rfl⟩
  · simp [Environment.orWord, hvalue, hne, hc]
  · simp only [Environment.orWord, hnone, if_neg hc]
  · simp only [Environment.orWord, hempty, if_true, if_neg hc]

/-- One environment, one category that is on: the gate applies the ceiling asked for
unless the limit asked for is the empty one, which it takes for a missing one. -/
theorem applied_on_iff {host developer : Val} {env : Environment} {category : String}
    (hhost : GateLimits host) (hdev : GateLimits developer)
    (h : Carries (developerGate host developer) env) (hcategory : category ∈ HEAVY_JOB_CATEGORIES)
    (hon : categoryEnabled env category = true) :
    appliedCeiling true env category = ceiling host developer category ↔
      consultedLimit host developer category ≠ .str "" := by
  obtain ⟨hoverall, hlimit⟩ := carried_limits h hcategory
  obtain ⟨s, c, hs, hc, hwritten⟩ := overall_limit hhost hdev
  rw [show normalizeHeavyJobGate (normalizeHeavyJobGate host .undef) developer =
    developerGate host developer from rfl] at hoverall hlimit
  rw [hwritten] at hoverall
  have hdefault : ∀ d : String, d = (if c = "" then "8G" else c) → d ≠ "" ∧ d ≠ "infinity" := by
    rintro d rfl
    split
    · decide
    · rename_i hne
      refine canonical_ne hc ?_
      rintro rfl
      exact hne (Option.some.inj hc).symm
  have happlied : ∀ d : String, Box.memoryMax env category = d → d ≠ "" →
      appliedCeiling true env category = some d := by
    rintro d rfl hne
    rw [appliedCeiling_eq hon, if_neg hne]
  rw [ceiling, consultedLimit_eq, hs]
  rcases category_limit hhost hdev hcategory with ⟨hundef, hnone⟩ | ⟨t, d, ht, hd, hstated⟩
  · rw [hnone] at hlimit
    obtain ⟨hne, hinf⟩ := hdefault _ rfl
    rw [happlied _ (memoryMax_of_values hoverall (.inr ⟨.inl hlimit, rfl⟩) hinf) hne, hundef]
    change some _ = (if s = "" then none else canonicalMemorySize s) ↔ Val.str s ≠ _
    by_cases hempty : s = ""
    · simp [hempty]
    · have hcne := (canonical_ne hc hempty).1
      simp [hempty, hcne, hc]
  · rw [hstated] at hlimit
    rw [ht]
    change _ = (if t = "" then none else canonicalMemorySize t) ↔ Val.str t ≠ _
    by_cases hempty : t = ""
    · obtain rfl : d = "" := by
        rw [hempty] at hd
        exact (Option.some.inj hd).symm
      obtain ⟨hne, hinf⟩ := hdefault _ rfl
      rw [happlied _ (memoryMax_of_values hoverall (.inr ⟨.inr hlimit, rfl⟩) hinf) hne]
      simp [hempty]
    · obtain ⟨hdne, hdinf⟩ := canonical_ne hd hempty
      rw [happlied _ (memoryMax_of_values hoverall (.inl ⟨hlimit, hdne⟩) hdinf) hdne]
      simp [hempty, hd]

/-- A ceiling is asked for unless the limit that is consulted is the empty one. -/
theorem ceiling_eq_none {host developer : Val} {category : String}
    (hhost : GateLimits host) (hdev : GateLimits developer)
    (hcategory : category ∈ HEAVY_JOB_CATEGORIES) :
    ceiling host developer category = none ↔ consultedLimit host developer category = .str "" := by
  have hlimit : ∃ s c, consultedLimit host developer category = .str s ∧
      canonicalMemorySize s = some c := by
    rw [consultedLimit_eq]
    obtain ⟨s, c, hs, hc, -⟩ := overall_limit hhost hdev
    rcases category_limit hhost hdev hcategory with ⟨hundef, -⟩ | ⟨t, d, ht, hd, -⟩
    · rw [hundef, hs]
      exact ⟨s, c, rfl, hc⟩
    · rw [ht]
      exact ⟨t, d, rfl, hd⟩
  obtain ⟨s, c, hs, hc⟩ := hlimit
  rw [ceiling, hs]
  by_cases hempty : s = "" <;> simp [hempty, hc]

theorem switched_of_switches {host developer : Val} (hhost : GateSwitches host)
    (hdev : GateSwitches developer) : Switched (developerGate host developer) := by
  intro c hc
  rw [normalize_stage, gate_categories host developer hc, gateCategory]
  rcases hdev c hc with hdev | ⟨b, hb⟩
  · rw [hdev]
    rcases hhost c hc with hhost | ⟨b, hb⟩
    · rw [hhost]
      exact ⟨true, rfl⟩
    · rw [hb]
      exact ⟨b, rfl⟩
  · rw [hb]
    exact ⟨b, rfl⟩

theorem switchedOn_eq (host developer : Val) {category : String}
    (hcategory : category ∈ HEAVY_JOB_CATEGORIES) :
    (((developerGate host developer).get "categories").get category).isBoolLit true =
      switchedOn host developer category := by
  rw [normalize_stage, gate_categories host developer hcategory, gateCategory, ← firstStated_pair]
  rfl

/-- One environment, one category. -/
theorem applied_iff {host developer : Val} {env : Environment} {category : String}
    (hhost : ValidGate host) (hdev : ValidGate developer)
    (h : Carries (developerGate host developer) env)
    (hcategory : category ∈ HEAVY_JOB_CATEGORIES) :
    appliedCeiling true env category = ceiling host developer category ↔
      (switchedOn host developer category = true ↔
        consultedLimit host developer category ≠ .str "") := by
  obtain ⟨_, hhost⟩ := hhost
  obtain ⟨_, hdev⟩ := hdev
  have hlimits := gateLimits_of_passes hhost
  have hlimits' := gateLimits_of_passes hdev
  have henabled : categoryEnabled env category = switchedOn host developer category :=
    (carried_category h (switched_of_switches (gateSwitches_of_passes hhost)
      (gateSwitches_of_passes hdev)) hcategory).trans (switchedOn_eq host developer hcategory)
  cases hon : switchedOn host developer category with
  | true =>
      rw [applied_on_iff hlimits hlimits' h hcategory (henabled.trans hon)]
      simp
  | false =>
      rw [appliedCeiling_off true (henabled.trans hon), eq_comm, ceiling_eq_none hlimits hlimits'
        hcategory]
      simp

theorem host_gate_passes {raw : Val} (h : (validateHost raw).Passes) :
    ValidGate ((raw.get "host").get "heavy_job_gate") := by
  rcases Check.passes_section?.mp h with hundef | ⟨fs, hobj, hbody⟩
  · rw [hundef]
    exact ⟨"", Check.passes_section?.mpr (.inl rfl)⟩
  · rw [hobj]
    simp only [Check.passes_append, passes_optional, and_assoc] at hbody
    obtain ⟨_, _, _, _, _, _, _, _, hgate, _⟩ := hbody
    exact ⟨_, hgate⟩

theorem eq_of_strictEq_str {v : Val} {s : String} (h : v.strictEq (.str s) = true) : v = .str s := by
  cases v with
  | str t => rw [beq_iff_eq.mp (show (t == s) = true from h)]
  | _ => cases h

/-- Of every job of every category, whichever environment it was started from: a category that is
off gets no ceiling, one that is on gets the one asked for unless none is. -/
theorem memory_ceiling_iff {env : ClientEnv} {client : ClientFacts} {doc : Doc}
    {resolved vars dev : Val} {environment : Environment} {category : String}
    (h : Accepts env doc resolved) (hvars : normalize client resolved = .ok vars)
    (hdev : dev ∈ developersOf doc.val)
    (henvironment : environment ∈ gateEnvironments vars (dev.get "user"))
    (hcategory : category ∈ HEAVY_JOB_CATEGORIES) :
    appliedCeiling true environment category =
        ceiling ((doc.val.get "host").get "heavy_job_gate") (dev.get "heavy_job_gate") category ↔
      (switchedOn ((doc.val.get "host").get "heavy_job_gate") (dev.get "heavy_job_gate")
          category = true ↔
        consultedLimit ((doc.val.get "host").get "heavy_job_gate") (dev.get "heavy_job_gate")
          category ≠ .str "") := by
  obtain ⟨devs, haccepted⟩ := accepted h
  have hlist : developersOf doc.val = devs := by
    rw [developersOf, haccepted.developers.eq]
    rfl
  rw [hlist] at hdev
  obtain ⟨rdev, hrdev, huser, hcarries⟩ := gateEnvironments_carry hvars henvironment
  obtain ⟨owner, howner, _, hresolved⟩ := forall₂_exists_left haccepted.developers_match hrdev
  obtain ⟨user, hname, _⟩ := accepted_user haccepted hdev
  rw [hname] at huser
  have hsame : owner.get "user" = dev.get "user" := by
    rw [← hresolved.fields "user" (by decide), eq_of_strictEq_str huser, hname]
  obtain rfl : owner = dev :=
    List.inj_on_of_nodup_map (accepted_users_nodup haccepted) howner hdev hsame
  rw [haccepted.fields "host" (by decide), hresolved.fields "heavy_job_gate" (by decide)]
    at hcarries
  obtain ⟨base, hpasses⟩ := haccepted.developers.each owner hdev
  exact applied_iff (host_gate_passes haccepted.structured.host)
    ⟨_, hpasses.gate⟩ hcarries hcategory

/-- A host whose heavy jobs have the overall limit `memoryMax`. -/
def gateSpec (memoryMax : String) : Val :=
  specWith [("host", .obj [("heavy_job_gate", .obj [("memory_max", .str memoryMax)])])] []

def uncappedSpec : Doc := ⟨gateSpec "", by decide +kernel⟩

def cappedSpec : Doc := ⟨gateSpec "12G", by decide +kernel⟩

def hostGateOf (doc : Doc) : Val := (doc.val.get "host").get "heavy_job_gate"

/-- The host asks for no ceiling, and its builds get one of 8G. -/
theorem uncapped_job_capped :
    ∃ resolved vars environment, Accepts homeEnv uncappedSpec resolved ∧
      normalize noClient resolved = .ok vars ∧ environment ∈ gateEnvironments vars "ada" ∧
      appliedCeiling true environment "build" = some "8G" ∧
      ∀ dev ∈ developersOf uncappedSpec.val, dev.get "user" = "ada" ∧
        ceiling (hostGateOf uncappedSpec) (dev.get "heavy_job_gate") "build" = none := by
  have hread : ((varsOf homeEnv noClient uncappedSpec.val).map fun vars ↦
      (gateEnvironments vars "ada").map fun env ↦ appliedCeiling true env "build") =
        some [some "8G"] := by decide +kernel
  obtain ⟨vars, hvars, hread⟩ := Option.map_eq_some_iff.mp hread
  obtain ⟨environment, hmem, happlied⟩ := List.mem_map.mp (hread ▸ List.mem_singleton_self _)
  obtain ⟨resolved, haccepts, hnormalize⟩ := vars_eq_some hvars
  refine ⟨resolved, vars, environment, haccepts, hnormalize, hmem, happlied, ?_⟩
  intro dev hdev
  rw [List.mem_singleton.mp hdev]
  exact ⟨rfl, rfl⟩

theorem capped_job_capped :
    ∃ resolved vars environment, Accepts homeEnv cappedSpec resolved ∧
      normalize noClient resolved = .ok vars ∧ environment ∈ gateEnvironments vars "ada" ∧
      ∃ dev ∈ developersOf cappedSpec.val,
        (appliedCeiling true environment "build" =
            ceiling (hostGateOf cappedSpec) (dev.get "heavy_job_gate") "build" ↔
          (switchedOn (hostGateOf cappedSpec) (dev.get "heavy_job_gate") "build" = true ↔
            consultedLimit (hostGateOf cappedSpec) (dev.get "heavy_job_gate") "build" ≠
              .str "")) := by
  have hread : ((varsOf homeEnv noClient cappedSpec.val).map fun vars ↦
      (gateEnvironments vars "ada").length) = some 1 := by decide +kernel
  obtain ⟨vars, hvars, hlength⟩ := Option.map_eq_some_iff.mp hread
  obtain ⟨environment, hone⟩ := List.length_eq_one_iff.mp hlength
  have hmem : environment ∈ gateEnvironments vars "ada" := by simp [hone]
  obtain ⟨resolved, haccepts, hnormalize⟩ := vars_eq_some hvars
  refine ⟨resolved, vars, environment, haccepts, hnormalize, hmem, _, List.mem_singleton_self _, ?_⟩
  exact memory_ceiling_iff haccepts hnormalize (List.mem_singleton_self _) hmem (by decide)

end RemoteDevbox.Ansible
