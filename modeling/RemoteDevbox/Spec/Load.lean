import RemoteDevbox.Spec.Plan
import RemoteDevbox.Spec.Validate
import RemoteDevbox.Spec.Yaml

namespace RemoteDevbox.Spec

open Js Client

/-!
# The pipeline from a parsed document to the generated files
-/

structure LoadResult where
  resolved : Option Val
  issues : List Issue

/-- `loadSpec` after the parse: structure, then references, then resolution,
each only on what the one before let through. -/
def loadSpec (env : ClientEnv) (raw : Val) : Js LoadResult := do
  let structural ← (validateStructure env raw : Js (List Issue))
  if hasErrors structural then return ⟨none, structural⟩
  else
    let references ← (validateReferences raw : Js (List Issue))
    let issues := structural ++ references
    if hasErrors issues then return ⟨none, issues⟩
    else
      let resolution ← resolveSpec raw
      return ⟨if hasErrors resolution.issues then none else some resolution.value,
        issues ++ resolution.issues⟩

def GENERATED_HEADER : String := "\n".intercalate
  ["---",
   "# GENERATED by `devbox plan` — DO NOT EDIT.",
   "# Source of truth: devbox.yml (+ devbox.secrets.yml). Re-run `devbox plan` to refresh.",
   ""]

/-- The full generated vars file. -/
def renderVars (client : ClientFacts) (resolved : Val) : Js String := do
  let vars ← normalize client resolved
  let body ← toYaml vars
  return GENERATED_HEADER ++ body

/-- The documents `loadSpec` accepts, with what it resolves them to. -/
def Accepts (env : ClientEnv) (doc : Doc) (resolved : Val) : Prop :=
  ∃ issues, loadSpec env doc.val = .ok ⟨some resolved, issues⟩

/-- What acceptance of a document amounts to, pass by pass. -/
structure Accepted (env : ClientEnv) (doc resolved : Val) (devs : List Val) : Prop where
  structured : Structured env doc
  developers : DevelopersPass env doc devs
  referenced : Referenced doc devs
  shape : resolved = .obj (doc.ownFields.set "developers" (.arr (developersOf resolved)))
  fields : ∀ k, k ≠ "developers" → resolved.get k = doc.get k
  length : (developersOf resolved).length = devs.length
  resolved : ∀ (i : ℕ) dev, devs[i]? = some dev →
    ∃ rdev, (developersOf resolved)[i]? = some rdev ∧ ResolvedDeveloper doc dev rdev

/-- The resolved spec of an accepted value. -/
def resolvedOf (env : ClientEnv) (raw : Val) : Option Val :=
  match loadSpec env raw with
  | .ok result => result.resolved
  | .error _ => none

theorem accepts_of_resolvedOf {env : ClientEnv} {doc : Doc} {resolved : Val}
    (h : resolvedOf env doc.val = some resolved) : Accepts env doc resolved := by
  unfold resolvedOf at h
  cases hload : loadSpec env doc.val with
  | error e => simp [hload] at h
  | ok result =>
      rw [hload] at h
      obtain ⟨found, issues⟩ := result
      obtain rfl : found = some resolved := h
      exact ⟨issues, hload⟩

/-- The generated variables of an accepted value. -/
def varsOf (env : ClientEnv) (client : ClientFacts) (raw : Val) : Option Val :=
  (resolvedOf env raw).bind fun resolved ↦ (normalize client resolved).toOption

theorem vars_eq_some {env : ClientEnv} {client : ClientFacts} {doc : Doc} {vars : Val}
    (h : varsOf env client doc.val = some vars) :
    ∃ resolved, Accepts env doc resolved ∧ normalize client resolved = .ok vars := by
  obtain ⟨resolved, hresolved, hnormalize⟩ := Option.bind_eq_some_iff.mp h
  refine ⟨resolved, accepts_of_resolvedOf hresolved, ?_⟩
  cases hok : normalize client resolved with
  | error e => simp [hok, Except.toOption] at hnormalize
  | ok v =>
      rw [hok] at hnormalize
      exact congrArg Except.ok (Option.some.inj hnormalize)

theorem exists_vars (env : ClientEnv) (client : ClientFacts) (doc : Doc)
    (h : (varsOf env client doc.val).isSome = true) :
    ∃ resolved vars, Accepts env doc resolved ∧ normalize client resolved = .ok vars := by
  obtain ⟨vars, hvars⟩ := Option.isSome_iff_exists.mp h
  obtain ⟨resolved, haccepts, hnormalize⟩ := vars_eq_some hvars
  exact ⟨resolved, vars, haccepts, hnormalize⟩

def homeEnv : ClientEnv := ⟨"/home/op", "/home/op"⟩

def noClient : ClientFacts := ⟨none⟩

/-- A smallest accepted configuration, `developers` and optional sections
apart. -/
def baseSpec : Fields :=
  [("config_version", 3),
   ("platform", .obj
     [("distribution", "ubuntu"), ("version", "26.04"), ("architecture", "amd64")]),
   ("operator", .obj
     [("user", "op"), ("ssh_authorized_keys", .arr ["ssh-ed25519 AAAA"])]),
   ("network", .obj [("tailscale", .obj [("enabled", true)]), ("ssh", .obj [])]),
   ("container", .obj [("default_engine", "none"), ("install_engines", .arr ["none"])])]

/-- The base configuration with the given sections. -/
def specWith (sections developer : Fields) : Val :=
  .obj ((baseSpec.merge [("developers", .arr [.obj ([("user", .str "ada"),
    ("login_ssh_keys", .arr ["ssh-ed25519 AAAA"])] ++ developer)])]).merge sections)

theorem plain_parsed : (specWith [] []).parsed = true := by decide +kernel

theorem accepts_iff {env : ClientEnv} {doc : Doc} {resolved : Val} :
    Accepts env doc resolved ↔
      (validateStructure env doc.val).Passes ∧ (validateReferences doc.val).Passes ∧
        ∃ issues, resolveSpec doc.val = .ok ⟨resolved, issues⟩ ∧ hasErrors issues = false := by
  constructor
  · rintro ⟨issues, h⟩
    unfold loadSpec at h
    cases hstructural : validateStructure env doc.val with
    | error e => simp [hstructural] at h
    | ok structural =>
        simp only [hstructural, ok_bind] at h
        split at h
        · simp at h
        · rename_i hok
          cases hreferences : validateReferences doc.val with
          | error e => simp [hreferences] at h
          | ok references =>
              simp only [hreferences, ok_bind] at h
              split at h
              · simp at h
              · rename_i hboth
                cases hresolution : resolveSpec doc.val with
                | error e => simp [hresolution] at h
                | ok resolution =>
                    simp only [hresolution, ok_bind, pure_eq_ok, Except.ok.injEq,
                      LoadResult.mk.injEq] at h
                    simp only [hasErrors_append, Bool.or_eq_true, not_or,
                      Bool.not_eq_true] at hok hboth
                    obtain ⟨hresolved, rfl⟩ := h
                    split at hresolved
                    · cases hresolved
                    · rename_i hnone
                      obtain rfl := Option.some.inj hresolved
                      exact ⟨⟨structural, rfl, hboth.1⟩, ⟨references, rfl, hboth.2⟩,
                        resolution.issues, rfl, by simpa using hnone⟩
  · rintro ⟨⟨structural, hstructural, hs⟩, ⟨references, hreferences, hr⟩, issues, hresolution, hi⟩
    refine ⟨structural ++ references ++ issues, ?_⟩
    simp [loadSpec, hstructural, hreferences, hresolution, hs, hr, hi]

theorem accepted {env : ClientEnv} {doc : Doc} {resolved : Val} (h : Accepts env doc resolved) :
    ∃ devs, Accepted env doc.val resolved devs := by
  obtain ⟨hstructure, hreferences, issues, hresolve, hno⟩ := accepts_iff.mp h
  have hstructured := structured_of_passes hstructure
  obtain ⟨devs, hdevs⟩ := developersPass_of_passes hstructured.developers
  obtain ⟨declared, href⟩ := referenced_of_passes hreferences
  obtain rfl : devs = declared := by
    have heq := href.developers_eq
    rw [hdevs.eq] at heq
    exact Except.ok.inj heq
  have hlist : developersOf doc.val = devs := by
    rw [developersOf, hdevs.eq]
    rfl
  have hrecords : ∀ dev ∈ developersOf doc.val, dev.isRecord = true := by
    intro dev hdev
    rw [hlist] at hdev
    obtain ⟨base, hpasses⟩ := hdevs.each dev hdev
    exact hpasses.record
  obtain ⟨hshape, hlength, hresolved⟩ :=
    resolvedDevelopers hstructured.record hrecords hresolve hno
  rw [hlist] at hlength hresolved
  exact ⟨devs, hstructured, hdevs, href, hshape,
    fun k hk ↦ resolveSpec_get hstructured.record hresolve hk, hlength, hresolved⟩

/-! ## Accounts -/

theorem accepted_user {env : ClientEnv} {doc resolved : Val} {devs : List Val}
    (h : Accepted env doc resolved devs) {dev : Val} (hdev : dev ∈ devs) :
    ∃ user, dev.get "user" = .str user ∧ Text.test USERNAME_RE user = true := by
  obtain ⟨base, hpasses⟩ := h.developers.each dev hdev
  obtain ⟨user, huser⟩ := hpasses.user_eq
  refine ⟨user, huser, ?_⟩
  have hmatch := hpasses.user
  rwa [huser] at hmatch

theorem accepted_users_nodup {env : ClientEnv} {doc resolved : Val} {devs : List Val}
    (h : Accepted env doc resolved devs) :
    (devs.map fun dev ↦ dev.get "user").Nodup := by
  refine (nodup_of_fresh ?_ h.referenced.users).1
  intro v hv
  obtain ⟨dev, hdev, rfl⟩ := List.mem_map.mp hv
  obtain ⟨user, huser, _⟩ := accepted_user h hdev
  exact ⟨user, huser⟩

/-! ## The developers and projects, pairwise -/

theorem Accepted.developers_match {env : ClientEnv} {doc resolved : Val} {devs : List Val}
    (h : Accepted env doc resolved devs) :
    List.Forall₂ (fun dev rdev ↦ dev ∈ devs ∧ ResolvedDeveloper doc dev rdev) devs
      (developersOf resolved) := by
  refine forall₂_of_getElem? h.length ?_
  intro i dev hdev
  obtain ⟨rdev, hrdev, hresolved⟩ := h.resolved i dev hdev
  exact ⟨rdev, hrdev, List.mem_of_getElem? hdev, hresolved⟩

/-- `rp` is what the project `project` of `dev` resolves to. -/
def ResolvedProject (spec dev project rp : Val) : Prop :=
  ∃ r path, resolveProject spec dev project path = .ok r ∧ rp = r.value

theorem ResolvedDeveloper.projects_match {spec dev rdev : Val}
    (h : ResolvedDeveloper spec dev rdev) :
    List.Forall₂ (fun project rp ↦ project ∈ projectsOf dev ∧ ResolvedProject spec dev project rp)
      (projectsOf dev) (projectsOf rdev) := by
  refine forall₂_of_getElem? h.length ?_
  intro j project hproject
  obtain ⟨r, path, hr, hrp, _⟩ := h.projects j project hproject
  exact ⟨r.value, hrp, List.mem_of_getElem? hproject, r, path, hr, rfl⟩

/-- The generated developers, each with the developer it was written as. -/
theorem developers_match {env : ClientEnv} {client : ClientFacts}
    {doc resolved vars tailscale hostVars rcUnits : Val} {devs developers vdevs : List Val}
    (h : Accepted env doc resolved devs)
    (gen : Generated client resolved vars tailscale hostVars rcUnits developers vdevs) :
    List.Forall₂ (fun dev vdev ↦ ∃ rdev, (dev ∈ devs ∧ ResolvedDeveloper doc dev rdev) ∧
        GeneratedDeveloper tailscale client (assignClientPorts (developers.map clientPortInput))
          rdev vdev)
      devs (listOf (vars.get "devbox_developers")) :=
  forall₂_comp h.developers_match gen.developers_match

end RemoteDevbox.Spec
