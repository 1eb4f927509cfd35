import RemoteDevbox.Spec.References

namespace RemoteDevbox.Spec

open Js

/-!
# Resolution of the developer model

The default and override chains. What comes out has no optional fields left
in its projects, and an ambiguous choice is an error.

  git identity      project → developer default → sole identity → none → ambiguous
  agent profile     project → developer default → sole profile  → none → ambiguous
  container engine  project → developer → global default → "none"
  memory space      memory off → project → agent profile → developer default →
                    sole space → none → ambiguous
-/

def defaultDesktopAccess (tailscaleEnabled : Val) : Val :=
  if tailscaleEnabled.truthy then .arr ["tunnel", "tailnet"] else .arr ["tunnel"]

def defaultSshAccess (tailscaleEnabled : Val) : Val :=
  if tailscaleEnabled.truthy then .arr ["public", "tailnet"] else .arr ["public"]

/-- A value, a name or `null`, with the complaint when there was no telling. -/
structure Choice where
  value : Val
  issue : List Issue

def Choice.of (value : Val) : Choice := ⟨value, []⟩

/-- override → explicit default → sole candidate → nothing declared → ambiguous. -/
def chooseNamed (override fallback : Val) (available : List String) (path what : String) : Choice :=
  if override.truthy then .of override
  else if fallback.truthy then .of fallback
  else
    match available with
    | [sole] => .of sole
    | [] => .of .null
    | names =>
        ⟨.null, [err path s!"{names.length} {what}s are declared ({listed names}) but neither a default nor a per-project choice — pick one"]⟩

def resolveEngine (spec dev project : Val) : Val :=
  (project.get "container_engine").orElse ((dev.get "container_engine").orElse
    (((spec.get "container").get "default_engine").orElse "none"))

def resolveGitIdentity (dev project : Val) (path : String) : Choice :=
  chooseNamed (project.get "git_identity") (dev.get "default_git_identity")
    (keysOf (dev.get "git_identities")) path "git identity"

def resolveAgentProfile (dev project : Val) (path : String) : Choice :=
  chooseNamed (project.get "agent_profile") (dev.get "default_agent_profile")
    (keysOf (dev.get "agent_profiles")) path "agent profile"

/-- `o?.[k]` for a name computed from data; only a string names a property. -/
def member (o k : Val) : Val :=
  match o, k with
  | .obj fs, .str key => Val.index fs key
  | _, _ => .undef

def offWhenNone (space : Val) : Val := if space.isStrLit "none" then .null else space

def resolveMemorySpace (dev project agentProfile : Val) (path : String) : Choice :=
  let memory := dev.get "memory"
  if !(memory.get "enabled").isBoolLit true then .of .null
  else if (project.get "memory_space").truthy then .of (offWhenNone (project.get "memory_space"))
  else
    let fromAgent :=
      if agentProfile.truthy then
        (member (dev.get "agent_profiles") agentProfile).get "memory_space"
      else .undef
    if fromAgent.truthy then .of (offWhenNone fromAgent)
    else chooseNamed .undef (memory.get "default_space") (keysOf (memory.get "spaces")) path
      "memory space"

/-! ## Remote Control -/

def RC_DEFAULT_SPAWN : Val := "worktree"

def RC_DEFAULT_CAPACITY : Val := 4

def RC_DEFAULT_RESOURCES : Fields :=
  [("cpu_weight", 80), ("io_weight", 80), ("nice", 5), ("oom_score_adjust", 300),
    ("oom_policy", "continue")]

def AGENT_CONFIG_ENV : Fields :=
  [("claude", "CLAUDE_CONFIG_DIR"), ("codex", "CODEX_HOME"), ("omp", "PI_CODING_AGENT_DIR")]

/-- `...(v ?? \x7b\x7d)` inside an object literal. -/
def spreadFields (v : Val) : Fields := v.ownFields

def profileDir (user profile : Val) : Js Val := do
  let user ← user.toStr
  let profile ← profile.toStr
  return .str s!"/home/{user}/.agent-profiles/{profile}"

def unitTitle (dev project override : Val) : Js Val :=
  if (override.get "name").isNullish then do
    let user ← (dev.get "user").toStr
    let name ← (project.get "name").toStr
    return .str s!"{user} · {name}"
  else .ok (override.get "name")

/-- The row of one unit, or `null` when Remote Control does not apply. -/
def resolveRemoteControl (spec dev project agentProfile : Val) : Js Val :=
  let box := spec.get "remote_control"
  let override := project.get "remote_control"
  if (box.get "enabled").isBoolLit false then .ok .null
  else if override.isBoolLit false || (override.get "enabled").isBoolLit false then .ok .null
  else if !agentProfile.truthy then .ok .null
  else
    let provider := (member (dev.get "agent_profiles") agentProfile).get "provider"
    if !provider.truthy then .ok .null
    else do
      let configDir ← profileDir (dev.get "user") agentProfile
      let name ← unitTitle dev project override
      return .obj
        [("agent", provider),
         ("agent_profile", agentProfile),
         ("config_env", member (.obj AGENT_CONFIG_ENV) provider),
         ("config_dir", configDir),
         ("name", name),
         ("spawn", (override.get "spawn").orElse ((box.get "spawn").orElse RC_DEFAULT_SPAWN)),
         ("capacity",
           (override.get "capacity").orElse ((box.get "capacity").orElse RC_DEFAULT_CAPACITY)),
         ("resources", .obj ((RC_DEFAULT_RESOURCES.merge (spreadFields (box.get "resources"))).merge
           (spreadFields (override.get "resources")))),
         ("build_env", .obj ((spreadFields (box.get "build_env")).merge
           (spreadFields (override.get "build_env"))))]

/-! ## The whole spec -/

/-- A resolved value with the issues met on the way. -/
structure Resolution where
  value : Val
  issues : List Issue

def resolveProject (spec dev project : Val) (path : String) : Js Resolution := do
  let name ← project.read "name"
  let git := resolveGitIdentity dev project s!"{path}.git_identity"
  let agent := resolveAgentProfile dev project s!"{path}.agent_profile"
  let memory := resolveMemorySpace dev project agent.value s!"{path}.memory_space"
  let unit ← resolveRemoteControl spec dev project agent.value
  return ⟨.obj
    [("name", name),
     ("repo", project.get "repo"),
     ("branch", (project.get "branch").orElse "main"),
     ("git_identity", git.value),
     ("agent_profile", agent.value),
     ("container_engine", resolveEngine spec dev project),
     ("memory_space", memory.value),
     ("ports", (project.get "ports").orElse (.arr [])),
     ("install", (project.get "install").orElse true),
     ("update", (project.get "update").orElse false),
     ("remote_control", unit)],
    git.issue ++ agent.issue ++ memory.issue⟩

/-- `map` of a function that also reports, with the index of each element. -/
def resolveAll (f : ℕ → Val → Js Resolution) (i : ℕ) : List Val → Js (List Val × List Issue)
  | [] => .ok ([], [])
  | x :: xs => do
      let here ← f i x
      let (values, issues) ← resolveAll f (i + 1) xs
      return (here.value :: values, here.issues ++ issues)

/-- `const \x7b projects, ...rest \x7d = dev`, and then `\x7b ...rest, projects \x7d`. -/
def withProjects (fields : Fields) (projects : List Val) : Fields :=
  fields.filter (fun p ↦ p.1 != "projects") ++ [("projects", .arr projects)]

def resolveDeveloper (spec : Val) (i : ℕ) (dev : Val) : Js Resolution := do
  let fields ← dev.entries
  let declared ← ((dev.get "projects").orElse (.arr [])).elems
  let (projects, issues) ← resolveAll
    (fun j project ↦ resolveProject spec dev project s!"developers[{i}].projects[{j}]") 0 declared
  return ⟨.obj (withProjects fields projects), issues⟩

/-- The resolved spec, which the source withholds when an issue is an error,
and the issues. -/
def resolveSpec (spec : Val) : Js Resolution := do
  let declared ← (spec.get "developers").elems
  let (developers, issues) ← resolveAll (resolveDeveloper spec) 0 declared
  return ⟨.obj (spec.ownFields.set "developers" (.arr developers)), issues⟩

/-! ## What a finished resolution says of each developer and project -/

theorem resolveAll_length {f : ℕ → Val → Js Resolution} {i : ℕ} {xs values : List Val}
    {issues : List Issue} (h : resolveAll f i xs = .ok (values, issues)) :
    values.length = xs.length := by
  induction xs generalizing i values issues with
  | nil =>
      obtain ⟨rfl, rfl⟩ := Prod.mk.inj (Except.ok.inj h)
      rfl
  | cons x xs ih =>
      simp only [resolveAll, bind_eq_ok, pure_eq_ok, Except.ok.injEq, Prod.exists,
        Prod.mk.injEq] at h
      obtain ⟨here, _, more, moreIssues, hmore, rfl, rfl⟩ := h
      simp [ih hmore]

/-- Each element is resolved by `f`, and its issues are among those reported. -/
theorem resolveAll_getElem {f : ℕ → Val → Js Resolution} {i : ℕ} {xs values : List Val}
    {issues : List Issue} (h : resolveAll f i xs = .ok (values, issues)) {j : ℕ} {x : Val}
    (hx : xs[j]? = some x) :
    ∃ r, f (i + j) x = .ok r ∧ values[j]? = some r.value ∧
      (hasErrors issues = false → hasErrors r.issues = false) := by
  induction xs generalizing i j values issues with
  | nil => simp at hx
  | cons y xs ih =>
      simp only [resolveAll, bind_eq_ok, pure_eq_ok, Except.ok.injEq, Prod.exists,
        Prod.mk.injEq] at h
      obtain ⟨here, hhere, more, moreIssues, hmore, rfl, rfl⟩ := h
      cases j with
      | zero =>
          obtain rfl : y = x := by simpa using hx
          refine ⟨here, hhere, rfl, ?_⟩
          intro hno
          simp only [hasErrors_append, Bool.or_eq_false_iff] at hno
          exact hno.1
      | succ j =>
          obtain ⟨r, hr, hvalue, hissues⟩ := ih hmore (by simpa using hx)
          refine ⟨r, by rw [← hr]; congr 1; omega, by simpa using hvalue, ?_⟩
          intro hno
          simp only [hasErrors_append, Bool.or_eq_false_iff] at hno
          exact hissues hno.2

/-- The elements of a list value, none for anything else. -/
def listOf (v : Val) : List Val :=
  match v with
  | .arr xs => xs
  | _ => []

theorem listOf_of_elems {v : Val} {xs : List Val} (h : v.elems = .ok xs) : listOf v = xs := by
  cases v with
  | arr ys => exact Except.ok.inj h
  | _ => cases h

def developersOf (v : Val) : List Val := listOf (v.get "developers")

def projectsOf (dev : Val) : List Val := listOf (dev.get "projects")

theorem listOf_orElse_nil {v : Val} {xs : List Val} (h : (v.orElse (.arr [])).elems = .ok xs) :
    listOf v = xs := by
  cases v with
  | undef => exact Except.ok.inj h
  | null => exact Except.ok.inj h
  | arr ys => exact Except.ok.inj h
  | _ => cases h

theorem get_withProjects (fields : Fields) (projects : List Val) (k : String) :
    (Val.obj (withProjects fields projects)).get k =
      if k = "projects" then .arr projects else fields.lookup k := by
  simp only [Val.get_obj, withProjects]
  induction fields with
  | nil => simp [Fields.lookup_cons, eq_comm]
  | cons p fields ih =>
      obtain ⟨k', v⟩ := p
      by_cases hp : k' = "projects"
      · subst hp
        rw [List.filter_cons_of_neg (by simp), ih]
        by_cases hk : k = "projects"
        · simp [hk]
        · simp [hk, Fields.lookup_cons, Ne.symm hk]
      · rw [List.filter_cons_of_pos (by simpa using hp), List.cons_append, Fields.lookup_cons,
          Fields.lookup_cons, ih]
        by_cases hk : k' = k
        · subst hk
          simp [hp]
        · simp [hk]

theorem get_set_of_ne (fs : Fields) {k k' : String} (v : Val) (h : k ≠ k') :
    (Val.obj (Fields.set fs k v)).get k' = (Val.obj fs).get k' := by
  simp only [Val.get_obj, Fields.lookup_set, if_neg h]

/-- Resolution rewrites the developers and nothing else. -/
theorem resolveSpec_get {spec : Val} {r : Resolution} (hspec : spec.isRecord = true)
    (h : resolveSpec spec = .ok r) {k : String} (hk : k ≠ "developers") :
    r.value.get k = spec.get k := by
  cases spec with
  | obj fs =>
      unfold resolveSpec at h
      cases hdevs : ((Val.obj fs).get "developers").elems with
      | error e => simp [hdevs] at h
      | ok declared =>
          simp only [hdevs, ok_bind] at h
          cases hall : resolveAll (resolveDeveloper (Val.obj fs)) 0 declared with
          | error e => simp [hall] at h
          | ok p =>
              simp only [hall, ok_bind, pure_eq_ok, Except.ok.injEq] at h
              subst h
              exact get_set_of_ne fs _ (Ne.symm hk)
  | _ => cases hspec

/-- Each developer of a finished resolution is the developer as written, with
its projects resolved one by one. -/
structure ResolvedDeveloper (spec dev rdev : Val) : Prop where
  shape : rdev = .obj (withProjects dev.ownFields (projectsOf rdev))
  fields : ∀ k, k ≠ "projects" → rdev.get k = dev.get k
  length : (projectsOf rdev).length = (projectsOf dev).length
  projects : ∀ (j : ℕ) project, (projectsOf dev)[j]? = some project →
    ∃ r path, resolveProject spec dev project path = .ok r ∧
      (projectsOf rdev)[j]? = some r.value ∧ hasErrors r.issues = false

theorem resolvedDeveloper_of_resolve {spec dev : Val} {i : ℕ} {r : Resolution}
    (hrecord : dev.isRecord = true) (h : resolveDeveloper spec i dev = .ok r)
    (hno : hasErrors r.issues = false) : ResolvedDeveloper spec dev r.value := by
  cases dev with
  | obj fs =>
      simp only [resolveDeveloper, bind_eq_ok, pure_eq_ok, Except.ok.injEq, Prod.exists] at h
      obtain ⟨fields, hfields, declared, hdeclared, projects, issues, hall, rfl⟩ := h
      obtain rfl : fs = fields := Except.ok.inj hfields
      have hlist := listOf_orElse_nil hdeclared
      have hresolved : projectsOf (.obj (withProjects fs projects)) = projects := by
        rw [projectsOf, get_withProjects, if_pos rfl]
        rfl
      refine ⟨?_, ?_, ?_, ?_⟩
      · rw [hresolved]
        rfl
      · intro k hk
        rw [get_withProjects, if_neg hk]
        rfl
      · rw [hresolved, resolveAll_length hall, projectsOf, hlist]
      · intro j project hj
        rw [projectsOf, hlist] at hj
        obtain ⟨rp, hrp, hvalue, hissues⟩ := resolveAll_getElem hall hj
        exact ⟨rp, _, hrp, by rw [hresolved]; exact hvalue, hissues hno⟩
  | _ => cases hrecord

/-- The developers of a finished resolution match those of the spec. -/
theorem resolvedDevelopers {spec : Val} {r : Resolution} (hspec : spec.isRecord = true)
    (hrecords : ∀ dev ∈ developersOf spec, dev.isRecord = true)
    (h : resolveSpec spec = .ok r) (hno : hasErrors r.issues = false) :
    r.value = .obj (spec.ownFields.set "developers" (.arr (developersOf r.value))) ∧
      (developersOf r.value).length = (developersOf spec).length ∧
      ∀ (i : ℕ) dev, (developersOf spec)[i]? = some dev →
        ∃ rdev, (developersOf r.value)[i]? = some rdev ∧ ResolvedDeveloper spec dev rdev := by
  cases spec with
  | obj fs =>
      simp only [resolveSpec, bind_eq_ok, pure_eq_ok, Except.ok.injEq, Prod.exists] at h
      obtain ⟨declared, hdeclared, developers, issues, hall, rfl⟩ := h
      have hlist : developersOf (.obj fs) = declared := listOf_of_elems hdeclared
      have hresolved : developersOf (.obj (Fields.set fs "developers" (.arr developers))) = developers := by
        rw [developersOf, Val.get_obj, Fields.lookup_set, if_pos rfl]
        rfl
      refine ⟨?_, ?_, ?_⟩
      · exact congrArg (fun xs ↦ Val.obj (Fields.set fs "developers" (.arr xs))) hresolved.symm
      · rw [hlist]
        exact (congrArg List.length hresolved).trans (resolveAll_length hall)
      · intro i dev hi
        have hrecord := hrecords dev (List.mem_of_getElem? hi)
        rw [hlist] at hi
        obtain ⟨rd, hrd, hvalue, hissues⟩ := resolveAll_getElem hall hi
        exact ⟨rd.value, by rw [← hvalue]; exact congrArg (·[i]?) hresolved,
          resolvedDeveloper_of_resolve hrecord hrd (hissues hno)⟩
  | _ => cases hspec

end RemoteDevbox.Spec
