import RemoteDevbox.Spec.Load

namespace RemoteDevbox.Spec

open Js Client

/-!
# Closure of the references

After resolution every reference of a project is `null` or names something
its developer declares. The reference pass accepts the literal `none` in more
places than resolution translates it.
-/

/-- The written reference that applies: the project's, else the developer's. -/
def consulted (stated fallback : Val) : Val := if stated.truthy then stated else fallback

/-- The name of a list with a single one. -/
def soleName : List String → Val
  | [name] => .str name
  | _ => .null

/-- The profile whose memory space a project inherits. -/
def effectiveProfile (dev project : Val) : Val :=
  let written := consulted (project.get "agent_profile") (dev.get "default_agent_profile")
  if written.truthy then written else soleName (keysOf (dev.get "agent_profiles"))

def pinnedSpace (dev project : Val) : Val :=
  if (effectiveProfile dev project).truthy then
    (member (dev.get "agent_profiles") (effectiveProfile dev project)).get "memory_space"
  else .undef

def memoryOn (dev : Val) : Bool := ((dev.get "memory").get "enabled").isBoolLit true

/-- The written memory reference that applies. -/
def consultedSpace (dev project : Val) : Val :=
  consulted (project.get "memory_space")
    (consulted (pinnedSpace dev project) ((dev.get "memory").get "default_space"))

/-- A value that is `null` or one of the names. -/
def NullOr (names : List String) (v : Val) : Prop := v = .null ∨ ∃ name ∈ names, v = .str name

/-- A Remote Control unit runs the provider its profile declares, in that
profile's own directory. -/
def UnitOf (dev profile unit : Val) : Prop :=
  ∃ user key, dev.get "user" = .str user ∧ key ∈ keysOf (dev.get "agent_profiles") ∧
    profile = .str key ∧ unit.get "agent_profile" = .str key ∧
    unit.get "agent" = ((dev.get "agent_profiles").ownFields.lookup key).get "provider" ∧
    unit.get "config_dir" = .str s!"/home/{user}/.agent-profiles/{key}"

/-- What the references of a resolved project `rp` must satisfy. -/
structure Closed (spec dev project rp : Val) : Prop where
  git : NullOr (keysOf (dev.get "git_identities")) (rp.get "git_identity")
  agent : NullOr (keysOf (dev.get "agent_profiles")) (rp.get "agent_profile")
  space : NullOr (keysOf ((dev.get "memory").get "spaces")) (rp.get "memory_space")
  memoryOff : memoryOn dev = false → rp.get "memory_space" = .null
  engine : rp.get "container_engine" = "none" ∨
    includes (installEngines spec) (rp.get "container_engine") = .ok true
  unit : rp.get "remote_control" = .null ∨
    UnitOf dev (rp.get "agent_profile") (rp.get "remote_control")
  noneGit : consulted (project.get "git_identity") (dev.get "default_git_identity") = "none" →
    rp.get "git_identity" = .null
  noneAgent : consulted (project.get "agent_profile") (dev.get "default_agent_profile") = "none" →
    rp.get "agent_profile" = .null
  noneSpace : consultedSpace dev project = "none" → rp.get "memory_space" = .null

/-- The written references that are not translated when they are `none`: an
identity, a profile, and a default space that a project falls back on. -/
structure NoneFree (dev project : Val) : Prop where
  git : consulted (project.get "git_identity") (dev.get "default_git_identity") ≠ "none"
  agent : consulted (project.get "agent_profile") (dev.get "default_agent_profile") ≠ "none"
  space : memoryOn dev = true → (project.get "memory_space").truthy = false →
    (pinnedSpace dev project).truthy = false → (dev.get "memory").get "default_space" ≠ "none"

/-! ## One choice -/

theorem listsName_iff {names : List String} {v : Val} :
    listsName names v = true ↔ ∃ name ∈ names, v = .str name := by
  cases v with
  | str s => simp [listsName]
  | _ => simp [listsName]

theorem nullOr_soleName (names : List String) : NullOr names (soleName names) := by
  rcases names with _ | ⟨name, _ | ⟨_, _⟩⟩
  · exact .inl rfl
  · exact .inr ⟨name, by simp, rfl⟩
  · exact .inl rfl

theorem chooseNamed_value (override fallback : Val) (available : List String)
    (path what : String) :
    (chooseNamed override fallback available path what).value =
      if (consulted override fallback).truthy then consulted override fallback
      else soleName available := by
  unfold chooseNamed consulted
  by_cases ho : override.truthy = true
  · simp [ho, Choice.of]
  · by_cases hf : fallback.truthy = true
    · simp [ho, hf, Choice.of]
    · rcases available with _ | ⟨name, _ | ⟨_, _⟩⟩ <;> simp [ho, hf, Choice.of, soleName]

theorem consulted_known {override fallback : Val} {names : List String}
    (ho : override.truthy = true → listsName names override = true)
    (hf : fallback.truthy = true → listsName names fallback = true)
    (h : (consulted override fallback).truthy = true) :
    ∃ name ∈ names, consulted override fallback = .str name := by
  unfold consulted at h ⊢
  split at h
  · rename_i htruthy
    simpa [htruthy] using listsName_iff.mp (ho htruthy)
  · rename_i hfalsy
    simpa [hfalsy] using listsName_iff.mp (hf h)

theorem chooseNamed_closed {override fallback : Val} {available : List String}
    (path what : String) (ho : override.truthy = true → listsName available override = true)
    (hf : fallback.truthy = true → listsName available fallback = true) :
    NullOr available (chooseNamed override fallback available path what).value := by
  rw [chooseNamed_value]
  split
  · rename_i h
    exact .inr (consulted_known ho hf h)
  · exact nullOr_soleName available

/-- A written `none` comes out as it went in. -/
theorem chooseNamed_none {override fallback : Val} {available : List String}
    (path what : String) (h : consulted override fallback = "none") :
    (chooseNamed override fallback available path what).value = "none" := by
  rw [chooseNamed_value, h]
  rfl

theorem none_ne_null : (Val.str "none") ≠ .null := by simp

theorem nullOr_offWhenNone {value : Val} {names : List String}
    (h : isSpaceRef value names = true) : NullOr names (offWhenNone value) := by
  unfold offWhenNone
  split
  · exact .inl rfl
  · rename_i hnone
    rw [isSpaceRef, Bool.or_eq_true] at h
    exact .inr (listsName_iff.mp (h.resolve_left hnone))

/-! ## The memory space -/

theorem effectiveProfile_eq (dev project : Val) (path : String) :
    (resolveAgentProfile dev project path).value = effectiveProfile dev project := by
  rw [resolveAgentProfile, chooseNamed_value]
  rfl

theorem resolveMemorySpace_off {dev : Val} (h : memoryOn dev = false) (project agent : Val)
    (path : String) : (resolveMemorySpace dev project agent path).value = .null := by
  unfold memoryOn at h
  simp [resolveMemorySpace, h, Choice.of]

/-- With memory on, the first stated reference decides, and only a default
space is taken as it is written. -/
theorem resolveMemorySpace_on {dev : Val} (h : memoryOn dev = true) (project : Val)
    (path agentPath : String) :
    (resolveMemorySpace dev project (resolveAgentProfile dev project agentPath).value path).value =
      if (project.get "memory_space").truthy then offWhenNone (project.get "memory_space")
      else if (pinnedSpace dev project).truthy then offWhenNone (pinnedSpace dev project)
      else (chooseNamed .undef ((dev.get "memory").get "default_space")
        (keysOf ((dev.get "memory").get "spaces")) path "memory space").value := by
  unfold memoryOn at h
  rw [effectiveProfile_eq, resolveMemorySpace]
  simp only [h, Bool.not_true, Bool.false_eq_true, if_false, apply_ite Choice.value]
  rfl

theorem pinned_known {spec dev project : Val} (h : DeveloperRefs spec dev)
    (htruthy : (pinnedSpace dev project).truthy = true) :
    isSpaceRef (pinnedSpace dev project) (keysOf ((dev.get "memory").get "spaces")) = true := by
  unfold pinnedSpace at htruthy ⊢
  split at htruthy
  · rename_i hprofile
    rw [if_pos hprofile]
    cases hprofiles : dev.get "agent_profiles" with
    | obj fs =>
        cases hkey : effectiveProfile dev project with
        | str key =>
            rw [hprofiles, hkey] at htruthy
            simp only [member, Val.index] at htruthy ⊢
            by_cases hmem : key ∈ Fields.keys fs
            · simp only [hmem, if_true] at htruthy ⊢
              have hpinned := h.pinned (key, Fields.lookup fs key)
              rw [hprofiles] at hpinned
              exact hpinned (Fields.lookup_mem hmem) htruthy
            · exfalso
              simp only [hmem, if_false] at htruthy
              revert htruthy
              unfold Val.inherited
              split <;> simp [Val.get, Val.truthy]
        | _ =>
            rw [hprofiles, hkey] at htruthy
            cases htruthy
    | _ =>
        rw [hprofiles] at htruthy
        cases htruthy
  · cases htruthy

theorem space_closed {spec dev project : Val} (hdev : DeveloperRefs spec dev)
    (hproject : ProjectRefs spec dev project) (hfree : NoneFree dev project)
    (path agentPath : String) :
    NullOr (keysOf ((dev.get "memory").get "spaces"))
      (resolveMemorySpace dev project (resolveAgentProfile dev project agentPath).value path).value := by
  cases hmemory : memoryOn dev with
  | false =>
      rw [resolveMemorySpace_off hmemory]
      exact .inl rfl
  | true =>
      rw [resolveMemorySpace_on hmemory]
      split
      · rename_i h
        exact nullOr_offWhenNone (hproject.space h)
      · rename_i hproj
        split
        · rename_i h
          exact nullOr_offWhenNone (pinned_known hdev h)
        · rename_i hpin
          have hdefault := hfree.space hmemory (by simpa using hproj) (by simpa using hpin)
          apply chooseNamed_closed
          · rintro ⟨⟩
          · intro h
            have href := hdev.space h
            rw [isSpaceRef, Bool.or_eq_true] at href
            refine href.resolve_left ?_
            intro hnone
            apply hdefault
            cases hv : (dev.get "memory").get "default_space" with
            | str s =>
                rw [hv] at hnone
                rw [beq_iff_eq.mp hnone]
            | _ =>
                rw [hv] at hnone
                cases hnone

/-- A `none` that is consulted is translated unless it is the default space. -/
theorem space_none {dev project : Val} (hfree : NoneFree dev project) (path agentPath : String)
    (h : consultedSpace dev project = "none") :
    (resolveMemorySpace dev project (resolveAgentProfile dev project agentPath).value path).value =
      .null := by
  cases hmemory : memoryOn dev with
  | false => exact resolveMemorySpace_off hmemory _ _ _
  | true =>
      rw [resolveMemorySpace_on hmemory]
      unfold consultedSpace consulted at h
      split at h
      · rename_i hproj
        rw [if_pos hproj, h]
        rfl
      · rename_i hproj
        split at h
        · rename_i hpin
          rw [if_neg hproj, if_pos hpin, h]
          rfl
        · rename_i hpin
          exact (hfree.space hmemory (by simpa using hproj) (by simpa using hpin) h).elim

/-- A default space that is written `none` and consulted comes out as `none`. -/
theorem space_default_none {dev project : Val} (hmemory : memoryOn dev = true)
    (hproj : (project.get "memory_space").truthy = false)
    (hpin : (pinnedSpace dev project).truthy = false)
    (hdefault : (dev.get "memory").get "default_space" = "none") (path agentPath : String) :
    (resolveMemorySpace dev project (resolveAgentProfile dev project agentPath).value path).value =
      "none" := by
  rw [resolveMemorySpace_on hmemory, hproj, hpin]
  simp only [Bool.false_eq_true, if_false]
  apply chooseNamed_none
  rw [hdefault]
  rfl

/-! ## The container engine -/

theorem truthy_of_engineName {v : Val} {s : String} (h : v.toStr = .ok s) (hs : s ∈ ENGINES) :
    v.truthy = true ∧ v.isNullish = false := by
  cases v with
  | undef =>
      obtain rfl := Except.ok.inj h
      exact absurd hs (by decide)
  | null =>
      obtain rfl := Except.ok.inj h
      exact absurd hs (by decide)
  | bool b =>
      cases b
      · obtain rfl := Except.ok.inj h
        exact absurd hs (by decide)
      · exact ⟨rfl, rfl⟩
  | num n =>
      refine ⟨?_, rfl⟩
      by_contra hfalsy
      simp only [Val.truthy, Bool.and_eq_true, bne_iff_ne, not_and_or, not_not] at hfalsy
      obtain rfl := Except.ok.inj h
      rcases hfalsy with rfl | rfl <;> exact absurd hs (by decide +kernel)
  | str t =>
      obtain rfl := Except.ok.inj h
      refine ⟨?_, rfl⟩
      by_contra hfalsy
      obtain rfl : t = "" := by simpa [Val.truthy] using hfalsy
      exact absurd hs (by decide)
  | arr xs => exact ⟨rfl, rfl⟩
  | obj fs => exact ⟨rfl, rfl⟩
  | fn name => exact ⟨rfl, rfl⟩

theorem includes_of_includesStr {xs : List Val} {s : String}
    (h : includesStr (.arr xs) s = true) : includes (.arr xs) (.str s) = .ok true := by
  simp only [includesStr, List.any_eq_true] at h
  obtain ⟨x, hx, hlit⟩ := h
  have hany : (xs.any fun y ↦ y.strictEq (.str s)) = true := by
    refine List.any_eq_true.mpr ⟨x, hx, ?_⟩
    cases x <;> simp_all [Val.isStrLit, Val.strictEq]
  simp [includes, hany]

/-- An engine that is stated is `none` or installed. -/
theorem stated_engine {spec engine : Val}
    (hshape : engine = .undef ∨ ∃ s, engine.toStr = .ok s ∧ s ∈ ENGINES)
    (href : engine.truthy = true → isEngineInstalled spec engine = .ok true)
    (h : engine.isNullish = false) :
    engine = "none" ∨ includes (installEngines spec) engine = .ok true := by
  rcases hshape with rfl | ⟨s, hs, hmem⟩
  · cases h
  · have hinstalled := href (truthy_of_engineName hs hmem).1
    unfold isEngineInstalled at hinstalled
    split at hinstalled
    · rename_i hnone
      left
      cases engine with
      | str t => rw [beq_iff_eq.mp hnone]
      | _ => cases hnone
    · exact .inr hinstalled

theorem engine_closed {raw dev project : Val} (hcontainer : (validateContainer raw).Passes)
    (hdev : dev.get "container_engine" = .undef ∨
      ∃ s, (dev.get "container_engine").toStr = .ok s ∧ s ∈ ENGINES)
    (hproject : project.get "container_engine" = .undef ∨
      ∃ s, (project.get "container_engine").toStr = .ok s ∧ s ∈ ENGINES)
    (hdevRef : DeveloperRefs raw dev) (hprojectRef : ProjectRefs raw dev project) :
    resolveEngine raw dev project = "none" ∨
      includes (installEngines raw) (resolveEngine raw dev project) = .ok true := by
  unfold resolveEngine Val.orElse
  split
  · split
    · obtain ⟨engine, x, xs, hdefault, hinstalls, hlisted, _⟩ := containerPasses hcontainer
      rw [hdefault]
      simp only [Val.isNullish, Bool.false_eq_true, if_false]
      by_cases hnone : engine = "none"
      · exact .inl (by rw [hnone])
      · right
        rw [installEngines, hinstalls]
        exact includes_of_includesStr (hlisted hnone)
    · rename_i h
      exact stated_engine hdev hdevRef.engine (by simpa using h)
  · rename_i h
    exact stated_engine hproject hprojectRef.engine (by simpa using h)

/-! ## Remote Control units -/

/-- A unit that exists carries the provider and the directory of its profile. -/
theorem resolveRemoteControl_inv {spec dev project agent unit : Val}
    (h : resolveRemoteControl spec dev project agent = .ok unit) :
    unit = .null ∨
      agent.truthy = true ∧ ((member (dev.get "agent_profiles") agent).get "provider").truthy = true ∧
      unit.get "agent" = (member (dev.get "agent_profiles") agent).get "provider" ∧
      unit.get "agent_profile" = agent ∧
      profileDir (dev.get "user") agent = .ok (unit.get "config_dir") := by
  simp only [resolveRemoteControl] at h
  split at h
  · exact .inl (Except.ok.inj h).symm
  · split at h
    · exact .inl (Except.ok.inj h).symm
    · split at h
      · exact .inl (Except.ok.inj h).symm
      · rename_i hagent
        split at h
        · exact .inl (Except.ok.inj h).symm
        · rename_i hprovider
          simp only [bind_eq_ok, pure_eq_ok, Except.ok.injEq] at h
          obtain ⟨dir, hdir, name, _, rfl⟩ := h
          exact .inr ⟨by simpa using hagent, by simpa using hprovider, rfl, rfl, hdir⟩

theorem unit_closed {spec dev project agent unit : Val} {user : String}
    (hagent : NullOr (keysOf (dev.get "agent_profiles")) agent)
    (huser : dev.get "user" = .str user)
    (h : resolveRemoteControl spec dev project agent = .ok unit) :
    unit = .null ∨ UnitOf dev agent unit := by
  rcases resolveRemoteControl_inv h with hnull | ⟨htruthy, hprovider, hagentEq, hprofile, hdir⟩
  · exact .inl hnull
  · right
    rcases hagent with rfl | ⟨key, hkey, rfl⟩
    · cases htruthy
    · have hmember : member (dev.get "agent_profiles") (.str key) =
          (dev.get "agent_profiles").ownFields.lookup key := by
        cases hprofiles : dev.get "agent_profiles" with
        | obj fs =>
            rw [hprofiles] at hkey
            simp only [member, Val.index]
            exact if_pos hkey
        | _ =>
            rw [hprofiles] at hprovider
            cases hprovider
      refine ⟨user, key, huser, hkey, rfl, hprofile, ?_, ?_⟩
      · rw [hagentEq, hmember]
      · rw [huser] at hdir
        exact (Except.ok.inj hdir).symm

/-! ## Every resolved project -/

theorem resolveProject_inv {spec dev project : Val} {path : String} {r : Resolution}
    (h : resolveProject spec dev project path = .ok r) :
    r.value.get "git_identity" =
        (resolveGitIdentity dev project s!"{path}.git_identity").value ∧
      r.value.get "agent_profile" =
        (resolveAgentProfile dev project s!"{path}.agent_profile").value ∧
      r.value.get "memory_space" = (resolveMemorySpace dev project
        (resolveAgentProfile dev project s!"{path}.agent_profile").value
        s!"{path}.memory_space").value ∧
      r.value.get "container_engine" = resolveEngine spec dev project ∧
      resolveRemoteControl spec dev project
        (resolveAgentProfile dev project s!"{path}.agent_profile").value =
          .ok (r.value.get "remote_control") := by
  simp only [resolveProject, bind_eq_ok, pure_eq_ok, Except.ok.injEq] at h
  obtain ⟨name, _, unit, hunit, rfl⟩ := h
  exact ⟨rfl, rfl, rfl, rfl, hunit⟩

theorem git_closed {spec dev project : Val} (hdev : DeveloperRefs spec dev)
    (hproject : ProjectRefs spec dev project) (path : String) :
    NullOr (keysOf (dev.get "git_identities")) (resolveGitIdentity dev project path).value :=
  chooseNamed_closed path _ hproject.git hdev.git

theorem agent_closed {spec dev project : Val} (hdev : DeveloperRefs spec dev)
    (hproject : ProjectRefs spec dev project) (path : String) :
    NullOr (keysOf (dev.get "agent_profiles")) (resolveAgentProfile dev project path).value :=
  chooseNamed_closed path _ hproject.agent hdev.agent

/-- What the validator knows of a project and of its developer. -/
structure Checked (raw dev project : Val) : Prop where
  container : (validateContainer raw).Passes
  user : ∃ user, dev.get "user" = .str user
  devEngine : dev.get "container_engine" = .undef ∨
    ∃ s, (dev.get "container_engine").toStr = .ok s ∧ s ∈ ENGINES
  projectEngine : project.get "container_engine" = .undef ∨
    ∃ s, (project.get "container_engine").toStr = .ok s ∧ s ∈ ENGINES
  devRefs : DeveloperRefs raw dev
  projectRefs : ProjectRefs raw dev project

theorem closed_of_noneFree {raw dev project : Val} {path : String} {r : Resolution}
    (hchecked : Checked raw dev project) (hfree : NoneFree dev project)
    (h : resolveProject raw dev project path = .ok r) : Closed raw dev project r.value := by
  obtain ⟨hgit, hagent, hspace, hengine, hunit⟩ := resolveProject_inv h
  obtain ⟨user, huser⟩ := hchecked.user
  refine ⟨?_, ?_, ?_, ?_, ?_, ?_, ?_, ?_, ?_⟩
  · rw [hgit]
    exact git_closed hchecked.devRefs hchecked.projectRefs _
  · rw [hagent]
    exact agent_closed hchecked.devRefs hchecked.projectRefs _
  · rw [hspace]
    exact space_closed hchecked.devRefs hchecked.projectRefs hfree _ _
  · intro hoff
    rw [hspace]
    exact resolveMemorySpace_off hoff _ _ _
  · rw [hengine]
    exact engine_closed hchecked.container hchecked.devEngine hchecked.projectEngine
      hchecked.devRefs hchecked.projectRefs
  · rw [hagent]
    exact unit_closed (agent_closed hchecked.devRefs hchecked.projectRefs _) huser hunit
  · exact fun hnone ↦ (hfree.git hnone).elim
  · exact fun hnone ↦ (hfree.agent hnone).elim
  · intro hnone
    rw [hspace]
    exact space_none hfree _ _ hnone

theorem noneFree_of_closed {raw dev project : Val} {path : String} {r : Resolution}
    (h : resolveProject raw dev project path = .ok r) (hclosed : Closed raw dev project r.value) :
    NoneFree dev project := by
  obtain ⟨hgit, hagent, hspace, _, _⟩ := resolveProject_inv h
  refine ⟨?_, ?_, ?_⟩
  · intro hnone
    have hnull := hclosed.noneGit hnone
    rw [hgit, resolveGitIdentity, chooseNamed_none _ _ hnone] at hnull
    exact none_ne_null hnull
  · intro hnone
    have hnull := hclosed.noneAgent hnone
    rw [hagent, resolveAgentProfile, chooseNamed_none _ _ hnone] at hnull
    exact none_ne_null hnull
  · intro hmemory hproj hpin hdefault
    have hconsulted : consultedSpace dev project = "none" := by
      simp [consultedSpace, consulted, hproj, hpin, hdefault]
    have hnull := hclosed.noneSpace hconsulted
    rw [hspace, space_default_none hmemory hproj hpin hdefault] at hnull
    exact none_ne_null hnull

/-- Every project of a resolved spec stands for a project of the document
whose references it closes. -/
def ReferencesClosed (doc resolved : Val) : Prop :=
  ∀ (i j : ℕ) rdev rp, (developersOf resolved)[i]? = some rdev → (projectsOf rdev)[j]? = some rp →
    ∃ dev project, (developersOf doc)[i]? = some dev ∧ (projectsOf dev)[j]? = some project ∧
      Closed doc dev project rp

theorem checked_of_accepted {env : ClientEnv} {doc resolved dev project : Val} {devs : List Val}
    (h : Accepted env doc resolved devs) (hdev : dev ∈ devs) (hproject : project ∈ projectsOf dev) :
    Checked doc dev project := by
  obtain ⟨base, hpasses⟩ := h.developers.each dev hdev
  have hrefs := h.referenced.refs dev hdev
  obtain ⟨projects, hlist, hall, _⟩ := hrefs.projects
  have hprojects : projectsOf dev = projects := listOf_orElse_nil hlist
  refine ⟨h.structured.container, hpasses.user_eq, hpasses.engine, ?_, hrefs, ?_⟩
  · rcases projectsPass hpasses.projects with hundef | ⟨ps, harr, hps⟩
    · rw [projectsOf, hundef] at hproject
      cases hproject
    · rw [projectsOf, harr] at hproject
      obtain ⟨path, hpath⟩ := hps project hproject
      exact hpath.engine
  · exact hall project (hprojects ▸ hproject)

/-- After resolution the references are closed exactly when no identity, no
profile and no default space that is consulted is spelled `none`. -/
theorem references_closed_iff {env : ClientEnv} {doc : Doc} {resolved : Val}
    (h : Accepts env doc resolved) :
    ReferencesClosed doc.val resolved ↔
      ∀ dev ∈ developersOf doc.val, ∀ project ∈ projectsOf dev, NoneFree dev project := by
  obtain ⟨devs, haccepted⟩ := accepted h
  have hlist : developersOf doc.val = devs := by
    rw [developersOf, haccepted.developers.eq]
    rfl
  constructor
  · intro hclosed dev hdev project hproject
    obtain ⟨i, hi⟩ := List.mem_iff_getElem?.mp hdev
    obtain ⟨j, hj⟩ := List.mem_iff_getElem?.mp hproject
    obtain ⟨rdev, hrdev, hresolved⟩ := haccepted.resolved i dev (hlist ▸ hi)
    obtain ⟨r, path, hr, hrp, _⟩ := hresolved.projects j project hj
    obtain ⟨dev', project', hdev', hproject', hall⟩ := hclosed i j rdev r.value hrdev hrp
    obtain rfl := Option.some.inj (hi.symm.trans hdev')
    obtain rfl := Option.some.inj (hj.symm.trans hproject')
    exact noneFree_of_closed hr hall
  · intro hfree i j rdev rp hrdev hrp
    have hi : i < devs.length := by
      rw [← haccepted.length]
      exact (List.getElem?_eq_some_iff.mp hrdev).1
    have hdev : devs[i]? = some devs[i] := List.getElem?_eq_getElem hi
    obtain ⟨rdev', hrdev', hresolved⟩ := haccepted.resolved i devs[i] hdev
    obtain rfl := Option.some.inj (hrdev.symm.trans hrdev')
    have hj : j < (projectsOf devs[i]).length := by
      rw [← hresolved.length]
      exact (List.getElem?_eq_some_iff.mp hrp).1
    have hproject : (projectsOf devs[i])[j]? = some (projectsOf devs[i])[j] :=
      List.getElem?_eq_getElem hj
    obtain ⟨r, path, hr, hrp', _⟩ := hresolved.projects j _ hproject
    obtain rfl := Option.some.inj (hrp.symm.trans hrp')
    have hmem : devs[i] ∈ devs := List.getElem_mem hi
    refine ⟨devs[i], _, by rw [hlist]; exact hdev, hproject, ?_⟩
    exact closed_of_noneFree (checked_of_accepted haccepted hmem (List.getElem_mem hj))
      (hfree _ (by rw [hlist]; exact hmem) _ (List.getElem_mem hj)) hr

/-- Memory is on, its only space is not wanted, and the default says so. -/
def noDefaultSpace : Doc :=
  ⟨specWith [] [("memory", .obj
      [("enabled", true), ("default_space", "none"),
       ("instances", .obj [("main", .obj [("engine", "hindsight"), ("llm_provider", "openai")])]),
       ("spaces", .obj [("work", .obj [("instance", "main"), ("bank", "b")])])]),
     ("projects", .arr [.obj [("name", "app"), ("repo", "git@host:app.git")]])], by decide +kernel⟩

/-- The default space `none` passes the reference pass and comes out as the
name of a space nobody declared. -/
theorem noDefaultSpace_not_closed :
    ∃ resolved, Accepts homeEnv noDefaultSpace resolved ∧
      ¬ ReferencesClosed noDefaultSpace.val resolved := by
  obtain ⟨resolved, hresolved⟩ : ∃ r, resolvedOf homeEnv noDefaultSpace.val = some r :=
    Option.isSome_iff_exists.mp (by decide +kernel)
  refine ⟨resolved, accepts_of_resolvedOf hresolved, ?_⟩
  have hspace : ((resolvedOf homeEnv noDefaultSpace.val).bind fun r ↦
      (developersOf r)[0]?.bind fun rdev ↦ (projectsOf rdev)[0]?.map fun rp ↦
        (rp.get "memory_space").isStrLit "none") = some true := by decide +kernel
  rw [hresolved, Option.bind_some] at hspace
  obtain ⟨rdev, hrdev, hspace⟩ := Option.bind_eq_some_iff.mp hspace
  obtain ⟨rp, hrp, hspace⟩ := Option.map_eq_some_iff.mp hspace
  intro hclosed
  obtain ⟨dev, project, hdev, _, hall⟩ := hclosed 0 0 rdev rp hrdev hrp
  have hkeys : keysOf ((dev.get "memory").get "spaces") = ["work"] := by
    obtain rfl := Option.some.inj hdev
    decide +kernel
  rcases hall.space with hnull | ⟨name, hname, heq⟩
  · rw [hnull] at hspace
    cases hspace
  · rw [hkeys] at hname
    rw [heq, List.mem_singleton.mp hname] at hspace
    exact absurd hspace (by decide)

/-- One project that states all its references, of a developer who declares them. -/
def wired : Doc :=
  ⟨specWith []
    [("git_identities", .obj [("work", .obj [("name", "Ada"), ("email", "ada@site.test")])]),
     ("agent_profiles", .obj [("main", .obj [("provider", "claude")])]),
     ("memory", .obj
       [("enabled", true),
        ("instances", .obj [("local", .obj [("engine", "hindsight"), ("llm_provider", "openai")])]),
        ("spaces", .obj [("work", .obj [("instance", "local"), ("bank", "b")])])]),
     ("projects", .arr [.obj
       [("name", "app"), ("repo", "git@host:app.git"), ("git_identity", "work"),
        ("agent_profile", "main"), ("memory_space", "work"),
        ("remote_control", .obj [("name", "site")])]])], by decide +kernel⟩

/-- Its references are closed. -/
theorem wired_closed :
    ∃ resolved, Accepts homeEnv wired resolved ∧ ReferencesClosed wired.val resolved := by
  obtain ⟨resolved, hresolved⟩ : ∃ r, resolvedOf homeEnv wired.val = some r :=
    Option.isSome_iff_exists.mp (by decide +kernel)
  have haccepts : Accepts homeEnv wired resolved := accepts_of_resolvedOf hresolved
  refine ⟨resolved, haccepts, (references_closed_iff haccepts).mpr ?_⟩
  intro dev hdev project hproject
  obtain rfl := List.mem_singleton.mp hdev
  obtain rfl := List.mem_singleton.mp hproject
  exact
    { git := fun h ↦ absurd (Val.str.inj h) (by decide)
      agent := fun h ↦ absurd (Val.str.inj h) (by decide)
      space := fun _ h ↦ by cases h }

end RemoteDevbox.Spec
