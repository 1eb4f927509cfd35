import RemoteDevbox.Spec.Totality.Promises

namespace RemoteDevbox.Spec

open Js Client

/-!
# When the renderers come to an end

Acceptance is not enough. The checks let a platform, an `ssh` section and a
developer's `login_ssh_keys` be absent that the generator reads through, and
they let a layout be named like a function that every object inherits.
-/

/-! ## Keyboards -/

/-- The layout and variant a session of the developer comes up on. -/
def appliedKeyboard (client : ClientFacts) (dev : Val) : Option (Val × Val) :=
  let stated := (dev.get "desktop").get "keyboard"
  if stated.truthy then some (stated.get "layout", (stated.get "variant").orElse .null)
  else client.keyboard.map fun k ↦ (.str k.layout, optionalText k.variant)

/-- Every object inherits a function under this name. -/
def inheritedFunction (name : String) : Bool :=
  match Val.inherited name with
  | .fn _ => true
  | _ => false

/-- The layout table is not asked for an inherited function. -/
def KeyboardListed (client : ClientFacts) (dev : Val) : Prop :=
  ∀ k ∈ appliedKeyboard client dev, ∀ name, xkbName k.1 k.2 = .ok name →
    inheritedFunction name = false

theorem resolveKeyboard_eq (client : ClientFacts) (dev : Val) :
    resolveKeyboard dev client = match appliedKeyboard client dev with
      | none => .ok .null
      | some (layout, variant) => resolveKeyboard.withId layout variant := by
  simp only [resolveKeyboard, appliedKeyboard]
  split
  · rfl
  · cases client.keyboard <;> rfl

theorem clean_layoutId (name : String) :
    Clean ((Val.index RDP_LAYOUT_IDS name).orElse .null) ↔ inheritedFunction name = false := by
  by_cases hname : name ∈ RDP_LAYOUT_IDS.keys
  · have hclean : ∀ p ∈ RDP_LAYOUT_IDS, Clean p.2 := by simp [RDP_LAYOUT_IDS]
    have howned : ∀ k ∈ RDP_LAYOUT_IDS.keys, inheritedFunction k = false := by decide
    rw [Val.index, if_pos hname]
    exact ⟨fun _ ↦ howned name hname, fun _ ↦ clean_orElse (clean_lookup hclean name) clean_null⟩
  · rw [Val.index, if_neg hname, inheritedFunction]
    unfold Val.inherited
    split <;> simp [Val.orElse, Val.isNullish, Clean, emittable, emittableFields]

theorem withId_clean {layout variant : Val} (hlayout : Shown layout) (hvariant : Shown variant)
    (hcl : Clean layout) (hcv : Clean variant) :
    Ends Clean (resolveKeyboard.withId layout variant) ↔
      ∀ name, xkbName layout variant = .ok name → inheritedFunction name = false := by
  obtain ⟨name, hname⟩ := xkbName_returns hlayout hvariant
  simp only [resolveKeyboard.withId, rdpLayoutId, hname, ok_bind, pure_eq_ok, ends_ok, clean_obj,
    List.forall_mem_cons, clean_layoutId, hcl, hcv, true_and, Except.ok.injEq, forall_eq']
  exact and_iff_left (by simp)

theorem resolveKeyboard_clean {client : ClientFacts} {dev : Val}
    (h : KeyboardPromise ((dev.get "desktop").get "keyboard")) :
    Ends Clean (resolveKeyboard dev client) ↔ KeyboardListed client dev := by
  rw [resolveKeyboard_eq, KeyboardListed]
  cases happlied : appliedKeyboard client dev with
  | none => simp
  | some k =>
      have hplain : (Shown k.1 ∧ Shown k.2) ∧ Clean k.1 ∧ Clean k.2 := by
        simp only [appliedKeyboard] at happlied
        split at happlied
        · rename_i hstated
          obtain rfl := Option.some.inj happlied
          rcases h with hundef | ⟨⟨layout, hlayout⟩, hvariant⟩
          · rw [hundef] at hstated
            cases hstated
          · rw [hlayout]
            rcases hvariant with hundef | ⟨variant, hvariant⟩
            · rw [hundef]
              exact ⟨⟨shown_str _, shown_null⟩, clean_str _, clean_null⟩
            · rw [hvariant]
              exact ⟨⟨shown_str _, shown_str _⟩, clean_str _, clean_str _⟩
        · obtain ⟨found, _, rfl⟩ := Option.map_eq_some_iff.mp happlied
          refine ⟨⟨shown_str _, shown_optionalText _⟩, clean_str _, ?_⟩
          cases found.variant with
          | none => exact clean_null
          | some s => exact clean_str s
      obtain ⟨⟨hl, hv⟩, hcl, hcv⟩ := hplain
      rw [withId_clean hl hv hcl hcv]
      simp

/-! ## What resolution makes of a project -/

section Choices

variable {P : Val → Prop} (hnull : P .null) (hstr : ∀ s, P (.str s))

include hnull hstr

theorem chooseNamed_all {override fallback : Val} (ho : P override) (hf : P fallback)
    (available : List String) (path what : String) :
    P (chooseNamed override fallback available path what).value := by
  unfold chooseNamed
  split
  · exact ho
  · split
    · exact hf
    · split
      · exact hstr _
      · exact hnull
      · exact hnull

theorem resolveMemorySpace_all {dev project agent : Val} (hundef : P .undef)
    (hproject : P (project.get "memory_space"))
    (hagent : P ((member (dev.get "agent_profiles") agent).get "memory_space"))
    (hdefault : P ((dev.get "memory").get "default_space")) (path : String) :
    P (resolveMemorySpace dev project agent path).value := by
  have hoff : ∀ v, P v → P (offWhenNone v) := by
    intro v hv
    unfold offWhenNone
    split
    · exact hnull
    · exact hv
  simp only [resolveMemorySpace]
  split
  · exact hnull
  · split
    · exact hoff _ hproject
    · have hfrom : P (if agent.truthy then
          (member (dev.get "agent_profiles") agent).get "memory_space" else .undef) := by
        split
        · exact hagent
        · exact hundef
      generalize (if agent.truthy then _ else Val.undef) = fromAgent at hfrom ⊢
      split
      · exact hoff _ hfrom
      · exact chooseNamed_all hnull hstr hundef hdefault _ _ _

end Choices

/-- A profile is one that was written down, or has no fields. -/
theorem member_cases (profiles agent : Val) :
    (∃ p ∈ profiles.ownFields, member profiles agent = p.2) ∨
      ∀ k, (member profiles agent).get k = .undef := by
  cases profiles with
  | obj fs =>
      cases agent with
      | str key =>
          simp only [member, Val.index]
          split
          · rename_i hkey
            exact .inl ⟨_, Fields.lookup_mem hkey, rfl⟩
          · right
            intro k
            unfold Val.inherited
            split <;> rfl
      | _ => exact .inr fun _ ↦ rfl
  | _ => exact .inr fun _ ↦ rfl

theorem agentConfigEnv_clean {s : String} (h : s ∈ PROVIDERS) :
    Clean (member (.obj AGENT_CONFIG_ENV) (.str s)) := by
  simp only [PROVIDERS, List.mem_cons, List.not_mem_nil, or_false] at h
  rcases h with rfl | rfl | rfl
  all_goals exact clean_str _

theorem resolveRemoteControl_clean {spec dev project agent unit : Val} (hspec : Clean spec)
    (hproject : Clean project) (hagent : Clean agent)
    (hprofiles : ∀ p ∈ (dev.get "agent_profiles").ownFields, ProfilePromise p.2)
    (h : resolveRemoteControl spec dev project agent = .ok unit) : Clean unit := by
  have hbox := clean_get hspec "remote_control"
  have hoverride := clean_get hproject "remote_control"
  simp only [resolveRemoteControl] at h
  split at h
  · obtain rfl := Except.ok.inj h
    exact clean_null
  · split at h
    · obtain rfl := Except.ok.inj h
      exact clean_null
    · split at h
      · obtain rfl := Except.ok.inj h
        exact clean_null
      · split at h
        · obtain rfl := Except.ok.inj h
          exact clean_null
        · rename_i hprovider
          simp only [bind_eq_ok, pure_eq_ok, Except.ok.injEq] at h
          obtain ⟨dir, hdir, name, hname, rfl⟩ := h
          have hdirClean : Clean dir := by
            simp only [profileDir, bind_eq_ok, pure_eq_ok, Except.ok.injEq] at hdir
            obtain ⟨_, _, _, _, rfl⟩ := hdir
            exact clean_str _
          have hnameClean : Clean name := by
            unfold unitTitle at hname
            split at hname
            · simp only [bind_eq_ok, pure_eq_ok, Except.ok.injEq] at hname
              obtain ⟨_, _, _, _, rfl⟩ := hname
              exact clean_str _
            · obtain rfl := Except.ok.inj hname
              exact clean_get hoverride "name"
          have hmember : ∃ p ∈ (dev.get "agent_profiles").ownFields,
              member (dev.get "agent_profiles") agent = p.2 := by
            rcases member_cases (dev.get "agent_profiles") agent with hfound | habsent
            · exact hfound
            · rw [habsent] at hprovider
              simp [Val.truthy] at hprovider
          obtain ⟨p, hp, hmember⟩ := hmember
          obtain ⟨provider, hprovider, hlisted⟩ := (hprofiles p hp).provider
          have hresources : ∀ p ∈ (RC_DEFAULT_RESOURCES.merge (spreadFields
              ((spec.get "remote_control").get "resources"))).merge
                (spreadFields ((project.get "remote_control").get "resources")), Clean p.2 :=
            Fields.forall_merge (Fields.forall_merge (by simp [RC_DEFAULT_RESOURCES, val_ofNat])
              (clean_ownFields (clean_get hbox _))) (clean_ownFields (clean_get hoverride _))
          have henv : ∀ p ∈ (spreadFields ((spec.get "remote_control").get "build_env")).merge
              (spreadFields ((project.get "remote_control").get "build_env")), Clean p.2 :=
            Fields.forall_merge (clean_ownFields (clean_get hbox _))
              (clean_ownFields (clean_get hoverride _))
          have hconfig := agentConfigEnv_clean hlisted
          simp only [hmember, hprovider, clean_obj, List.forall_mem_cons, List.not_mem_nil,
            RC_DEFAULT_SPAWN, RC_DEFAULT_CAPACITY, val_ofNat]
          grind

/-- What the checks promise of one developer and of the sections its projects
are resolved against. -/
structure DeveloperPromise (spec dev : Val) : Prop where
  specClean : Clean spec
  clean : Clean dev
  user : ∃ s, dev.get "user" = .str s
  boxEngine : Shown ((spec.get "container").get "default_engine")
  engine : Shown (dev.get "container_engine")
  git : Shown (dev.get "default_git_identity")
  agent : Shown (dev.get "default_agent_profile")
  space : Shown ((dev.get "memory").get "default_space")
  profiles : ∀ p ∈ (dev.get "agent_profiles").ownFields, ProfilePromise p.2

theorem resolvedProject_ready {spec dev project rp : Val} {path : String}
    (hdev : DeveloperPromise spec dev) (hclean : Clean project) (hpasses : ProjectPasses path project)
    (h : ResolvedProject spec dev project rp) :
    emittable rp = true ∧ ProjectShape rp ∧ ProjectText rp := by
  obtain ⟨r, at_, hr, rfl⟩ := h
  have hchoice : ∀ k ∈ ["git_identity", "agent_profile", "memory_space"],
      Shown (project.get k) := fun k hk ↦ shown_optional (hpasses.choices k hk)
  obtain ⟨name, hname⟩ : ∃ s, project.get "name" = .str s := by
    have hmatch := hpasses.name
    cases hv : project.get "name" with
    | str s => exact ⟨s, rfl⟩
    | _ =>
        rw [hv] at hmatch
        cases hmatch
  have hports : Lists (fun x ↦ isPort x = true) ((project.get "ports").orElse (.arr [])) := by
    rcases hpasses.ports with hundef | ⟨xs, hxs, hall⟩
    · rw [hundef]
      exact ⟨[], rfl, fun x hx ↦ absurd hx List.not_mem_nil⟩
    · rw [hxs]
      exact ⟨xs, rfl, hall⟩
  obtain ⟨ports, hports, hall⟩ := hports
  have hnumber : ∀ x ∈ ports, ∃ n, x = .num n := by
    intro x hx
    have hport := hall x hx
    cases x with
    | num n => exact ⟨n, rfl⟩
    | _ => cases hport
  have hportsPlain : ∀ x ∈ ports, emittable x = true ∧ Shown x := by
    intro x hx
    obtain ⟨n, rfl⟩ := hnumber x hx
    exact ⟨rfl, shown_num n⟩
  obtain ⟨hspaceClean, hspaceShown⟩ : (∀ a, Clean ((member (dev.get "agent_profiles") a).get
      "memory_space")) ∧ ∀ a, Shown ((member (dev.get "agent_profiles") a).get "memory_space") := by
    refine ⟨fun a ↦ ?_, fun a ↦ ?_⟩
    · rcases member_cases (dev.get "agent_profiles") a with ⟨p, hp, heq⟩ | habsent
      · rw [heq]
        exact clean_get (clean_ownFields (clean_get hdev.clean _) p hp) _
      · rw [habsent]
        exact clean_undef
    · rcases member_cases (dev.get "agent_profiles") a with ⟨p, hp, heq⟩ | habsent
      · rw [heq]
        exact (hdev.profiles p hp).space
      · rw [habsent]
        exact shown_undef
  simp only [resolveProject, bind_eq_ok, pure_eq_ok, Except.ok.injEq] at hr
  obtain ⟨readName, hread, unit, hunit, rfl⟩ := hr
  obtain rfl : readName = .str name := by rw [← hname, read_eq_ok hread]
  have hgitClean := chooseNamed_all clean_null clean_str (clean_get hclean "git_identity")
    (clean_get hdev.clean "default_git_identity") (keysOf (dev.get "git_identities"))
    s!"{at_}.git_identity" "git identity"
  have hagentClean := chooseNamed_all clean_null clean_str (clean_get hclean "agent_profile")
    (clean_get hdev.clean "default_agent_profile") (keysOf (dev.get "agent_profiles"))
    s!"{at_}.agent_profile" "agent profile"
  have hmemoryClean := resolveMemorySpace_all clean_null clean_str clean_undef
    (clean_get hclean "memory_space")
    (hspaceClean (resolveAgentProfile dev project s!"{at_}.agent_profile").value)
    (clean_get (clean_get hdev.clean "memory") "default_space") s!"{at_}.memory_space"
  have hunitClean := resolveRemoteControl_clean hdev.specClean hclean hagentClean hdev.profiles hunit
  have hengineClean : Clean (resolveEngine spec dev project) := by
    have := hdev.specClean
    have := hdev.clean
    unfold resolveEngine
    grind
  have hplain : emittable (.obj
      [("name", .str name),
       ("repo", project.get "repo"),
       ("branch", (project.get "branch").orElse "main"),
       ("git_identity", (resolveGitIdentity dev project s!"{at_}.git_identity").value),
       ("agent_profile", (resolveAgentProfile dev project s!"{at_}.agent_profile").value),
       ("container_engine", resolveEngine spec dev project),
       ("memory_space", (resolveMemorySpace dev project
         (resolveAgentProfile dev project s!"{at_}.agent_profile").value
         s!"{at_}.memory_space").value),
       ("ports", (project.get "ports").orElse (.arr [])),
       ("install", (project.get "install").orElse true),
       ("update", (project.get "update").orElse false),
       ("remote_control", unit)]) = true := by
    have hportsClean : Clean (.arr ports) := clean_arr.mpr fun x hx ↦ (hportsPlain x hx).1
    simp only [emittable_obj, List.forall_mem_cons, List.not_mem_nil, hports, resolveGitIdentity,
      resolveAgentProfile] at *
    grind
  refine ⟨hplain, ⟨.inr hplain, ⟨name, rfl⟩, ports, hports, fun x hx ↦ (hportsPlain x hx).1⟩,
    ⟨name, rfl⟩, ?_, ?_, ?_, ?_, ports, hports, fun x hx ↦ (hportsPlain x hx).2⟩
  · exact chooseNamed_all shown_null shown_str (hchoice _ (by simp)) hdev.git _ _ _
  · exact chooseNamed_all shown_null shown_str (hchoice _ (by simp)) hdev.agent _ _ _
  · exact shown_orElse (shown_optionalNamed hpasses.engine) (shown_orElse hdev.engine
      (shown_orElse hdev.boxEngine (shown_str _)))
  · exact resolveMemorySpace_all shown_null shown_str shown_undef (hchoice _ (by simp))
      (hspaceShown _) hdev.space _

/-! ## Developers -/

theorem clean_of_parsed_get {v : Val} (h : v.parsed = true) (k : String) : Clean (v.get k) :=
  clean_get (.inr (emittable_of_parsed v h)) k

section Developers

variable {env : ClientEnv} {doc : Doc} {resolved : Val} {devs : List Val}
  (h : Accepted env doc.val resolved devs)

include h

theorem developer_parsed {dev : Val} (hdev : dev ∈ devs) : dev.parsed = true := by
  have hlist : (doc.val.get "developers").parsed = true :=
    Val.parsed_get doc.property (by rw [h.developers.eq]; simp)
  rw [h.developers.eq] at hlist
  exact Val.parsed_arr.mp hlist dev hdev

theorem developer_promise {dev : Val} (hdev : dev ∈ devs) : DeveloperPromise doc.val dev := by
  obtain ⟨base, hpasses⟩ := h.developers.each dev hdev
  obtain ⟨_, hgit⟩ := identities_promise hpasses.identities
  obtain ⟨hprofiles, hagent⟩ := profiles_promise hpasses.profiles
  exact ⟨.inr (emittable_of_parsed _ doc.property),
    .inr (emittable_of_parsed _ (developer_parsed h hdev)), hpasses.user_eq,
    (container_promise h.structured.container).1, shown_optionalNamed hpasses.engine, hgit, hagent,
    (memory_promise hpasses.memory).2.2, hprofiles⟩

theorem projects_ready {dev rdev : Val} (hdev : dev ∈ devs)
    (hresolved : ResolvedDeveloper doc.val dev rdev) :
    ∀ rp ∈ projectsOf rdev, emittable rp = true ∧ ProjectShape rp ∧ ProjectText rp := by
  intro rp hrp
  obtain ⟨project, _, hmem, hproject⟩ := forall₂_exists_left hresolved.projects_match hrp
  obtain ⟨base, hpasses⟩ := h.developers.each dev hdev
  rcases projectsPass hpasses.projects with hundef | ⟨ps, harr, hall⟩
  · rw [projectsOf, hundef] at hmem
    cases hmem
  · have hparsed : (dev.get "projects").parsed = true :=
      Val.parsed_get (developer_parsed h hdev) (by rw [harr]; simp)
    rw [harr] at hparsed
    rw [projectsOf, harr] at hmem
    obtain ⟨path, hpath⟩ := hall project hmem
    exact resolvedProject_ready (developer_promise h hdev)
      (.inr (emittable_of_parsed _ (Val.parsed_arr.mp hparsed project hmem))) hpath hproject

theorem resolvedDeveloper_clean {dev rdev : Val} (hdev : dev ∈ devs)
    (hresolved : ResolvedDeveloper doc.val dev rdev) : Clean rdev := by
  rw [hresolved.shape, clean_obj, withProjects, List.forall_mem_append]
  refine ⟨fun p hp ↦ ?_, ?_⟩
  · exact clean_ownFields (developer_promise h hdev).clean p (List.mem_filter.mp hp).1
  · simp only [List.forall_mem_singleton, clean_arr]
    exact fun rp hrp ↦ (projects_ready h hdev hresolved rp hrp).1

omit h in
theorem resolvedProjects_list {dev rdev : Val} (hresolved : ResolvedDeveloper doc.val dev rdev) :
    rdev.get "projects" = .arr (projectsOf rdev) := by
  conv_lhs => rw [hresolved.shape]
  rw [get_withProjects, if_pos rfl]

theorem resolvedDeveloper_shape {client : ClientFacts} {dev rdev : Val} (hdev : dev ∈ devs)
    (hresolved : ResolvedDeveloper doc.val dev rdev)
    (hkeys : dev.get "login_ssh_keys" ≠ .undef) (hkeyboard : KeyboardListed client dev) :
    DeveloperShape client rdev := by
  obtain ⟨base, hpasses⟩ := h.developers.each dev hdev
  have hpromise := developer_promise h hdev
  have hclean := hpromise.clean
  have hget := hresolved.fields
  obtain ⟨hmounts, _⟩ := fileBridge_promise hpasses.fileBridge
  have hprofiles := hpromise.profiles
  refine ⟨resolvedDeveloper_clean h hdev hresolved, ?_, ?_, ?_, ?_, ?_, ?_, ?_, ?_, ?_, ?_, ?_, ?_⟩
  · rw [hget _ (by decide)]
    exact hpromise.user
  · rw [hget _ (by decide)]
    obtain ⟨xs, hxs⟩ := (loginKeys_promise hpasses.loginKeys).resolve_left hkeys
    have hlist := clean_get hclean "login_ssh_keys"
    rw [hxs] at hlist ⊢
    exact ⟨xs, rfl, clean_arr.mp hlist⟩
  · rw [hget _ (by decide)]
    exact (identities_promise hpasses.identities).1
  · rw [hget _ (by decide)]
    exact fun p hp ↦ (hprofiles p hp).present
  · rw [hget _ (by decide)]
    intro p hp q hq
    obtain ⟨xs, hxs⟩ := (hprofiles p hp).chains q hq
    have hfields := clean_ownFields (clean_get hclean "agent_profiles") p hp
    have hlist := clean_ownFields (clean_get (clean_get (clean_get hfields
      "omp_model_presets") "retry") "fallback_chains") q hq
    rw [hxs] at hlist ⊢
    exact ⟨xs, rfl, clean_arr.mp hlist⟩
  · rw [hget _ (by decide)]
    exact fun p hp ↦ ((memory_promise hpasses.memory).1 p hp).1
  · rw [hget _ (by decide)]
    exact fun p hp ↦ ((memory_promise hpasses.memory).2.1 p hp).1
  · rw [hget _ (by decide)]
    exact listOrAbsent_of_lists (desktop_promise hpasses.desktop).1.access
  · have hsame : resolveKeyboard rdev client = resolveKeyboard dev client := by
      simp only [resolveKeyboard, hget "desktop" (by decide)]
    rw [hsame]
    exact (resolveKeyboard_clean (desktop_promise hpasses.desktop).2).mpr hkeyboard
  · rw [hget _ (by decide)]
    have hlist := clean_get (clean_get hclean "file_bridge") "lazy_mounts"
    rcases (fileBridge_promise hpasses.fileBridge).2 with hundef | ⟨xs, hxs, hall⟩
    · rw [hundef]
      exact ⟨[], rfl, fun m hm ↦ absurd hm List.not_mem_nil⟩
    · rw [hxs] at hlist ⊢
      exact ⟨xs, rfl, fun m hm ↦ ⟨clean_arr.mp hlist m hm, (hall m hm).1⟩⟩
  · rw [hget _ (by decide)]
    exact lists_orElse (appConfigs_promise hpasses.appConfigs) _
      fun m hm ↦ absurd hm List.not_mem_nil
  · exact ⟨_, resolvedProjects_list hresolved, fun rp hrp ↦
      (projects_ready h hdev hresolved rp hrp).2.1⟩

theorem resolvedDeveloper_text {dev rdev : Val} (hdev : dev ∈ devs)
    (hresolved : ResolvedDeveloper doc.val dev rdev)
    (hkeys : dev.get "login_ssh_keys" ≠ .undef) : DeveloperText rdev := by
  obtain ⟨base, hpasses⟩ := h.developers.each dev hdev
  have hpromise := developer_promise h hdev
  have hget := hresolved.fields
  have hprofiles := hpromise.profiles
  have hresources : dev.get "resources" = .undef ∨ (dev.get "resources").parsed = true := by
    by_cases hundef : dev.get "resources" = .undef
    · exact .inl hundef
    · exact .inr (Val.parsed_get (developer_parsed h hdev) hundef)
  refine ⟨?_, ?_, ?_, ?_, ?_, ?_, ?_, ?_, ?_, ?_, ?_, ?_, ?_, ?_⟩
  · rw [hget _ (by decide)]
    exact hpromise.user
  · rw [hget _ (by decide)]
    exact (loginKeys_promise hpasses.loginKeys).resolve_left hkeys
  · rw [hget _ (by decide)]
    exact gate_promise hpasses.gate
  · rw [hget _ (by decide)]
    exact limitText_promise hresources hpasses.resources
  · rw [hget _ (by decide)]
    intro p hp
    obtain ⟨provider, hprovider, _⟩ := (hprofiles p hp).provider
    exact ⟨(hprofiles p hp).present, by rw [hprovider]; exact shown_str _⟩
  · rw [hget _ (by decide)]
    exact (resources_promise hpasses.paseoResources).shown _ (by simp)
  · rw [hget _ (by decide)]
    exact orca_promise hpasses.orca
  · rw [hget _ (by decide)]
    exact (memory_promise hpasses.memory).1
  · rw [hget _ (by decide)]
    exact (memory_promise hpasses.memory).2.1
  · rw [hget _ (by decide)]
    exact (desktop_promise hpasses.desktop).1
  · rw [hget _ (by decide)]
    exact (fileBridge_promise hpasses.fileBridge).1
  · rw [hget _ (by decide)]
    exact lists_orElse (fileBridge_promise hpasses.fileBridge).2 _
      fun m hm ↦ absurd hm List.not_mem_nil
  · rw [hget _ (by decide)]
    exact lists_orElse (appConfigs_promise hpasses.appConfigs) _
      fun m hm ↦ absurd hm List.not_mem_nil
  · exact ⟨_, resolvedProjects_list hresolved, fun rp hrp ↦
      (projects_ready h hdev hresolved rp hrp).2.2⟩

end Developers

/-! ## The whole spec -/

/-- What the renderers take for granted and the checks do not. -/
structure Complete (client : ClientFacts) (doc : Val) : Prop where
  platform : (doc.get "platform").isNullish = false
  ssh : ((doc.get "network").get "ssh").isNullish = false
  loginKeys : ∀ dev ∈ developersOf doc, dev.get "login_ssh_keys" ≠ .undef
  keyboards : ∀ dev ∈ developersOf doc, KeyboardListed client dev

section Whole

variable {env : ClientEnv} {client : ClientFacts} {doc : Doc} {resolved : Val} {devs : List Val}
  (h : Accepted env doc.val resolved devs)

include h

theorem developersOf_doc : developersOf doc.val = devs := by
  rw [developersOf, h.developers.eq]
  rfl

theorem resolvedDevelopers_list :
    resolved.get "developers" = .arr (developersOf resolved) := by
  conv_lhs => rw [h.shape]
  rw [Val.get_obj, Fields.lookup_set, if_pos rfl]

theorem resolved_clean : Clean resolved := by
  rw [h.shape, clean_obj]
  refine Fields.forall_set (clean_ownFields (.inr (emittable_of_parsed _ doc.property))) _ ?_
  rw [clean_arr]
  intro rdev hrdev
  obtain ⟨dev, _, hdev, hresolved⟩ := forall₂_exists_left h.developers_match hrdev
  have hclean := resolvedDeveloper_clean h hdev hresolved
  rw [hresolved.shape] at hclean ⊢
  exact emittable_of_clean_obj hclean

theorem shape_of_complete (hcomplete : Complete client doc.val) : SpecShape client resolved := by
  have hclean := resolved_clean h
  have hget := h.fields
  have hcleanGet : ∀ k, k ≠ "developers" → Clean (doc.val.get k) :=
    fun k _ ↦ clean_of_parsed_get doc.property k
  obtain ⟨hlocales, hmonitoring, _⟩ := host_promise h.structured.host
  obtain ⟨_, hoperator⟩ := operator_promise h.structured.operator
  obtain ⟨htailscale, _⟩ := network_promise h.structured.network
  refine ⟨hclean, ?_, ?_, ?_, ?_, ?_, ?_, ?_, ?_, ?_, ?_⟩
  · rw [hget _ (by decide)]
    exact htailscale
  · rw [hget _ (by decide)]
    exact hcomplete.platform
  · rw [hget _ (by decide)]
    exact hlocales
  · rw [hget _ (by decide)]
    exact hmonitoring
  · rw [hget _ (by decide)]
    obtain ⟨xs, hxs⟩ := hoperator
    have hlist := clean_get (hcleanGet "operator" (by decide)) "ssh_authorized_keys"
    rw [hxs] at hlist ⊢
    exact ⟨xs, rfl, clean_arr.mp hlist⟩
  · rw [hget _ (by decide)]
    exact hcomplete.ssh
  · rw [hget _ (by decide)]
    obtain ⟨xs, hxs, _⟩ := engines_promise h.structured.container
    have hlist := clean_get (hcleanGet "container" (by decide)) "install_engines"
    rw [hxs] at hlist ⊢
    exact ⟨xs, rfl, clean_arr.mp hlist⟩
  · rw [hget _ (by decide)]
    have hlist := clean_get (hcleanGet "container" (by decide)) "runtime_limits"
    rcases (container_promise h.structured.container).2 with hundef | ⟨xs, hxs, hall⟩
    · rw [hundef]
      exact ⟨[], rfl, fun m hm ↦ absurd hm List.not_mem_nil⟩
    · rw [hxs] at hlist ⊢
      exact ⟨xs, rfl, fun m hm ↦ ⟨clean_arr.mp hlist m hm, (hall m hm).present⟩⟩
  · rw [hget _ (by decide)]
    exact listOrAbsent_of_lists (clients_promise h.structured.clients)
  · refine ⟨_, resolvedDevelopers_list h, fun rdev hrdev ↦ ?_⟩
    obtain ⟨dev, _, hdev, hresolved⟩ := forall₂_exists_left h.developers_match hrdev
    have hmem : dev ∈ developersOf doc.val := (developersOf_doc h).symm ▸ hdev
    exact resolvedDeveloper_shape h hdev hresolved (hcomplete.loginKeys dev hmem)
      (hcomplete.keyboards dev hmem)

theorem text_of_complete (hcomplete : Complete client doc.val) : SpecText resolved := by
  have hget := h.fields
  obtain ⟨_, _, hgate⟩ := host_promise h.structured.host
  obtain ⟨huser, hoperator⟩ := operator_promise h.structured.operator
  obtain ⟨htailscale, haccess⟩ := network_promise h.structured.network
  obtain ⟨hengine, hlimits⟩ := container_promise h.structured.container
  have hplatform := platform_promise h.structured.platform
  simp only [SUPPORTED_PLATFORM, List.forall_mem_cons] at hplatform
  refine ⟨?_, ?_, ?_, ?_, ?_, ?_, ?_, ?_, ?_, ?_, ?_, ?_, ?_, ?_, ?_, ?_, ?_⟩
  · rw [hget _ (by decide)]
    exact htailscale
  · rw [hget _ (by decide)]
    exact hcomplete.platform
  · rw [hget _ (by decide)]
    exact hplatform.1
  · rw [hget _ (by decide)]
    exact hplatform.2.1
  · rw [hget _ (by decide)]
    exact hplatform.2.2.1
  · rw [hget _ (by decide)]
    exact huser
  · rw [hget _ (by decide)]
    exact hoperator
  · rw [hget _ (by decide)]
    exact hcomplete.ssh
  · rw [hget _ (by decide)]
    exact haccess
  · rw [hget _ (by decide)]
    exact hengine
  · rw [hget _ (by decide)]
    exact engines_promise h.structured.container
  · rw [hget _ (by decide)]
    exact lists_orElse hlimits _ fun m hm ↦ absurd hm List.not_mem_nil
  · rw [hget _ (by decide)]
    exact sharedServices_promise h.structured.sharedServices
  · rw [hget _ (by decide)]
    exact clients_promise h.structured.clients
  · rw [hget _ (by decide)]
    exact runtimes_promise h.structured.runtimes
  · rw [hget _ (by decide)]
    exact hgate
  · refine ⟨_, resolvedDevelopers_list h, fun rdev hrdev ↦ ?_⟩
    obtain ⟨dev, _, hdev, hresolved⟩ := forall₂_exists_left h.developers_match hrdev
    have hmem : dev ∈ developersOf doc.val := (developersOf_doc h).symm ▸ hdev
    exact resolvedDeveloper_text h hdev hresolved (hcomplete.loginKeys dev hmem)

end Whole

/-! ## What a finished run says of the spec -/

theorem present_of_read {v x : Val} {k : String} (h : v.read k = .ok x) : v.isNullish = false := by
  unfold Val.read at h
  split at h
  · cases h
  · rename_i hpresent
    simpa using hpresent

theorem normalize_present {client : ClientFacts} {resolved vars : Val}
    (h : normalize client resolved = .ok vars) :
    (resolved.get "platform").isNullish = false ∧
      ((resolved.get "network").get "ssh").isNullish = false := by
  simp only [normalize, bind_eq_ok] at h
  obtain ⟨tailscale, _, developers, _, platform, hplatform, hostVars, _, operator, _, network,
    hnetwork, _⟩ := h
  simp only [normalizePlatform, normalizeNetwork, bind_eq_ok] at hplatform hnetwork
  obtain ⟨_, hdistribution, _⟩ := hplatform
  obtain ⟨net, hnet, ssh, hssh, _, haccess, _⟩ := hnetwork
  obtain rfl := read_eq_ok hnet
  obtain rfl := read_eq_ok hssh
  exact ⟨present_of_read hdistribution, present_of_read haccess⟩

theorem normalizeDeveloper_keys {tailscale hostGate dev vdev : Val} {client : ClientFacts}
    {ports : List (Val × Number)}
    (h : normalizeDeveloper tailscale hostGate client ports dev = .ok vdev) :
    dev.get "login_ssh_keys" ≠ .undef := by
  simp only [normalizeDeveloper, bind_eq_ok] at h
  obtain ⟨_, _, keys, hkeys, _⟩ := h
  intro hundef
  rw [hundef] at hkeys
  cases hkeys

theorem normalizeDeveloper_keyboard {tailscale hostGate dev vdev : Val} {client : ClientFacts}
    {ports : List (Val × Number)}
    (h : normalizeDeveloper tailscale hostGate client ports dev = .ok vdev) (hclean : Clean vdev) :
    Ends Clean (resolveKeyboard dev client) := by
  have hdesktop := (generatedDeveloper h).desktop
  simp only [normalizeDesktop, bind_eq_ok, pure_eq_ok, Except.ok.injEq] at hdesktop
  obtain ⟨access, _, keyboard, hkeyboard, hvalue⟩ := hdesktop
  have hfield : (vdev.get "desktop").get "keyboard" = keyboard := by
    rw [← hvalue]
    rfl
  rw [hkeyboard, ends_ok, ← hfield]
  exact clean_get (clean_get hclean _) _

theorem complete_of_runs {env : ClientEnv} {client : ClientFacts} {doc : Doc} {resolved vars : Val}
    {devs : List Val} (h : Accepted env doc.val resolved devs)
    (hvars : normalize client resolved = .ok vars) (hbody : Returns (toYaml vars)) :
    Complete client doc.val := by
  obtain ⟨hplatform, hssh⟩ := normalize_present hvars
  rw [h.fields _ (by decide)] at hplatform hssh
  obtain ⟨tailscale, hostVars, rcUnits, developers, vdevs, gen⟩ := generated_of_normalize hvars
  have hclean : Clean vars := .inr ((toYaml_returns vars).mp hbody)
  have hvdevs : ∀ vdev ∈ vdevs, Clean vdev := by
    have hlist := clean_get hclean "devbox_developers"
    rw [gen.developers] at hlist
    exact fun vdev hvdev ↦ .inr (clean_arr.mp hlist vdev hvdev)
  have heach : ∀ dev ∈ developersOf doc.val,
      dev.get "login_ssh_keys" ≠ .undef ∧ KeyboardListed client dev := by
    intro dev hdev
    rw [developersOf_doc h] at hdev
    obtain ⟨i, hi⟩ := List.mem_iff_getElem?.mp hdev
    obtain ⟨rdev, hrdev, hresolved⟩ := h.resolved i dev hi
    have hmem : rdev ∈ developers := by
      rw [← listOf_of_elems gen.developers_eq]
      exact List.mem_of_getElem? hrdev
    obtain ⟨vdev, hvdev, hnormal⟩ := forall₂_exists_left (mapM_eq_ok.mp gen.devs_eq).flip hmem
    have hget := hresolved.fields
    have hkeys := normalizeDeveloper_keys hnormal
    have hkeyboard := normalizeDeveloper_keyboard hnormal (hvdevs vdev hvdev)
    obtain ⟨base, hpasses⟩ := h.developers.each dev hdev
    simp only [resolveKeyboard, hget "desktop" (by decide)] at hkeyboard
    rw [hget _ (by decide)] at hkeys
    exact ⟨hkeys, (resolveKeyboard_clean (desktop_promise hpasses.desktop).2).mp hkeyboard⟩
  exact ⟨hplatform, hssh, fun dev hdev ↦ (heach dev hdev).1, fun dev hdev ↦ (heach dev hdev).2⟩

/-- Both renderers and the plan come to an end on the resolved spec. -/
def RunsThrough (client : ClientFacts) (resolved : Val) : Prop :=
  Returns (normalize client resolved) ∧ Returns (renderVars client resolved) ∧
    ∀ issues secretNames, Returns (renderPlan resolved issues secretNames client)

/-- On an accepted document the renderers come to an end exactly when it has
the parts that they take for granted. -/
theorem runs_through_iff {env : ClientEnv} {client : ClientFacts} {doc : Doc} {resolved : Val}
    (h : Accepts env doc resolved) :
    RunsThrough client resolved ↔ Complete client doc.val := by
  obtain ⟨devs, haccepted⟩ := accepted h
  constructor
  · rintro ⟨_, ⟨text, htext⟩, _⟩
    simp only [renderVars, bind_eq_ok] at htext
    obtain ⟨vars, hvars, body, hbody, _⟩ := htext
    exact complete_of_runs haccepted hvars ⟨body, hbody⟩
  · intro hcomplete
    have hends := normalize_ends (shape_of_complete haccepted hcomplete)
    refine ⟨hends.returns, ?_, fun issues secretNames ↦
      renderPlan_returns (text_of_complete haccepted hcomplete) issues secretNames client⟩
    obtain ⟨vars, hvars, hplain⟩ := hends
    simp only [renderVars, hvars, ok_bind]
    exact ((toYaml_returns vars).mpr hplain).bind fun _ _ ↦ returns_ok _

/-- A network section with no `ssh`. -/
def noSsh : Doc :=
  ⟨specWith [("network", .obj [("tailscale", .obj [("enabled", true)])])] [], by decide +kernel⟩

theorem noSsh_throws : ∃ resolved, Accepts homeEnv noSsh resolved ∧
    ¬ RunsThrough noClient resolved := by
  have hsome : (resolvedOf homeEnv noSsh.val).isSome = true := by decide +kernel
  obtain ⟨resolved, hresolved⟩ := Option.isSome_iff_exists.mp hsome
  have haccepts := accepts_of_resolvedOf hresolved
  refine ⟨resolved, haccepts, fun hruns ↦ ?_⟩
  obtain ⟨vars, hvars⟩ := hruns.1
  obtain ⟨devs, haccepted⟩ := accepted haccepts
  have hssh := (normalize_present hvars).2
  rw [haccepted.fields _ (by decide)] at hssh
  cases hssh

def plainSpec : Doc := ⟨specWith [] [], plain_parsed⟩

theorem plainSpec_runs_through : ∃ resolved, Accepts homeEnv plainSpec resolved ∧
    (RunsThrough noClient resolved ↔ Complete noClient plainSpec.val) ∧
    Complete noClient plainSpec.val := by
  have hsome : (resolvedOf homeEnv plainSpec.val).isSome = true := by decide +kernel
  obtain ⟨resolved, hresolved⟩ := Option.isSome_iff_exists.mp hsome
  have haccepts := accepts_of_resolvedOf hresolved
  have hdevs : developersOf plainSpec.val =
      [.obj [("user", .str "ada"), ("login_ssh_keys", .arr ["ssh-ed25519 AAAA"])]] := rfl
  refine ⟨resolved, haccepts, runs_through_iff haccepts, rfl, rfl, ?_, ?_⟩
  · rw [hdevs]
    intro dev hdev
    rw [List.mem_singleton.mp hdev]
    rintro ⟨⟩
  · rw [hdevs]
    intro dev hdev
    rw [List.mem_singleton.mp hdev]
    have hnone : appliedKeyboard noClient (.obj [("user", .str "ada"),
        ("login_ssh_keys", .arr ["ssh-ed25519 AAAA"])]) = none := rfl
    rw [KeyboardListed, hnone]
    simp

end RemoteDevbox.Spec
