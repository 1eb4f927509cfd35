import RemoteDevbox.Spec.Totality.Report
import RemoteDevbox.Spec.Closure

namespace RemoteDevbox.Spec

open Js Client

/-!
# What the checks promise the renderers

For each section, the presence, lists and texts that its check guarantees.
-/

/-! ## Texts -/

theorem shown_of_check {p : Val → Bool} {v : Val} (h : p v = true)
    (hobj : ∀ fs, p (.obj fs) = false := by intros; rfl)
    (harr : ∀ xs, p (.arr xs) = false := by intros; rfl) : Shown v := by
  cases v with
  | obj fs =>
      rw [hobj] at h
      cases h
  | arr xs =>
      rw [harr] at h
      cases h
  | undef => exact shown_undef
  | null => exact shown_null
  | bool b => exact shown_bool b
  | num n => exact shown_num n
  | str s => exact shown_str s
  | fn name => exact ⟨_, rfl⟩

theorem shown_optional {p : Val → Bool} {v : Val} (h : v = .undef ∨ p v = true)
    (hobj : ∀ fs, p (.obj fs) = false := by intros; rfl)
    (harr : ∀ xs, p (.arr xs) = false := by intros; rfl) : Shown v := by
  rcases h with rfl | h
  · exact shown_undef
  · exact shown_of_check h hobj harr

theorem shown_optionalNamed {v : Val} {names : List String}
    (h : v = .undef ∨ ∃ s, v.toStr = .ok s ∧ s ∈ names) : Shown v := by
  rcases h with rfl | ⟨s, hs, _⟩
  · exact shown_undef
  · exact ⟨s, hs⟩

/-- The entries of a mapping that is absent or checked entry by entry. -/
theorem section_each {v : Val} {path message : String} {f : String × Val → Check}
    (h : (Check.section? v path message fun v ↦ .each v.ownFields f).Passes) :
    ∀ p ∈ v.ownFields, (f p).Passes := by
  rcases Check.passes_section?.mp h with rfl | ⟨fs, rfl, hall⟩
  · exact fun p hp ↦ absurd hp List.not_mem_nil
  · exact Check.passes_each.mp hall

theorem get_of_mem {v : Val} (hv : v.parsed = true) {p : String × Val} (hp : p ∈ v.ownFields)
    (hrecord : v.isRecord = true) : v.get p.1 = p.2 := by
  cases v with
  | obj fs => exact Fields.lookup_of_mem (Val.parsed_obj.mp hv).1 hp
  | _ => cases hrecord

theorem texts_shown {xs : List Val} {names : List String} (h : texts xs = .ok names) :
    ∀ x ∈ xs, Shown x := by
  induction xs generalizing names with
  | nil => simp
  | cons x xs ih =>
      simp only [texts, bind_eq_ok] at h
      obtain ⟨s, hs, rest, hrest, _⟩ := h
      exact List.forall_mem_cons.mpr ⟨⟨s, hs⟩, ih hrest⟩

theorem access_promise {access : Val} {path : String} {allowed : List String}
    (h : (validateAccessList access path allowed).Passes) :
    access = .undef ∨ Lists Shown access := by
  unfold validateAccessList at h
  split at h
  · exact .inl rfl
  · rename_i a as
    obtain ⟨names, hnames, _⟩ := Check.passes_eval.mp h
    exact .inr ⟨_, rfl, texts_shown hnames⟩
  · simp at h

theorem listOrAbsent_of_lists {P : Val → Prop} {v : Val} (h : v = .undef ∨ Lists P v) :
    ListOrAbsent v := by
  rcases h with h | ⟨xs, h, _⟩
  · exact .inl h
  · exact .inr ⟨xs, h⟩

/-! ## The host -/

theorem wrongKeys_shown {p : Val} {keys wrong : List (String × String)}
    (h : wrongKeys p keys = .ok wrong) : ∀ k ∈ keys, Shown (p.get k.1) := by
  induction keys generalizing wrong with
  | nil => simp
  | cons k keys ih =>
      obtain ⟨name, want⟩ := k
      simp only [wrongKeys, bind_eq_ok] at h
      obtain ⟨s, hs, more, hmore, _⟩ := h
      exact List.forall_mem_cons.mpr ⟨shown_of_orElse ⟨s, hs⟩, ih hmore⟩

theorem platform_promise {raw : Val} (h : (validatePlatform raw).Passes) :
    ∀ k ∈ SUPPORTED_PLATFORM, Shown ((raw.get "platform").get k.1) := by
  unfold validatePlatform at h
  simp only at h
  split at h
  · rename_i fs hplatform
    obtain ⟨wrong, hwrong, _⟩ := Check.passes_eval.mp h
    rw [hplatform]
    exact wrongKeys_shown hwrong
  · rename_i hplatform
    intro k _
    cases hraw : raw.get "platform" with
    | obj fs => exact (hplatform fs hraw).elim
    | _ => exact shown_undef

theorem runtimes_promise {raw : Val} (h : (validateRuntimes raw).Passes) :
    ∀ p ∈ (raw.get "runtimes").ownFields, Shown p.2 := by
  intro p hp
  have hentry := section_each h p hp
  simp only [Check.passes_when, Check.not_passes_fail, imp_false, Bool.not_eq_true',
    Bool.not_eq_false] at hentry
  exact shown_of_check hentry

theorem gate_promise {gate : Val} {path : String} (h : (validateHeavyJobGate gate path).Passes) :
    GateText gate := by
  rcases Check.passes_section?.mp h with rfl | ⟨fs, rfl, hbody⟩
  · exact ⟨shown_undef, shown_undef, shown_undef, shown_undef, shown_undef,
      fun p hp ↦ absurd hp List.not_mem_nil⟩
  · simp only [Check.passes_append, passes_optional, Check.passes_each, and_assoc] at hbody
    obtain ⟨_, _, _, hsecs, hmemory, hslots, htotal, hcategories⟩ := hbody
    refine ⟨shown_optional (hsecs "wait_timeout_sec" (by simp)),
      shown_optional (hsecs "warn_after_sec" (by simp)), shown_optional hmemory,
      shown_optional hslots, shown_optional htotal, ?_⟩
    intro p hp
    have hentry := section_each hcategories p hp
    split at hentry
    · exact (Check.not_passes_fail _ _ hentry).elim
    · simp only [Check.passes_when, Check.not_passes_fail, imp_false, Bool.not_eq_true',
        Bool.not_eq_false] at hentry
      exact shown_of_check hentry

theorem monitoring_promise {mon : Val} (h : (validateMonitoring mon).Passes) :
    ListOrAbsent (mon.get "access") := by
  rcases Check.passes_section?.mp h with rfl | ⟨fs, rfl, hbody⟩
  · exact .inl rfl
  · simp only [Check.passes_append] at hbody
    obtain ⟨⟨⟨_, haccess⟩, _⟩, _⟩ := hbody
    split at haccess
    · rename_i hundef
      exact .inl hundef
    · rename_i a as harr
      exact .inr ⟨_, harr⟩
    · simp at haccess

theorem host_promise {raw : Val} (h : (validateHost raw).Passes) :
    ListOrAbsent ((raw.get "host").get "locales") ∧
      ListOrAbsent (((raw.get "host").get "monitoring").get "access") ∧
      GateText ((raw.get "host").get "heavy_job_gate") := by
  rcases Check.passes_section?.mp h with hundef | ⟨fs, hobj, hbody⟩
  · rw [hundef]
    exact ⟨.inl rfl, .inl rfl, ⟨shown_undef, shown_undef, shown_undef, shown_undef, shown_undef,
      fun p hp ↦ absurd hp List.not_mem_nil⟩⟩
  · rw [hobj]
    simp only [Check.passes_append, passes_optional, and_assoc] at hbody
    obtain ⟨_, _, _, _, _, _, _, hlocales, hgate, _, _, hmonitoring, _⟩ := hbody
    refine ⟨?_, monitoring_promise hmonitoring, gate_promise hgate⟩
    rcases hlocales with hundef | hlist
    · exact .inl hundef
    · unfold validateHost.isLocaleList at hlist
      split at hlist
      · rename_i xs harr
        exact .inr ⟨xs, harr⟩
      · cases hlist

/-! ## Box-wide services -/

theorem operator_promise {raw : Val} (h : (validateOperator raw).Passes) :
    Shown ((raw.get "operator").get "user") ∧
      ∃ xs, (raw.get "operator").get "ssh_authorized_keys" = .arr xs := by
  unfold validateOperator at h
  split at h
  · rename_i fs hoperator
    rw [hoperator]
    simp only [Check.passes_append, Check.passes_when, Check.not_passes_failWith, imp_false,
      Bool.not_eq_true', Bool.not_eq_false] at h
    obtain ⟨huser, hkeys⟩ := h
    refine ⟨shown_of_check huser, ?_⟩
    split at hkeys
    · rename_i k ks harr
      exact ⟨_, harr⟩
    · simp at hkeys
  · simp at h

theorem network_promise {raw : Val} (h : (validateNetwork raw).Passes) :
    (∃ b, ((raw.get "network").get "tailscale").get "enabled" = .bool b) ∧
      (((raw.get "network").get "ssh").get "access" = .undef ∨
        Lists Shown (((raw.get "network").get "ssh").get "access")) := by
  have hrecord : ∀ v : Val, ∀ k, (recordOrNull v).get k = v.get k := by
    intro v k
    cases v <;> rfl
  unfold validateNetwork at h
  split at h
  · rename_i fs hnetwork
    rw [hnetwork]
    simp only [Check.passes_append, Check.passes_when, Check.not_passes_fail, imp_false,
      Bool.not_eq_true', Bool.not_eq_false, hrecord, and_assoc] at h
    obtain ⟨henabled, _, haccess, _⟩ := h
    refine ⟨?_, access_promise haccess⟩
    cases hv : ((Val.obj fs).get "tailscale").get "enabled" with
    | bool b => exact ⟨b, rfl⟩
    | _ =>
        rw [hv] at henabled
        cases henabled
  · simp at h

theorem allNamed_shown {names : List String} {xs : List Val}
    (h : allNamed names xs = .ok true) : ∀ x ∈ xs, Shown x := by
  induction xs with
  | nil => simp
  | cons x xs ih =>
      simp only [allNamed, bind_eq_ok] at h
      obtain ⟨s, hs, hrest⟩ := h
      split at hrest
      · exact List.forall_mem_cons.mpr ⟨⟨s, hs⟩, ih hrest⟩
      · cases hrest

theorem engines_promise {raw : Val} (h : (validateContainer raw).Passes) :
    Lists Shown ((raw.get "container").get "install_engines") := by
  unfold validateContainer at h
  split at h
  · rename_i fs hcontainer
    rw [hcontainer]
    simp only [Check.passes_eval, Check.passes_append, Check.passes_when, Check.not_passes_fail,
      imp_false, Bool.not_eq_true', Bool.not_eq_false] at h
    obtain ⟨ok, hinstalls, rfl, _⟩ := h
    unfold installsOk at hinstalls
    split at hinstalls
    · rename_i x xs harr
      exact ⟨_, harr, allNamed_shown hinstalls⟩
    · cases hinstalls
  · simp at h

theorem limit_promise {limit : Val} {path : String} (hrecord : limit.isRecord = true)
    (h : (validateRuntimeLimit limit path).Passes) : RuntimeLimitText limit := by
  simp only [validateRuntimeLimit, Check.passes_append, Check.passes_when, Check.passes_each,
    Check.not_passes_fail, imp_false, Bool.not_eq_true',
    Bool.not_eq_false, and_assoc, Bool.or_eq_true, not_or, Bool.and_eq_true, not_and] at h
  obtain ⟨_, huser, hname, _, hsizes⟩ := h
  have hsize : ∀ k ∈ ["memory_max", "memory_swap_max", "redis_maxmemory"],
      Shown (limit.get k) := by
    intro k hk
    by_cases hundef : (limit.get k).isUndef = true
    · rw [isUndef_iff.mp hundef]
      exact shown_undef
    · exact shown_of_check ((hsizes k hk).2 (by simpa using hundef))
  refine ⟨?_, shown_of_check huser, shown_of_check hname, hsize _ (by simp), hsize _ (by simp)⟩
  cases limit with
  | obj fs => rfl
  | _ => cases hrecord

theorem limits_promise {limits : List Val} {seen : List String} {i : ℕ}
    (h : (validateRuntimeLimits seen i limits).Passes) :
    ∀ limit ∈ limits, RuntimeLimitText limit := by
  induction limits generalizing seen i with
  | nil => simp
  | cons limit limits ih =>
      simp only [validateRuntimeLimits] at h
      split at h
      · rename_i hrecord
        simp only [Check.passes_append, Check.passes_eval] at h
        obtain ⟨hlimit, user, _, name, _, _, hrest⟩ := h
        exact List.forall_mem_cons.mpr ⟨limit_promise hrecord hlimit, ih hrest⟩
      · simp at h

theorem container_promise {raw : Val} (h : (validateContainer raw).Passes) :
    Shown ((raw.get "container").get "default_engine") ∧
      ((raw.get "container").get "runtime_limits" = .undef ∨
        Lists RuntimeLimitText ((raw.get "container").get "runtime_limits")) := by
  obtain ⟨engine, _, _, hengine, _, _, hlimits⟩ := containerPasses h
  rw [hengine]
  refine ⟨shown_str _, ?_⟩
  rcases hlimits with hundef | ⟨limits, harr, hpasses⟩
  · exact .inl hundef
  · exact .inr ⟨limits, harr, limits_promise hpasses⟩

theorem sharedServices_promise {raw : Val} (h : (validateSharedServices raw).Passes) :
    Shown ((raw.get "shared_services").get "engine") := by
  rcases Check.section_cases h with habsent | hbody
  · rw [habsent]
    exact shown_undef
  · simp only [Check.passes_append, passes_optional] at hbody
    exact shown_optional (p := fun v ↦ v.isStrLit "system-docker") hbody.2

theorem clients_promise {raw : Val} (h : (validateClients raw).Passes) :
    (raw.get "clients").get "cli_targets" = .undef ∨
      Lists Shown ((raw.get "clients").get "cli_targets") := by
  rcases Check.section_cases h with habsent | hbody
  · exact .inl (habsent _)
  · rcases passes_optional.mp hbody with hundef | hlist
    · exact .inl hundef
    · unfold isCliTargetList at hlist
      split at hlist
      · rename_i xs harr
        refine .inr ⟨xs, harr, fun x hx ↦ ?_⟩
        exact shown_of_check (p := isOneOf CLI_TARGETS) (List.all_eq_true.mp hlist x hx)
      · cases hlist

/-! ## Developers -/

theorem loginKeys_promise {keys : Val} {base : String} (h : (validateLoginKeys keys base).Passes) :
    ListOrAbsent keys := by
  unfold validateLoginKeys at h
  split at h
  · exact .inl rfl
  · exact .inr ⟨_, rfl⟩
  · exact .inr ⟨_, rfl⟩
  · simp at h

/-- What the check of a resource section promises. -/
structure ResourcePromise (r : Val) : Prop where
  shown : ∀ k ∈ ["memory_max", "memory_swap_max", "cpu_weight", "io_weight", "tasks_max"],
    Shown (r.get k)
  high : r.get "memory_high" = .undef ∨ (∃ s, r.get "memory_high" = .str s) ∨
    isMemoryWeight (r.get "memory_high") = true

theorem resources_promise {r : Val} {base : String} {options : ResourceValidationOptions}
    (h : (validateResources r base options).Passes) : ResourcePromise r := by
  have hdirect : ∀ v, isDirectSize v = true → ∃ s, v = .str s := by
    intro v hv
    cases v with
    | str s => exact ⟨s, rfl⟩
    | _ => cases hv
  rcases Check.section_cases h with habsent | hbody
  · exact ⟨fun k _ ↦ by rw [habsent]; exact shown_undef, .inl (habsent _)⟩
  · simp only [Check.passes_append, Check.passes_each, passes_optional] at hbody
    obtain ⟨⟨⟨_, hsizes⟩, hweights⟩, _⟩ := hbody
    simp only [List.forall_mem_cons, List.not_mem_nil, false_imp_iff, implies_true, and_true,
      Bool.or_eq_true, Bool.and_eq_true, beq_iff_eq] at hsizes hweights
    obtain ⟨hhigh, hmax, hswap⟩ := hsizes
    obtain ⟨hcpu, hio, htasks⟩ := hweights
    have hmaxShown := shown_optional (p := isDirectSize)
      (hmax.imp_right (·.resolve_right (by simp)))
    have hswapShown := shown_optional (p := isDirectSize)
      (hswap.imp_right (·.resolve_right (by simp)))
    refine ⟨?_, ?_⟩
    · simp only [List.forall_mem_cons, List.not_mem_nil, false_imp_iff, implies_true, and_true]
      exact ⟨hmaxShown, hswapShown, shown_optional hcpu, shown_optional hio, shown_optional htasks⟩
    · exact hhigh.imp_right fun hstated ↦ hstated.imp (hdirect _) (·.2)

theorem limitText_promise {r : Val} {base : String} (hparsed : r = .undef ∨ r.parsed = true)
    (h : (validateResources r base { allowMemoryHighWeight := true }).Passes) : LimitText r := by
  obtain ⟨hshown, hhigh⟩ := resources_promise h
  refine ⟨hhigh, ?_⟩
  rcases Check.passes_section?.mp h with rfl | ⟨fs, rfl, hbody⟩
  · exact fun p hp ↦ absurd hp List.not_mem_nil
  · simp only [Check.passes_append, and_assoc] at hbody
    intro p hp hne
    have hknown := Check.passes_each.mp hbody.1 p hp
    simp only [Check.passes_when, Check.not_passes_fail, imp_false, Bool.not_eq_true',
      Bool.not_eq_false, List.contains_eq_mem, decide_eq_true_eq, SLICE_RESOURCE_KEYS] at hknown
    have hget := get_of_mem (hparsed.resolve_left (by simp)) hp rfl
    rw [← hget]
    refine hshown p.1 ?_
    simpa [hne] using hknown

theorem orca_promise {orca : Val} {base : String} (h : (validateOrca orca base).Passes) :
    OrcaText orca := by
  rcases Check.passes_section?.mp h with rfl | ⟨fs, rfl, hbody⟩
  · exact ⟨shown_undef, shown_undef, shown_undef, shown_undef⟩
  · simp only [Check.passes_append, passes_optional, and_assoc] at hbody
    obtain ⟨_, _, _, hversion, hport, _, hpairing, hresources, _⟩ := hbody
    refine ⟨?_, shown_optional hport, shown_optional hpairing,
      (resources_promise hresources).shown _ (by simp)⟩
    split at hversion
    · exact (Check.not_passes_fail _ _ hversion).elim
    · rename_i hgood
      by_cases hundef : ((Val.obj fs).get "version").isUndef = true
      · rw [isUndef_iff.mp hundef]
        exact shown_undef
      · exact shown_of_check (p := matchesRe EXACT_AGENT_VERSION_RE) (by simpa [hundef] using hgood)

theorem present_of_record {v : Val} (h : v.isRecord = true) : v.isNullish = false := by
  cases v with
  | obj fs => rfl
  | _ => cases h

theorem identities_promise {dev : Val} {base : String} (h : (validateGitIdentities dev base).Passes) :
    Entered (dev.get "git_identities") ∧ Shown (dev.get "default_git_identity") := by
  obtain ⟨hsection, hdefault⟩ := Check.passes_append.mp h
  refine ⟨fun p hp ↦ ?_, shown_optional (passes_optional.mp hdefault)⟩
  have hentry := section_each hsection p hp
  unfold validateGitIdentity at hentry
  split at hentry
  · rename_i hrecord
    exact present_of_record hrecord
  · simp at hentry

/-- Every fallback chain of a retry policy is a list. -/
def ChainLists (retry : Val) : Prop :=
  ∀ q ∈ (retry.get "fallback_chains").ownFields, ∃ xs, q.2 = .arr xs

theorem chains_promise {retry : Val} {base : String}
    (h : (validateOmpRetryPolicy retry base).Passes) : ChainLists retry := by
  rcases Check.section_cases h with habsent | hbody
  · rw [ChainLists, habsent]
    exact fun q hq ↦ absurd hq List.not_mem_nil
  · simp only [Check.passes_append] at hbody
    obtain ⟨_, hchains⟩ := hbody
    split at hchains
    · rename_i c cs hobj
      rw [ChainLists, hobj]
      intro q hq
      have hchain := Check.passes_each.mp hchains q hq
      simp only [validateFallbackChain, Check.passes_append] at hchain
      obtain ⟨_, hlist⟩ := hchain
      split at hlist
      · rename_i f fs heq
        exact ⟨_, heq⟩
      · simp at hlist
    · simp at hchains

theorem presets_promise {presets provider : Val} {base : String}
    (h : (validateOmpModelPresets presets provider base).Passes) :
    ChainLists (presets.get "retry") := by
  obtain ⟨_, hsection⟩ := Check.passes_append.mp h
  rcases Check.section_cases hsection with habsent | hbody
  · rw [ChainLists, habsent]
    exact fun q hq ↦ absurd hq List.not_mem_nil
  · simp only [Check.passes_append] at hbody
    obtain ⟨_, hpresets⟩ := hbody
    split at hpresets
    · simp only [Check.passes_append] at hpresets
      exact chains_promise hpresets.2
    · simp at hpresets

/-- What the check of one agent profile promises. -/
structure ProfilePromise (profile : Val) : Prop where
  present : profile.isNullish = false
  provider : ∃ s, profile.get "provider" = .str s ∧ s ∈ PROVIDERS
  space : Shown (profile.get "memory_space")
  chains : ChainLists ((profile.get "omp_model_presets").get "retry")

theorem profiles_promise {dev : Val} {base : String} (h : (validateAgentProfiles dev base).Passes) :
    (∀ p ∈ (dev.get "agent_profiles").ownFields, ProfilePromise p.2) ∧
      Shown (dev.get "default_agent_profile") := by
  obtain ⟨hsection, hdefault⟩ := Check.passes_append.mp h
  refine ⟨fun p hp ↦ ?_, shown_optional (passes_optional.mp hdefault)⟩
  have hentry := section_each hsection p hp
  simp only [validateAgentProfile, Check.passes_append] at hentry
  obtain ⟨_, hbody⟩ := hentry
  split at hbody
  · rename_i hrecord
    simp only [Check.passes_append, Check.passes_when, Check.not_passes_fail, imp_false,
      Bool.not_eq_true', Bool.not_eq_false, passes_optional] at hbody
    obtain ⟨⟨hprovider, hspace⟩, hpresets⟩ := hbody
    exact ⟨present_of_record hrecord, str_of_isOneOf hprovider, shown_optional hspace,
      presets_promise hpresets⟩
  · simp at hbody

theorem memory_promise {memory : Val} {base : String} (h : (validateMemory memory base).Passes) :
    (∀ p ∈ (memory.get "instances").ownFields,
      p.2.isNullish = false ∧ Shown (p.2.get "llm_provider")) ∧
      (∀ p ∈ (memory.get "spaces").ownFields, p.2.isNullish = false ∧ Shown (p.2.get "bank")) ∧
      Shown (memory.get "default_space") := by
  rcases Check.section_cases h with habsent | hbody
  · simp only [habsent]
    exact ⟨fun q hq ↦ absurd hq List.not_mem_nil, fun q hq ↦ absurd hq List.not_mem_nil, shown_undef⟩
  · simp only [Check.passes_append, passes_optional] at hbody
    obtain ⟨⟨⟨_, hdefault⟩, hinstances⟩, hspaces⟩ := hbody
    refine ⟨fun p hp ↦ ?_, fun p hp ↦ ?_, shown_optional hdefault⟩
    · have hentry := section_each hinstances p hp
      unfold validateMemoryInstance at hentry
      split at hentry
      · rename_i hrecord
        simp only [Check.passes_append, Check.passes_when, Check.not_passes_fail, imp_false,
          Bool.not_eq_true', Bool.not_eq_false] at hentry
        exact ⟨present_of_record hrecord, shown_of_check hentry.2⟩
      · simp at hentry
    · have hentry := section_each hspaces p hp
      unfold validateMemorySpace at hentry
      split at hentry
      · rename_i hrecord
        simp only [Check.passes_append, Check.passes_when, Check.not_passes_fail, imp_false,
          Bool.not_eq_true', Bool.not_eq_false] at hentry
        exact ⟨present_of_record hrecord, shown_of_check hentry.2⟩
      · simp at hentry

/-- A layout is a name, and so is a variant when there is one. -/
def KeyboardPromise (keyboard : Val) : Prop :=
  keyboard = .undef ∨ (∃ layout, keyboard.get "layout" = .str layout) ∧
    (keyboard.get "variant" = .undef ∨ ∃ variant, keyboard.get "variant" = .str variant)

theorem keyboard_promise {keyboard : Val} {base : String}
    (h : (validateKeyboard keyboard base).Passes) : KeyboardPromise keyboard := by
  have hname : ∀ v, matchesRe XKB_NAME_RE v = true → ∃ s, v = .str s := by
    intro v hv
    cases v with
    | str s => exact ⟨s, rfl⟩
    | _ => cases hv
  rcases Check.passes_section?.mp h with rfl | ⟨fs, rfl, hbody⟩
  · exact .inl rfl
  · simp only [Check.passes_append, Check.passes_when, Check.not_passes_failWith, imp_false,
      Bool.not_eq_true', Bool.not_eq_false] at hbody
    obtain ⟨⟨hlayout, hvariant⟩, _⟩ := hbody
    refine .inr ⟨hname _ hlayout, ?_⟩
    by_cases hundef : ((Val.obj fs).get "variant").isUndef = true
    · exact .inl (isUndef_iff.mp hundef)
    · exact .inr (hname _ (by simpa [hundef] using hvariant))

theorem passes_of_thenWith {c : Check} {k : List Issue → Check} (h : (c.thenWith k).Passes) :
    c.Passes := by
  unfold Check.thenWith at h
  obtain ⟨found, _, hboth⟩ := Check.passes_eval.mp h
  exact (Check.passes_append.mp hboth).1

theorem desktop_promise {desktop : Val} {base : String}
    (h : (validateDesktop desktop base).Passes) :
    DesktopText desktop ∧ KeyboardPromise (desktop.get "keyboard") := by
  rcases Check.section_cases h with habsent | hbody
  · refine ⟨⟨?_, ?_, .inl (habsent _), ?_, ?_, ?_⟩, .inl (habsent _)⟩
    all_goals
      simp only [habsent]
      exact shown_undef
  · simp only [Check.passes_append, passes_optional, and_assoc] at hbody
    obtain ⟨_, henvironment, htransport, _, haccess, hidle, _, hkeyboard⟩ := hbody
    have hpromise := keyboard_promise hkeyboard
    have htexts : Shown ((desktop.get "keyboard").get "layout") ∧
        Shown ((desktop.get "keyboard").get "variant") := by
      rcases hpromise with hundef | ⟨⟨layout, hlayout⟩, hvariant⟩
      · rw [hundef]
        exact ⟨shown_undef, shown_undef⟩
      · rw [hlayout]
        refine ⟨shown_str _, ?_⟩
        rcases hvariant with hundef | ⟨variant, hvariant⟩
        · rw [hundef]
          exact shown_undef
        · rw [hvariant]
          exact shown_str _
    exact ⟨⟨shown_optional (p := fun v ↦ v.isStrLit "xfce") henvironment,
      shown_optional (p := fun v ↦ v.isStrLit "xrdp") htransport,
      access_promise (passes_of_thenWith haccess),
      shown_optional hidle, htexts.1, htexts.2⟩, hpromise⟩

theorem mountLabels_promise {base : String} {seen : List String} {i : ℕ} {mounts : List Val}
    (h : (validateMountLabels base seen i mounts).Passes) :
    ∀ m ∈ mounts, m.isNullish = false ∧ Shown (m.get "label") := by
  induction mounts generalizing seen i with
  | nil => simp
  | cons m mounts ih =>
      simp only [validateMountLabels] at h
      split at h
      · rename_i hrecord
        simp only [Check.passes_append, Check.passes_eval] at h
        obtain ⟨label, hlabel, _, hrest⟩ := h
        exact List.forall_mem_cons.mpr
          ⟨⟨present_of_record hrecord, shown_of_orElse ⟨label, hlabel⟩⟩, ih hrest⟩
      · simp at h

theorem fileBridge_promise {env : ClientEnv} {fb : Val} {base : String}
    (h : (validateFileBridge env fb base).Passes) :
    Shown (fb.get "engine") ∧ (fb.get "lazy_mounts" = .undef ∨
      Lists (fun m ↦ m.isNullish = false ∧ Shown (m.get "label")) (fb.get "lazy_mounts")) := by
  rcases Check.section_cases h with habsent | hbody
  · refine ⟨?_, .inl (habsent _)⟩
    rw [habsent]
    exact shown_undef
  · simp only [Check.passes_append, passes_optional, passes_optionalNamed] at hbody
    obtain ⟨⟨⟨_, hengine⟩, _⟩, hmounts⟩ := hbody
    refine ⟨shown_optionalNamed hengine, ?_⟩
    unfold validateLazyMounts at hmounts
    split at hmounts
    · rename_i hundef
      exact .inl hundef
    · rename_i mounts harr
      exact .inr ⟨mounts, harr, mountLabels_promise (Check.passes_append.mp hmounts).1⟩
    · simp at hmounts

theorem appConfigPaths_promise {env : ClientEnv} {path disk boxDisk : String} {seen : List String}
    {i : ℕ} {paths : List Val}
    (h : (validateAppConfigPaths env path disk boxDisk seen i paths).Passes) :
    ∀ raw ∈ paths, Registered raw := by
  induction paths generalizing seen i with
  | nil => simp
  | cons raw paths ih =>
      simp only [validateAppConfigPaths] at h
      split at h
      · obtain ⟨outcome, houtcome, hrest⟩ := Check.passes_eval.mp h
        cases outcome with
        | error message => simp at hrest
        | ok entry =>
            simp only [Check.passes_append] at hrest
            exact List.forall_mem_cons.mpr ⟨⟨entry, houtcome⟩, ih hrest.2⟩
      · simp at h

theorem appConfigs_promise {env : ClientEnv} {dev : Val} {base : String}
    (h : (validateAppConfigs env dev base).Passes) :
    (dev.get "app_configs").get "paths" = .undef ∨
      Lists Registered ((dev.get "app_configs").get "paths") := by
  unfold validateAppConfigs at h
  simp only at h
  rcases Check.section_cases h with habsent | hbody
  · exact .inl (habsent _)
  · simp only [Check.passes_append] at hbody
    obtain ⟨_, hpaths⟩ := hbody
    split at hpaths
    · rename_i hundef
      exact .inl hundef
    · rename_i paths harr
      obtain ⟨user, _, hall⟩ := Check.passes_eval.mp hpaths
      exact .inr ⟨paths, harr, appConfigPaths_promise hall⟩
    · simp at hpaths

end RemoteDevbox.Spec
