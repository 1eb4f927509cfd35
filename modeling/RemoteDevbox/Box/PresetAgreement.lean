import RemoteDevbox.Ansible.FactsAccepted
import RemoteDevbox.Box.ModelPresets
import RemoteDevbox.Spec.Totality

namespace RemoteDevbox.Box

open Js Client Spec

/-!
# The two readers of the model presets

The client validates a block, the generator copies it, the extension parses
the copy.
-/

/-! ## What the validator admits -/

structure SelectorPasses (role : String) (value : Val) (s : String) : Prop where
  eq : value = .str s
  nonBlank : Text.nonBlank s = true
  thinking : (role = "task" ∧ ':' ∉ s.toList) ∨ thinkingOf s ∈ OMP_THINKING_LEVELS

structure PresetPasses (name : String) (roles : Val) : Prop where
  name : Text.test OMP_PRESET_NAME_RE name = true
  record : roles.isRecord = true
  known : ∀ k ∈ roles.ownFields.keys, k ∈ OMP_MODEL_ROLE_IDS
  selectors : ∀ role ∈ OMP_MODEL_ROLE_IDS, hasOwn roles role = true ∧
    ∃ s, SelectorPasses role (roles.get role) s

theorem passes_knownFields {v : Val} {allowed : List String} {path message : String}
    (h : (knownFields v allowed path message).Passes) : ∀ k ∈ v.ownFields.keys, k ∈ allowed := by
  intro k hk
  obtain ⟨p, hp, rfl⟩ := List.mem_map.mp hk
  have hentry := Check.passes_each.mp h p hp
  simpa using hentry

theorem selectorPasses {path role : String} {value : Val}
    (h : (validateRoleSelector path role value).Passes) : ∃ s, SelectorPasses role value s := by
  cases value with
  | str s =>
      simp only [validateRoleSelector] at h
      split at h
      · exact (Check.not_passes_fail _ _ h).elim
      · rename_i hblank
        refine ⟨s, rfl, by simpa using hblank, ?_⟩
        simp only [Check.passes_when, Check.not_passes_fail, imp_false, Bool.and_eq_true,
          Bool.not_eq_true', not_and, beq_iff_eq, List.contains_iff_mem,
          Bool.eq_false_iff, ne_eq] at h
        by_cases hbare : role = "task" ∧ ':' ∉ s.toList
        · exact .inl hbare
        · have hlevel := h (by simpa using hbare)
          exact .inr (not_not.mp hlevel)
  | _ => exact (Check.not_passes_fail _ _ h).elim

theorem presetPasses {path name : String} {roles : Val}
    (h : (validatePreset path name roles).Passes) : PresetPasses name roles := by
  obtain ⟨hname, hroles⟩ := Check.passes_append.mp h
  split at hroles
  · rename_i hrecord
    obtain ⟨hselectors, hknown⟩ := Check.passes_append.mp hroles
    refine ⟨by simpa using hname, hrecord, ?_, ?_⟩
    · intro k hk
      obtain ⟨p, hp, rfl⟩ := List.mem_map.mp hk
      simpa using Check.passes_each.mp hknown p hp
    · intro role hrole
      have hselector := Check.passes_each.mp hselectors role hrole
      split at hselector
      · rename_i hown
        exact ⟨hown, selectorPasses hselector⟩
      · exact (Check.not_passes_fail _ _ hselector).elim
  · exact (Check.not_passes_fail _ _ hroles).elim

structure AliasPasses (presets : Val) (name : String) (target : Val) : Prop where
  safe : Text.test OMP_PRESET_NAME_RE name = true
  reserved : name ∉ PRESET_RESERVED_NAMES
  fresh : hasOwn presets name = false
  target : ∃ t, target = .str t ∧ hasOwn presets t = true

theorem aliasPasses {presets target : Val} {path name : String}
    (h : (validatePresetAlias presets path name target).Passes) :
    AliasPasses presets name target := by
  obtain ⟨hname, htarget⟩ := Check.passes_append.mp h
  split at hname
  · exact (Check.not_passes_fail _ _ hname).elim
  · rename_i hsafe
    split at hname
    · exact (Check.not_passes_fail _ _ hname).elim
    · rename_i hfree
      refine ⟨by simpa using hsafe, by simpa using hfree, by simpa using hname, ?_⟩
      cases target with
      | str t =>
          simp only [Check.passes_when, Check.not_passes_fail, imp_false,
            validatePresetAlias.namesPreset, Bool.not_eq_true', Bool.not_eq_false,
            Bool.and_eq_true] at htarget
          exact ⟨t, rfl, htarget.2⟩
      | _ => simp [validatePresetAlias.namesPreset] at htarget

/-- A list of distinct trimmed selectors. -/
def FallbacksPass (seen : List String) : List Val → Prop
  | [] => True
  | v :: rest => ∃ s, v = .str s ∧ Text.nonBlank s = true ∧ Text.trim s = s ∧ s ∉ seen ∧
      FallbacksPass (s :: seen) rest

theorem fallbacksPass {path : String} {seen : List String} {i : ℕ} {fallbacks : List Val}
    (h : (validateFallbacks path seen i fallbacks).Passes) : FallbacksPass seen fallbacks := by
  induction fallbacks generalizing seen i with
  | nil => trivial
  | cons v rest ih =>
      cases v with
      | str s =>
          simp only [validateFallbacks] at h
          split at h
          · exact absurd (Check.passes_append.mp h).1 (Check.not_passes_fail _ _)
          · rename_i hgood
            split at h
            · exact absurd (Check.passes_append.mp h).1 (Check.not_passes_fail _ _)
            · rename_i hfresh
              simp only [Bool.or_eq_true, Bool.not_eq_true', bne_iff_ne, ne_eq, not_or,
                Bool.not_eq_false, not_not] at hgood
              exact ⟨s, rfl, hgood.1, hgood.2, by simpa using hfresh, ih h⟩
      | _ =>
          simp only [validateFallbacks] at h
          exact absurd (Check.passes_append.mp h).1 (Check.not_passes_fail _ _)

structure ChainPasses (selector : String) (fallbacks : Val) : Prop where
  nonEmpty : selector ≠ ""
  trimmed : Text.trim selector = selector
  fallbacks : ∃ f fs, fallbacks = .arr (f :: fs) ∧ FallbacksPass [] (f :: fs)

theorem chainPasses {path selector : String} {fallbacks : Val}
    (h : (validateFallbackChain path selector fallbacks).Passes) :
    ChainPasses selector fallbacks := by
  obtain ⟨hselector, hfallbacks⟩ := Check.passes_append.mp h
  simp only [Check.passes_when, Check.not_passes_fail, imp_false, Bool.or_eq_true, beq_iff_eq,
    bne_iff_ne, ne_eq, not_or, not_not] at hselector
  split at hfallbacks
  · rename_i f fs
    exact ⟨hselector.1, hselector.2, f, fs, rfl, fallbacksPass hfallbacks⟩
  · exact (Check.not_passes_fail _ _ hfallbacks).elim

structure RetryPasses (raw : Val) : Prop where
  record : raw.isRecord = true
  known : ∀ k ∈ raw.ownFields.keys, k ∈ RETRY_FIELDS
  flags : ∀ k ∈ ["model_fallback", "usage_aware_fallback"], ∃ b, raw.get k = .bool b
  percent : isIntegerIn 1 100 (raw.get "usage_reserve_pct") = true
  reserve : ∃ s, (raw.get "usage_reserve_policy").toStr = .ok s ∧
    s ∈ ["confirm", "auto", "fail-closed"]
  revert : ∃ s, (raw.get "fallback_revert_policy").toStr = .ok s ∧ s ∈ ["cooldown-expiry", "never"]
  chains : ∃ c cs, raw.get "fallback_chains" = .obj (c :: cs) ∧
    ∀ p ∈ c :: cs, ChainPasses p.1 p.2

theorem bool_of_isBool {v : Val} (h : v.isBool = true) : ∃ b, v = .bool b := by
  cases v with
  | bool b => exact ⟨b, rfl⟩
  | _ => cases h

theorem retryPasses {raw : Val} {base : String} (h : (validateOmpRetryPolicy raw base).Passes) :
    raw = .undef ∨ RetryPasses raw := by
  rcases Check.passes_section?.mp h with hundef | ⟨fs, rfl, hbody⟩
  · exact .inl hundef
  · simp only [Check.passes_append, and_assoc] at hbody
    obtain ⟨hknown, hflags, hpercent, hreserve, hrevert, hchains⟩ := hbody
    refine .inr ⟨rfl, passes_knownFields hknown, ?_, by simpa using hpercent, ?_, ?_, ?_⟩
    · intro k hk
      have hflag := Check.passes_each.mp hflags k hk
      exact bool_of_isBool (by simpa using hflag)
    · obtain ⟨s, hs, hmem⟩ := Check.passes_eval.mp hreserve
      simp only [Check.passes_when, Check.not_passes_fail, imp_false, Bool.not_eq_true',
        Bool.not_eq_false, List.contains_iff_mem] at hmem
      exact ⟨s, hs, hmem⟩
    · obtain ⟨s, hs, hmem⟩ := Check.passes_eval.mp hrevert
      simp only [Check.passes_when, Check.not_passes_fail, imp_false, Bool.not_eq_true',
        Bool.not_eq_false, List.contains_iff_mem] at hmem
      exact ⟨s, hs, hmem⟩
    · split at hchains
      · rename_i c cs heq
        exact ⟨c, cs, heq, fun p hp ↦ chainPasses (Check.passes_each.mp hchains p hp)⟩
      · exact (Check.not_passes_fail _ _ hchains).elim

structure BlockPasses (raw : Val) : Prop where
  record : raw.isRecord = true
  known : ∀ k ∈ raw.ownFields.keys, k ∈ DOCUMENT_FIELDS
  presets : ∃ p ps, raw.get "presets" = .obj (p :: ps)
  each : ∀ p ∈ (raw.get "presets").ownFields, PresetPasses p.1 p.2
  default : ∃ s, raw.get "default_preset" = .str s ∧ Text.test OMP_PRESET_NAME_RE s = true ∧
    hasOwn (raw.get "presets") s = true
  aliases : raw.get "aliases" = .undef ∨ ∃ fs, raw.get "aliases" = .obj fs ∧
    ∀ a ∈ fs, AliasPasses (raw.get "presets") a.1 a.2
  retry : raw.get "retry" = .undef ∨ RetryPasses (raw.get "retry")

theorem blockPasses {raw provider : Val} {base : String}
    (h : (validateOmpModelPresets raw provider base).Passes) :
    raw = .undef ∨ BlockPasses raw := by
  obtain ⟨_, hsection⟩ := Check.passes_append.mp h
  rcases Check.passes_section?.mp hsection with hundef | ⟨fs, rfl, hbody⟩
  · exact .inl hundef
  · simp only [Check.passes_append, and_assoc] at hbody
    obtain ⟨hknown, hdefault, hpresets⟩ := hbody
    split at hpresets
    · rename_i p ps heq
      simp only [Check.passes_append, and_assoc] at hpresets
      obtain ⟨hdeclared, haliases, heach, hretry⟩ := hpresets
      simp only [Check.passes_when, Check.not_passes_fail, imp_false, Bool.not_eq_true',
        Bool.not_eq_false, Bool.and_eq_true] at hdefault
      refine .inr ⟨rfl, passes_knownFields hknown, ⟨p, ps, heq⟩, ?_, ?_, ?_, retryPasses hretry⟩
      · intro q hq
        rw [heq] at hq
        exact presetPasses (Check.passes_each.mp heach q hq)
      · obtain ⟨hnonBlank, hname⟩ := hdefault
        cases hv : (Val.obj fs).get "default_preset" with
        | str s =>
            rw [hv] at hdeclared hname
            exact ⟨s, rfl, hname, by rw [heq]; simpa using hdeclared⟩
        | _ =>
            rw [hv] at hnonBlank
            cases hnonBlank
      · rcases Check.passes_section?.mp haliases with hundef | ⟨as, has, hentries⟩
        · exact .inl hundef
        · refine .inr ⟨as, has, fun a ha ↦ ?_⟩
          rw [heq]
          exact aliasPasses (Check.passes_each.mp hentries a ha)
    · exact (Check.not_passes_fail _ _ hpresets).elim

/-! ## Selectors -/

theorem atLastColon_none {s : String} (h : ':' ∉ s.toList) : atLastColon s = none := by
  have hdrop : s.toList.reverse.dropWhile (· != ':') = [] := by
    refine List.dropWhile_eq_nil_iff.mpr fun c hc ↦ bne_iff_ne.mpr ?_
    rintro rfl
    exact h (List.mem_reverse.mp hc)
  rw [atLastColon, hdrop]

theorem atLastColon_some {s : String} (h : ':' ∈ s.toList) :
    ∃ before after, s.toList = before ++ ':' :: after ∧ ':' ∉ after ∧
      atLastColon s = some (String.ofList before, String.ofList after) := by
  cases hdrop : s.toList.reverse.dropWhile (· != ':') with
  | nil =>
      have hall := List.dropWhile_eq_nil_iff.mp hdrop ':' (List.mem_reverse.mpr h)
      cases hall
  | cons c before =>
      have hcolon : c = ':' := by
        have hhead := List.head_dropWhile_not (· != ':') (l := s.toList.reverse) (by simp [hdrop])
        simpa [hdrop] using hhead
      subst hcolon
      have hsplit := List.takeWhile_append_dropWhile (p := (· != ':')) (l := s.toList.reverse)
      rw [hdrop] at hsplit
      refine ⟨before.reverse, (s.toList.reverse.takeWhile (· != ':')).reverse, ?_, ?_, ?_⟩
      · have hreverse := congrArg List.reverse hsplit
        simpa using hreverse.symm
      · intro hmem
        have hne := List.mem_takeWhile_imp (List.mem_reverse.mp hmem)
        cases hne
      · rw [atLastColon, hdrop]

/-- The two readings of the thinking level agree. -/
theorem thinkingOf_eq {s : String} {before after : List Char}
    (hs : s.toList = before ++ ':' :: after) (hafter : ':' ∉ after) :
    thinkingOf s = if before = [] then "" else String.ofList after := by
  have hparts : Text.split ':' s =
      (before.splitOn ':').map String.ofList ++ [String.ofList after] := by
    rw [Text.split, hs, List.splitOn_append_cons_self, List.splitOn_eq_singleton hafter,
      List.map_append]
    rfl
  have hlast : ((before.splitOn ':').map String.ofList ++ [String.ofList after]).getLast?.getD "" =
      String.ofList after := by
    rw [List.getLast?_append_of_ne_nil _ (List.cons_ne_nil _ _)]
    rfl
  have hjoined : [':'].intercalate (before.splitOn ':') = before := List.intercalate_splitOn ':'
  rw [thinkingOf, hparts]
  cases hfirst : before.splitOn ':' with
  | nil => exact absurd hfirst (List.splitOn_ne_nil _ _)
  | cons part parts =>
      rw [hfirst] at hjoined hlast
      cases parts with
      | nil =>
          obtain rfl : part = before := by simpa using hjoined
          by_cases hempty : part = []
          · subst hempty
            rfl
          · have hne : String.ofList part ≠ "" := fun heq ↦
              hempty (by simpa using congrArg String.toList heq)
            rw [if_neg hempty]
            simp only [List.map_cons, List.map_nil, List.cons_append, List.nil_append]
            split <;> simp_all
      | cons next parts =>
          have hne : before ≠ [] := by
            rintro rfl
            simp at hfirst
          rw [if_neg hne, ← hlast]
          simp only [List.map_cons, List.cons_append]
          split <;> simp_all

/-- A selector that passed the validator has a model before its level. -/
theorem atLastColon_of_level {s : String} (h : thinkingOf s ∈ OMP_THINKING_LEVELS) :
    ∃ modelSelector, modelSelector ≠ "" ∧ atLastColon s = some (modelSelector, thinkingOf s) := by
  have hempty : "" ∉ OMP_THINKING_LEVELS := by decide
  by_cases hcolon : ':' ∈ s.toList
  · obtain ⟨before, after, hs, hafter, hat⟩ := atLastColon_some hcolon
    have hthinking := thinkingOf_eq hs hafter
    by_cases hbefore : before = []
    · rw [if_pos hbefore] at hthinking
      exact absurd (hthinking ▸ h) hempty
    · rw [if_neg hbefore] at hthinking
      refine ⟨String.ofList before, ?_, by rw [hat, hthinking]⟩
      exact fun heq ↦ hbefore (by simpa using congrArg String.toList heq)
  · have hnone : thinkingOf s = "" := by
      rw [thinkingOf, Text.split, List.splitOn_eq_singleton hcolon]
      rfl
    exact absurd (hnone ▸ h) hempty

theorem parseSelection_of_passes (path : String) {role s : String} {value : Val}
    (h : SelectorPasses role value s) (htrim : Text.trim s = s) :
    ∃ selection, parseSelection path (role == "task") value = .ok selection ∧
      selection.selector = s := by
  have hne : s ≠ "" := Text.ne_empty_of_nonBlank h.nonBlank
  rw [h.eq]
  rcases h.thinking with ⟨rfl, hbare⟩ | hlevel
  · refine ⟨⟨s, s, none⟩, ?_, rfl⟩
    simp [parseSelection, htrim, hne, atLastColon_none hbare]
  · obtain ⟨modelSelector, hmodel, hat⟩ := atLastColon_of_level hlevel
    have hthinking : thinkingOf s ≠ "" := by
      intro heq
      rw [heq] at hlevel
      exact absurd hlevel (by decide)
    refine ⟨⟨s, modelSelector, some (thinkingOf s)⟩, ?_, rfl⟩
    simp [parseSelection, htrim, hne, hat, hmodel, hthinking, hlevel]

theorem parseSelection_trimmed {path s : String} {allowBare : Bool}
    {selection : ParsedRoleSelection}
    (h : parseSelection path allowBare (.str s) = .ok selection) : Text.trim s = s := by
  simp only [parseSelection] at h
  split at h
  · cases h
  · rename_i hgood
    simp only [Bool.or_eq_true, bne_iff_ne, ne_eq, beq_iff_eq, not_or, not_not] at hgood
    exact hgood.1

/-! ## Presets -/

/-- A preset that has every written selector. -/
def AgreesPreset (roles : Val) (preset : ParsedPreset) : Prop :=
  preset.selectors.map (fun p ↦ (p.1, Val.str p.2)) =
    OMP_MODEL_ROLE_IDS.map fun role ↦ (role, roles.get role)

def TrimmedRoles (roles : Val) : Prop :=
  ∀ role ∈ OMP_MODEL_ROLE_IDS, ∀ s, roles.get role = .str s → Text.trim s = s

theorem knownKeys_of_subset {fs : Fields} {known : List String} {message : String → String}
    (h : ∀ k ∈ fs.keys, k ∈ known) : knownKeys fs known message = .ok () := by
  have hnone : fs.keys.find? (fun k ↦ !known.contains k) = none := by
    refine List.find?_eq_none.mpr fun k hk ↦ ?_
    simpa using h k hk
  rw [knownKeys, hnone]

theorem parseRoles_of_passes (name : String) {roles : Val} {ids : List String}
    (h : ∀ role ∈ ids, hasOwn roles role = true ∧ ∃ s, SelectorPasses role (roles.get role) s)
    (htrim : ∀ role ∈ ids, ∀ s, roles.get role = .str s → Text.trim s = s) :
    ∃ parsed, ids.mapM (parseRole name roles) = .ok parsed ∧
      parsed.map (fun p ↦ (p.1, Val.str p.2.selector)) = ids.map fun role ↦ (role, roles.get role) := by
  induction ids with
  | nil => exact ⟨[], rfl, rfl⟩
  | cons role ids ih =>
      rw [List.forall_mem_cons] at h htrim
      obtain ⟨⟨hown, s, hpasses⟩, hrest⟩ := h
      obtain ⟨selection, hselection, hs⟩ :=
        parseSelection_of_passes s!"preset '{name}' role '{role}'" hpasses
          (htrim.1 s hpasses.eq)
      obtain ⟨parsed, hparsed, hmap⟩ := ih hrest htrim.2
      refine ⟨(role, selection) :: parsed, ?_, ?_⟩
      · rw [mapM_eq_ok] at hparsed ⊢
        refine .cons ?_ hparsed
        simp [parseRole, hown, hselection, require]
      · rw [List.map_cons, List.map_cons, hmap, hs, hpasses.eq]

theorem parsePreset_of_passes {name : String} {roles : Val} (h : PresetPasses name roles)
    (htrim : TrimmedRoles roles) :
    ∃ preset, parsePreset name roles = .ok preset ∧ AgreesPreset roles preset := by
  obtain ⟨parsed, hparsed, hmap⟩ := parseRoles_of_passes name h.selectors htrim
  refine ⟨⟨parsed, parsed.map fun p ↦ (p.1, p.2.selector)⟩, ?_, ?_⟩
  · simp [parsePreset, h.name, h.record, knownKeys_of_subset h.known, hparsed, require]
  · rw [AgreesPreset, List.map_map, ← hmap]
    rfl

theorem parsePreset_trimmed {name : String} {roles : Val} {preset : ParsedPreset}
    (h : parsePreset name roles = .ok preset) : TrimmedRoles roles := by
  simp only [parsePreset, bind_eq_ok] at h
  obtain ⟨_, _, _, _, _, _, parsed, hparsed, _⟩ := h
  intro role hrole s hs
  obtain ⟨p, _, hp⟩ := forall₂_exists_left (mapM_eq_ok.mp hparsed).flip hrole
  simp only [parseRole, bind_eq_ok, hs] at hp
  obtain ⟨_, _, selection, hselection, _⟩ := hp
  exact parseSelection_trimmed hselection

/-! ## Fallback chains -/

theorem parseFallbacks_of_pass {selector : String} {fallbacks : List Val}
    {seen parsed : List String} (h : FallbacksPass seen fallbacks)
    (hseen : ∀ s, s ∈ parsed ↔ s ∈ seen) :
    ∃ texts, fallbacks = texts.map .str ∧
      parseFallbacks selector parsed fallbacks = .ok (parsed ++ texts) := by
  induction fallbacks generalizing seen parsed with
  | nil => exact ⟨[], rfl, by simp [parseFallbacks]⟩
  | cons v rest ih =>
      obtain ⟨s, rfl, hblank, htrim, hfresh, hrest⟩ := h
      have hgrown : ∀ t, t ∈ parsed ++ [s] ↔ t ∈ s :: seen := by
        intro t
        rw [List.mem_append, List.mem_singleton, List.mem_cons, hseen, or_comm]
      obtain ⟨texts, htexts, hparse⟩ := ih hrest hgrown
      refine ⟨s :: texts, by rw [htexts, List.map_cons], ?_⟩
      have hne : s ≠ "" := Text.ne_empty_of_nonBlank hblank
      have hnew : s ∉ parsed := fun hmem ↦ hfresh ((hseen s).mp hmem)
      simp [parseFallbacks, hne, htrim, hnew, hparse]

theorem parseChain_of_passes {selector : String} {fallbacks : Val}
    (h : ChainPasses selector fallbacks) :
    ∃ texts, fallbacks = .arr (texts.map .str) ∧ parseChain selector fallbacks = .ok texts := by
  obtain ⟨f, fs, rfl, hpass⟩ := h.fallbacks
  obtain ⟨texts, htexts, hparse⟩ :=
    @parseFallbacks_of_pass selector (f :: fs) [] [] hpass (by simp)
  refine ⟨texts, by rw [htexts], ?_⟩
  simp [parseChain, h.nonEmpty, h.trimmed, hparse]

/-! ## The retry policy -/

structure AgreesRetry (written : Val) (policy : ParsedRetryPolicy) : Prop where
  modelFallback : written.get "model_fallback" = .bool policy.modelFallback
  usageAwareFallback : written.get "usage_aware_fallback" = .bool policy.usageAwareFallback
  usageReservePct : written.get "usage_reserve_pct" = policy.usageReservePct
  usageReservePolicy : written.get "usage_reserve_policy" = policy.usageReservePolicy
  fallbackRevertPolicy : written.get "fallback_revert_policy" = policy.fallbackRevertPolicy
  fallbackChains : (written.get "fallback_chains").ownFields =
    policy.fallbackChains.map fun p ↦ (p.1, .arr (p.2.map .str))

theorem map_eq_of_image {β : Type} {f : String → Val → Js β} {g : β → Val} {fields : Fields}
    {image : List (String × β)}
    (h : List.Forall₂ (fun p q ↦ q.1 = p.1 ∧ f p.1 p.2 = .ok q.2) fields image)
    (hg : ∀ p ∈ fields, ∀ b, f p.1 p.2 = .ok b → p.2 = g b) :
    fields = image.map fun q ↦ (q.1, g q.2) := by
  induction h with
  | nil => rfl
  | @cons p q fields image hpq _ ih =>
      rw [List.forall_mem_cons] at hg
      rw [List.map_cons, ← ih hg.2, hpq.1, ← hg.1 q.2 hpq.2]

/-- Every property can be assigned, and the result lists them all. -/
theorem assignEach_of_each {β : Type} {f : String → Val → Js β} {fields : Fields}
    (hnodup : fields.keys.Nodup) (hproto : "__proto__" ∉ fields.keys)
    (h : ∀ p ∈ fields, ∃ b, f p.1 p.2 = .ok b) :
    ∃ image, assignEach f [] fields = .ok image ∧
      List.Forall₂ (fun p q ↦ q.1 = p.1 ∧ f p.1 p.2 = .ok q.2) fields image := by
  have himage : ∃ image : List (String × β),
      List.Forall₂ (fun p q ↦ q.1 = p.1 ∧ f p.1 p.2 = .ok q.2) fields image := by
    clear hnodup hproto
    induction fields with
    | nil => exact ⟨[], .nil⟩
    | cons p fields ih =>
        rw [List.forall_mem_cons] at h
        obtain ⟨b, hb⟩ := h.1
        obtain ⟨image, hrest⟩ := ih h.2
        exact ⟨(p.1, b) :: image, .cons ⟨rfl, hb⟩ hrest⟩
  obtain ⟨image, himage⟩ := himage
  refine ⟨image, (assignEach_eq_ok ?_ hproto).mpr ⟨image, himage, rfl⟩, himage⟩
  simpa using hnodup

theorem parseRetry_of_passes {raw : Val} (h : RetryPasses raw)
    (hnodup : (raw.get "fallback_chains").ownFields.keys.Nodup)
    (hproto : "__proto__" ∉ (raw.get "fallback_chains").ownFields.keys) :
    ∃ policy, parseRetryPolicy raw = .ok (some policy) ∧ AgreesRetry raw policy := by
  obtain ⟨modelFallback, hmodel⟩ := h.flags "model_fallback" (by simp)
  obtain ⟨usageAware, husage⟩ := h.flags "usage_aware_fallback" (by simp)
  obtain ⟨reserve, hreserve, hreserveIn⟩ := h.reserve
  obtain ⟨revert, hrevert, hrevertIn⟩ := h.revert
  obtain ⟨c, cs, hchains, hall⟩ := h.chains
  rw [hchains] at hproto hnodup
  change (Fields.keys (c :: cs)).Nodup at hnodup
  obtain ⟨image, hassign, himage⟩ := assignEach_of_each (f := parseChain) hnodup hproto
    fun p hp ↦ (parseChain_of_passes (hall p hp)).imp fun _ h ↦ h.2
  have hmap : Val.ownFields (.obj (c :: cs)) = image.map fun q ↦ (q.1, .arr (q.2.map .str)) := by
    refine map_eq_of_image (g := fun texts ↦ .arr (texts.map .str)) himage ?_
    intro p hp texts htexts
    obtain ⟨texts', hvalue, hparse⟩ := parseChain_of_passes (hall p hp)
    rw [hparse] at htexts
    rw [hvalue, Except.ok.inj htexts]
  refine ⟨⟨modelFallback, usageAware, raw.get "usage_reserve_pct", raw.get "usage_reserve_policy",
    raw.get "fallback_revert_policy", image⟩, ?_, hmodel, husage, rfl, rfl, rfl, ?_⟩
  · cases raw with
    | obj fs =>
        have hreserve' : (["confirm", "auto", "fail-closed"] : List String).contains reserve = true :=
          List.contains_iff_mem.mpr hreserveIn
        have hrevert' : (["cooldown-expiry", "never"] : List String).contains revert = true :=
          List.contains_iff_mem.mpr hrevertIn
        have hknown : ∀ message, knownKeys fs RETRY_FIELDS message = .ok () :=
          fun _ ↦ knownKeys_of_subset h.known
        simp only [parseRetryPolicy, parseRetryFields, hknown, hmodel, husage,
          parseBool, h.percent, hreserve, hreserve', hrevert, hrevert', hchains, isNonEmptyRecord,
          require, ok_bind, if_true, List.isEmpty_cons, Bool.not_false, Val.ownFields, hassign,
          pure_eq_ok]
    | _ => cases h.record
  · rw [hchains]
    exact hmap

/-! ## The document -/

/-- The parsed document says what was written. -/
structure Agrees (written : Val) (parsed : ParsedPresetDocument) : Prop where
  defaultPreset : written.get "default_preset" = .str parsed.defaultPreset
  aliases : (written.get "aliases").ownFields = parsed.aliases.map fun p ↦ (p.1, .str p.2)
  presets : List.Forall₂ (fun p q ↦ q.1 = p.1 ∧ AgreesPreset p.2 q.2)
    (written.get "presets").ownFields parsed.presets
  retry : (written.get "retry" = .undef ∧ parsed.retry = none) ∨
    ∃ policy, parsed.retry = some policy ∧ AgreesRetry (written.get "retry") policy

/-- The blocks that both readers read alike: every role selector is trimmed, and
no fallback chain has a name that an assignment loses. -/
structure Readable (written : Val) : Prop where
  trimmed : ∀ p ∈ (written.get "presets").ownFields, TrimmedRoles p.2
  chains : "__proto__" ∉ ((written.get "retry").get "fallback_chains").ownFields.keys

theorem safe_ne_proto {name : String} (h : Text.test OMP_PRESET_NAME_RE name = true) :
    name ≠ "__proto__" := by
  rintro rfl
  exact absurd h (by decide +kernel)

theorem parsePresets_of_passes {fields : Fields} (hnodup : fields.keys.Nodup)
    (h : ∀ p ∈ fields, PresetPasses p.1 p.2) (htrim : ∀ p ∈ fields, TrimmedRoles p.2) :
    ∃ presets, assignEach parsePreset [] fields = .ok presets ∧
      presets.map Prod.fst = fields.keys ∧
      List.Forall₂ (fun p q ↦ q.1 = p.1 ∧ AgreesPreset p.2 q.2) fields presets := by
  have hproto : "__proto__" ∉ fields.keys := by
    intro hmem
    obtain ⟨p, hp, hname⟩ := List.mem_map.mp hmem
    exact safe_ne_proto (h p hp).name hname
  obtain ⟨presets, hassign, himage⟩ := assignEach_of_each hnodup hproto
    fun p hp ↦ (parsePreset_of_passes (h p hp) (htrim p hp)).imp fun _ hparse ↦ hparse.1
  refine ⟨presets, hassign, forall₂_fst himage fun _ _ hq ↦ hq.1, ?_⟩
  have hagrees : ∀ p ∈ fields, ∀ preset, parsePreset p.1 p.2 = .ok preset →
      AgreesPreset p.2 preset := by
    intro p hp preset hparse
    obtain ⟨found, hfound, hagrees⟩ := parsePreset_of_passes (h p hp) (htrim p hp)
    rw [hfound] at hparse
    exact Except.ok.inj hparse ▸ hagrees
  clear hassign hproto hnodup h htrim
  induction himage with
  | nil => exact .nil
  | cons hpq _ ih =>
      rw [List.forall_mem_cons] at hagrees
      exact .cons ⟨hpq.1, hagrees.1 _ hpq.2⟩ (ih hagrees.2)

theorem parseAliases_of_passes {raw value : Val} {presets : List (String × ParsedPreset)}
    (hkeys : presets.map Prod.fst = raw.ownFields.keys) (hparsed : value ≠ .undef → value.parsed = true)
    (h : value = .undef ∨ ∃ fs, value = .obj fs ∧ ∀ a ∈ fs, AliasPasses raw a.1 a.2) :
    ∃ aliases, parseAliases presets value = .ok aliases ∧
      value.ownFields = aliases.map fun p ↦ (p.1, .str p.2) := by
  rcases h with rfl | ⟨fs, rfl, hall⟩
  · exact ⟨[], rfl, rfl⟩
  · have hown : ∀ name, (presets.map Prod.fst).contains name = hasOwn raw name := by
      intro name
      rw [hkeys]
      rfl
    have hone : ∀ a ∈ fs, ∃ t, a.2 = .str t ∧ parseAlias presets a.1 a.2 = .ok t := by
      intro a ha
      obtain ⟨hsafe, hfree, hfresh, t, htarget, ht⟩ := hall a ha
      refine ⟨t, htarget, ?_⟩
      have hreserved : PRESET_RESERVED_NAMES.contains a.1 = false := by simpa using hfree
      simp only [parseAlias, hsafe, hreserved, hown, hfresh, htarget, ht, require, ok_bind, if_true,
        Bool.not_false, pure_eq_ok]
    have hproto : "__proto__" ∉ Fields.keys fs := by
      intro hmem
      obtain ⟨a, ha, hname⟩ := List.mem_map.mp hmem
      exact safe_ne_proto (hall a ha).safe hname
    obtain ⟨aliases, hassign, himage⟩ := assignEach_of_each (f := parseAlias presets)
      (Val.parsed_obj.mp (hparsed (by simp))).1 hproto
      fun a ha ↦ (hone a ha).imp fun _ h ↦ h.2
    refine ⟨aliases, hassign, ?_⟩
    refine map_eq_of_image (g := .str) himage ?_
    intro a ha t ht
    obtain ⟨t', htarget, hparse⟩ := hone a ha
    rw [hparse] at ht
    rw [htarget, Except.ok.inj ht]

/-- A copy of a block, as far as the parser looks at it. -/
structure Copies (written copied : Val) : Prop where
  record : copied.isRecord = true
  known : ∀ k ∈ copied.ownFields.keys, k ∈ DOCUMENT_FIELDS
  defaultPreset : copied.get "default_preset" = written.get "default_preset"
  aliases : copied.get "aliases" = written.get "aliases"
  presets : copied.get "presets" = written.get "presets"

/-- The parts of the document apart from its retry policy. -/
structure AgreesNames (written : Val) (parsed : ParsedPresetDocument) : Prop where
  defaultPreset : written.get "default_preset" = .str parsed.defaultPreset
  aliases : (written.get "aliases").ownFields = parsed.aliases.map fun p ↦ (p.1, .str p.2)
  presets : List.Forall₂ (fun p q ↦ q.1 = p.1 ∧ AgreesPreset p.2 q.2)
    (written.get "presets").ownFields parsed.presets

theorem presets_nodup {written : Val} (h : BlockPasses written) (hparsed : written.parsed = true) :
    (written.get "presets").ownFields.keys.Nodup := by
  obtain ⟨p, ps, hpresets⟩ := h.presets
  have hget := Val.parsed_get hparsed (k := "presets") (by rw [hpresets]; simp)
  rw [hpresets] at hget ⊢
  exact (Val.parsed_obj.mp hget).1

/-- Whatever its retry policy reads as, the copy of a block is read. -/
theorem parse_of_policy {written copied : Val} (h : BlockPasses written)
    (hparsed : written.parsed = true) (hcopy : Copies written copied)
    (htrim : ∀ p ∈ (written.get "presets").ownFields, TrimmedRoles p.2)
    {retry : Option ParsedRetryPolicy} (hpolicy : parseRetryPolicy (copied.get "retry") = .ok retry) :
    ∃ parsed, parsePresetDocument copied = .ok parsed ∧ AgreesNames written parsed ∧
      parsed.retry = retry := by
  obtain ⟨p, ps, hpresets⟩ := h.presets
  obtain ⟨name, hname, hsafe, hdeclared⟩ := h.default
  obtain ⟨presets, hparse, hkeys, hagrees⟩ :=
    parsePresets_of_passes (presets_nodup h hparsed) h.each htrim
  obtain ⟨aliases, haliases, hnames⟩ :=
    parseAliases_of_passes hkeys (fun hk ↦ Val.parsed_get hparsed hk) h.aliases
  refine ⟨⟨name, aliases, presets, retry⟩, ?_, ⟨hname, hnames, hagrees⟩, rfl⟩
  have hknown : ∀ message, knownKeys copied.ownFields DOCUMENT_FIELDS message = .ok () :=
    fun _ ↦ knownKeys_of_subset hcopy.known
  have hnonEmpty : isNonEmptyRecord (written.get "presets") = true := by
    rw [hpresets]
    rfl
  simp only [parsePresetDocument, hcopy.record, hknown, hcopy.defaultPreset, hcopy.presets,
    hcopy.aliases, hname, parseDefault, hsafe, hnonEmpty, hdeclared, hparse, haliases,
    hpolicy, require, ok_bind, if_true, pure_eq_ok]

theorem retry_stated {raw : Val} (h : RetryPasses raw) : raw ≠ .undef := by
  intro hundef
  have hrecord := h.record
  rw [hundef] at hrecord
  cases hrecord

theorem chains_nodup {raw : Val} (h : RetryPasses raw) (hparsed : raw.parsed = true) :
    (raw.get "fallback_chains").ownFields.keys.Nodup := by
  obtain ⟨c, cs, hchains, -⟩ := h.chains
  have hget := Val.parsed_get hparsed (k := "fallback_chains") (by rw [hchains]; simp)
  rw [hchains] at hget ⊢
  exact (Val.parsed_obj.mp hget).1

theorem parse_of_passes {written copied : Val} (h : BlockPasses written)
    (hparsed : written.parsed = true) (hcopy : Copies written copied)
    (hretry : copied.get "retry" = written.get "retry") (hreadable : Readable written) :
    ∃ parsed, parsePresetDocument copied = .ok parsed ∧ Agrees written parsed := by
  obtain ⟨retry, hpolicy, hsame⟩ : ∃ retry, parseRetryPolicy (written.get "retry") = .ok retry ∧
      ((written.get "retry" = .undef ∧ retry = none) ∨
        ∃ policy, retry = some policy ∧ AgreesRetry (written.get "retry") policy) := by
    rcases h.retry with hundef | hpasses
    · rw [hundef]
      exact ⟨none, rfl, .inl ⟨rfl, rfl⟩⟩
    · have hnodup := chains_nodup hpasses (Val.parsed_get hparsed (retry_stated hpasses))
      obtain ⟨policy, hpolicy, hagreesRetry⟩ :=
        parseRetry_of_passes hpasses hnodup hreadable.chains
      exact ⟨some policy, hpolicy, .inr ⟨policy, rfl, hagreesRetry⟩⟩
  rw [← hretry] at hpolicy
  obtain ⟨parsed, hparse, hagrees, rfl⟩ := parse_of_policy h hparsed hcopy hreadable.trimmed hpolicy
  exact ⟨parsed, hparse, hagrees.defaultPreset, hagrees.aliases, hagrees.presets, hsame⟩

/-- The parser refuses an untrimmed selector, and its chains never have the name
that an assignment loses. -/
theorem readable_of_parse {written copied : Val} {parsed : ParsedPresetDocument}
    (hcopy : Copies written copied) (h : parsePresetDocument copied = .ok parsed)
    (hagrees : Agrees written parsed) : Readable written := by
  simp only [parsePresetDocument, bind_eq_ok] at h
  obtain ⟨_, _, _, _, _, _, _, _, _, _, presets, hpresets, aliases, _, retry, hretry, hparsed⟩ := h
  simp only [pure_eq_ok, Except.ok.injEq] at hparsed
  subst hparsed
  refine ⟨?_, ?_⟩
  · intro p hp
    rw [hcopy.presets] at hpresets
    obtain ⟨preset, hpreset⟩ := assignEach_each hpresets hp
    exact parsePreset_trimmed hpreset
  · intro hproto
    rcases hagrees.retry with ⟨hundef, _⟩ | ⟨policy, hpolicy, hagreesRetry⟩
    · rw [hundef] at hproto
      cases hproto
    · rw [hagreesRetry.fallbackChains] at hproto
      obtain ⟨q, hq, hname⟩ := List.mem_map.mp hproto
      obtain ⟨chain, hchain, rfl⟩ := List.mem_map.mp hq
      have hsome : retry = some policy := hpolicy
      subst hsome
      unfold parseRetryPolicy at hretry
      split at hretry
      · cases hretry
      · simp only [bind_eq_ok, pure_eq_ok, Except.ok.injEq, Option.some.injEq] at hretry
        obtain ⟨found, hfields, rfl⟩ := hretry
        simp only [parseRetryFields, bind_eq_ok, pure_eq_ok, Except.ok.injEq] at hfields
        obtain ⟨_, _, _, _, _, _, _, _, _, _, _, _, _, _, _, _, _, _, chains, hchains, rfl⟩ := hfields
        obtain ⟨key, texts⟩ := chain
        rcases mem_assignEach hchains hchain with hmem | ⟨hne, _⟩
        · cases hmem
        · exact hne hname
      · cases hretry

/-! ## The generator's copy -/

theorem mapEntries_eq_assignEach (fn : Val → Js Val) (out fields : Fields) :
    mapEntries fn out fields = assignEach (fun _ v ↦ fn v) out fields := by
  have hset : ∀ (out : Fields) (k : String) (v : Val), out.set k v = put out k v := by
    intro out k v
    induction out with
    | nil => rfl
    | cons p out ih => simp only [Fields.set, put, ih]
  have hassign : ∀ (out : Fields) (k : String) (v : Val), assignProp out k v = assign out k v := by
    intro out k v
    simp only [assignProp, assign, beq_iff_eq, hset]
  induction fields generalizing out with
  | nil => rfl
  | cons p fields ih => simp only [mapEntries, assignEach, hassign, ih]

/-- A mapping with distinct ordinary names and values that stay as they are. -/
theorem mapValues_self {fs : Fields} {fn : Val → Js Val} (hnodup : fs.keys.Nodup)
    (hproto : "__proto__" ∉ fs.keys) (h : ∀ p ∈ fs, fn p.2 = .ok p.2) :
    mapValues (.obj fs) fn = .ok (.obj fs) := by
  have hassign : assignEach (fun _ v ↦ fn v) [] fs = .ok fs := by
    refine (assignEach_eq_ok (by simpa using hnodup) hproto).mpr ⟨fs, ?_, rfl⟩
    clear hnodup hproto
    induction fs with
    | nil => exact .nil
    | cons p fs ih =>
        rw [List.forall_mem_cons] at h
        exact .cons ⟨rfl, h.1⟩ (ih h.2)
  change (mapEntries fn [] fs >>= fun out ↦ pure (Val.obj out)) = _
  rw [mapEntries_eq_assignEach, hassign]
  rfl

theorem Fields.set_lookup {fs : Fields} {k : String} (h : k ∈ fs.keys) :
    fs.set k (Fields.lookup fs k) = fs := by
  induction fs with
  | nil => cases h
  | cons p fs ih =>
      obtain ⟨k', v⟩ := p
      by_cases hk : k' = k
      · subst hk
        simp [Fields.set, Fields.lookup]
      · have hrest : k ∈ Fields.keys fs := (List.mem_cons.mp h).resolve_left (Ne.symm hk)
        simp only [Fields.set, Fields.lookup, if_neg hk, ih hrest]

theorem record_eq {v : Val} (h : v.isRecord = true) : ∃ fs, v = .obj fs := by
  cases v with
  | obj fs => exact ⟨fs, rfl⟩
  | _ => cases h

theorem retry_copied {raw retry : Val} (h : RetryPasses raw) (hparsed : raw.parsed = true)
    (hproto : "__proto__" ∉ (raw.get "fallback_chains").ownFields.keys)
    (hcopy : normalizeRetry raw = .ok retry) : retry = raw := by
  obtain ⟨fs, rfl⟩ := record_eq h.record
  obtain ⟨c, cs, hchains, hall⟩ := h.chains
  have hget := Val.parsed_get hparsed (k := "fallback_chains") (by rw [hchains]; simp)
  rw [hchains] at hget hproto
  have hself : mapValues (.obj (c :: cs)) (fun fallbacks ↦ do
      let list ← fallbacks.spread
      return .arr list) = .ok (.obj (c :: cs)) := by
    refine mapValues_self (Val.parsed_obj.mp hget).1 hproto ?_
    intro p hp
    obtain ⟨f, fs, hlist, _⟩ := (hall p hp).fallbacks
    rw [hlist]
    rfl
  rw [normalizeRetry, hchains, hself] at hcopy
  have hmem : "fallback_chains" ∈ Fields.keys fs := by
    apply Fields.mem_keys_of_lookup
    rw [show Fields.lookup fs "fallback_chains" = _ from hchains]
    simp
  have hset := Fields.set_lookup hmem
  rw [show Fields.lookup fs "fallback_chains" = _ from hchains] at hset
  rw [← Except.ok.inj hcopy]
  exact congrArg Val.obj hset

theorem normalizePresets_inv {raw copied : Val} (h : normalizePresets raw = .ok copied) :
    ∃ roleMaps retry, mapValues (raw.get "presets") (fun roles ↦ .ok (.obj roles.ownFields)) =
        .ok roleMaps ∧
      copied = .obj ([("default_preset", raw.get "default_preset")] ++
        (if (raw.get "aliases").truthy then [("aliases", Val.obj (raw.get "aliases").ownFields)]
          else []) ++ [("presets", roleMaps)] ++ retry) ∧
      (((raw.get "retry").truthy = false ∧ retry = []) ∨
        ((raw.get "retry").truthy = true ∧
          ∃ copy, normalizeRetry (raw.get "retry") = .ok copy ∧ retry = [("retry", copy)])) := by
  simp only [normalizePresets, bind_eq_ok] at h
  obtain ⟨roleMaps, hroles, h⟩ := h
  split at h
  · rename_i htrue
    obtain ⟨copy, hcopy, h⟩ := bind_eq_ok.mp h
    exact ⟨roleMaps, [("retry", copy)], hroles, (Except.ok.inj h).symm,
      .inr ⟨htrue, copy, hcopy, rfl⟩⟩
  · rename_i hfalse
    simp only [ok_bind, pure_eq_ok, Except.ok.injEq] at h
    exact ⟨roleMaps, [], hroles, h.symm, .inl ⟨by simpa using hfalse, rfl⟩⟩

theorem copies_of_normalize {raw copied : Val} (h : BlockPasses raw) (hparsed : raw.parsed = true)
    (hcopy : normalizePresets raw = .ok copied) :
    Copies raw copied ∧
      ("__proto__" ∉ ((raw.get "retry").get "fallback_chains").ownFields.keys →
        copied.get "retry" = raw.get "retry") := by
  obtain ⟨p, ps, hpresets⟩ := h.presets
  have heach := h.each
  have hget := Val.parsed_get hparsed (k := "presets") (by rw [hpresets]; simp)
  rw [hpresets] at hget heach
  have hself : mapValues (.obj (p :: ps)) (fun roles ↦ .ok (.obj roles.ownFields)) =
      .ok (.obj (p :: ps)) := by
    refine mapValues_self (Val.parsed_obj.mp hget).1 ?_ ?_
    · intro hmem
      obtain ⟨q, hq, hname⟩ := List.mem_map.mp hmem
      exact safe_ne_proto (heach q hq).name hname
    · intro q hq
      obtain ⟨fs, hfs⟩ := record_eq (heach q hq).record
      rw [hfs]
      rfl
  obtain ⟨roleMaps, retry, hroles, rfl, hretry⟩ := normalizePresets_inv hcopy
  rw [hpresets, hself] at hroles
  obtain rfl := Except.ok.inj hroles
  have haliases : ∃ aliases : Fields, (if (raw.get "aliases").truthy then
        [("aliases", Val.obj (raw.get "aliases").ownFields)] else []) = aliases ∧
      ((raw.get "aliases" = .undef ∧ aliases = []) ∨
        aliases = [("aliases", raw.get "aliases")]) := by
    rcases h.aliases with hundef | ⟨fs, hfs, _⟩
    · exact ⟨[], by rw [hundef]; rfl, .inl ⟨hundef, rfl⟩⟩
    · exact ⟨_, by rw [hfs]; rfl, .inr rfl⟩
  obtain ⟨aliases, hstated, haliases⟩ := haliases
  rw [hstated]
  have hpolicy : (raw.get "retry" = .undef ∧ retry = []) ∨ ∃ copy, RetryPasses (raw.get "retry") ∧
      normalizeRetry (raw.get "retry") = .ok copy ∧ retry = [("retry", copy)] := by
    rcases h.retry with hundef | hpasses
    · rcases hretry with ⟨_, hnil⟩ | ⟨htrue, _⟩
      · exact .inl ⟨hundef, hnil⟩
      · rw [hundef] at htrue
        cases htrue
    · rcases hretry with ⟨hfalse, _⟩ | ⟨_, copy, hcopied, hone⟩
      · obtain ⟨fs, hfs⟩ := record_eq hpasses.record
        rw [hfs] at hfalse
        cases hfalse
      · exact .inr ⟨copy, hpasses, hcopied, hone⟩
  clear hretry hstated hself heach
  constructor
  · refine ⟨rfl, ?_, rfl, ?_, ?_⟩
    · intro k hk
      rcases haliases with ⟨_, rfl⟩ | rfl <;> rcases hpolicy with ⟨_, rfl⟩ | ⟨_, _, _, rfl⟩ <;>
        simp [Val.ownFields, Fields.keys] at hk <;> simp [DOCUMENT_FIELDS] <;> tauto
    · rcases haliases with ⟨hundef, rfl⟩ | rfl
      · rw [hundef]
        rcases hpolicy with ⟨_, rfl⟩ | ⟨_, _, _, rfl⟩ <;> rfl
      · rfl
    · rw [hpresets]
      rcases haliases with ⟨_, rfl⟩ | rfl <;> rfl
  · intro hproto
    rcases hpolicy with ⟨hundef, rfl⟩ | ⟨copy, hpasses, hcopied, rfl⟩
    · rw [hundef]
      rcases haliases with ⟨_, rfl⟩ | rfl <;> rfl
    · have hstated : raw.get "retry" ≠ .undef := by
        obtain ⟨fs, hfs⟩ := record_eq hpasses.record
        rw [hfs]
        simp
      rw [retry_copied hpasses (Val.parsed_get hparsed hstated) hproto hcopied]
      rcases haliases with ⟨_, rfl⟩ | rfl <;> rfl

/-- One block: the copy reads as what was written exactly when the block is readable. -/
theorem block_agrees_iff {raw copied : Val} (h : BlockPasses raw) (hparsed : raw.parsed = true)
    (hcopy : normalizePresets raw = .ok copied) :
    (∃ parsed, parsePresetDocument copied = .ok parsed ∧ Agrees raw parsed) ↔ Readable raw := by
  obtain ⟨hcopies, hretry⟩ := copies_of_normalize h hparsed hcopy
  constructor
  · rintro ⟨parsed, hparse, hagrees⟩
    exact readable_of_parse hcopies hparse hagrees
  · intro hreadable
    exact parse_of_passes h hparsed hcopies (hretry hreadable.chains) hreadable

/-! ## Of every profile of an accepted spec -/

/-- The preset block of a developer's agent profile. -/
def presetsOf (dev : Val) (profile : String) : Val :=
  ((dev.get "agent_profiles").ownFields.lookup profile).get "omp_model_presets"

theorem normalizeDeveloper_profiles {tailscale hostGate rdev vdev : Val} {client : ClientFacts}
    {ports : List (Val × Number)}
    (h : normalizeDeveloper tailscale hostGate client ports rdev = .ok vdev) :
    mapValues (rdev.get "agent_profiles") normalizeProfile = .ok (vdev.get "agent_profiles") := by
  simp only [normalizeDeveloper, bind_eq_ok, pure_eq_ok, Except.ok.injEq] at h
  obtain ⟨_, _, _, _, _, _, profiles, hprofiles, _, _, _, _, _, _, _, _, _, _, _, _, rfl⟩ := h
  exact hprofiles

theorem normalizeProfile_presets {written copied : Val} (h : normalizeProfile written = .ok copied)
    (hstated : copied.get "omp_model_presets" ≠ .undef) :
    written.get "omp_model_presets" ≠ .undef ∧
      normalizePresets (written.get "omp_model_presets") = .ok (copied.get "omp_model_presets") := by
  obtain ⟨provider, _, h⟩ := bind_eq_ok.mp h
  split at h
  · rename_i htrue
    obtain ⟨presets, hpresets, h⟩ := bind_eq_ok.mp h
    rw [← Except.ok.inj h]
    refine ⟨?_, hpresets⟩
    intro hundef
    rw [hundef] at htrue
    cases htrue
  · rw [← Except.ok.inj h] at hstated
    exact (hstated rfl).elim

/-- A copied profile is the image of the written profile of that name. -/
theorem mapValues_lookup {fs : Fields} {fn : Val → Js Val} {copied : Val} {k : String}
    (hnodup : fs.keys.Nodup) (h : mapValues (.obj fs) fn = .ok copied)
    (hk : copied.ownFields.lookup k ≠ .undef) :
    fn (fs.lookup k) = .ok (copied.ownFields.lookup k) := by
  obtain ⟨out, hout, hcopied⟩ := bind_eq_ok.mp
    (show (mapEntries fn [] fs >>= fun out ↦ pure (Val.obj out)) = .ok copied from h)
  obtain rfl := Except.ok.inj hcopied
  rw [mapEntries_eq_assignEach] at hout
  rcases mem_assignEach hout (Fields.mem_of_lookup hk) with hmem | ⟨_, v, hv, hfn⟩
  · cases hmem
  · rwa [Fields.lookup_of_mem hnodup hv]

theorem profile_presets_pass {base : String} {dev : Val} {name : String}
    (h : (validateAgentProfiles dev base).Passes) (hstated : presetsOf dev name ≠ .undef) :
    BlockPasses (presetsOf dev name) := by
  obtain ⟨hsection, _⟩ := Check.passes_append.mp h
  rcases Check.passes_section?.mp hsection with hundef | ⟨fs, hobj, hall⟩
  · rw [presetsOf, hundef] at hstated
    exact (hstated rfl).elim
  · have hof : presetsOf dev name = (Fields.lookup fs name).get "omp_model_presets" := by
      rw [presetsOf, hobj]
      rfl
    rw [hof] at hstated ⊢
    have hkey : Fields.lookup fs name ≠ .undef := by
      intro hundef
      rw [hundef] at hstated
      exact hstated rfl
    have hprofile := Check.passes_each.mp hall _ (Fields.mem_of_lookup hkey)
    simp only [validateAgentProfile, Check.passes_append] at hprofile
    obtain ⟨_, hbody⟩ := hprofile
    split at hbody
    · obtain ⟨_, hblock⟩ := Check.passes_append.mp hbody
      exact (blockPasses hblock).resolve_left hstated
    · exact (Check.not_passes_fail _ _ hbody).elim

theorem presets_copied {base : String} {dev vdev : Val} {name : String}
    (hpasses : (validateAgentProfiles dev base).Passes) (hparsed : dev.parsed = true)
    (h : mapValues (dev.get "agent_profiles") normalizeProfile = .ok (vdev.get "agent_profiles"))
    (hcopied : presetsOf vdev name ≠ .undef) :
    BlockPasses (presetsOf dev name) ∧ (presetsOf dev name).parsed = true ∧
      normalizePresets (presetsOf dev name) = .ok (presetsOf vdev name) := by
  rcases Check.passes_section?.mp (Check.passes_append.mp hpasses).1 with hundef | ⟨fs, hobj, _⟩
  · rw [hundef] at h
    rw [presetsOf, ← Except.ok.inj (show (Except.ok (.obj []) : Js Val) = _ from h)] at hcopied
    exact (hcopied rfl).elim
  · have hprofiles := Val.parsed_get hparsed (k := "agent_profiles") (by rw [hobj]; simp)
    rw [hobj] at h hprofiles
    have hprofile : (vdev.get "agent_profiles").ownFields.lookup name ≠ .undef := by
      intro hundef
      rw [presetsOf, hundef] at hcopied
      exact hcopied rfl
    have hnormal := mapValues_lookup (Val.parsed_obj.mp hprofiles).1 h hprofile
    obtain ⟨hstated, hcopy⟩ := normalizeProfile_presets hnormal hcopied
    have hof : presetsOf dev name = (Fields.lookup fs name).get "omp_model_presets" := by
      rw [presetsOf, hobj]
      rfl
    have hentry : Fields.lookup fs name ≠ .undef := by
      intro hundef
      rw [hundef] at hstated
      exact hstated rfl
    rw [← hof] at hstated hcopy
    refine ⟨profile_presets_pass hpasses hstated, ?_, hcopy⟩
    rw [hof] at hstated ⊢
    exact Val.parsed_get (Val.parsed_get hprofiles hentry) hstated

/-- Every block on the box is the copy of one that passed the client. -/
theorem accepted_block {env : ClientEnv} {client : ClientFacts} {doc : Doc}
    {resolved vars dev vdev : Val} {profile : String} (h : Accepts env doc resolved)
    (hvars : normalize client resolved = .ok vars) (hdev : dev ∈ developersOf doc.val)
    (hvdev : vdev ∈ listOf (vars.get "devbox_developers"))
    (huser : vdev.get "user" = dev.get "user") (hcopied : presetsOf vdev profile ≠ .undef) :
    BlockPasses (presetsOf dev profile) ∧ (presetsOf dev profile).parsed = true ∧
      normalizePresets (presetsOf dev profile) = .ok (presetsOf vdev profile) := by
  obtain ⟨devs, haccepted⟩ := accepted h
  have hlist : developersOf doc.val = devs := by
    rw [developersOf, haccepted.developers.eq]
    rfl
  rw [hlist] at hdev
  obtain ⟨_, _, _, developers, vdevs, gen⟩ := generated_of_normalize hvars
  have hvlist : listOf (vars.get "devbox_developers") = vdevs := by
    rw [gen.developers]
    rfl
  rw [hvlist] at hvdev
  obtain ⟨rdev, hrdev, hnormal⟩ := forall₂_exists_left (mapM_eq_ok.mp gen.devs_eq) hvdev
  have hrlist : developersOf resolved = developers := listOf_of_elems gen.developers_eq
  rw [← hrlist] at hrdev
  obtain ⟨owner, howner, _, hresolved⟩ := forall₂_exists_left haccepted.developers_match hrdev
  have hsame : owner.get "user" = dev.get "user" := by
    rw [← hresolved.fields "user" (by decide), ← (generatedDeveloper hnormal).user, huser]
  obtain rfl : owner = dev :=
    List.inj_on_of_nodup_map (accepted_users_nodup haccepted) howner hdev hsame
  have hprofiles := normalizeDeveloper_profiles hnormal
  rw [hresolved.fields "agent_profiles" (by decide)] at hprofiles
  obtain ⟨base, hpasses⟩ := haccepted.developers.each owner hdev
  exact presets_copied hpasses.profiles (developer_parsed haccepted hdev) hprofiles hcopied

/-- Of every block of every profile: the copy on the box reads as what was
written exactly when the block is readable. -/
theorem presets_agree_iff {env : ClientEnv} {client : ClientFacts} {doc : Doc}
    {resolved vars dev vdev : Val} {profile : String} (h : Accepts env doc resolved)
    (hvars : normalize client resolved = .ok vars) (hdev : dev ∈ developersOf doc.val)
    (hvdev : vdev ∈ listOf (vars.get "devbox_developers"))
    (huser : vdev.get "user" = dev.get "user") (hcopied : presetsOf vdev profile ≠ .undef) :
    (∃ parsed, parsePresetDocument (presetsOf vdev profile) = .ok parsed ∧
      Agrees (presetsOf dev profile) parsed) ↔ Readable (presetsOf dev profile) := by
  obtain ⟨hblock, hparsed, hcopy⟩ := accepted_block h hvars hdev hvdev huser hcopied
  exact block_agrees_iff hblock hparsed hcopy

/-- One profile with one preset, whose roles all use `selector`. -/
def presetSpec (selector : String) : Val :=
  specWith []
    [("agent_versions", .obj [("omp", .str OMP_MODEL_PRESETS_OMP_VERSION)]),
     ("agent_profiles", .obj [("main", .obj
      [("provider", "omp"),
       ("omp_model_presets", .obj
        [("default_preset", "daily"),
         ("presets", .obj [("daily",
          .obj (OMP_MODEL_ROLE_IDS.map fun role ↦ (role, .str selector)))])])])])]

def untrimmedPreset : Doc := ⟨presetSpec " anthropic/opus:high", by decide +kernel⟩

def trimmedPreset : Doc := ⟨presetSpec "anthropic/opus:high", by decide +kernel⟩

/-- A selector with a leading blank passes the client, and the extension refuses
the whole document. -/
theorem untrimmedPreset_refused :
    ∃ resolved vars vdev, Accepts homeEnv untrimmedPreset resolved ∧
      normalize noClient resolved = .ok vars ∧
      vdev ∈ listOf (vars.get "devbox_developers") ∧ presetsOf vdev "main" ≠ .undef ∧
      ∀ parsed, parsePresetDocument (presetsOf vdev "main") ≠ .ok parsed := by
  have hread : ((varsOf homeEnv noClient untrimmedPreset.val).map fun vars ↦
      (listOf (vars.get "devbox_developers")).map fun vdev ↦
        ((presetsOf vdev "main").isUndef, (parsePresetDocument (presetsOf vdev "main")).isOk)) =
      some [(false, false)] := by decide +kernel
  obtain ⟨vars, hvars, hread⟩ := Option.map_eq_some_iff.mp hread
  obtain ⟨vdev, hvdev, hrefused⟩ := List.mem_map.mp (hread ▸ List.mem_singleton_self _)
  obtain ⟨hundef, hnotOk⟩ := Prod.mk.inj hrefused
  obtain ⟨resolved, haccepts, hnormalize⟩ := vars_eq_some hvars
  refine ⟨resolved, vars, vdev, haccepts, hnormalize, hvdev, ?_, ?_⟩
  · intro h
    rw [h] at hundef
    cases hundef
  · intro parsed h
    rw [h] at hnotOk
    cases hnotOk

theorem trimmedPreset_copied :
    ∃ resolved vars dev vdev, Accepts homeEnv trimmedPreset resolved ∧
      normalize noClient resolved = .ok vars ∧ dev ∈ developersOf trimmedPreset.val ∧
      vdev ∈ listOf (vars.get "devbox_developers") ∧ vdev.get "user" = dev.get "user" ∧
      presetsOf vdev "main" ≠ .undef := by
  have hread : ((varsOf homeEnv noClient trimmedPreset.val).map fun vars ↦
      (listOf (vars.get "devbox_developers")).map fun vdev ↦
        ((vdev.get "user").isStrLit "ada", (presetsOf vdev "main").isUndef)) =
      some [(true, false)] := by decide +kernel
  obtain ⟨vars, hvars, hread⟩ := Option.map_eq_some_iff.mp hread
  obtain ⟨vdev, hvdev, hcopied⟩ := List.mem_map.mp (hread ▸ List.mem_singleton_self _)
  obtain ⟨huser, hundef⟩ := Prod.mk.inj hcopied
  obtain ⟨resolved, haccepts, hnormalize⟩ := vars_eq_some hvars
  refine ⟨resolved, vars, _, vdev, haccepts, hnormalize, List.mem_singleton_self _, hvdev, ?_, ?_⟩
  · cases hname : vdev.get "user" with
    | str s =>
        rw [hname] at huser
        rw [beq_iff_eq.mp (show (s == "ada") = true from huser)]
        rfl
    | _ =>
        rw [hname] at huser
        cases huser
  · intro h
    rw [h] at hundef
    cases hundef

theorem trimmedPreset_agrees :
    ∃ resolved vars dev vdev, Accepts homeEnv trimmedPreset resolved ∧
      normalize noClient resolved = .ok vars ∧ dev ∈ developersOf trimmedPreset.val ∧
      vdev ∈ listOf (vars.get "devbox_developers") ∧
      ((∃ parsed, parsePresetDocument (presetsOf vdev "main") = .ok parsed ∧
        Agrees (presetsOf dev "main") parsed) ↔ Readable (presetsOf dev "main")) := by
  obtain ⟨resolved, vars, dev, vdev, haccepts, hvars, hdev, hvdev, huser, hcopied⟩ :=
    trimmedPreset_copied
  exact ⟨resolved, vars, dev, vdev, haccepts, hvars, hdev, hvdev,
    presets_agree_iff haccepts hvars hdev hvdev huser hcopied⟩

end RemoteDevbox.Box
