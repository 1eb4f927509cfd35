import RemoteDevbox.Spec.HeavyGate

namespace RemoteDevbox.Spec

open Js

/-!
# The two stages of the heavy-job gate

The generator first fills the host's block in and then lays a developer's block
over it. Whether a default was stated or filled in can no longer be told in the
second stage, and makes no difference.
-/

/-! ## Settings resolved at once -/

/-- The first that is stated, or the default. -/
def firstStated (vs : List Val) (default : Val) : Val :=
  (vs.find? fun v ↦ !v.isNullish).getD default

/-- Each setting from the developer, else the host, else the default. Sizes are
written in canonical form. -/
def directGate (host developer : Val) : Val :=
  let setting (k : String) (default : Val) := firstStated [developer.get k, host.get k] default
  let entry (k c : String) (default : Val) :=
    firstStated [(developer.get k).get c, (host.get k).get c] default
  .obj
    [("enabled", setting "enabled" true),
     ("categories", .obj (HEAVY_JOB_CATEGORIES.map fun c ↦ (c, entry "categories" c true))),
     ("wait_timeout_sec", setting "wait_timeout_sec" 1800),
     ("warn_after_sec", setting "warn_after_sec" 5),
     ("memory_max", canonicalOrSame (setting "memory_max" "8G")),
     ("memory_max_by_category", .obj (HEAVY_JOB_CATEGORIES.filterMap fun c ↦
       let limit := entry "memory_max_by_category" c .undef
       if limit.isUndef then none else some (c, canonicalOrSame limit))),
     ("slots", setting "slots" 1),
     ("total_memory_max", canonicalOrSame (setting "total_memory_max" ""))]

/-- The blocks that the validator admits. -/
def ValidGate (gate : Val) : Prop := ∃ path, (validateHeavyJobGate gate path).Passes

/-! ## Defaults -/

section Defaults

variable {a b d : Val}

@[simp] theorem undef_orElse : Val.undef.orElse a = a := rfl

/-- A default that was filled in is not filled in again. -/
@[simp] theorem orElse_filled : (a.orElse d).orElse d = a.orElse d := by
  simp only [Val.orElse]
  split <;> simp_all

/-- What is read off a defaulted value only depends on what is read off the default. -/
theorem map_orElse (f : Val → Val) {c : Val} (h : f b = f c) : f (a.orElse b) = f (a.orElse c) := by
  simp only [Val.orElse]
  split
  · exact h
  · rfl

theorem firstStated_pair : firstStated [a, b] d = a.orElse (b.orElse d) := by
  simp only [firstStated, Val.orElse, List.find?]
  cases a.isNullish <;> cases b.isNullish <;> rfl

@[simp] theorem canonicalOrSame_idem (v : Val) :
    canonicalOrSame (canonicalOrSame v) = canonicalOrSame v := by
  cases v with
  | str s =>
      cases hc : canonicalMemorySize s with
      | none => simp [canonicalOrSame, hc]
      | some c => simp [canonicalOrSame, hc, canonical_idem hc]
  | _ => rfl

/-- The overall limit in its second stage. -/
theorem limit_filled : (canonicalOrNull ((canonicalOrNull a).orElse "8G")).orElse "8G" =
    (canonicalOrNull a).orElse "8G" := by
  have hdefault : canonicalOrNull "8G" = "8G" := canonicalOrNull_str (by decide +kernel)
  cases a with
  | str s =>
      cases hc : canonicalMemorySize s with
      | none =>
          have hnull : canonicalOrNull (.str s) = .null := by simp [canonicalOrNull, hc]
          rw [hnull]
          change (canonicalOrNull "8G").orElse "8G" = "8G"
          rw [hdefault]
          rfl
      | some c =>
          rw [canonicalOrNull_str hc]
          change (canonicalOrNull (.str c)).orElse "8G" = .str c
          rw [canonicalOrNull_str (canonical_idem hc)]
          rfl
  | _ =>
      change (canonicalOrNull "8G").orElse "8G" = "8G"
      rw [hdefault]
      rfl

theorem isUndef_canonicalOrSame (v : Val) : (canonicalOrSame v).isUndef = v.isUndef := by
  cases v <;> rfl

end Defaults

/-! ## One stage for two -/

section Stages

variable (host developer : Val)

theorem category_stage {c : String} (hc : c ∈ HEAVY_JOB_CATEGORIES) :
    gateCategory (normalizeHeavyJobGate host .undef) developer c = gateCategory host developer c := by
  have hfilled : ((normalizeHeavyJobGate host .undef).get "categories").get c =
      ((host.get "categories").get c).orElse true := by
    simp only [HEAVY_JOB_CATEGORIES, List.mem_cons, List.not_mem_nil, or_false] at hc
    rcases hc with rfl | rfl | rfl | rfl <;> rfl
  rw [gateCategory, hfilled, orElse_filled]
  rfl

theorem categoryMemory_stage {c : String} (hc : c ∈ HEAVY_JOB_CATEGORIES) :
    canonicalOrSame (gateCategoryMemory (normalizeHeavyJobGate host .undef) developer c) =
      canonicalOrSame (gateCategoryMemory host developer c) := by
  have hhost : ((normalizeHeavyJobGate host .undef).get "memory_max_by_category").get c =
      canonicalOrSame ((host.get "memory_max_by_category").get c) := by
    have hfilled := @gate_category host .undef c hc
    have hstated : gateCategoryMemory host .undef c =
        (host.get "memory_max_by_category").get c := rfl
    rw [hstated] at hfilled
    rw [hfilled]
    cases (host.get "memory_max_by_category").get c <;> rfl
  rw [gateCategoryMemory, hhost]
  exact map_orElse canonicalOrSame (canonicalOrSame_idem _)

theorem total_stage :
    canonicalOrSame (gateField (normalizeHeavyJobGate host .undef) developer "total_memory_max" "") =
      canonicalOrSame (gateField host developer "total_memory_max" "") := by
  have hfilled : (normalizeHeavyJobGate host .undef).get "total_memory_max" =
      canonicalOrSame ((host.get "total_memory_max").orElse "") := rfl
  have hsame : ∀ v : Val, (canonicalOrSame v).isNullish = v.isNullish := by
    intro v
    cases v <;> rfl
  have hdefault : canonicalOrSame ((host.get "total_memory_max").orElse "") =
      (canonicalOrSame ((host.get "total_memory_max").orElse "")).orElse "" := by
    rw [Val.orElse, Val.orElse]
    split
    · rfl
    · rename_i hnull
      rw [if_neg (by rwa [hsame])]
  rw [gateField, hfilled, ← hdefault]
  exact map_orElse canonicalOrSame (canonicalOrSame_idem _)

theorem overall_stage :
    (canonicalOrNull (gateField (normalizeHeavyJobGate host .undef) developer "memory_max"
      "8G")).orElse "8G" =
        (canonicalOrNull (gateField host developer "memory_max" "8G")).orElse "8G" := by
  have hfilled : (normalizeHeavyJobGate host .undef).get "memory_max" =
      (canonicalOrNull ((host.get "memory_max").orElse "8G")).orElse "8G" := rfl
  rw [gateField, hfilled, orElse_filled]
  exact map_orElse (fun v ↦ (canonicalOrNull v).orElse "8G") limit_filled

/-- The host's block may be normalised before a developer's is laid over it. -/
theorem normalize_stage : developerGate host developer = normalizeHeavyJobGate host developer := by
  have hfield : ∀ k d, (normalizeHeavyJobGate host .undef).get k = (host.get k).orElse d →
      gateField (normalizeHeavyJobGate host .undef) developer k d = gateField host developer k d := by
    intro k d hk
    rw [gateField, hk, orElse_filled]
    rfl
  have hcategories : HEAVY_JOB_CATEGORIES.map (fun c ↦
      (c, gateCategory (normalizeHeavyJobGate host .undef) developer c)) =
        HEAVY_JOB_CATEGORIES.map fun c ↦ (c, gateCategory host developer c) := by
    refine List.map_congr_left fun c hc ↦ ?_
    rw [category_stage host developer hc]
  have hlimits : HEAVY_JOB_CATEGORIES.filterMap (fun c ↦
      let value := gateCategoryMemory (normalizeHeavyJobGate host .undef) developer c
      if value.isUndef then none else some (c, canonicalOrSame value)) =
        HEAVY_JOB_CATEGORIES.filterMap fun c ↦
          let value := gateCategoryMemory host developer c
          if value.isUndef then none else some (c, canonicalOrSame value) := by
    refine List.filterMap_congr fun c hc ↦ ?_
    have hsame := categoryMemory_stage host developer hc
    dsimp only
    rw [← isUndef_canonicalOrSame, hsame, isUndef_canonicalOrSame]
  rw [developerGate, normalizeHeavyJobGate, hcategories, hlimits, overall_stage, total_stage,
    hfield "enabled" true rfl, hfield "wait_timeout_sec" 1800 rfl, hfield "warn_after_sec" 5 rfl,
    hfield "slots" 1 rfl]
  rfl

end Stages

/-! ## A normalised block -/

section Normalised

variable (host developer : Val)

theorem orElse_default {a b d : Val} : (a.orElse (b.orElse d)).orElse d = a.orElse (b.orElse d) := by
  simp only [Val.orElse]
  split <;> [split; skip] <;> simp_all

theorem gateField_undef (gate : Val) (k : String) (d : Val) :
    gateField gate .undef k d = (gate.get k).orElse d := rfl

theorem gateField_normalised {k : String} {d : Val}
    (hk : (normalizeHeavyJobGate host developer).get k = gateField host developer k d) :
    gateField (normalizeHeavyJobGate host developer) .undef k d = gateField host developer k d := by
  rw [gateField_undef, hk]
  exact orElse_default

theorem gateCategory_normalised {c : String} (hc : c ∈ HEAVY_JOB_CATEGORIES) :
    gateCategory (normalizeHeavyJobGate host developer) .undef c = gateCategory host developer c := by
  have hfilled : ((normalizeHeavyJobGate host developer).get "categories").get c =
      gateCategory host developer c := by
    simp only [HEAVY_JOB_CATEGORIES, List.mem_cons, List.not_mem_nil, or_false] at hc
    rcases hc with rfl | rfl | rfl | rfl <;> rfl
  rw [gateCategory, hfilled]
  exact orElse_default

theorem categoryMemory_normalised {c : String} (hc : c ∈ HEAVY_JOB_CATEGORIES) :
    gateCategoryMemory (normalizeHeavyJobGate host developer) .undef c =
      canonicalOrSame (gateCategoryMemory host developer c) := by
  have hread : gateCategoryMemory (normalizeHeavyJobGate host developer) .undef c =
      ((normalizeHeavyJobGate host developer).get "memory_max_by_category").get c := rfl
  rw [hread, gate_category hc]
  cases gateCategoryMemory host developer c <;> rfl

theorem total_normalised : canonicalOrSame (gateField (normalizeHeavyJobGate host developer) Val.undef
    "total_memory_max" "") = canonicalOrSame (gateField host developer "total_memory_max" "") := by
  have hread : (normalizeHeavyJobGate host developer).get "total_memory_max" =
      canonicalOrSame (gateField host developer "total_memory_max" "") := rfl
  have hstated : (canonicalOrSame (gateField host developer "total_memory_max" "")).isNullish =
      (gateField host developer "total_memory_max" "").isNullish := by
    cases gateField host developer "total_memory_max" "" <;> rfl
  rw [gateField_undef, hread, Val.orElse]
  split
  · rename_i hnull
    rw [hstated, gateField, ← orElse_default, Val.orElse] at hnull
    split at hnull
    · cases hnull
    · contradiction
  · exact canonicalOrSame_idem _

/-- To normalise a normalised block again changes nothing. -/
theorem normalize_idem : normalizeHeavyJobGate (normalizeHeavyJobGate host developer) .undef =
    normalizeHeavyJobGate host developer := by
  have hcategories : HEAVY_JOB_CATEGORIES.map (fun c ↦
      (c, gateCategory (normalizeHeavyJobGate host developer) .undef c)) =
        HEAVY_JOB_CATEGORIES.map fun c ↦ (c, gateCategory host developer c) := by
    refine List.map_congr_left fun c hc ↦ ?_
    rw [gateCategory_normalised host developer hc]
  have hlimits : HEAVY_JOB_CATEGORIES.filterMap (fun c ↦
      let value := gateCategoryMemory (normalizeHeavyJobGate host developer) .undef c
      if value.isUndef then none else some (c, canonicalOrSame value)) =
        HEAVY_JOB_CATEGORIES.filterMap fun c ↦
          let value := gateCategoryMemory host developer c
          if value.isUndef then none else some (c, canonicalOrSame value) := by
    refine List.filterMap_congr fun c hc ↦ ?_
    dsimp only
    rw [categoryMemory_normalised host developer hc, isUndef_canonicalOrSame, canonicalOrSame_idem]
  have hoverall : (canonicalOrNull (gateField (normalizeHeavyJobGate host developer) Val.undef
      "memory_max" "8G")).orElse "8G" =
        (canonicalOrNull (gateField host developer "memory_max" "8G")).orElse "8G" := by
    have hread : (normalizeHeavyJobGate host developer).get "memory_max" =
        (canonicalOrNull (gateField host developer "memory_max" "8G")).orElse "8G" := rfl
    rw [gateField_undef, hread, orElse_filled]
    exact limit_filled
  rw [normalizeHeavyJobGate, hcategories, hlimits, hoverall, total_normalised,
    gateField_normalised host developer (k := "enabled") (d := true) rfl,
    gateField_normalised host developer (k := "wait_timeout_sec") (d := 1800) rfl,
    gateField_normalised host developer (k := "warn_after_sec") (d := 5) rfl,
    gateField_normalised host developer (k := "slots") (d := 1) rfl]
  rfl

end Normalised

/-! ## One stage, directly -/

section Direct

variable {host developer : Val}

theorem overall_direct (hhost : GateLimits host) (hdev : GateLimits developer) :
    (canonicalOrNull (gateField host developer "memory_max" "8G")).orElse "8G" =
      canonicalOrSame (gateField host developer "memory_max" "8G") := by
  obtain ⟨s, c, hs, hc, _⟩ := overall_limit hhost hdev
  rw [hs, canonicalOrNull_str hc, canonicalOrSame_str hc]
  rfl

theorem categoryMemory_direct (hhost : GateLimits host) {c : String}
    (hc : c ∈ HEAVY_JOB_CATEGORIES) : gateCategoryMemory host developer c =
      firstStated [(developer.get "memory_max_by_category").get c,
        (host.get "memory_max_by_category").get c] .undef := by
  rw [firstStated_pair, gateCategoryMemory]
  rcases hhost.category c hc with hundef | ⟨s, _, hs, _⟩
  · rw [hundef]
    rfl
  · rw [hs]
    rfl

/-- Blocks of the kind that the validator admits resolve field by field. -/
theorem normalize_direct (hhost : GateLimits host) (hdev : GateLimits developer) :
    normalizeHeavyJobGate host developer = directGate host developer := by
  have hlimits : HEAVY_JOB_CATEGORIES.filterMap (fun c ↦
      let value := gateCategoryMemory host developer c
      if value.isUndef then none else some (c, canonicalOrSame value)) =
        HEAVY_JOB_CATEGORIES.filterMap fun c ↦
          let limit := firstStated [(developer.get "memory_max_by_category").get c,
            (host.get "memory_max_by_category").get c] .undef
          if limit.isUndef then none else some (c, canonicalOrSame limit) := by
    refine List.filterMap_congr fun c hc ↦ ?_
    dsimp only
    rw [categoryMemory_direct hhost hc]
  have hcategories : HEAVY_JOB_CATEGORIES.map (fun c ↦ (c, gateCategory host developer c)) =
      HEAVY_JOB_CATEGORIES.map fun c ↦ (c, firstStated [(developer.get "categories").get c,
        (host.get "categories").get c] true) := by
    refine List.map_congr_left fun c _ ↦ ?_
    rw [firstStated_pair, gateCategory]
  rw [normalizeHeavyJobGate, overall_direct hhost hdev, hlimits, hcategories]
  simp only [directGate, firstStated_pair, gateField]

/-- Of the settings of every developer, and of every block that was normalised. -/
theorem two_stages_agree (hhost : ValidGate host) (hdev : ValidGate developer) :
    developerGate host developer = directGate host developer ∧
      normalizeHeavyJobGate (developerGate host developer) .undef = developerGate host developer ∧
      normalizeHeavyJobGate (normalizeHeavyJobGate host .undef) .undef =
        normalizeHeavyJobGate host .undef := by
  obtain ⟨_, hhost⟩ := hhost
  obtain ⟨_, hdev⟩ := hdev
  refine ⟨?_, normalize_idem _ developer, normalize_idem host .undef⟩
  rw [normalize_stage]
  exact normalize_direct (gateLimits_of_passes hhost) (gateLimits_of_passes hdev)

end Direct

/-- The host asks for no ceiling; the developer names one for builds. -/
theorem unlimitedHost_agrees :
    let host : Val := .obj [("memory_max", ""), ("slots", 2)]
    let developer : Val := .obj [("memory_max_by_category", .obj [("build", "12GB")])]
    developerGate host developer = directGate host developer :=
  (two_stages_agree ⟨"host.heavy_job_gate", [], rfl, rfl⟩
    ⟨"developers[0].heavy_job_gate", [], rfl, rfl⟩).1

end RemoteDevbox.Spec
