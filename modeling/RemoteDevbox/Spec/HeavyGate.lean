import RemoteDevbox.Spec.Load

namespace RemoteDevbox.Spec

open Js Client

/-!
# The ceiling of a heavy job, as the configuration states it
-/

/-! ## Canonical sizes -/

section Sizes

open Regex

/-- The canonical form of a size in bytes: an amount and at most one unit. -/
def DirectForm (w : List Char) : Prop :=
  ∃ digits unit : List Char, w = digits ++ unit ∧ digits ≠ [] ∧
    (∀ d ∈ digits, isDigit d = true) ∧ isMatch (opt sizeUnit) unit = true

theorem ne_B_of_isDigit {d : Char} (h : isDigit d = true) : d ≠ 'B' := by
  rintro rfl
  exact absurd h (by decide)

theorem unit_ne_B {unit : List Char} (h : isMatch (opt sizeUnit) unit = true) :
    ∀ u ∈ unit, u ≠ 'B' := by
  rcases isMatch_alt.mp h with h | h
  · obtain ⟨u, hu, rfl⟩ := isMatch_cls.mp h
    intro v hv hB
    rw [← List.mem_singleton.mp hv, hB] at hu
    exact absurd hu (by decide)
  · rw [isMatch_eps.mp h]
    exact fun u hu ↦ absurd hu List.not_mem_nil

theorem DirectForm.ne_B {w : List Char} (h : DirectForm w) : ∀ c ∈ w, c ≠ 'B' := by
  obtain ⟨digits, unit, rfl, _, hdigits, hunit⟩ := h
  intro c hc
  rcases List.mem_append.mp hc with hc | hc
  · exact ne_B_of_isDigit (hdigits c hc)
  · exact unit_ne_B hunit c hc

theorem DirectForm.isMatch {w : List Char} (h : DirectForm w) : isMatch DIRECT_SIZE_RE w = true := by
  obtain ⟨digits, unit, rfl, hne, hdigits, hunit⟩ := h
  refine isMatch_seq.mpr ⟨digits, unit, rfl, isMatch_plus_cls.mpr ⟨hne, hdigits⟩, ?_⟩
  exact isMatch_seq.mpr ⟨unit, [], List.append_nil _, hunit, isMatch_alt.mpr (.inr rfl)⟩

/-- An optional `B` at the end is all that the canonical form drops. -/
theorem directForm_filter {w : List Char} (h : isMatch DIRECT_SIZE_RE w = true) :
    DirectForm (w.filter (· != 'B')) := by
  obtain ⟨digits, rest, rfl, hdigits, hrest⟩ := isMatch_seq.mp h
  obtain ⟨unit, byte, rfl, hunit, hbyte⟩ := isMatch_seq.mp hrest
  obtain ⟨hne, hdigits⟩ := isMatch_plus_cls.mp hdigits
  have hkept : (digits ++ unit).filter (· != 'B') = digits ++ unit := by
    rw [List.filter_eq_self]
    intro c hc
    exact bne_iff_ne.mpr (DirectForm.ne_B ⟨digits, unit, rfl, hne, hdigits, hunit⟩ c hc)
  have hdropped : byte.filter (· != 'B') = [] := by
    rcases isMatch_alt.mp hbyte with hbyte | hbyte
    · rw [isMatch_chr.mp hbyte]
      rfl
    · rw [isMatch_eps.mp hbyte]
      rfl
  rw [← List.append_assoc, List.filter_append, hkept, hdropped, List.append_nil]
  exact ⟨digits, unit, rfl, hne, hdigits, hunit⟩

theorem canonicalMemorySize_cases {s c : String} (h : canonicalMemorySize s = some c) :
    (s = "" ∧ c = s) ∨ (Text.test PERCENT_RE s = true ∧ c = s) ∨ (s ≠ "" ∧ DirectForm c.toList) := by
  unfold canonicalMemorySize at h
  split at h
  · rename_i hsame
    have heq := (Option.some.inj h).symm
    rcases (Bool.or_eq_true _ _).mp hsame with hempty | hpercent
    · exact .inl ⟨beq_iff_eq.mp hempty, heq⟩
    · exact .inr (.inl ⟨hpercent, heq⟩)
  · rename_i hsame
    split at h
    · rename_i hdirect
      rw [← Option.some.inj h, String.toList_ofList]
      refine .inr (.inr ⟨?_, directForm_filter hdirect⟩)
      rintro rfl
      exact hsame rfl
    · cases h

/-- A percentage starts with a digit. -/
theorem percent_head {s : String} (h : Text.test PERCENT_RE s = true) :
    ∃ d rest, s.toList = d :: rest ∧ isDigit d = true := by
  obtain ⟨amount, _, hs, hamount, _⟩ := isMatch_seq.mp h
  rcases isMatch_alt.mp hamount with hamount | hamount
  · obtain ⟨head, tail, rfl, hhead, _⟩ := isMatch_seq.mp hamount
    obtain ⟨d, hd, rfl⟩ := isMatch_cls.mp hhead
    refine ⟨d, _, hs.symm, ?_⟩
    simp only [Bool.and_eq_true, decide_eq_true_eq] at hd
    have hzero : '0' ≤ d := Char.le_trans (b := '1') (by decide) hd.1
    simp [isDigit, hzero, hd.2]
  · rw [isMatch_lit.mp hamount] at hs
    exact ⟨'1', _, hs.symm, by decide⟩

theorem DirectForm.head {w : List Char} (h : DirectForm w) :
    ∃ d rest, w = d :: rest ∧ isDigit d = true := by
  obtain ⟨digits, unit, rfl, hne, hdigits, _⟩ := h
  obtain ⟨d, rest, rfl⟩ := List.exists_cons_of_ne_nil hne
  exact ⟨d, rest ++ unit, rfl, hdigits d (by simp)⟩

/-- A size other than the empty one starts with a digit. -/
theorem canonical_head {s c : String} (h : canonicalMemorySize s = some c) (hs : s ≠ "") :
    ∃ d rest, c.toList = d :: rest ∧ isDigit d = true := by
  rcases canonicalMemorySize_cases h with ⟨hempty, _⟩ | ⟨hpercent, rfl⟩ | ⟨_, hdirect⟩
  · exact absurd hempty hs
  · exact percent_head hpercent
  · exact hdirect.head

theorem canonical_ne {s c : String} (h : canonicalMemorySize s = some c) (hs : s ≠ "") :
    c ≠ "" ∧ c ≠ "infinity" := by
  obtain ⟨d, rest, hc, hd⟩ := canonical_head h hs
  constructor
  · rintro rfl
    exact absurd hc.symm (List.cons_ne_nil d rest)
  · rintro rfl
    obtain ⟨rfl, _⟩ := List.cons_eq_cons.mp hc
    exact absurd hd (by decide)

@[simp] theorem canonicalMemorySize_empty : canonicalMemorySize "" = some "" := rfl

/-- A canonical size is its own canonical form. -/
theorem canonical_idem {s c : String} (h : canonicalMemorySize s = some c) :
    canonicalMemorySize c = some c := by
  rcases canonicalMemorySize_cases h with ⟨rfl, rfl⟩ | ⟨_, rfl⟩ | ⟨_, hdirect⟩
  · exact h
  · exact h
  · unfold canonicalMemorySize
    split
    · rfl
    · rw [if_pos (show Text.test DIRECT_SIZE_RE c = true from hdirect.isMatch)]
      have hkept : c.toList.filter (· != 'B') = c.toList :=
        List.filter_eq_self.mpr fun d hd ↦ bne_iff_ne.mpr (hdirect.ne_B d hd)
      rw [hkept, String.ofList_toList]

end Sizes

/-! ## What the validator admits -/

/-- An absent limit, or one with a canonical form. -/
def IsLimit (v : Val) : Prop := v = .undef ∨ ∃ s c, v = .str s ∧ canonicalMemorySize s = some c

structure GateLimits (gate : Val) : Prop where
  overall : IsLimit (gate.get "memory_max")
  category : ∀ c ∈ HEAVY_JOB_CATEGORIES, IsLimit ((gate.get "memory_max_by_category").get c)

theorem str_of_isDirectSize {v : Val} (h : isDirectSize v = true) :
    ∃ s c, v = .str s ∧ canonicalMemorySize s = some c := by
  cases v with
  | str s =>
      obtain ⟨c, hc⟩ := Option.isSome_iff_exists.mp h
      exact ⟨s, c, rfl, hc⟩
  | _ => cases h

theorem gateLimits_of_passes {gate : Val} {path : String}
    (h : (validateHeavyJobGate gate path).Passes) : GateLimits gate := by
  rcases Check.passes_section?.mp h with rfl | ⟨fs, rfl, hbody⟩
  · exact ⟨.inl rfl, fun _ _ ↦ .inl rfl⟩
  · simp only [Check.passes_append, passes_optional, and_assoc] at hbody
    obtain ⟨_, _, _, _, hmemory, _, _, hcategories⟩ := hbody
    refine ⟨hmemory.imp id str_of_isDirectSize, ?_⟩
    intro c _
    rcases Check.passes_section?.mp hcategories with hundef | ⟨limits, hlimits, hentries⟩
    · rw [hundef]
      exact .inl rfl
    · rw [hlimits]
      by_cases hstated : Fields.lookup limits c = .undef
      · exact .inl hstated
      · have hmem := Fields.lookup_mem (Fields.mem_keys_of_lookup hstated)
        have hentry := Check.passes_each.mp hentries _ hmem
        split at hentry
        · exact (Check.not_passes_fail _ _ hentry).elim
        · simp only [Check.passes_when, Check.not_passes_fail, imp_false, Bool.not_eq_true',
            Bool.not_eq_false] at hentry
          exact .inr (str_of_isDirectSize hentry)

/-- Every category has a switch or none. -/
def GateSwitches (gate : Val) : Prop :=
  ∀ c ∈ HEAVY_JOB_CATEGORIES, (gate.get "categories").get c = .undef ∨
    ∃ b, (gate.get "categories").get c = .bool b

theorem gateSwitches_of_passes {gate : Val} {path : String}
    (h : (validateHeavyJobGate gate path).Passes) : GateSwitches gate := by
  intro c _
  rcases Check.passes_section?.mp h with rfl | ⟨fs, rfl, hbody⟩
  · exact .inl rfl
  · simp only [Check.passes_append, and_assoc] at hbody
    obtain ⟨_, _, hcategories, _⟩ := hbody
    rcases Check.passes_section?.mp hcategories with hundef | ⟨switches, hswitches, hentries⟩
    · rw [hundef]
      exact .inl rfl
    · rw [hswitches]
      by_cases hstated : Fields.lookup switches c = .undef
      · exact .inl hstated
      · have hmem := Fields.lookup_mem (Fields.mem_keys_of_lookup hstated)
        have hentry := Check.passes_each.mp hentries _ hmem
        split at hentry
        · exact (Check.not_passes_fail _ _ hentry).elim
        · simp only [Check.passes_when, Check.not_passes_fail, imp_false, Bool.not_eq_true',
            Bool.not_eq_false] at hentry
          refine .inr ?_
          change ∃ b, Fields.lookup switches c = .bool b
          cases hvalue : Fields.lookup switches c with
          | bool b => exact ⟨b, rfl⟩
          | _ =>
              rw [hvalue] at hentry
              cases hentry

/-! ## What the configuration resolves to -/

/-- Whether the jobs of a category are gated: the developer's switch, else the host's, else on. -/
def switchedOn (host developer : Val) (category : String) : Bool :=
  let stated := [(developer.get "categories").get category, (host.get "categories").get category]
  ((stated.find? fun v ↦ !v.isNullish).getD true).isBoolLit true

/-- The first of the limits that is stated: the developer's for the category,
the host's for the category, the developer's overall one, the host's. -/
def consultedLimit (host developer : Val) (category : String) : Val :=
  let stated := [(developer.get "memory_max_by_category").get category,
    (host.get "memory_max_by_category").get category,
    developer.get "memory_max", host.get "memory_max"]
  (stated.find? fun v ↦ !v.isNullish).getD "8G"

/-- The ceiling of a job; the empty limit asks for none. -/
def ceiling (host developer : Val) (category : String) : Option String :=
  match consultedLimit host developer category with
  | .str s => if s = "" then none else canonicalMemorySize s
  | _ => none

/-! ## What the generator writes -/

theorem lookup_filterMap_undef (f g : String → Val) {ks : List String} {k : String}
    (hk : k ∈ ks) :
    Fields.lookup (ks.filterMap fun c ↦ if (f c).isUndef then none else some (c, g c)) k =
      if (f k).isUndef then .undef else g k := by
  induction ks with
  | nil => cases hk
  | cons c ks ih =>
      rw [List.filterMap_cons]
      by_cases hck : c = k
      · subst hck
        by_cases hundef : (f c).isUndef = true
        · simp only [hundef, if_true]
          refine Fields.lookup_eq_undef_of_notMem ?_
          intro hmem
          obtain ⟨p, hp, hpc⟩ := List.mem_map.mp hmem
          obtain ⟨d, _, hd⟩ := List.mem_filterMap.mp hp
          split at hd
          · cases hd
          · rename_i hnot
            obtain rfl : (d, g d) = p := Option.some.inj hd
            exact hnot (by rw [show d = c from hpc, hundef])
        · simp only [hundef]
          exact if_pos rfl
      · have htail := ih ((List.mem_cons.mp hk).resolve_left (Ne.symm hck))
        by_cases hundef : (f c).isUndef = true
        · simpa only [hundef, if_true] using htail
        · simp only [hundef]
          exact (if_neg hck).trans htail

/-- The two stages of the gate: the host's settings, then one developer's. -/
def developerGate (host developer : Val) : Val :=
  normalizeHeavyJobGate (normalizeHeavyJobGate host .undef) developer

theorem normalizeDeveloper_gate {tailscale hostGate rdev vdev : Val} {client : ClientFacts}
    {ports : List (Val × Number)}
    (h : normalizeDeveloper tailscale hostGate client ports rdev = .ok vdev) :
    vdev.get "heavy_job_gate" = normalizeHeavyJobGate hostGate (rdev.get "heavy_job_gate") := by
  simp only [normalizeDeveloper, bind_eq_ok, pure_eq_ok, Except.ok.injEq] at h
  obtain ⟨_, _, _, _, _, _, _, _, _, _, _, _, _, _, _, _, _, _, _, _, rfl⟩ := h
  rfl

theorem canonicalOrNull_str {s c : String} (h : canonicalMemorySize s = some c) :
    canonicalOrNull (.str s) = .str c := by
  simp [canonicalOrNull, h]

theorem canonicalOrSame_str {s c : String} (h : canonicalMemorySize s = some c) :
    canonicalOrSame (.str s) = .str c := by
  simp [canonicalOrSame, h]

theorem gate_memory_max {host developer : Val} {s c : String}
    (h : gateField host developer "memory_max" "8G" = .str s) (hc : canonicalMemorySize s = some c) :
    (normalizeHeavyJobGate host developer).get "memory_max" = .str c := by
  change (canonicalOrNull (gateField host developer "memory_max" "8G")).orElse "8G" = _
  rw [h, canonicalOrNull_str hc]
  rfl

theorem gate_category {host developer : Val} {category : String}
    (hcategory : category ∈ HEAVY_JOB_CATEGORIES) :
    ((normalizeHeavyJobGate host developer).get "memory_max_by_category").get category =
      if (gateCategoryMemory host developer category).isUndef then .undef
      else canonicalOrSame (gateCategoryMemory host developer category) :=
  lookup_filterMap_undef (gateCategoryMemory host developer)
    (fun c ↦ canonicalOrSame (gateCategoryMemory host developer c)) hcategory

section Limits

variable {host developer : Val} (hhost : GateLimits host) (hdev : GateLimits developer)

include hhost hdev

theorem overall_limit : ∃ s c, gateField host developer "memory_max" "8G" = .str s ∧
    canonicalMemorySize s = some c ∧
    (developerGate host developer).get "memory_max" = .str c := by
  rcases hdev.overall with hundef | ⟨s, c, hs, hc⟩
  · obtain ⟨s, c, hs, hc⟩ : ∃ s c, gateField host (.undef) "memory_max" "8G" = .str s ∧
        canonicalMemorySize s = some c := by
      rcases hhost.overall with hnone | ⟨s, c, hs, hc⟩
      · exact ⟨"8G", "8G", by rw [gateField, hnone]; rfl, by decide +kernel⟩
      · exact ⟨s, c, by rw [gateField, hs]; rfl, hc⟩
    have hfield : ∀ h : Val, gateField h developer "memory_max" "8G" =
        gateField h (.undef) "memory_max" "8G" := by
      intro h
      rw [gateField, hundef]
      rfl
    refine ⟨s, c, (hfield host).trans hs, hc, gate_memory_max ?_ (canonical_idem hc)⟩
    rw [hfield, gateField, gate_memory_max hs hc]
    rfl
  · have hfield : ∀ h : Val, gateField h developer "memory_max" "8G" = .str s := by
      intro h
      rw [gateField, hs]
      rfl
    exact ⟨s, c, hfield host, hc, gate_memory_max (hfield _) hc⟩

theorem category_limit {category : String} (hcategory : category ∈ HEAVY_JOB_CATEGORIES) :
    (gateCategoryMemory host developer category = .undef ∧
      ((developerGate host developer).get "memory_max_by_category").get category = .undef) ∨
    ∃ s c, gateCategoryMemory host developer category = .str s ∧
      canonicalMemorySize s = some c ∧
      ((developerGate host developer).get "memory_max_by_category").get category = .str c := by
  rw [developerGate, gate_category hcategory]
  rcases hdev.category category hcategory with hundef | ⟨s, c, hs, hc⟩
  · have hmemory : ∀ h : Val, gateCategoryMemory h developer category =
        (h.get "memory_max_by_category").get category := by
      intro h
      rw [gateCategoryMemory, hundef]
      rfl
    rw [hmemory, hmemory, gate_category hcategory]
    have hhostMemory : gateCategoryMemory host .undef category =
        (host.get "memory_max_by_category").get category := rfl
    rw [hhostMemory]
    rcases hhost.category category hcategory with hnone | ⟨s, c, hs, hc⟩
    · rw [hnone]
      exact .inl ⟨rfl, rfl⟩
    · rw [hs, canonicalOrSame_str hc]
      exact .inr ⟨s, c, rfl, hc, canonicalOrSame_str (canonical_idem hc)⟩
  · have hmemory : ∀ h : Val, gateCategoryMemory h developer category = .str s := by
      intro h
      rw [gateCategoryMemory, hs]
      rfl
    rw [hmemory, hmemory]
    exact .inr ⟨s, c, rfl, hc, canonicalOrSame_str hc⟩

end Limits

theorem consultedLimit_eq (host developer : Val) (category : String) :
    consultedLimit host developer category = (gateCategoryMemory host developer category).orElse
      (gateField host developer "memory_max" "8G") := by
  simp only [consultedLimit, gateCategoryMemory, gateField, Val.orElse, List.find?]
  grind

end RemoteDevbox.Spec
