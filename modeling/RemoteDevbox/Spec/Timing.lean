import RemoteDevbox.Spec.Load

namespace RemoteDevbox.Spec

open Js Client

/-!
# Timing rules across defaulting

The validator compares two fields of a section only when both are stated;
the generator fills in the one that is not. This file says when the rules
hold of the generated values.
-/

/-! ## What the generator keeps -/

theorem normalizeHost_inv {host hostVars : Val} (h : normalizeHost host = .ok hostVars) :
    hostVars.get "runaway_guard" = normalizeRunawayGuard host ∧
      hostVars.get "paseo_session_reap" = normalizePaseoSessionReap host := by
  simp only [normalizeHost, bind_eq_ok] at h
  obtain ⟨locales, _, monitoring, _, hvars⟩ := h
  simp only [pure_eq_ok, Except.ok.injEq] at hvars
  subst hvars
  exact ⟨rfl, rfl⟩

/-! ## What the validator checks of a timed section -/

/-- A field that is a number when it is stated. -/
def NumberOrAbsent (v : Val) : Prop := v = .undef ∨ ∃ n, v = .num n

theorem numberOrAbsent_of_positive {v : Val}
    (h : v = .undef ∨ isPositiveInteger v = true) : NumberOrAbsent v := by
  rcases h with h | h
  · exact .inl h
  · cases v with
    | num n => exact .inr ⟨n, rfl⟩
    | _ => cases h

theorem bothNumbers_eq_false {a b : Val} {test : Number → Number → Bool}
    (h : bothNumbers a b test = false) {m n : Number} (ha : a = .num m) (hb : b = .num n) :
    test m n = false := by
  subst ha hb
  exact h

theorem positiveInts_spec {raw : Val} {base : String} {keys : List String}
    (h : (validatePositiveInts raw base keys).Passes) {k : String} (hk : k ∈ keys) :
    raw.get k = .undef ∨ isPositiveInteger (raw.get k) = true := by
  rw [validatePositiveInts, Check.passes_each] at h
  exact passes_optional.mp (h k hk)

/-- `R` holds of the fields `a` and `b` whenever both are stated. -/
def BothStated (sec : Val) (a b : String) (R : Number → Number → Prop) : Prop :=
  ∀ m n, sec.get a = .num m → sec.get b = .num n → R m n

/-- `P` holds of field `a` whenever it is stated and `b` is left out. -/
def StatedAlone (sec : Val) (a b : String) (P : Number → Prop) : Prop :=
  ∀ n, sec.get a = .num n → sec.get b = .undef → P n

/-- A section with two timed fields whose rule the validator checks. -/
structure Timed (sec : Val) (a b : String) (R : Number → Number → Prop) : Prop where
  first : NumberOrAbsent (sec.get a)
  second : NumberOrAbsent (sec.get b)
  both : BothStated sec a b R

theorem timed_of_absent {sec : Val} {a b : String} {R : Number → Number → Prop}
    (h : ∀ field, sec.get field = .undef) : Timed sec a b R where
  first := .inl (h a)
  second := .inl (h b)
  both := by
    intro m n hm
    rw [h a] at hm
    cases hm

/-- Two values of the generated file are numbers in the relation `R`. -/
def Related (R : Number → Number → Prop) (v w : Val) : Prop :=
  ∃ m n, v = .num m ∧ w = .num n ∧ R m n

/-- A rule on two defaulted fields holds exactly when it holds of the fields
as stated, and of a field that is stated alone against the other's default. -/
theorem related_defaults_iff {sec : Val} {a b : String} {R : Number → Number → Prop} {c d : Number}
    (ha : NumberOrAbsent (sec.get a)) (hb : NumberOrAbsent (sec.get b)) (hdefaults : R c d) :
    Related R ((sec.get a).orElse (.num c)) ((sec.get b).orElse (.num d)) ↔
      BothStated sec a b R ∧ StatedAlone sec a b (R · d) ∧ StatedAlone sec b a (R c ·) := by
  have hnum : ∀ n d : Number, (Val.num n).orElse (.num d) = .num n := fun n d ↦ rfl
  have hundef : ∀ d : Number, Val.undef.orElse (.num d) = .num d := fun d ↦ rfl
  rcases ha with ha | ⟨m, ha⟩ <;> rcases hb with hb | ⟨n, hb⟩
  · simp [Related, BothStated, StatedAlone, ha, hb, hundef, hdefaults]
  · simp [Related, BothStated, StatedAlone, ha, hb, hundef, hnum]
  · simp [Related, BothStated, StatedAlone, ha, hb, hundef, hnum]
  · simp [Related, BothStated, StatedAlone, ha, hb, hnum]

theorem Timed.related_iff {sec : Val} {a b : String} {R : Number → Number → Prop} {c d : Number}
    (h : Timed sec a b R) (hdefaults : R c d) :
    Related R ((sec.get a).orElse (.num c)) ((sec.get b).orElse (.num d)) ↔
      StatedAlone sec a b (R · d) ∧ StatedAlone sec b a (R c ·) := by
  rw [related_defaults_iff h.first h.second hdefaults]
  exact and_iff_right h.both

theorem le_of_not_lt {m n : Number} (h : n.lt m = false) (hm : m.isNaN = false)
    (hn : n.isNaN = false) : m.le n = true := by
  cases m <;> cases n <;> simp_all [Number.lt, Number.le, Number.isNaN]
  grind

theorem lt_of_not_le {m n : Number} (h : n.le m = false) (hm : m.isNaN = false)
    (hn : n.isNaN = false) : m.lt n = true := by
  cases m <;> cases n <;> simp_all [Number.lt, Number.le, Number.isNaN]

theorem not_isNaN_of_positive {v : Val} {n : Number}
    (h : v = .undef ∨ isPositiveInteger v = true) (hv : v = .num n) : n.isNaN = false := by
  subst hv
  rcases h with h | h
  · cases h
  · cases n <;> simp_all [isPositiveInteger, Number.isInteger, Number.isNaN]

/-! ## The four sections -/

/-- `interval <= grace` -/
def withinGrace (interval grace : Number) : Prop := interval.le grace = true

/-- `deadline < interval` -/
def beforeInterval (interval deadline : Number) : Prop := deadline.lt interval = true

/-- `interval <= idle_hours * 3600` -/
def withinIdle (interval idle : Number) : Prop := interval.le (idle.scale 3600) = true

def hostSection (v : Val) (k : String) : Val := (v.get "host").get k

theorem passes_host_sections {raw : Val} (h : (validateHost raw).Passes) :
    (validateRunawayGuard (hostSection raw "runaway_guard") "host.runaway_guard").Passes ∧
      (validatePaseoSessionReap (hostSection raw "paseo_session_reap")
        "host.paseo_session_reap").Passes := by
  unfold hostSection
  rcases Check.passes_section?.mp h with hundef | ⟨fs, hobj, hk⟩
  · rw [hundef]
    exact ⟨Check.passes_section?.mpr (.inl rfl), Check.passes_section?.mpr (.inl rfl)⟩
  · rw [hobj]
    simp only [Check.passes_append, and_assoc] at hk
    obtain ⟨_, _, _, _, _, _, _, _, _, hguard, hreap, _⟩ := hk
    exact ⟨hguard, hreap⟩

theorem timed_runawayGuard {v : Val} {path : String} (h : (validateRunawayGuard v path).Passes) :
    Timed v "interval_sec" "grace_sec" withinGrace ∧
      Timed v "interval_sec" "scan_deadline_sec" beforeInterval := by
  rcases Check.section_cases h with habsent | hk
  · exact ⟨timed_of_absent habsent, timed_of_absent habsent⟩
  · simp only [Check.passes_append, Check.passes_when, Check.not_passes_fail, imp_false,
      Bool.not_eq_true, and_assoc] at hk
    obtain ⟨_, _, hints, _, _, _, hgrace, hdeadline⟩ := hk
    have hinterval := positiveInts_spec hints (k := "interval_sec") (by simp)
    have hgraceInt := positiveInts_spec hints (k := "grace_sec") (by simp)
    have hdeadlineInt := positiveInts_spec hints (k := "scan_deadline_sec") (by simp)
    refine ⟨⟨numberOrAbsent_of_positive hinterval, numberOrAbsent_of_positive hgraceInt, ?_⟩,
      ⟨numberOrAbsent_of_positive hinterval, numberOrAbsent_of_positive hdeadlineInt, ?_⟩⟩
    · intro m n hm hn
      exact le_of_not_lt (bothNumbers_eq_false hgrace hm hn) (not_isNaN_of_positive hinterval hm)
        (not_isNaN_of_positive hgraceInt hn)
    · intro m n hm hn
      exact lt_of_not_le (bothNumbers_eq_false hdeadline hm hn)
        (not_isNaN_of_positive hdeadlineInt hn) (not_isNaN_of_positive hinterval hm)

theorem timed_browserReap {raw : Val} (h : (validateBrowser raw).Passes) :
    Timed ((raw.get "browser").get "reap") "interval_sec" "grace_sec" withinGrace := by
  rcases Check.section_cases h with habsent | hk
  · rw [habsent "reap"]
    exact timed_of_absent fun _ ↦ rfl
  · simp only [Check.passes_append, and_assoc] at hk
    obtain ⟨_, _, hreap, _⟩ := hk
    rcases Check.section_cases hreap with habsent | hk
    · exact timed_of_absent habsent
    · simp only [Check.passes_append, Check.passes_when, Check.not_passes_fail, imp_false,
        Bool.not_eq_true, and_assoc] at hk
      obtain ⟨_, hints, hgrace⟩ := hk
      have hinterval := positiveInts_spec hints (k := "interval_sec") (by simp)
      have hgraceInt := positiveInts_spec hints (k := "grace_sec") (by simp)
      refine ⟨numberOrAbsent_of_positive hinterval, numberOrAbsent_of_positive hgraceInt, ?_⟩
      intro m n hm hn
      exact le_of_not_lt (bothNumbers_eq_false hgrace hm hn) (not_isNaN_of_positive hinterval hm)
        (not_isNaN_of_positive hgraceInt hn)

/-- The Remote Control reaper has no rule of its own: only the types are
checked. -/
theorem numbers_rcReap {raw : Val} (h : (validateRemoteControl raw).Passes) :
    NumberOrAbsent (((raw.get "remote_control").get "reap").get "interval_sec") ∧
      NumberOrAbsent (((raw.get "remote_control").get "reap").get "grace_sec") := by
  rcases Check.section_cases h with habsent | hk
  · rw [habsent "reap"]
    exact ⟨.inl rfl, .inl rfl⟩
  · simp only [Check.passes_append, and_assoc] at hk
    obtain ⟨_, _, _, _, _, _, _, hreap⟩ := hk
    rcases Check.section_cases hreap with habsent | hk
    · exact ⟨.inl (habsent _), .inl (habsent _)⟩
    · simp only [Check.passes_append] at hk
      exact ⟨numberOrAbsent_of_positive (positiveInts_spec hk.2 (by simp)),
        numberOrAbsent_of_positive (positiveInts_spec hk.2 (by simp))⟩

theorem idle_not_nan {v : Val} {n : Number}
    (h : v = .undef ∨ validatePaseoSessionReap.atLeastOne v = true) (hv : v = .num n) :
    (n.scale 3600).isNaN = false ∧ (Number.ofInt 3600).le (n.scale 3600) = true := by
  subst hv
  rcases h with h | h
  · cases h
  · have hnan : n.isNaN = false := by
      cases n with
      | nan => cases h
      | _ => rfl
    exact ⟨(Number.isNaN_scale n 3600).trans hnan, Number.le_scale (by decide) h⟩

theorem timed_paseoSessionReap {v : Val} {path : String}
    (h : (validatePaseoSessionReap v path).Passes) :
    Timed v "interval_sec" "idle_hours" withinIdle ∧
      StatedAlone v "idle_hours" "interval_sec" (withinIdle (.ofInt 3600)) := by
  rcases Check.section_cases h with habsent | hk
  · refine ⟨timed_of_absent habsent, ?_⟩
    intro n hn
    rw [habsent] at hn
    cases hn
  · simp only [Check.passes_append, Check.passes_when, Check.not_passes_fail, imp_false,
      Bool.not_eq_true, passes_optional, and_assoc] at hk
    obtain ⟨_, _, hidle, hinterval, hrule⟩ := hk
    have hidleNumber : NumberOrAbsent (v.get "idle_hours") := by
      rcases hidle with hidle | hidle
      · exact .inl hidle
      · cases hv : v.get "idle_hours" with
        | num n => exact .inr ⟨n, rfl⟩
        | _ =>
            rw [hv] at hidle
            cases hidle
    refine ⟨⟨numberOrAbsent_of_positive hinterval, hidleNumber, ?_⟩, ?_⟩
    · intro m n hm hn
      exact le_of_not_lt (bothNumbers_eq_false hrule hn hm) (not_isNaN_of_positive hinterval hm)
        (idle_not_nan hidle hn).1
    · intro n hn _
      exact (idle_not_nan hidle hn).2

/-! ## The rules on the generated values -/

/-- The cross-field rules, on the values Ansible reads. -/
structure TimingRules (vars : Val) : Prop where
  guardGrace : Related withinGrace (vars.path ["devbox_host", "runaway_guard", "interval_sec"])
    (vars.path ["devbox_host", "runaway_guard", "grace_sec"])
  guardDeadline : Related beforeInterval
    (vars.path ["devbox_host", "runaway_guard", "interval_sec"])
    (vars.path ["devbox_host", "runaway_guard", "scan_deadline_sec"])
  browserReap : Related withinGrace (vars.path ["devbox_browser", "reap", "interval_sec"])
    (vars.path ["devbox_browser", "reap", "grace_sec"])
  rcReap : Related withinGrace (vars.path ["devbox_remote_control", "reap", "interval_sec"])
    (vars.path ["devbox_remote_control", "reap", "grace_sec"])
  paseoReap : Related withinIdle (vars.path ["devbox_host", "paseo_session_reap", "interval_sec"])
    (vars.path ["devbox_host", "paseo_session_reap", "idle_hours"])

def atMost (limit : ℤ) (n : Number) : Prop := n.le (.ofInt limit) = true

def atLeast (limit : ℤ) (n : Number) : Prop := (Number.ofInt limit).le n = true

/-- What the operator must have stated: nothing that is out of line with the
default of a field left out, and for the Remote Control reaper, which has no
check, nothing out of line at all. -/
structure TimelyStated (doc : Val) : Prop where
  guardInterval : StatedAlone (hostSection doc "runaway_guard") "interval_sec" "grace_sec"
    (atMost 120)
  guardGrace : StatedAlone (hostSection doc "runaway_guard") "grace_sec" "interval_sec"
    (atLeast 30)
  guardSweep : StatedAlone (hostSection doc "runaway_guard") "interval_sec" "scan_deadline_sec"
    fun n ↦ (Number.ofInt 20).lt n = true
  guardDeadline : StatedAlone (hostSection doc "runaway_guard") "scan_deadline_sec"
    "interval_sec" fun n ↦ n.lt (.ofInt 30) = true
  browserInterval : StatedAlone ((doc.get "browser").get "reap") "interval_sec" "grace_sec"
    (atMost 900)
  browserGrace : StatedAlone ((doc.get "browser").get "reap") "grace_sec" "interval_sec"
    (atLeast 300)
  rcBoth : BothStated ((doc.get "remote_control").get "reap") "interval_sec" "grace_sec"
    withinGrace
  rcInterval : StatedAlone ((doc.get "remote_control").get "reap") "interval_sec" "grace_sec"
    (atMost 900)
  rcGrace : StatedAlone ((doc.get "remote_control").get "reap") "grace_sec" "interval_sec"
    (atLeast 900)
  paseoInterval : StatedAlone (hostSection doc "paseo_session_reap") "interval_sec" "idle_hours"
    (atMost 43200)

section Accepted

variable {env : ClientEnv} {doc : Doc} {resolved vars : Val} {client : ClientFacts}

/-- Where the timed values of the generated file come from. -/
structure TimedSections (doc vars : Val) : Prop where
  guard : vars.path ["devbox_host", "runaway_guard"] = normalizeRunawayGuard (doc.get "host")
  paseo : vars.path ["devbox_host", "paseo_session_reap"] =
    normalizePaseoSessionReap (doc.get "host")
  browser : vars.path ["devbox_browser", "reap"] =
    normalizeBrowserReap ((doc.get "browser").get "reap")
  rc : vars.path ["devbox_remote_control", "reap"] =
    normalizeRcReap ((doc.get "remote_control").get "reap")

theorem timedSections (h : Accepts env doc resolved) (hvars : normalize client resolved = .ok vars) :
    TimedSections doc.val vars := by
  obtain ⟨_, hostVars, _, developers, _, gen⟩ := generated_of_normalize hvars
  have hhost := gen.host_eq
  rw [(accepted h).choose_spec.fields _ (by decide)] at hhost
  obtain ⟨hguard, hpaseo⟩ := normalizeHost_inv hhost
  refine ⟨?_, ?_, ?_, ?_⟩
  · simpa [Val.path, gen.host] using hguard
  · simpa [Val.path, gen.host] using hpaseo
  · have hbrowser := (accepted h).choose_spec.fields "browser" (by decide)
    simp only [Val.path, List.foldl_cons, List.foldl_nil, gen.browser, normalizeBrowser,
      hbrowser]
    rfl
  · have hrc := (accepted h).choose_spec.fields "remote_control" (by decide)
    simp only [Val.path, List.foldl_cons, List.foldl_nil, gen.remoteControl,
      normalizeRemoteControl, hrc]
    rfl

/-- The timing rules hold of the generated values exactly when the operator
stated nothing that a default contradicts. -/
theorem timing_rules_iff (h : Accepts env doc resolved)
    (hvars : normalize client resolved = .ok vars) :
    TimingRules vars ↔ TimelyStated doc.val := by
  have hstructure := structured_of_passes (accepts_iff.mp h).1
  have hsections := timedSections h hvars
  obtain ⟨hguard, hpaseo⟩ := passes_host_sections hstructure.host
  obtain ⟨hgrace, hdeadline⟩ := timed_runawayGuard hguard
  obtain ⟨hidle, hidleAlone⟩ := timed_paseoSessionReap hpaseo
  obtain ⟨hrcInterval, hrcGrace⟩ := numbers_rcReap hstructure.remoteControl
  have h1 := hgrace.related_iff (c := .ofInt 30) (d := .ofInt 120)
    (by unfold withinGrace; decide +kernel)
  have h2 := hdeadline.related_iff (c := .ofInt 30) (d := .ofInt 20)
    (by unfold beforeInterval; decide +kernel)
  have h3 := (timed_browserReap hstructure.browser).related_iff (c := .ofInt 300)
    (d := .ofInt 900) (by unfold withinGrace; decide +kernel)
  have h4 := related_defaults_iff (R := withinGrace) (c := .ofInt 900) (d := .ofInt 900) hrcInterval hrcGrace
    (by unfold withinGrace; decide +kernel)
  have h5 := hidle.related_iff (c := .ofInt 3600) (d := .ofInt 12)
    (by unfold withinIdle; decide +kernel)
  have htwelve : (Number.ofInt 12).scale 3600 = .ofInt 43200 :=
    Number.scale_ofInt (by decide) (by decide)
  have hfield : ∀ a b c, vars.path [a, b, c] = (vars.path [a, b]).get c := fun _ _ _ ↦ rfl
  constructor
  · rintro ⟨r1, r2, r3, r4, r5⟩
    rw [hfield, hfield, hsections.guard] at r1 r2
    rw [hfield, hfield, hsections.browser] at r3
    rw [hfield, hfield, hsections.rc] at r4
    rw [hfield, hfield, hsections.paseo] at r5
    obtain ⟨c1, c2⟩ := h1.mp r1
    obtain ⟨c3, c4⟩ := h2.mp r2
    obtain ⟨c5, c6⟩ := h3.mp r3
    obtain ⟨c7, c8, c9⟩ := h4.mp r4
    obtain ⟨c10, _⟩ := h5.mp r5
    unfold withinIdle at c10
    rw [htwelve] at c10
    exact ⟨c1, c2, c3, c4, c5, c6, c7, c8, c9, c10⟩
  · rintro ⟨c1, c2, c3, c4, c5, c6, c7, c8, c9, c10⟩
    have c10' : StatedAlone (hostSection doc.val "paseo_session_reap") "interval_sec" "idle_hours"
        (withinIdle · (.ofInt 12)) := by
      unfold withinIdle
      rw [htwelve]
      exact c10
    refine ⟨?_, ?_, ?_, ?_, ?_⟩
    · rw [hfield, hfield, hsections.guard]
      exact h1.mpr ⟨c1, c2⟩
    · rw [hfield, hfield, hsections.guard]
      exact h2.mpr ⟨c3, c4⟩
    · rw [hfield, hfield, hsections.browser]
      exact h3.mpr ⟨c5, c6⟩
    · rw [hfield, hfield, hsections.rc]
      exact h4.mpr ⟨c7, c8, c9⟩
    · rw [hfield, hfield, hsections.paseo]
      exact h5.mpr ⟨c10', hidleAlone⟩

end Accepted

/-- A browser reaper told to run every 1000 seconds, and nothing else. -/
def slowBrowserReap : Doc :=
  ⟨specWith [("browser", .obj [("reap", .obj [("interval_sec", 1000)])])] [], by decide +kernel⟩

theorem slowBrowserReap_breaks :
    ∃ resolved vars, Accepts homeEnv slowBrowserReap resolved ∧
      normalize noClient resolved = .ok vars ∧ ¬ TimingRules vars := by
  obtain ⟨resolved, vars, haccepts, hvars⟩ :=
    exists_vars homeEnv noClient slowBrowserReap (by decide +kernel)
  refine ⟨resolved, vars, haccepts, hvars, ?_⟩
  intro hrules
  have hreap := hrules.browserReap
  have hfield : ∀ a b c, vars.path [a, b, c] = (vars.path [a, b]).get c := fun _ _ _ ↦ rfl
  rw [hfield, hfield, (timedSections haccepts hvars).browser] at hreap
  obtain ⟨m, n, hm, hn, hrel⟩ := hreap
  obtain rfl : Number.ofInt 1000 = m := Val.num.inj hm
  obtain rfl : Number.ofInt 900 = n := Val.num.inj hn
  exact absurd hrel (by unfold withinGrace; decide +kernel)

/-- Every timed field left to its default. -/
theorem defaults_timing_rules :
    ∃ resolved vars, Accepts homeEnv ⟨specWith [] [], plain_parsed⟩ resolved ∧
      normalize noClient resolved = .ok vars ∧
      (TimingRules vars ↔ TimelyStated (specWith [] [])) := by
  obtain ⟨resolved, vars, haccepts, hvars⟩ := exists_vars homeEnv noClient
    ⟨specWith [] [], plain_parsed⟩ (by decide +kernel)
  exact ⟨resolved, vars, haccepts, hvars, timing_rules_iff haccepts hvars⟩

end RemoteDevbox.Spec
