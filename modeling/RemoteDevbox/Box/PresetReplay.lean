import RemoteDevbox.Box.PresetRuns

namespace RemoteDevbox.Box

open Js Spec

/-!
# Replaying the preset log

A fresh controller over a fresh runtime reads the log of a session and takes
up what the last successful operation left.
-/

section

variable {Model : Type} {document : ParsedPresetDocument} {calls : RuntimeCalls Model}
  {s s' : PresetSession Model} {v : Validated Model} {name : String}

/-! ## Canonical names -/

/-- No preset is reached through an alias of another name. -/
def Canonical (document : ParsedPresetDocument) : Prop :=
  ∀ name, (document.presets.lookup name).isSome → document.aliases.lookup name = none

theorem parseAlias_fresh {presets : List (String × ParsedPreset)} {target : Val} {t : String}
    (h : parseAlias presets name target = .ok t) : name ∉ presets.map Prod.fst := by
  obtain ⟨_, _, h⟩ := Js.bind_eq_ok.mp h
  obtain ⟨_, _, h⟩ := Js.bind_eq_ok.mp h
  obtain ⟨_, hfresh, _⟩ := Js.bind_eq_ok.mp h
  simpa using require_eq_ok.mp hfresh

theorem parse_canonical {raw : Val} (h : parsePresetDocument raw = .ok document) :
    Canonical document := by
  obtain ⟨_, _, h⟩ := Js.bind_eq_ok.mp h
  obtain ⟨_, _, h⟩ := Js.bind_eq_ok.mp h
  obtain ⟨_, _, h⟩ := Js.bind_eq_ok.mp h
  obtain ⟨_, _, h⟩ := Js.bind_eq_ok.mp h
  obtain ⟨_, _, h⟩ := Js.bind_eq_ok.mp h
  obtain ⟨presets, _, h⟩ := Js.bind_eq_ok.mp h
  obtain ⟨aliases, haliases, h⟩ := Js.bind_eq_ok.mp h
  obtain ⟨retry, _, h⟩ := Js.bind_eq_ok.mp h
  obtain rfl := Except.ok.inj h
  intro name hname
  cases hlookup : aliases.lookup name with
  | none => rfl
  | some target =>
      obtain ⟨preset, hpreset⟩ := Option.isSome_iff_exists.mp hname
      have hdeclared : name ∈ presets.map Prod.fst :=
        List.mem_map.mpr ⟨_, mem_of_lookup hpreset, rfl⟩
      have hmem := mem_of_lookup hlookup
      unfold parseAliases at haliases
      split at haliases
      · cases haliases
        cases hmem
      · rcases mem_assignEach haliases hmem with hnil | ⟨_, w, _, hw⟩
        · cases hnil
        · exact absurd hdeclared (parseAlias_fresh hw)
      · cases haliases

theorem Canonical.name_eq (h : Canonical document) {preset : ParsedPreset}
    (hlookup : document.presets.lookup name = some preset) : canonicalName document name = name := by
  rw [canonicalName, h name (by simp [hlookup])]
  rfl

/-! ## Models that still resolve -/

/-- What resolved for `earlier` resolves for `later`, with no thinking level lost. -/
def StillResolves (earlier later : RuntimeCalls Model) : Prop :=
  ∀ role selector found, earlier.resolveModel role selector = .ok (some found) →
    ∃ found', later.resolveModel role selector = .ok (some found') ∧
      ∀ supported', found'.supportedThinking = some supported' →
        ∃ supported, found.supportedThinking = some supported ∧ supported ⊆ supported'

theorem selectedModel_returns {role : String} {selection : ParsedRoleSelection}
    {found found' : ResolvedOmpModel Model}
    (h : ∀ supported', found'.supportedThinking = some supported' →
      ∃ supported, found.supportedThinking = some supported ∧ supported ⊆ supported')
    (hfound : Returns (selectedModel role selection (some found))) :
    Returns (selectedModel role selection (some found')) := by
  cases hthinking : selection.thinking with
  | none => simp [selectedModel, hthinking]
  | some level =>
      cases hsupported : found'.supportedThinking with
      | none => simp [selectedModel, hthinking, hsupported]
      | some supported' =>
          obtain ⟨supported, hearlier, hsub⟩ := h supported' hsupported
          simp only [selectedModel, hthinking, hearlier, hsupported] at hfound ⊢
          split at hfound
          · rename_i hlevel
            have hkept : supported'.contains level = true := by
              simpa using hsub (by simpa using hlevel)
            rw [if_pos hkept]
            exact returns_ok _
          · exact absurd hfound (not_returns_error _)

theorem validatedRole_returns {earlier later : RuntimeCalls Model} (h : StillResolves earlier later)
    {preset : ParsedPreset} {role : String} (hrole : Returns (validatedRole earlier preset role)) :
    Returns (validatedRole later preset role) := by
  unfold validatedRole at hrole ⊢
  obtain ⟨selection, hselection, hrole⟩ := returns_bind.mp hrole
  obtain ⟨resolved, hresolved, hrole⟩ := returns_bind.mp hrole
  obtain ⟨model, hmodel, _⟩ := returns_bind.mp hrole
  cases resolved with
  | none => cases hmodel
  | some found =>
      obtain ⟨found', hfound', hsub⟩ := h _ _ _ hresolved
      obtain ⟨model', hmodel'⟩ := selectedModel_returns hsub ⟨model, hmodel⟩
      rw [hselection, ok_bind, hfound', ok_bind, hmodel', ok_bind]
      exact returns_ok _

/-- The preset exists and every role of it resolved. -/
def Resolved (document : ParsedPresetDocument) (calls : RuntimeCalls Model) (name : String) : Prop :=
  ∃ preset, document.presets.lookup name = some preset ∧
    Returns (OMP_MODEL_ROLE_IDS.mapM (validatedRole calls preset))

theorem resolved_of_validated (h : validated document calls name = .ok v) :
    Resolved document calls v.name := by
  obtain ⟨_, hlookup, hmodels⟩ := validated_inv h
  exact ⟨v.preset, hlookup, v.models, hmodels⟩

theorem Resolved.later {earlier later : RuntimeCalls Model} (h : Resolved document earlier name)
    (hstill : StillResolves earlier later) : Resolved document later name := by
  obtain ⟨preset, hlookup, hmodels⟩ := h
  refine ⟨preset, hlookup, mapM_returns.mpr fun role hrole ↦ ?_⟩
  exact validatedRole_returns hstill (mapM_returns.mp hmodels role hrole)

theorem Resolved.validated (h : Resolved document calls name) (hcanonical : Canonical document) :
    ∃ v, validated document calls name = .ok v ∧ v.name = name := by
  obtain ⟨preset, hlookup, models, hmodels⟩ := h
  refine ⟨⟨name, preset, models⟩, ?_, rfl⟩
  simp [Box.validated, hcanonical.name_eq hlookup, hlookup, hmodels]

/-! ## Histories -/

/-- A session, what its last successful operation left, and the calls so far. -/
structure History (Model : Type) where
  session : PresetSession Model
  preset : Option String
  roles : Option OmpRoleSelectors
  seen : List (RuntimeCalls Model)

/-- The operation is handed the log of the session, whatever else stands in it. -/
def ReadsLog (s : PresetSession Model) : Operation → Prop
  | .initializeNewSession entries => entries.filterMap loggedState = s.entries.filterMap loggedState
  | .restore entries => entries.filterMap loggedState = s.entries.filterMap loggedState
  | _ => True

inductive HistoryStep (document : ParsedPresetDocument) :
    History Model → Operation × RuntimeCalls Model → History Model → Prop
  | completed {h : History Model} {operation : Operation} {calls : RuntimeCalls Model}
      {s' : PresetSession Model} (hlog : ReadsLog h.session operation)
      (hrun : operation.run document calls h.session = .ok () s') :
      HistoryStep document h (operation, calls) ⟨s', s'.activePreset, s'.roles, calls :: h.seen⟩
  | failed {h : History Model} {operation : Operation} {calls : RuntimeCalls Model}
      {s' : PresetSession Model} {e : Thrown} (hlog : ReadsLog h.session operation)
      (hrun : operation.run document calls h.session = .error e s') :
      HistoryStep document h (operation, calls) ⟨s', h.preset, h.roles, calls :: h.seen⟩

def history (document : ParsedPresetDocument) :
    System (History Model) (Operation × RuntimeCalls Model) where
  start h := Fresh h.session ∧ h.session.entries.filterMap loggedState = [] ∧
    h.preset = none ∧ h.roles = none ∧ h.seen = []
  next := HistoryStep document

/-- The operation completes without a call that sets or clears the roles. -/
def Idle (s : PresetSession Model) : Operation → Prop
  | .initializeNewSession entries => latestPresetState entries ≠ none
  | .restore entries => latestPresetState entries = none ∧ s.activeRoles = none
  | _ => False

/-- An idle operation finds the roles in force that the controller remembers. -/
def Settled (h : History Model) (e : Operation × RuntimeCalls Model) : Prop :=
  Idle h.session e.1 → h.session.roles = h.session.activeRoles

/-- The memory of the controller, the log and what was left last agree. -/
structure Kept (document : ParsedPresetDocument) (h : History Model) : Prop where
  logged : h.session.activePreset = (latestPresetState h.session.entries).bind (·.preset)
  remembers : Remembers document h.session
  preset : h.preset = h.session.activePreset
  roles : h.roles = h.session.activeRoles
  resolved : ∀ name, h.session.activePreset = some name →
    ∃ earlier ∈ h.seen, Resolved document earlier name

theorem latestPresetState_append (entries : List Val) (state : PresetState) :
    latestPresetState (entries ++ [stateEntry state]) = some state := by
  simp [latestPresetState]

theorem latestPresetState_congr {entries entries' : List Val}
    (h : entries.filterMap loggedState = entries'.filterMap loggedState) :
    latestPresetState entries = latestPresetState entries' := by
  rw [latestPresetState_eq, latestPresetState_eq, h]

/-- An operation that throws leaves the memory and the log. -/
theorem leaves_failed (operation : Operation) :
    Leaves (operation.run document calls) s (fun _ _ ↦ True) fun _ ↦ Unmoved s := by
  have happly : ∀ name, Leaves (applyUnlocked document calls name) s (fun _ _ ↦ True)
      fun _ ↦ Unmoved s := fun name ↦
    leaves_applyUnlocked.imp (fun _ _ _ ↦ trivial) fun _ _ h ↦ h.1
  cases operation with
  | apply name => exact happly name
  | reset =>
      simp only [Operation.run, Box.reset, leaves_bind, clearRoles, appendState, activate,
        leaves_call, leaves_modify]
      refine ⟨fun _ _ ↦ ⟨fun _ _ ↦ trivial, ?_⟩, ?_⟩
      all_goals exact fun _ _ ↦ ⟨rfl, rfl, rfl⟩
  | initializeNewSession entries =>
      simp only [Operation.run, Box.initializeNewSession, leaves_discard, leaves_bind, leaves_ite,
        leaves_pure]
      exact ⟨fun _ ↦ trivial, fun _ ↦ happly _⟩
  | restore entries =>
      simp only [Operation.run, leaves_discard, Box.restore]
      split
      · simp only [leaves_bind, leaves_get, leaves_ite, clearRoles, activate, leaves_call,
          leaves_modify, leaves_pure]
        exact ⟨fun _ ↦ ⟨fun _ _ ↦ trivial, fun _ _ ↦ ⟨rfl, rfl, rfl⟩⟩, fun _ ↦ trivial⟩
      · simp only [leaves_bind, clearRoles, activate, leaves_call, leaves_modify, leaves_pure]
        exact ⟨fun _ _ ↦ trivial, fun _ _ ↦ ⟨rfl, rfl, rfl⟩⟩
      · simp only [leaves_bind, evaluate, replaceRoles, appendState, activate, leaves_ite,
          leaves_call, leaves_modify, leaves_pure]
        refine ⟨fun v hv ↦ ⟨fun _ _ ↦ ⟨fun _ ↦ ⟨fun _ _ ↦ trivial, ?_⟩, fun _ ↦ trivial⟩, ?_⟩, ?_⟩
        all_goals exact fun _ _ ↦ ⟨rfl, rfl, rfl⟩

/-- What the controller takes up from a log. -/
structure TakesUp (document : ParsedPresetDocument) (calls : RuntimeCalls Model)
    (s s' : PresetSession Model) : Prop where
  logged : s'.activePreset = (latestPresetState s'.entries).bind (·.preset)
  remembers : Remembers document s'
  roles : s'.roles = s'.activeRoles
  resolved : ∀ name, s'.activePreset = some name →
    Resolved document calls name ∨ s.activePreset = some name

theorem Switched.takesUp (h : Switched v s s') (hv : validated document calls name = .ok v) :
    TakesUp document calls s s' where
  logged := by
    rw [h.preset, h.entries, latestPresetState_append]
    rfl
  remembers := h.remembers (validated_inv hv).2.1
  roles := h.roles.trans h.remembered.symm
  resolved name hname := by
    rw [h.preset] at hname
    rw [← Option.some.inj hname]
    exact .inl (resolved_of_validated hv)

/-- A restore of a log whose latest state is the one of the session's own log. -/
theorem leaves_restore {entries : List Val} (hcanonical : Canonical document)
    (hlatest : latestPresetState entries = latestPresetState s.entries)
    (hlogged : ∀ logged, latestPresetState entries = some ⟨some logged⟩ →
      (document.presets.lookup logged).isSome)
    (hsettled : latestPresetState entries = none → s.activeRoles = none → s.roles = none) :
    Leaves (restore document calls entries) s (fun _ ↦ TakesUp document calls s)
      fun _ _ ↦ True := by
  unfold Box.restore
  split
  · rename_i hnone
    have hempty : none = (latestPresetState s.entries).bind (·.preset) := by
      rw [← hlatest, hnone]
      rfl
    simp only [leaves_bind, leaves_get, leaves_ite, clearRoles, activate, leaves_call,
      leaves_modify, leaves_pure]
    refine ⟨fun _ ↦ ⟨fun _ _ ↦ ⟨hempty, rfl, rfl, (by simp)⟩, fun _ _ ↦ trivial⟩, fun hforgot ↦ ?_⟩
    exact ⟨hempty, rfl, hsettled hnone (by simpa using hforgot), (by simp)⟩
  · rename_i hnone
    have hempty : none = (latestPresetState s.entries).bind (·.preset) := by
      rw [← hlatest, hnone]
      rfl
    simp only [leaves_bind, clearRoles, activate, leaves_call, leaves_modify, leaves_pure]
    exact ⟨fun _ _ ↦ ⟨hempty, rfl, rfl, (by simp)⟩, fun _ _ ↦ trivial⟩
  · rename_i logged hsome
    simp only [leaves_bind, evaluate, replaceRoles, appendState, activate, leaves_ite,
      leaves_call, leaves_modify, leaves_pure]
    refine ⟨fun v hv ↦ ⟨fun _ _ ↦ ⟨fun hne ↦ ?_, fun _ ↦ ?_⟩, fun _ _ ↦ trivial⟩,
      fun _ _ ↦ trivial⟩
    all_goals
      obtain ⟨preset, hpreset⟩ := Option.isSome_iff_exists.mp (hlogged logged hsome)
      have hname : v.name = logged :=
        (validated_inv hv).1.trans (hcanonical.name_eq hpreset)
    · simp [hname] at hne
    · refine ⟨?_, ⟨v.preset, (validated_inv hv).2.1, rfl⟩, rfl, fun name hactive ↦ ?_⟩
      · change some v.name = (latestPresetState s.entries).bind (·.preset)
        rw [hname, ← hlatest, hsome]
        rfl
      · rw [← Option.some.inj hactive]
        exact .inl (resolved_of_validated hv)

theorem leaves_takesUp {operation : Operation} (hcanonical : Canonical document)
    (hremembers : Remembers document s)
    (hlogged : s.activePreset = (latestPresetState s.entries).bind (·.preset))
    (hreads : ReadsLog s operation) (hsettled : Idle s operation → s.roles = s.activeRoles) :
    Leaves (operation.run document calls) s (fun _ ↦ TakesUp document calls s) fun _ _ ↦ True := by
  have happly : ∀ name, Leaves (applyUnlocked document calls name) s
      (fun _ ↦ TakesUp document calls s) fun _ _ ↦ True := fun name ↦
    leaves_applyUnlocked.imp (fun _ _ ⟨_, hv, h⟩ ↦ h.takesUp hv) fun _ _ _ ↦ trivial
  cases operation with
  | apply name => exact happly name
  | reset =>
      simp only [Operation.run, Box.reset, leaves_bind, clearRoles, appendState, activate,
        leaves_call, leaves_modify]
      refine ⟨fun _ _ ↦ ⟨fun _ _ ↦ ⟨?_, rfl, rfl, (by simp)⟩, fun _ _ ↦ trivial⟩, fun _ _ ↦ trivial⟩
      rw [latestPresetState_append]
      rfl
  | initializeNewSession entries =>
      simp only [Operation.run, Box.initializeNewSession, leaves_discard, leaves_bind, leaves_ite,
        leaves_pure]
      refine ⟨fun hsome ↦ ?_, fun _ ↦ happly _⟩
      refine ⟨hlogged, hremembers, hsettled ?_, fun name hname ↦ .inr hname⟩
      exact Option.isSome_iff_ne_none.mp hsome
  | restore entries =>
      simp only [Operation.run, leaves_discard]
      have hlatest : latestPresetState entries = latestPresetState s.entries :=
        latestPresetState_congr hreads
      apply leaves_restore hcanonical hlatest
      · intro logged hsome
        rw [hlatest] at hsome
        rw [hsome] at hlogged
        unfold Remembers at hremembers
        rw [hlogged] at hremembers
        obtain ⟨preset, hpreset, _⟩ := hremembers
        simp [hpreset]
      · intro hnone hforgot
        rw [hsettled ⟨hnone, hforgot⟩, hforgot]

theorem kept_start {h : History Model} (hstart : (history document).start h) : Kept document h := by
  obtain ⟨hfresh, hempty, hpreset, hroles, _⟩ := hstart
  refine ⟨?_, hfresh.remembers, hpreset.trans hfresh.1.symm, hroles.trans hfresh.2.1.symm, ?_⟩
  · rw [latestPresetState_eq, hempty]
    exact hfresh.1
  · intro name hname
    rw [hfresh.1] at hname
    cases hname

theorem kept_next (hcanonical : Canonical document) {h h' : History Model}
    {e : Operation × RuntimeCalls Model} (hkept : Kept document h) (hsettled : Settled h e)
    (hnext : HistoryStep document h e h') : Kept document h' := by
  cases hnext with
  | completed hlog hrun =>
      rename_i operation calls s'
      have htakes := (leaves_takesUp hcanonical hkept.remembers hkept.logged hlog hsettled).of_ok hrun
      refine ⟨htakes.logged, htakes.remembers, rfl, htakes.roles, fun name hname ↦ ?_⟩
      rcases htakes.resolved name hname with hresolved | hbefore
      · exact ⟨calls, List.mem_cons_self, hresolved⟩
      · obtain ⟨earlier, hmem, hresolved⟩ := hkept.resolved name hbefore
        exact ⟨earlier, List.mem_cons_of_mem _ hmem, hresolved⟩
  | failed hlog hrun =>
      rename_i operation calls s' e
      have hunmoved := (leaves_failed operation).of_error hrun
      refine ⟨?_, hkept.remembers.of_unmoved hunmoved, ?_, ?_, fun name hname ↦ ?_⟩
      · rw [hunmoved.preset, hunmoved.entries]
        exact hkept.logged
      · exact hkept.preset.trans hunmoved.preset.symm
      · exact hkept.roles.trans hunmoved.remembered.symm
      · obtain ⟨earlier, hmem, hresolved⟩ := hkept.resolved name (hunmoved.preset ▸ hname)
        exact ⟨earlier, List.mem_cons_of_mem _ hmem, hresolved⟩

theorem reaches_kept (hcanonical : Canonical document) {h : History Model}
    (hreach : (history document).Reaches Settled h) : Kept document h :=
  hreach.invariant (fun _ ↦ kept_start) fun _ _ _ ↦ kept_next hcanonical

/-! ## The replay -/

/-- A restore that leaves this preset and these roles. -/
def RestoresTo (document : ParsedPresetDocument) (calls : RuntimeCalls Model) (entries : List Val)
    (s : PresetSession Model) (preset : Option String) (roles : Option OmpRoleSelectors) : Prop :=
  ∃ restored s', restore document calls entries s = .ok restored s' ∧
    s'.activePreset = preset ∧ s'.roles = roles

theorem restoresTo_none {entries : List Val} (hlatest : latestPresetState entries = none)
    (hfresh : Fresh s) : RestoresTo document calls entries s none none := by
  refine ⟨false, { s with activePreset := none, activeRoles := none }, ?_, rfl, hfresh.2.2⟩
  unfold Box.restore
  rw [hlatest]
  change (if s.activeRoles.isSome then _ else _ : Effect Model Bool) s = _
  rw [hfresh.2.1]
  rfl

theorem restoresTo_reset {entries : List Val} (hlatest : latestPresetState entries = some ⟨none⟩)
    (hclear : calls.clearRoles = .ok ()) : RestoresTo document calls entries s none none := by
  refine ⟨true, { s with activePreset := none, activeRoles := none, roles := none }, ?_, rfl, rfl⟩
  unfold Box.restore
  rw [hlatest, hclear]
  rfl

theorem restoresTo_preset {entries : List Val}
    (hlatest : latestPresetState entries = some ⟨some name⟩)
    (hv : validated document calls name = .ok v) (hname : v.name = name)
    (hreplace : calls.replaceRoles = .ok ()) :
    RestoresTo document calls entries s (some name) (some v.preset.selectors) := by
  refine ⟨true, { s with
    activePreset := some v.name
    activeRoles := some v.preset.selectors
    roles := some v.preset.selectors }, ?_, by rw [hname], rfl⟩
  have hsame : (v.name != name) = false := by simp [hname]
  unfold Box.restore
  rw [hlatest, hreplace]
  simp only [hv]
  change (if (v.name != name) = true then _ else _ : Effect Model Bool)
    { s with roles := some v.preset.selectors } = _
  rw [hsame]
  rfl

/-- Replaying the log restores what the last successful operation left. -/
theorem replay_restores {raw : Val} (hparse : parsePresetDocument raw = .ok document)
    {h : History Model} (hreach : (history document).Reaches Settled h) {entries : List Val}
    (hentries : entries.filterMap loggedState = h.session.entries.filterMap loggedState)
    (hstill : ∀ earlier ∈ h.seen, StillResolves earlier calls)
    (hreplace : calls.replaceRoles = .ok ()) (hclear : calls.clearRoles = .ok ())
    (hfresh : Fresh s) : RestoresTo document calls entries s h.preset h.roles := by
  have hcanonical := parse_canonical hparse
  have hkept := reaches_kept hcanonical hreach
  have hlogged := hkept.logged
  have hremembers := hkept.remembers
  rw [← latestPresetState_congr hentries] at hlogged
  rw [hkept.preset, hkept.roles]
  unfold Remembers at hremembers
  cases hlatest : latestPresetState entries with
  | none =>
      rw [hlatest] at hlogged
      change h.session.activePreset = none at hlogged
      rw [hlogged] at hremembers ⊢
      rw [hremembers]
      exact restoresTo_none hlatest hfresh
  | some state =>
      obtain ⟨preset⟩ := state
      rw [hlatest] at hlogged
      change h.session.activePreset = preset at hlogged
      rw [hlogged] at hremembers ⊢
      cases preset with
      | none =>
          rw [hremembers]
          exact restoresTo_reset hlatest hclear
      | some name =>
          obtain ⟨preset, hlookup, hroles⟩ := hremembers
          obtain ⟨earlier, hmem, hresolved⟩ := hkept.resolved name hlogged
          obtain ⟨v, hv, hname⟩ := (hresolved.later (hstill earlier hmem)).validated hcanonical
          have hpreset := (validated_inv hv).2.1
          rw [hname, hlookup] at hpreset
          rw [hroles, Option.some.inj hpreset]
          exact restoresTo_preset hlatest hv hname hreplace

/-- The block whose parse is `dailyPresets`. -/
def dailyBlock : Val :=
  .obj [("default_preset", "daily"), ("aliases", .obj [("usual", "daily")]),
    ("presets", .obj [("daily",
      .obj (OMP_MODEL_ROLE_IDS.map fun role ↦ (role, .str "anthropic/opus:high")))])]

theorem dailyBlock_parses : parsePresetDocument dailyBlock = .ok dailyPresets := rfl

theorem StillResolves.refl (calls : RuntimeCalls Model) : StillResolves calls calls :=
  fun _ _ found hfound ↦ ⟨found, hfound, fun supported hsupported ↦
    ⟨supported, hsupported, List.Subset.refl _⟩⟩

/-- What the session holds once a reset could not be recorded. -/
def halfReset : PresetSession Unit := { dailySession with roles := none }

def dailyLog : List Val := [stateEntry ⟨some "daily"⟩]

def dailyHistory : History Unit :=
  ⟨dailySession, some "daily", dailySession.roles, [workingCalls]⟩

theorem dailyHistory_reached
    {meets : History Unit → Operation × RuntimeCalls Unit → Prop}
    (hmeets : meets ⟨newSession, none, none, []⟩ (.apply "daily", workingCalls)) :
    (history dailyPresets).Reaches meets dailyHistory := by
  have hstart : (history dailyPresets).start (⟨newSession, none, none, []⟩ : History Unit) :=
    ⟨⟨rfl, rfl, rfl⟩, rfl, rfl, rfl, rfl⟩
  exact (System.Reaches.of_start hstart).snoc hmeets (.completed trivial rfl)

/-- After a reset that could not be recorded, `initializeNewSession` finds a
state in the log and completes with no override in force; the log restores the
preset. -/
theorem idleInitialize_notReplayed : parsePresetDocument dailyBlock = .ok dailyPresets ∧
    ∃ h : History Unit, (history dailyPresets).Reaches (fun _ _ ↦ True) h ∧
      (∀ earlier ∈ h.seen, StillResolves earlier workingCalls) ∧
      ¬ RestoresTo dailyPresets workingCalls h.session.entries newSession h.preset h.roles := by
  have hreset : (history dailyPresets).Reaches (fun _ _ ↦ True)
      (⟨halfReset, some "daily", dailySession.roles, [fullDisk, workingCalls]⟩ : History Unit) :=
    (dailyHistory_reached trivial).snoc (e := (.reset, fullDisk)) trivial (.failed trivial rfl)
  have hreads : ReadsLog halfReset (.initializeNewSession dailyLog) := rfl
  have hidle := hreset.snoc (e := (.initializeNewSession dailyLog, workingCalls)) trivial
    (.completed hreads rfl)
  refine ⟨dailyBlock_parses, _, hidle, ?_, ?_⟩
  · intro earlier hmem
    rcases List.mem_cons.mp hmem with rfl | hmem
    · exact StillResolves.refl _
    · rcases List.mem_cons.mp hmem with rfl | hmem
      · exact StillResolves.refl _
      · rw [List.mem_singleton.mp hmem]
        exact StillResolves.refl _
  · rintro ⟨restored, s', hrestore, _, hroles⟩
    have hdaily : restore dailyPresets workingCalls halfReset.entries newSession =
        .ok true { dailySession with thinking := "off", entries := [] } := rfl
    obtain ⟨_, rfl⟩ := EStateM.Result.ok.inj (hdaily.symm.trans hrestore)
    cases hroles

theorem dailyLog_replayed :
    RestoresTo dailyPresets workingCalls dailyLog newSession (some "daily") dailySession.roles := by
  refine replay_restores dailyBlock_parses (dailyHistory_reached fun hidle ↦ hidle.elim) rfl ?_ rfl rfl
    ⟨rfl, rfl, rfl⟩
  intro earlier hmem
  rw [List.mem_singleton.mp hmem]
  exact StillResolves.refl _

end

end RemoteDevbox.Box
