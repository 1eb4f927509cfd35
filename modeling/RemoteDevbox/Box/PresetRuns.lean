import RemoteDevbox.Box.PresetController
import RemoteDevbox.Lib.Effects

namespace RemoteDevbox.Box

open Js Spec

/-!
# What the operations of the preset controller leave

An operation that ends well has set the roles, recorded its state and
remembered both. One that throws remembers what it remembered before.
-/

section

variable {Model : Type} {document : ParsedPresetDocument} {calls : RuntimeCalls Model}
  {s s' previous : PresetSession Model} {v : Validated Model} {name : String}

theorem leaves_call {α : Type} {outcome : Js α}
    {effect : α → PresetSession Model → PresetSession Model}
    {Q : α → PresetSession Model → Prop} {E : Thrown → PresetSession Model → Prop} :
    Leaves (call outcome effect) s Q E ↔
      (∀ a, outcome = .ok a → Q a (effect a s)) ∧ ∀ e, outcome = .error e → E e s := by
  cases outcome with
  | ok a => simp [Leaves, call]
  | error e => simp [Leaves, call]

/-- The controller remembers a preset, and its roles are in force. -/
structure Switched (v : Validated Model) (s s' : PresetSession Model) : Prop where
  preset : s'.activePreset = some v.name
  remembered : s'.activeRoles = some v.preset.selectors
  roles : s'.roles = some v.preset.selectors
  entries : s'.entries = s.entries ++ [stateEntry ⟨some v.name⟩]

/-- The controller and the log are as they were. -/
structure Unmoved (s s' : PresetSession Model) : Prop where
  preset : s'.activePreset = s.activePreset
  remembered : s'.activeRoles = s.activeRoles
  entries : s'.entries = s.entries

theorem leaves_switchTo : Leaves (switchTo calls v) s (fun _ ↦ Switched v s) fun _ ↦ Unmoved s := by
  simp only [switchTo, leaves_bind, evaluate, replaceRoles, setModel, setThinking, appendState,
    activate, leaves_call, leaves_modify]
  refine ⟨fun _ _ ↦ ⟨fun _ _ ↦ ⟨fun _ _ ↦ ⟨fun _ _ ↦ ⟨fun _ _ ↦ ⟨fun _ _ ↦
    ⟨fun _ _ ↦ ⟨fun _ _ ↦ ⟨rfl, rfl, rfl, rfl⟩, ?_⟩, ?_⟩, ?_⟩, ?_⟩, ?_⟩, ?_⟩, ?_⟩, ?_⟩
  all_goals exact fun _ _ ↦ ⟨rfl, rfl, rfl⟩

theorem leaves_restoreRoles {Q : Unit → PresetSession Model → Prop}
    {E : Thrown → PresetSession Model → Prop} {outcome : Js Unit} {roles : Option OmpRoleSelectors} :
    Leaves (restoreRoles outcome roles) s Q E ↔
      (∀ a, outcome = .ok a → Q a { s with roles }) ∧ ∀ e, outcome = .error e → E e s := by
  cases roles with
  | none => exact leaves_call
  | some roles => exact leaves_call

/-- What a failed switch leaves behind. -/
structure RolledBack (calls : RuntimeCalls Model) (previous s s' : PresetSession Model) : Prop where
  preset : s'.activePreset = previous.activePreset
  remembered : s'.activeRoles = previous.activeRoles
  entries : s'.entries = s.entries
  roles : calls.restoreRoles = .ok () → s'.roles = previous.activeRoles

theorem leaves_rollBack {e : Thrown} {Q : Unit → PresetSession Model → Prop} :
    Leaves (rollBack calls previous e) s Q fun _ ↦ RolledBack calls previous s := by
  simp only [rollBack, leaves_bind, collect, leaves_tryCatch, leaves_pure, leaves_restoreRoles,
    setModel, setThinking, activate, leaves_call, leaves_modify, leaves_throw]
  refine ⟨fun _ h ↦ ⟨fun _ _ ↦ ⟨fun _ _ ↦ ?_, fun _ _ ↦ ?_⟩, fun _ _ ↦ ⟨fun _ _ ↦ ?_, fun _ _ ↦ ?_⟩⟩,
    fun e h ↦ ⟨fun _ _ ↦ ⟨fun _ _ ↦ ?_, fun _ _ ↦ ?_⟩, fun _ _ ↦ ⟨fun _ _ ↦ ?_, fun _ _ ↦ ?_⟩⟩⟩
  all_goals exact ⟨rfl, rfl, rfl, fun hok ↦ by simp_all⟩

theorem leaves_applyUnlocked :
    Leaves (applyUnlocked document calls name) s
      (fun _ s' ↦ ∃ v, validated document calls name = .ok v ∧ Switched v s s')
      fun _ s' ↦ Unmoved s s' ∧
        (s'.roles = s.roles ∨ (calls.restoreRoles = .ok () → s'.roles = s.activeRoles)) := by
  simp only [applyUnlocked, leaves_bind, evaluate, leaves_call, leaves_get, leaves_tryCatch]
  refine ⟨fun v hv ↦ ⟨fun _ _ ↦ ⟨fun _ _ ↦ ?_, ?_⟩, ?_⟩, ?_⟩
  · refine leaves_switchTo.imp (fun _ _ h ↦ ⟨v, hv, h⟩) fun e t ht ↦ ?_
    refine leaves_rollBack.imp (fun _ _ h ↦ h) fun e' s' hs' ↦ ⟨⟨?_, ?_, ?_⟩, .inr hs'.roles⟩
    · exact hs'.preset
    · exact hs'.remembered
    · exact hs'.entries.trans ht.entries
  all_goals exact fun _ _ ↦ ⟨⟨rfl, rfl, rfl⟩, .inl (by trivial)⟩

/-! ## What the controller reports -/

/-- `status()` names the preset whose selectors are in force, and none when no
override is in force. -/
def StatusAgrees (document : ParsedPresetDocument) (s : PresetSession Model) : Prop :=
  match s.activePreset with
  | none => s.roles = none
  | some name => ∃ preset, document.presets.lookup name = some preset ∧
      s.roles = some preset.selectors

/-- The remembered roles are the selectors of the remembered preset. -/
def Remembers (document : ParsedPresetDocument) (s : PresetSession Model) : Prop :=
  match s.activePreset with
  | none => s.activeRoles = none
  | some name => ∃ preset, document.presets.lookup name = some preset ∧
      s.activeRoles = some preset.selectors

theorem Remembers.agrees_iff (h : Remembers document s) :
    StatusAgrees document s ↔ s.roles = s.activeRoles := by
  unfold Remembers at h
  unfold StatusAgrees
  cases hactive : s.activePreset with
  | none =>
      rw [hactive] at h
      rw [h]
  | some name =>
      rw [hactive] at h
      obtain ⟨preset, hlookup, hroles⟩ := h
      rw [hroles]
      constructor
      · rintro ⟨preset', hlookup', hroles'⟩
        rw [hlookup] at hlookup'
        rw [hroles', Option.some.inj hlookup']
      · exact fun h ↦ ⟨preset, hlookup, h⟩

theorem Remembers.of_unmoved (h : Remembers document s) (hu : Unmoved s s') :
    Remembers document s' := by
  unfold Remembers at h ⊢
  rw [hu.preset, hu.remembered]
  exact h

theorem validated_inv (h : validated document calls name = .ok v) :
    v.name = canonicalName document name ∧ document.presets.lookup v.name = some v.preset ∧
      OMP_MODEL_ROLE_IDS.mapM (validatedRole calls v.preset) = .ok v.models := by
  unfold validated at h
  cases hlookup : document.presets.lookup (canonicalName document name) with
  | none => simp [hlookup, fail] at h
  | some preset =>
      simp only [hlookup] at h
      obtain ⟨models, hmodels, h⟩ := Js.bind_eq_ok.mp h
      obtain rfl := Except.ok.inj h
      exact ⟨rfl, hlookup, hmodels⟩

theorem Switched.remembers (h : Switched v s s')
    (hv : document.presets.lookup v.name = some v.preset) : Remembers document s' := by
  unfold Remembers
  rw [h.preset]
  exact ⟨v.preset, hv, h.remembered⟩

/-- Where the log append of an operation can fail once the roles are changed,
the roles are those the controller remembers. -/
def AppendSafe (document : ParsedPresetDocument) (calls : RuntimeCalls Model)
    (s : PresetSession Model) : Operation → Prop
  | .reset => calls.clearRoles = .ok () → calls.appendState ≠ .ok () → s.activePreset = none
  | .restore entries => ∀ logged v, latestPresetState entries = some ⟨some logged⟩ →
      validated document calls logged = .ok v → v.name ≠ logged →
      calls.replaceRoles = .ok () → calls.appendState ≠ .ok () →
      s.activeRoles = some v.preset.selectors
  | _ => True

theorem Remembers.none_iff (h : Remembers document s) :
    s.activeRoles = none ↔ s.activePreset = none := by
  unfold Remembers at h
  cases hactive : s.activePreset with
  | none => simpa [hactive] using h
  | some name =>
      rw [hactive] at h
      obtain ⟨preset, _, hroles⟩ := h
      simp [hroles]

/-- What one operation does to a session whose controller and runtime agree. -/
structure Stepped (document : ParsedPresetDocument) (calls : RuntimeCalls Model)
    (s : PresetSession Model) (operation : Operation) (s' : PresetSession Model) : Prop where
  remembers : Remembers document s'
  agrees : s'.roles = s'.activeRoles ↔ AppendSafe document calls s operation

section Step

variable (hs : Remembers document s) (hroles : s.roles = s.activeRoles)
  (hback : calls.restoreRoles = .ok ())

include hs hroles hback

theorem stepped_applyUnlocked {operation : Operation} (hsafe : AppendSafe document calls s operation) :
    Leaves (applyUnlocked document calls name) s
      (fun _ ↦ Stepped document calls s operation) fun _ ↦ Stepped document calls s operation := by
  refine leaves_applyUnlocked.imp ?_ ?_
  · rintro _ s' ⟨v, hv, hswitched⟩
    refine ⟨hswitched.remembers (validated_inv hv).2.1, iff_of_true ?_ hsafe⟩
    rw [hswitched.roles, hswitched.remembered]
  · rintro _ s' ⟨hu, hback'⟩
    refine ⟨hs.of_unmoved hu, iff_of_true ?_ hsafe⟩
    rw [hu.remembered]
    rcases hback' with hsame | hrestored
    · exact hsame.trans hroles
    · exact hrestored hback

omit hback in
theorem stepped_reset : Leaves (reset calls) s (fun _ ↦ Stepped document calls s .reset)
    fun _ ↦ Stepped document calls s .reset := by
  simp only [Box.reset, leaves_bind, clearRoles, appendState, activate, leaves_call, leaves_modify]
  refine ⟨fun _ hclear ↦ ⟨fun _ happend ↦ ?_, fun e happend ↦ ?_⟩, fun e hclear ↦ ?_⟩
  · refine ⟨rfl, iff_of_true rfl fun _ hfails ↦ ?_⟩
    exact absurd happend hfails
  · refine ⟨hs.of_unmoved ⟨rfl, rfl, rfl⟩, ?_⟩
    have hfails : calls.appendState ≠ .ok () := by
      rw [happend]
      simp
    have hnone : none = s.activeRoles ↔ s.activePreset = none :=
      eq_comm.trans hs.none_iff
    exact hnone.trans ⟨fun h _ _ ↦ h, fun h ↦ h hclear hfails⟩
  · refine ⟨hs, iff_of_true hroles fun hok ↦ ?_⟩
    rw [hclear] at hok
    cases hok

omit hback in
theorem stepped_restore (entries : List Val) : Leaves (restore document calls entries) s
    (fun _ ↦ Stepped document calls s (.restore entries))
    fun _ ↦ Stepped document calls s (.restore entries) := by
  unfold Box.restore
  split
  · rename_i hlatest
    have hsafe : AppendSafe document calls s (.restore entries) := by
      intro logged v h
      rw [hlatest] at h
      cases h
    simp only [leaves_bind, leaves_get, leaves_ite, clearRoles, activate, leaves_call, leaves_modify,
      leaves_pure]
    refine ⟨fun _ ↦ ⟨fun _ _ ↦ ⟨rfl, iff_of_true rfl hsafe⟩, fun _ _ ↦ ?_⟩, fun hnone ↦ ?_⟩
    · exact ⟨hs, iff_of_true hroles hsafe⟩
    · refine ⟨rfl, iff_of_true ?_ hsafe⟩
      rw [hroles]
      simpa using hnone
  · rename_i hlatest
    have hsafe : AppendSafe document calls s (.restore entries) := by
      intro logged v h
      rw [hlatest] at h
      cases h
    simp only [leaves_bind, clearRoles, activate, leaves_call, leaves_modify, leaves_pure]
    refine ⟨fun _ _ ↦ ⟨rfl, iff_of_true rfl hsafe⟩, fun _ _ ↦ ?_⟩
    exact ⟨hs, iff_of_true hroles hsafe⟩
  · rename_i logged hlatest
    simp only [leaves_bind, evaluate, replaceRoles, appendState, activate, leaves_ite, leaves_call,
      leaves_modify, leaves_pure]
    refine ⟨fun v hv ↦ ⟨fun _ hreplace ↦ ⟨fun hne ↦ ⟨fun _ happend ↦ ?_, fun e happend ↦ ?_⟩,
      fun heq ↦ ?_⟩, fun e hreplace ↦ ?_⟩, fun e hv ↦ ?_⟩
    · refine ⟨⟨v.preset, (validated_inv hv).2.1, rfl⟩, iff_of_true rfl fun _ _ _ _ _ _ hfails ↦ ?_⟩
      exact absurd happend hfails
    · refine ⟨hs.of_unmoved ⟨rfl, rfl, rfl⟩, ?_⟩
      have hfails : calls.appendState ≠ .ok () := by
        rw [happend]
        simp
      constructor
      · intro heq logged' v' hlatest' hv' _ _ _
        rw [hlatest] at hlatest'
        obtain rfl := Option.some.inj (PresetState.mk.inj (Option.some.inj hlatest'))
        rw [hv] at hv'
        rw [← Except.ok.inj hv']
        exact heq.symm
      · intro hsafe
        exact (hsafe logged v hlatest hv (by simpa using hne) hreplace hfails).symm
    · refine ⟨⟨v.preset, (validated_inv hv).2.1, rfl⟩, iff_of_true rfl ?_⟩
      intro logged' v' hlatest' hv' hne' _ _
      rw [hlatest] at hlatest'
      obtain rfl := Option.some.inj (PresetState.mk.inj (Option.some.inj hlatest'))
      rw [hv] at hv'
      rw [← Except.ok.inj hv'] at hne'
      simp [hne'] at heq
    · refine ⟨hs, iff_of_true hroles fun _ _ _ _ _ hok ↦ ?_⟩
      rw [hreplace] at hok
      cases hok
    · refine ⟨hs, iff_of_true hroles fun logged' v' hlatest' hv' ↦ ?_⟩
      rw [hlatest] at hlatest'
      obtain rfl := Option.some.inj (PresetState.mk.inj (Option.some.inj hlatest'))
      rw [hv] at hv'
      cases hv'

/-- The step lemma. -/
theorem stepped (operation : Operation) :
    Stepped document calls s operation (after (operation.run document calls) s) := by
  apply Leaves.after
  cases operation with
  | apply name => exact stepped_applyUnlocked hs hroles hback trivial
  | reset => exact stepped_reset hs hroles
  | initializeNewSession entries =>
      simp only [Operation.run, Box.initializeNewSession, leaves_discard, leaves_bind, leaves_ite,
        leaves_pure]
      refine ⟨fun _ ↦ ⟨hs, iff_of_true hroles trivial⟩, fun _ ↦ ?_⟩
      exact stepped_applyUnlocked hs hroles hback trivial
  | restore entries =>
      simp only [Operation.run, leaves_discard]
      exact stepped_restore hs hroles entries

end Step

/-! ## The queue of operations -/

/-- The operations that wait for their turn, and the session they run in. -/
structure Extension (Model : Type) where
  pending : List Operation
  session : PresetSession Model

inductive ExtensionEvent (Model : Type) where
  | request (operation : Operation)
  | run (calls : RuntimeCalls Model)

/-- `exclusive`: one operation after the other, in the order of the requests. -/
inductive ExtensionStep (document : ParsedPresetDocument) :
    Extension Model → ExtensionEvent Model → Extension Model → Prop
  | request (pending : List Operation) (s : PresetSession Model) (operation : Operation) :
      ExtensionStep document ⟨pending, s⟩ (.request operation) ⟨pending ++ [operation], s⟩
  | run (operation : Operation) (rest : List Operation) (s : PresetSession Model)
      (calls : RuntimeCalls Model) :
      ExtensionStep document ⟨operation :: rest, s⟩ (.run calls)
        ⟨rest, after (operation.run document calls) s⟩

/-- A controller as it is created, over a runtime without overrides. -/
def Fresh (s : PresetSession Model) : Prop :=
  s.activePreset = none ∧ s.activeRoles = none ∧ s.roles = none

def extension (document : ParsedPresetDocument) :
    System (Extension Model) (ExtensionEvent Model) where
  start x := x.pending = [] ∧ Fresh x.session
  next := ExtensionStep document

theorem reaches_perform {meets : Extension Model → ExtensionEvent Model → Prop}
    (operation : Operation) (calls : RuntimeCalls Model)
    (h : (extension document).Reaches meets ⟨[], s⟩) (hrequest : meets ⟨[], s⟩ (.request operation))
    (hrun : meets ⟨[operation], s⟩ (.run calls)) :
    (extension document).Reaches meets ⟨[], after (operation.run document calls) s⟩ :=
  (h.snoc hrequest (.request [] s operation)).snoc hrun (.run operation [] s calls)

/-- The compensating calls go through. -/
def Compensates : Extension Model → ExtensionEvent Model → Prop
  | _, .request _ => True
  | _, .run calls => calls.restoreRoles = .ok ()

/-- Besides, the next operation is safe when its log append fails. -/
def SafeStep (document : ParsedPresetDocument) (x : Extension Model) (e : ExtensionEvent Model) :
    Prop :=
  Compensates x e ∧ ∀ calls operation rest, e = .run calls → x.pending = operation :: rest →
    AppendSafe document calls x.session operation

theorem Fresh.remembers (h : Fresh s) : Remembers document s := by
  unfold Remembers
  rw [h.1]
  exact h.2.1

/-- One preset whose roles all use the same model, and an alias of it. -/
def dailyPresets : ParsedPresetDocument where
  defaultPreset := "daily"
  aliases := [("usual", "daily")]
  presets := [("daily",
    ⟨OMP_MODEL_ROLE_IDS.map fun role ↦ (role, ⟨"anthropic/opus:high", "anthropic/opus", some "high"⟩),
      OMP_MODEL_ROLE_IDS.map fun role ↦ (role, "anthropic/opus:high")⟩)]
  retry := none

def workingCalls : RuntimeCalls Unit where
  resolveModel _ _ := .ok (some ⟨(), none⟩)
  currentModel := .ok ()
  currentThinking := .ok ()
  replaceRoles := .ok ()
  clearRoles := .ok ()
  setModel := .ok true
  setThinking := .ok ()
  appendState := .ok ()
  restoreRoles := .ok ()
  restoreModel := .ok true
  restoreThinking := .ok ()

def fullDisk : RuntimeCalls Unit :=
  { workingCalls with appendState := .error (.error "ENOSPC") }

def newSession : PresetSession Unit := ⟨none, none, none, (), "off", []⟩

/-- The session once the default preset is applied. -/
def dailySession : PresetSession Unit :=
  after ((Operation.apply "daily").run dailyPresets workingCalls) newSession

theorem safe_remembers {x : Extension Model}
    (h : (extension document).Reaches (SafeStep document) x) :
    Remembers document x.session ∧ x.session.roles = x.session.activeRoles := by
  apply h.invariant (I := fun x ↦ Remembers document x.session ∧
    x.session.roles = x.session.activeRoles)
  · intro x hx
    exact ⟨hx.2.remembers, hx.2.2.2.trans hx.2.2.1.symm⟩
  · intro x e x' hx hmeets hnext
    cases hnext with
    | request pending s operation => exact hx
    | run operation rest s calls =>
        have hstep := stepped hx.1 hx.2 hmeets.1 operation
        exact ⟨hstep.remembers, hstep.agrees.mpr (hmeets.2 calls operation rest rfl rfl)⟩

/-- In a run whose steps are safe the status agrees with the runtime, and the
next operation keeps the agreement exactly when it is safe. -/
theorem status_agrees_iff_safe {x : Extension Model}
    (h : (extension document).Reaches (SafeStep document) x) :
    StatusAgrees document x.session ∧
      ∀ (calls : RuntimeCalls Model) operation, calls.restoreRoles = .ok () →
        (StatusAgrees document (after (operation.run document calls) x.session) ↔
          AppendSafe document calls x.session operation) := by
  obtain ⟨hs, hroles⟩ := safe_remembers h
  refine ⟨hs.agrees_iff.mpr hroles, fun calls operation hback ↦ ?_⟩
  have hstep := stepped hs hroles hback operation
  exact hstep.remembers.agrees_iff.trans hstep.agrees

theorem newSession_reached {meets : Extension Unit → ExtensionEvent Unit → Prop} :
    (extension dailyPresets).Reaches meets ⟨[], newSession⟩ :=
  .of_start ⟨rfl, rfl, rfl, rfl⟩

/-- A reset whose log append fails has cleared the roles, and the status still
names the preset. -/
theorem failedReset_disagrees :
    ∃ x : Extension Unit, (extension dailyPresets).Reaches Compensates x ∧
      ¬ StatusAgrees dailyPresets x.session := by
  have hdaily : (extension dailyPresets).Reaches Compensates ⟨[], dailySession⟩ :=
    reaches_perform (.apply "daily") workingCalls newSession_reached trivial rfl
  refine ⟨_, reaches_perform .reset fullDisk hdaily trivial rfl, ?_⟩
  rintro ⟨preset, _, hroles⟩
  cases hroles

theorem dailySession_agrees : StatusAgrees dailyPresets dailySession ∧
    ∀ (calls : RuntimeCalls Unit) operation, calls.restoreRoles = .ok () →
      (StatusAgrees dailyPresets (after (operation.run dailyPresets calls) dailySession) ↔
        AppendSafe dailyPresets calls dailySession operation) := by
  have hdaily : (extension dailyPresets).Reaches (SafeStep dailyPresets) ⟨[], dailySession⟩ := by
    apply reaches_perform (.apply "daily") workingCalls newSession_reached
    · refine ⟨trivial, fun calls operation rest hrun ↦ ?_⟩
      cases hrun
    · refine ⟨rfl, fun calls operation rest _ hpending ↦ ?_⟩
      obtain ⟨rfl, rfl⟩ := List.cons.inj hpending
      trivial
  exact status_agrees_iff_safe hdaily

end

end RemoteDevbox.Box
