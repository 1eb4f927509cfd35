import RemoteDevbox.Box.PresetRuns

namespace RemoteDevbox.Box

open Js Spec

/-!
# An apply that fails

Whatever call of an apply fails, the compensation puts back what was captured
before the first effect. Of the roles that is what the controller remembers,
which need not be what is in force.
-/

section

variable {Model : Type} {document : ParsedPresetDocument} {calls : RuntimeCalls Model}
  {s t : PresetSession Model} {v : Validated Model} {name : String}

/-- The compensating calls succeed. -/
structure Undoes (calls : RuntimeCalls Model) : Prop where
  roles : calls.restoreRoles = .ok ()
  model : calls.restoreModel = .ok true
  thinking : calls.restoreThinking = .ok ()

/-- Nothing has changed yet when the apply fails. -/
def FailsEarly (document : ParsedPresetDocument) (calls : RuntimeCalls Model) (name : String) :
    Prop :=
  (∃ e, validated document calls name = .error e) ∨ (∃ e, calls.currentModel = .error e) ∨
    ∃ e, calls.currentThinking = .error e

/-- The calls that change the runtime all succeed. -/
structure Switches (calls : RuntimeCalls Model) : Prop where
  roles : calls.replaceRoles = .ok ()
  model : calls.setModel = .ok true
  thinking : calls.setThinking = .ok ()
  log : calls.appendState = .ok ()

/-- Some runtime call of the apply fails, before the first effect or after it. -/
def CallFails (document : ParsedPresetDocument) (calls : RuntimeCalls Model) (name : String) :
    Prop :=
  FailsEarly document calls name ∨ ¬Switches calls

theorem leaves_switchTo_fails (h : ¬Switches calls) :
    Leaves (switchTo calls v) s (fun _ _ ↦ False) fun _ ↦ Unmoved s := by
  simp only [switchTo, leaves_bind, evaluate, replaceRoles, setModel, setThinking, appendState,
    activate, leaves_call, leaves_modify]
  refine ⟨fun _ hroles ↦ ⟨fun _ _ ↦ ⟨fun _ _ ↦ ⟨fun selected hmodel ↦ ⟨fun _ hselected ↦
    ⟨fun _ _ ↦ ⟨fun _ hthinking ↦ ⟨fun _ hlog ↦ ?_, ?_⟩, ?_⟩, ?_⟩, ?_⟩, ?_⟩, ?_⟩, ?_⟩, ?_⟩
  · refine h ⟨hroles, ?_, hthinking, hlog⟩
    rw [hmodel, require_eq_ok.mp hselected]
  all_goals exact fun _ _ ↦ ⟨rfl, rfl, rfl⟩

/-- The compensation puts everything back but the log. -/
theorem leaves_rollBack_undoes (h : Undoes calls) {e : Thrown}
    {Q : Unit → PresetSession Model → Prop} :
    Leaves (rollBack calls s e) t Q fun _ s' ↦
      s' = { s with roles := s.activeRoles, entries := t.entries } := by
  simp only [rollBack, leaves_bind, collect, leaves_tryCatch, leaves_pure, leaves_restoreRoles,
    setModel, setThinking, activate, leaves_call, leaves_modify, leaves_throw, h.roles, h.model,
    h.thinking]
  simp

/-- What an apply leaves one of whose calls fails. -/
theorem leaves_failed_apply (hundo : Undoes calls) (hfails : CallFails document calls name) :
    Leaves (applyUnlocked document calls name) s (fun _ _ ↦ False) fun _ s' ↦
      (FailsEarly document calls name ∧ s' = s) ∨
        (¬FailsEarly document calls name ∧ s' = { s with roles := s.activeRoles }) := by
  simp only [applyUnlocked, leaves_bind, evaluate, leaves_call, leaves_get, leaves_tryCatch]
  refine ⟨fun v hv ↦ ⟨fun _ hmodel ↦ ⟨fun _ hthinking ↦ ?_, ?_⟩, ?_⟩, ?_⟩
  · have hlate : ¬FailsEarly document calls name := by
      rintro (⟨e, he⟩ | ⟨e, he⟩ | ⟨e, he⟩)
      · rw [hv] at he
        cases he
      · rw [hmodel] at he
        cases he
      · rw [hthinking] at he
        cases he
    have hswitch := hfails.resolve_left hlate
    refine (leaves_switchTo_fails hswitch).imp (fun _ _ h ↦ h.elim) fun e t ht ↦ ?_
    refine (leaves_rollBack_undoes hundo).imp (fun _ _ h ↦ h) fun e' s' hs' ↦ .inr ⟨hlate, ?_⟩
    rw [hs', ht.entries]
  · exact fun e he ↦ .inl ⟨.inr (.inr ⟨e, he⟩), by trivial⟩
  · exact fun e he ↦ .inl ⟨.inr (.inl ⟨e, he⟩), by trivial⟩
  · exact fun e he ↦ .inl ⟨.inl ⟨e, he⟩, by trivial⟩

/-- A failed apply throws and leaves everything as it was exactly where nothing
had changed yet or the controller remembers the roles in force. -/
theorem failed_apply_atomic_iff (hundo : Undoes calls) (hfails : CallFails document calls name) :
    (∃ e, applyUnlocked document calls name s = .error e s) ↔
      FailsEarly document calls name ∨ s.roles = s.activeRoles := by
  have hleaves := leaves_failed_apply (s := s) hundo hfails
  have hrestored : { s with roles := s.activeRoles } = s ↔ s.roles = s.activeRoles := by
    constructor
    · intro h
      exact (congrArg PresetSession.roles h).symm
    · intro h
      obtain ⟨activePreset, activeRoles, roles, model, thinking, entries⟩ := s
      obtain rfl : roles = activeRoles := h
      rfl
  cases hx : applyUnlocked document calls name s with
  | ok a t => exact (hleaves.of_ok hx).elim
  | error e t =>
      rcases hleaves.of_error hx with ⟨hearly, rfl⟩ | ⟨hlate, rfl⟩
      · exact iff_of_true ⟨e, rfl⟩ (.inl hearly)
      · rw [or_iff_right hlate, ← hrestored]
        constructor
        · rintro ⟨e', heq⟩
          exact (EStateM.Result.error.inj heq).2
        · intro heq
          exact ⟨e, by rw [heq]⟩

end

/-- The main model is rejected. -/
def rejectedModel : RuntimeCalls Unit := { workingCalls with setModel := .ok false }

theorem rejected_apply_atomic :
    (∃ e, applyUnlocked dailyPresets rejectedModel "usual" dailySession = .error e dailySession) ↔
      FailsEarly dailyPresets rejectedModel "usual" ∨ dailySession.roles = dailySession.activeRoles := by
  refine failed_apply_atomic_iff ⟨rfl, rfl, rfl⟩ (.inr fun h ↦ ?_)
  have hmodel := h.model
  cases hmodel

/-- The session once a reset has cleared the roles and could not log it. -/
def clearedSession : PresetSession Unit :=
  after (Operation.reset.run dailyPresets fullDisk) dailySession

/-- The failed apply puts roles in force that were not. -/
theorem cleared_apply_not_atomic :
    (extension dailyPresets).Reaches Compensates ⟨[], clearedSession⟩ ∧
      ¬∃ e, applyUnlocked dailyPresets rejectedModel "daily" clearedSession =
        .error e clearedSession := by
  refine ⟨?_, ?_⟩
  · have hdaily : (extension dailyPresets).Reaches Compensates ⟨[], dailySession⟩ :=
      reaches_perform (.apply "daily") workingCalls newSession_reached trivial rfl
    exact reaches_perform .reset fullDisk hdaily trivial rfl
  · rintro ⟨e, h⟩
    have hafter : after (applyUnlocked dailyPresets rejectedModel "daily") clearedSession =
        clearedSession := by
      rw [after, h]
    have hroles := congrArg PresetSession.roles hafter
    cases hroles

end RemoteDevbox.Box
