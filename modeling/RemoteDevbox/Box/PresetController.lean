import RemoteDevbox.Box.ModelPresets
import RemoteDevbox.Lib.Runs

namespace RemoteDevbox.Box

open Js Spec

/-!
# The preset controller

Every operation is a chain of runtime calls, each of which can throw. What the
calls of one operation do is given with the operation.
-/

abbrev OmpRoleSelectors := List (String × String)

structure ResolvedOmpModel (Model : Type) where
  model : Model
  supportedThinking : Option (List String)

/-! ## The session log -/

def PRESET_STATE_CUSTOM_TYPE : String := "omp-model-presets/state"

/-- `PresetState`, whose `version` is always 1. -/
structure PresetState where
  preset : Option String
  deriving DecidableEq

def parseState (value : Val) : Option PresetState :=
  if value.isRecord && (value.get "version").isNumLit (.ofInt 1) then
    match value.get "preset" with
    | .null => some ⟨none⟩
    | .str name => some ⟨some name⟩
    | _ => none
  else none

/-- The state one entry of a log carries, if it carries one. -/
def loggedState (entry : Val) : Option PresetState :=
  if (entry.get "customType").isStrLit PRESET_STATE_CUSTOM_TYPE then parseState (entry.get "data")
  else none

def latestPresetState (entries : List Val) : Option PresetState :=
  entries.reverse.findSome? loggedState

/-- The entry `appendEntry(PRESET_STATE_CUSTOM_TYPE, state)` adds. -/
def stateEntry (state : PresetState) : Val :=
  .obj [("customType", PRESET_STATE_CUSTOM_TYPE), ("data", .obj [("version", 1),
    ("preset", match state.preset with | none => .null | some name => .str name)])]

@[simp] theorem loggedState_stateEntry (state : PresetState) :
    loggedState (stateEntry state) = some state := by
  obtain ⟨preset⟩ := state
  cases preset <;> rfl

theorem latestPresetState_eq (entries : List Val) :
    latestPresetState entries = (entries.filterMap loggedState).getLast? := by
  induction entries using List.reverseRecOn with
  | nil => rfl
  | append_singleton entries entry ih =>
      rw [latestPresetState, List.reverse_append, List.filterMap_append]
      cases h : loggedState entry with
      | none => simp [h]
      | some state => simp [h]

/-! ## The controller beside its runtime -/

/-- `activePreset` and `activeRoles` are the controller's own variables, the
rest is what the runtime holds. -/
structure PresetSession (Model : Type) where
  activePreset : Option String
  activeRoles : Option OmpRoleSelectors
  roles : Option OmpRoleSelectors
  model : Model
  thinking : String
  entries : List Val

/-- What each runtime call of one operation does. -/
structure RuntimeCalls (Model : Type) where
  resolveModel : String → String → Js (Option (ResolvedOmpModel Model))
  currentModel : Js Unit
  currentThinking : Js Unit
  replaceRoles : Js Unit
  clearRoles : Js Unit
  setModel : Js Bool
  setThinking : Js Unit
  appendState : Js Unit
  restoreRoles : Js Unit
  restoreModel : Js Bool
  restoreThinking : Js Unit

abbrev Effect (Model : Type) := EStateM Thrown (PresetSession Model)

section Controller

variable {Model : Type}

/-- A call that throws leaves everything as it was. -/
def call {α : Type} (outcome : Js α) (effect : α → PresetSession Model → PresetSession Model) :
    Effect Model α := fun s ↦
  match outcome with
  | .ok a => .ok a (effect a s)
  | .error e => .error e s

/-- An evaluation without an effect. -/
def evaluate {α : Type} (x : Js α) : Effect Model α := call x fun _ s ↦ s

def replaceRoles (outcome : Js Unit) (roles : OmpRoleSelectors) : Effect Model Unit :=
  call outcome fun _ s ↦ { s with roles := some roles }

def clearRoles (outcome : Js Unit) : Effect Model Unit :=
  call outcome fun _ s ↦ { s with roles := none }

def setModel (outcome : Js Bool) (model : Model) : Effect Model Bool :=
  call outcome fun selected s ↦ { s with model := if selected then model else s.model }

def setThinking (outcome : Js Unit) (level : String) : Effect Model Unit :=
  call outcome fun _ s ↦ { s with thinking := level }

def appendState (outcome : Js Unit) (state : PresetState) : Effect Model Unit :=
  call outcome fun _ s ↦ { s with entries := s.entries ++ [stateEntry state] }

def activate (activePreset : Option String) (activeRoles : Option OmpRoleSelectors) :
    Effect Model Unit :=
  modify fun s ↦ { s with activePreset, activeRoles }

def errorMessage : Thrown → String
  | .typeError => "TypeError"
  | .error message => message

structure Validated (Model : Type) where
  name : String
  preset : ParsedPreset
  models : List (String × Model)

def canonicalName (document : ParsedPresetDocument) (name : String) : String :=
  (document.aliases.lookup name).getD name

/-- `record[role]`, which holds every role once it is built. -/
def entry {α : Type} (record : List (String × α)) (role : String) : Js α :=
  (record.lookup role).elim (.error .typeError) .ok

/-- The check of one role's selection against the model it resolves to. -/
def selectedModel (role : String) (selection : ParsedRoleSelection) :
    Option (ResolvedOmpModel Model) → Js Model
  | none => fail
      s!"model '{selection.modelSelector}' for role '{role}' is unavailable or unauthenticated"
  | some resolved =>
      match selection.thinking, resolved.supportedThinking with
      | some thinking, some supported =>
          if supported.contains thinking then .ok resolved.model
          else fail (s!"thinking level '{thinking}' is unsupported by " ++
            s!"'{selection.modelSelector}' for role '{role}'")
      | _, _ => .ok resolved.model

def validatedRole (calls : RuntimeCalls Model) (preset : ParsedPreset) (role : String) :
    Js (String × Model) := do
  let selection ← entry preset.roles role
  let resolved ← calls.resolveModel role selection.modelSelector
  let model ← selectedModel role selection resolved
  return (role, model)

/-- A name that objects inherit, such as `constructor`, is not a preset either:
the first role read from what it names throws. -/
def validated (document : ParsedPresetDocument) (calls : RuntimeCalls Model)
    (requestedName : String) : Js (Validated Model) :=
  let name := canonicalName document requestedName
  match document.presets.lookup name with
  | none => fail s!"unknown OMP model preset '{requestedName}'"
  | some preset => do
      let models ← OMP_MODEL_ROLE_IDS.mapM (validatedRole calls preset)
      return ⟨name, preset, models⟩

def restoreRoles (outcome : Js Unit) : Option OmpRoleSelectors → Effect Model Unit
  | some roles => replaceRoles outcome roles
  | none => clearRoles outcome

/-- `try { action } catch (e) { rollbackErrors.push(label + errorMessage(e)) }`. -/
def collect (label : String) (action : Effect Model (List String)) : Effect Model (List String) :=
  tryCatch action fun e ↦ pure [label ++ ": " ++ errorMessage e]

/-- The `try` block of `applyUnlocked`. -/
def switchTo (calls : RuntimeCalls Model) (v : Validated Model) : Effect Model Unit := do
  replaceRoles calls.replaceRoles v.preset.selectors
  let model ← evaluate (entry v.models "default")
  let selection ← evaluate (entry v.preset.roles "default")
  let selected ← setModel calls.setModel model
  evaluate (require selected s!"could not select model '{selection.modelSelector}'")
  let level ← evaluate
    (selection.thinking.elim (fail "default role must declare a thinking level") .ok)
  setThinking calls.setThinking level
  appendState calls.appendState ⟨some v.name⟩
  activate (some v.name) (some v.preset.selectors)

/-- The `catch` block of `applyUnlocked`, given what stood before. -/
def rollBack (calls : RuntimeCalls Model) (previous : PresetSession Model) (error : Thrown) :
    Effect Model Unit := do
  let roles ← collect "roles" do
    restoreRoles calls.restoreRoles previous.activeRoles
    return []
  let model ← collect "model" do
    let selected ← setModel calls.restoreModel previous.model
    return if selected then [] else ["model: previous model was rejected"]
  let thinking ← collect "thinking" do
    setThinking calls.restoreThinking previous.thinking
    return []
  activate previous.activePreset previous.activeRoles
  let rollbackErrors := roles ++ model ++ thinking
  let suffix := if rollbackErrors.isEmpty then ""
    else "; rollback failed (" ++ ", ".intercalate rollbackErrors ++ ")"
  throw (.error (errorMessage error ++ suffix))

def applyUnlocked (document : ParsedPresetDocument) (calls : RuntimeCalls Model)
    (requestedName : String) : Effect Model Unit := do
  let v ← evaluate (validated document calls requestedName)
  evaluate calls.currentModel
  evaluate calls.currentThinking
  let previous ← get
  tryCatch (switchTo calls v) (rollBack calls previous)

def reset (calls : RuntimeCalls Model) : Effect Model Unit := do
  clearRoles calls.clearRoles
  appendState calls.appendState ⟨none⟩
  activate none none

def initializeNewSession (document : ParsedPresetDocument) (calls : RuntimeCalls Model)
    (entries : List Val) : Effect Model Bool := do
  if (latestPresetState entries).isSome then return false
  applyUnlocked document calls document.defaultPreset
  return true

def restore (document : ParsedPresetDocument) (calls : RuntimeCalls Model) (entries : List Val) :
    Effect Model Bool := do
  match latestPresetState entries with
  | none => do
      let s ← get
      if s.activeRoles.isSome then clearRoles calls.clearRoles
      activate none none
      return false
  | some ⟨none⟩ => do
      clearRoles calls.clearRoles
      activate none none
      return true
  | some ⟨some logged⟩ => do
      let v ← evaluate (validated document calls logged)
      replaceRoles calls.replaceRoles v.preset.selectors
      if v.name != logged then appendState calls.appendState ⟨some v.name⟩
      activate (some v.name) (some v.preset.selectors)
      return true

inductive Operation where
  | apply (name : String)
  | reset
  | initializeNewSession (entries : List Val)
  | restore (entries : List Val)

def Operation.run (document : ParsedPresetDocument) (calls : RuntimeCalls Model) :
    Operation → Effect Model Unit
  | .apply name => applyUnlocked document calls name
  | .reset => Box.reset calls
  | .initializeNewSession entries => discard (Box.initializeNewSession document calls entries)
  | .restore entries => discard (Box.restore document calls entries)

end Controller

end RemoteDevbox.Box
