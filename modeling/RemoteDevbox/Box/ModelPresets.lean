import RemoteDevbox.Box.Facts
import RemoteDevbox.Lib.Js.Assign
import RemoteDevbox.Spec.Validate.Developers

namespace RemoteDevbox.Box

open Js Spec

/-!
# The model presets as the extension reads them
-/

structure ParsedRoleSelection where
  selector : String
  modelSelector : String
  thinking : Option String

structure ParsedPreset where
  roles : List (String × ParsedRoleSelection)
  selectors : List (String × String)

structure ParsedRetryPolicy where
  modelFallback : Bool
  usageAwareFallback : Bool
  usageReservePct : Val
  usageReservePolicy : Val
  fallbackRevertPolicy : Val
  fallbackChains : List (String × List String)

structure ParsedPresetDocument where
  defaultPreset : String
  aliases : List (String × String)
  presets : List (String × ParsedPreset)
  retry : Option ParsedRetryPolicy

/-- `if (!c) throw new Error(message)`. -/
def require (c : Bool) (message : String) : Js Unit :=
  if c then .ok () else fail message

@[simp] theorem require_eq_ok {c : Bool} {message : String} :
    require c message = .ok () ↔ c = true := by
  cases c <;> simp [require, fail]

def isNonEmptyRecord : Val → Bool
  | .obj fs => !fs.isEmpty
  | _ => false

/-- The text before and after the last colon, `value.lastIndexOf(":")`. -/
def atLastColon (s : String) : Option (String × String) :=
  match s.toList.reverse.dropWhile (· != ':') with
  | [] => none
  | _ :: before => some (String.ofList before.reverse,
      String.ofList (s.toList.reverse.takeWhile (· != ':')).reverse)

def parseSelection (path : String) (allowBare : Bool) (value : Val) : Js ParsedRoleSelection :=
  match value with
  | .str s =>
      if Text.trim s != s || s == "" then fail s!"{path} must be a non-empty model selector"
      else match atLastColon s with
      | none =>
          if allowBare then .ok ⟨s, s, none⟩
          else fail s!"{path} must end with a supported thinking level"
      | some (modelSelector, thinking) =>
          if modelSelector == "" || thinking == "" then
            fail s!"{path} must end with a supported thinking level"
          else if OMP_THINKING_LEVELS.contains thinking then .ok ⟨s, modelSelector, some thinking⟩
          else fail s!"{path} has unsupported thinking level '{thinking}'"
  | _ => fail s!"{path} must be a non-empty model selector"

/-- The keys of a mapping are among the given ones. -/
def knownKeys (fs : Fields) (known : List String) (message : String → String) : Js Unit :=
  match fs.keys.find? fun k ↦ !known.contains k with
  | some key => fail (message key)
  | none => .ok ()

def parseRole (name : String) (rawRoles : Val) (role : String) : Js (String × ParsedRoleSelection) :=
  do
    require (hasOwn rawRoles role) s!"preset '{name}' is missing role '{role}'"
    let parsed ← parseSelection s!"preset '{name}' role '{role}'" (role == "task")
      (rawRoles.get role)
    return (role, parsed)

def parsePreset (name : String) (rawRoles : Val) : Js ParsedPreset := do
  require (Text.test OMP_PRESET_NAME_RE name) s!"unsafe preset name '{name}'"
  require rawRoles.isRecord s!"preset '{name}' must be a role mapping"
  knownKeys rawRoles.ownFields OMP_MODEL_ROLE_IDS fun key ↦
    s!"preset '{name}' has unknown role '{key}'"
  let roles ← OMP_MODEL_ROLE_IDS.mapM (parseRole name rawRoles)
  return ⟨roles, roles.map fun p ↦ (p.1, p.2.selector)⟩

def parseAlias (presets : List (String × ParsedPreset)) (name : String) (target : Val) :
    Js String := do
  require (Text.test OMP_PRESET_NAME_RE name) s!"unsafe preset alias '{name}'"
  require (!PRESET_RESERVED_NAMES.contains name)
    s!"preset alias '{name}' is reserved by the /preset command"
  require (!(presets.map Prod.fst).contains name)
    s!"preset alias '{name}' collides with a canonical preset"
  match target with
  | .str t =>
      if (presets.map Prod.fst).contains t then return t
      else fail s!"preset alias '{name}' target '{t}' is not declared"
  | _ => do
      let text ← target.toStr
      fail s!"preset alias '{name}' target '{text}' is not declared"

/-- The fallbacks of one chain, behind those already read. -/
def parseFallbacks (selector : String) (fallbacks : List String) : List Val → Js (List String)
  | [] => .ok fallbacks
  | .str s :: rest =>
      if s == "" || Text.trim s != s || fallbacks.contains s then
        fail s!"retry.fallback_chains '{selector}' contains an invalid fallback selector"
      else parseFallbacks selector (fallbacks ++ [s]) rest
  | _ :: _ => fail s!"retry.fallback_chains '{selector}' contains an invalid fallback selector"

def parseChain (selector : String) (rawFallbacks : Val) : Js (List String) :=
  match rawFallbacks with
  | .arr (f :: fs) =>
      if selector == "" || Text.trim selector != selector then
        fail s!"retry.fallback_chains '{selector}' is invalid"
      else parseFallbacks selector [] (f :: fs)
  | _ => fail s!"retry.fallback_chains '{selector}' is invalid"

def RETRY_FIELDS : List String :=
  ["model_fallback", "usage_aware_fallback", "usage_reserve_pct", "usage_reserve_policy",
    "fallback_revert_policy", "fallback_chains"]

def parseBool (value : Val) (message : String) : Js Bool :=
  match value with
  | .bool b => .ok b
  | _ => fail message

def parseRetryFields (raw : Val) : Js ParsedRetryPolicy := do
  knownKeys raw.ownFields RETRY_FIELDS fun key ↦ s!"unknown OMP retry field '{key}'"
  let modelFallback ← parseBool (raw.get "model_fallback")
    "retry.model_fallback must be true or false"
  let usageAwareFallback ← parseBool (raw.get "usage_aware_fallback")
    "retry.usage_aware_fallback must be true or false"
  require (isIntegerIn 1 100 (raw.get "usage_reserve_pct"))
    "retry.usage_reserve_pct must be an integer in 1..100"
  let reserve ← (raw.get "usage_reserve_policy").toStr
  require ((["confirm", "auto", "fail-closed"] : List String).contains reserve)
    "retry.usage_reserve_policy is unsupported"
  let revert ← (raw.get "fallback_revert_policy").toStr
  require ((["cooldown-expiry", "never"] : List String).contains revert)
    "retry.fallback_revert_policy is unsupported"
  require (isNonEmptyRecord (raw.get "fallback_chains"))
    "retry.fallback_chains must be a non-empty mapping"
  let fallbackChains ← assignEach parseChain [] (raw.get "fallback_chains").ownFields
  return ⟨modelFallback, usageAwareFallback, raw.get "usage_reserve_pct",
    raw.get "usage_reserve_policy", raw.get "fallback_revert_policy", fallbackChains⟩

def parseRetryPolicy (raw : Val) : Js (Option ParsedRetryPolicy) :=
  match raw with
  | .undef => .ok none
  | .obj fs => do
      let policy ← parseRetryFields (.obj fs)
      return some policy
  | _ => fail "retry must be a mapping"

def parseAliases (presets : List (String × ParsedPreset)) (value : Val) :
    Js (List (String × String)) :=
  match value with
  | .undef => .ok []
  | .obj fs => assignEach (parseAlias presets) [] fs
  | _ => fail "aliases must be a mapping"

def parseDefault (value : Val) : Js String :=
  match value with
  | .str s => if Text.test OMP_PRESET_NAME_RE s then .ok s
      else fail "default_preset must be a safe preset name"
  | _ => fail "default_preset must be a safe preset name"

def DOCUMENT_FIELDS : List String := ["default_preset", "aliases", "presets", "retry"]

def parsePresetDocument (raw : Val) : Js ParsedPresetDocument := do
  require raw.isRecord "OMP model preset document must be a mapping"
  knownKeys raw.ownFields DOCUMENT_FIELDS fun key ↦ s!"unknown OMP model preset field '{key}'"
  let defaultPreset ← parseDefault (raw.get "default_preset")
  require (isNonEmptyRecord (raw.get "presets"))
    "presets must be a non-empty mapping"
  require (hasOwn (raw.get "presets") defaultPreset)
    s!"default preset '{defaultPreset}' is not declared"
  let presets ← assignEach parsePreset [] (raw.get "presets").ownFields
  let aliases ← parseAliases presets (raw.get "aliases")
  let retry ← parseRetryPolicy (raw.get "retry")
  return ⟨defaultPreset, aliases, presets, retry⟩

end RemoteDevbox.Box
