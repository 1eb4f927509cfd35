import RemoteDevbox.Spec.Issues
import RemoteDevbox.Spec.Types

namespace RemoteDevbox.Spec

open Js

/-!
# Checks shared by several sections
-/

/-- A field that may be absent and is otherwise constrained. -/
def optional (v : Val) (good : Bool) (path message : String) : Check :=
  .when (!v.isUndef && !good) (.fail path message)

/-- A field that may be absent and whose text must otherwise be listed. -/
def optionalNamed (v : Val) (names : List String) (path message : String) : Check :=
  .when (!v.isUndef) (.eval v.toStr fun s ↦ .when (!names.contains s) (.fail path message))

@[simp] theorem passes_optional {v : Val} {good : Bool} {path message : String} :
    (optional v good path message).Passes ↔ v = .undef ∨ good = true := by
  have hv : v.isUndef = true ↔ v = .undef := by cases v <;> simp [Val.isUndef]
  simp only [optional, Check.passes_when, Bool.and_eq_true, Bool.not_eq_true',
    Check.not_passes_fail, imp_false, not_and, Bool.not_eq_false]
  rw [← hv]
  cases v.isUndef <;> simp

@[simp] theorem passes_optionalNamed {v : Val} {names : List String} {path message : String} :
    (optionalNamed v names path message).Passes ↔
      v = .undef ∨ ∃ s, v.toStr = .ok s ∧ s ∈ names := by
  have hv : v.isUndef = true ↔ v = .undef := by cases v <;> simp [Val.isUndef]
  simp only [optionalNamed, Check.passes_when, Check.passes_eval, Bool.not_eq_true',
    Check.not_passes_fail, imp_false, Bool.not_eq_false, List.contains_eq_mem, decide_eq_true_eq]
  rw [← hv]
  cases v.isUndef <;> simp

theorem str_of_isOneOf {names : List String} {v : Val} (h : isOneOf names v = true) :
    ∃ s, v = .str s ∧ s ∈ names := by
  cases v with
  | str s => exact ⟨s, rfl, by simpa [isOneOf] using h⟩
  | _ => cases h

def knownFields (v : Val) (allowed : List String) (path message : String) : Check :=
  .each v.ownFields fun p ↦
    .when (!allowed.contains p.1) (.fail s!"{path}.{p.1}" message)

def validatePositiveInts (raw : Val) (base : String) (keys : List String) : Check :=
  .each keys fun k ↦
    optional (raw.get k) (isPositiveInteger (raw.get k)) s!"{base}.{k}" "must be a positive integer"

/-- `typeof a === "number" && typeof b === "number" && test(a, b)`. -/
def bothNumbers (a b : Val) (test : Number → Number → Bool) : Bool :=
  match a, b with
  | .num m, .num n => test m n
  | _, _ => false

/-- `access.map(String)`. -/
def texts : List Val → Js (List String)
  | [] => .ok []
  | x :: xs => do
      let s ← x.toStr
      let rest ← texts xs
      return s :: rest

/-- The values of a list whose text is not allowed. -/
def unknownValues (allowed : List String) (xs : List Val) (names : List String) : List Val :=
  (xs.zip names).filterMap fun p ↦ if allowed.contains p.2 then none else some p.1

def validateAccessList (access : Val) (path : String) (allowed : List String) : Check :=
  match access with
  | .undef => .pass
  | .arr (a :: as) =>
      .eval (texts (a :: as)) fun names ↦
        let unknown := unknownValues allowed (a :: as) names
        if !unknown.isEmpty then
          .failWith path do
            let shown ← Val.join ", " unknown
            return s!"unknown value(s) {shown} (have: {listed allowed})"
        else .when (!decide names.Nodup) (.fail path "lists the same access path twice")
  | _ => .fail path s!"must be a non-empty list of: {listed allowed}"

structure ResourceValidationOptions where
  allowMemoryHighWeight : Bool := false
  allowServiceKnobs : Bool := false

def validateResources (r : Val) (base : String) (options : ResourceValidationOptions) : Check :=
  .section? r base "must be a mapping" fun r ↦
    knownFields r (if options.allowServiceKnobs then SERVICE_RESOURCE_KEYS else SLICE_RESOURCE_KEYS)
      base "unknown resource field" ++
    .each ["memory_high", "memory_max", "memory_swap_max"] (fun k ↦
      optional (r.get k)
        (isDirectSize (r.get k) ||
          (k == "memory_high" && options.allowMemoryHighWeight && isMemoryWeight (r.get k)))
        s!"{base}.{k}" "must be a systemd size like '10G' (or '' for no limit)") ++
    .each ["cpu_weight", "io_weight", "tasks_max"] (fun k ↦
      optional (r.get k) (isPositiveInteger (r.get k)) s!"{base}.{k}" "must be a positive integer") ++
    .when options.allowServiceKnobs (
      optional (r.get "nice") (isIntegerIn (-20) 19 (r.get "nice"))
        s!"{base}.nice" "must be an integer in -20..19" ++
      optional (r.get "oom_score_adjust") (isIntegerIn (-1000) 1000 (r.get "oom_score_adjust"))
        s!"{base}.oom_score_adjust" "must be an integer in -1000..1000" ++
      optional (r.get "cpu_quota") (matchesRe CPU_QUOTA_RE (r.get "cpu_quota"))
        s!"{base}.cpu_quota" "must be a percentage like '300%' (or '' for no cap)" ++
      optional (r.get "oom_policy") (isOneOf ["continue", "stop", "kill"] (r.get "oom_policy"))
        s!"{base}.oom_policy" "must be one of 'continue', 'stop', 'kill'")

def validateBuildEnv (raw : Val) (base : String) : Check :=
  .section? raw base "must be a mapping of NAME -> value" fun raw ↦
    .each raw.ownFields fun p ↦
      .when (!p.2.isStr) (.fail s!"{base}.{p.1}" "must be a string")

end RemoteDevbox.Spec
