import Mathlib.Data.List.Basic

namespace RemoteDevbox.Box

/-!
# The heavy-command gate: how large one job gets

The gate reads a job's ceiling from its environment and runs the command in a
transient scope that carries it.
-/

/-- The assignments a process's environment was built from, in order. -/
abbrev Environment := List (String × String)

namespace Environment

/-- The value of a variable: the last assignment to it holds. -/
def value : Environment → String → Option String
  | [], _ => none
  | (k, v) :: rest, name => (value rest name).or (if k = name then some v else none)

/-- `${name:-word}`: an empty value counts as none. -/
def orWord (env : Environment) (name word : String) : String :=
  match env.value name with
  | some v => if v = "" then word else v
  | none => word

/-- `${name-word}`: only a missing value is replaced. -/
def orMissing (env : Environment) (name word : String) : String := (env.value name).getD word

theorem value_append (env rest : Environment) (name : String) :
    value (env ++ rest) name = (value rest name).or (value env name) := by
  induction env with
  | nil => simp [value]
  | cons p env ih => rw [List.cons_append, value, ih, value, Option.or_assoc]

theorem value_eq_none {env : Environment} {name : String} (h : ∀ p ∈ env, p.1 ≠ name) :
    env.value name = none := by
  induction env with
  | nil => rfl
  | cons p env ih =>
      rw [value, ih fun q hq ↦ h q (List.mem_cons_of_mem p hq), if_neg (h p (by simp))]
      rfl

end Environment

/-- `[[ ",$categories," == *",$category,"* ]]` -/
def categoryEnabled (env : Environment) (category : String) : Bool :=
  let switched := env.orMissing "DEVBOX_HEAVY_JOB_CATEGORIES" "build,typecheck,generate,test"
  ("," ++ switched ++ ",").toList.tails.any ("," ++ category ++ ",").toList.isPrefixOf

/-- `${heavy_category^^}`. -/
def upper (s : String) : String := String.ofList (s.toList.map Char.toUpper)

def categoryLimitVar (heavyCategory : String) : String :=
  "DEVBOX_HEAVY_JOB_MEMORY_MAX_" ++ upper heavyCategory

/-- The ceiling of a job, empty where the caller opted out with `infinity`. -/
def memoryMax (env : Environment) (heavyCategory : String) : String :=
  let overall := env.orWord "DEVBOX_HEAVY_JOB_MEMORY_MAX" "8G"
  let memory := env.orWord (categoryLimitVar heavyCategory) overall
  if memory = "infinity" then "" else memory

structure Scope where
  slice : String
  memoryMax : String
  memorySwapMax : String
  oomPolicy : String
deriving DecidableEq

def heavySlice : String := "devbox_heavy.slice"

/-- There is a ceiling to set and a user manager to set it. -/
def scopeAvailable (manager : Bool) (memory : String) : Bool := memory != "" && manager

/-- The scope a job of the category runs in; without one it runs bare, and so does every job of
a category that is switched off. -/
def launch (manager : Bool) (env : Environment) (heavyCategory : String) : Option Scope :=
  let memory := memoryMax env heavyCategory
  if categoryEnabled env heavyCategory && scopeAvailable manager memory then
    some ⟨heavySlice, memory, "0", "continue"⟩
  else none

/-- The `MemoryMax` a job of the category is held to. -/
def appliedCeiling (manager : Bool) (env : Environment) (heavyCategory : String) :
    Option String :=
  (launch manager env heavyCategory).map Scope.memoryMax

theorem appliedCeiling_eq {env : Environment} {heavyCategory : String}
    (h : categoryEnabled env heavyCategory = true) :
    appliedCeiling true env heavyCategory =
      if memoryMax env heavyCategory = "" then none else some (memoryMax env heavyCategory) := by
  by_cases hempty : memoryMax env heavyCategory = "" <;>
    simp [appliedCeiling, launch, scopeAvailable, h, hempty]

theorem appliedCeiling_off {env : Environment} {heavyCategory : String} (manager : Bool)
    (h : categoryEnabled env heavyCategory = false) :
    appliedCeiling manager env heavyCategory = none := by
  rw [appliedCeiling, launch, h]
  rfl

end RemoteDevbox.Box
