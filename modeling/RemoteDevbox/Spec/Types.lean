import RemoteDevbox.Lib.Js.Text
import RemoteDevbox.Lib.Js.Value

namespace RemoteDevbox.Spec

open Js

/-!
# Constants and name patterns of the configuration
-/

def CONFIG_VERSION : Number := .ofInt 3

def SUPPORTED_PLATFORM : List (String × String) :=
  [("distribution", "ubuntu"), ("version", "26.04"), ("architecture", "amd64")]

def MONITORING_ACCESS : List String := ["tunnel", "tailnet", "unsafe-public"]

def CLI_TARGETS : List String := ["darwin-arm64", "darwin-x64", "linux-x64", "linux-arm64"]

def DEFAULT_CLI_TARGETS : List String := ["darwin-arm64", "darwin-x64", "linux-x64"]

def OMP_MODEL_ROLE_IDS : List String :=
  ["default", "smol", "slow", "vision", "plan", "designer", "commit", "tiny", "task", "advisor"]

def OMP_THINKING_LEVELS : List String :=
  ["inherit", "off", "minimal", "low", "medium", "high", "xhigh", "max"]

def OMP_MODEL_PRESETS_OMP_VERSION : String := "18.4.4"

def PRESET_RESERVED_NAMES : List String := ["status", "list", "show", "reset"]

def SLICE_RESOURCE_KEYS : List String :=
  ["memory_high", "memory_max", "memory_swap_max", "cpu_weight", "io_weight", "tasks_max"]

def SERVICE_RESOURCE_KEYS : List String :=
  SLICE_RESOURCE_KEYS ++ ["nice", "oom_score_adjust", "cpu_quota", "oom_policy"]

def ENGINES : List String := ["podman-rootless", "docker-rootless", "none"]

def SSH_ACCESS : List String := ["public", "tailnet"]

def PROVIDERS : List String := ["claude", "codex", "omp"]

def VERSIONED_PROVIDERS : List String := ["omp"]

def ORCA_FIELDS : List String :=
  ["enabled", "relay", "version", "port", "pairing_address", "resources"]

def DESKTOP_ACCESS : List String := ["tunnel", "tailnet", "unsafe-public"]

def RC_SPAWNS : List String := ["worktree", "same-dir", "session"]

def RESERVED_PROFILE_NAMES : List String :=
  ["claude", "codex", "omp", "mise", "git", "node", "bun"]

def SYNC_ENGINES : List String := ["mutagen", "syncthing"]

def HEAVY_JOB_CATEGORIES : List String := ["build", "typecheck", "generate", "test"]

def listed (names : List String) : String := ", ".intercalate names

section Patterns

open Regex

def nameHead (c : Char) : Bool := isLower c || c == '_'

def nameTail (c : Char) : Bool := isLower c || isDigit c || c == '_' || c == '-'

def wordChar (c : Char) : Bool := isAlnum c || c == '.' || c == '_' || c == '-'

/-- `^[a-z_][a-z0-9_-]*$` -/
def USERNAME_RE : Regex := seq (cls nameHead) (star (cls nameTail))

/-- `^[A-Za-z0-9._-]+$` -/
def PROJECT_NAME_RE : Regex := plus (cls wordChar)

def PROFILE_NAME_RE : Regex := plus (cls wordChar)

def MOUNT_LABEL_RE : Regex := plus (cls wordChar)

/-- `^[a-z0-9_+-]+$` -/
def XKB_NAME_RE : Regex :=
  plus (cls fun c ↦ isLower c || isDigit c || c == '_' || c == '+' || c == '-')

/-- `^[a-z][a-z0-9-]*$` -/
def OMP_PRESET_NAME_RE : Regex :=
  seq (cls isLower) (star (cls fun c ↦ isLower c || isDigit c || c == '-'))

/-- `^\d+\.\d+\.\d+(?:-[0-9A-Za-z.-]+)?$` -/
def EXACT_AGENT_VERSION_RE : Regex :=
  let number := plus (cls isDigit)
  seq number (seq (chr '.') (seq number (seq (chr '.') (seq number
    (opt (seq (chr '-') (plus (cls fun c ↦ isAlnum c || c == '.' || c == '-'))))))))

/-- `^[A-Za-z0-9][A-Za-z0-9_.-]*$` -/
def CONTAINER_NAME_RE : Regex := seq (cls isAlnum) (star (cls wordChar))

/-- `^(sk-)?(ssh-(ed25519|rsa|dss)|ecdsa-sha2-nistp\d+)(-cert-v01)?(@openssh\.com)?`
and then `\s+[A-Za-z0-9+/=]+`, open at the end. -/
def SSH_KEY_RE : Regex :=
  let word (s : String) := lit s.toList
  let kind := alt
    (seq (word "ssh-") (oneOf [word "ed25519", word "rsa", word "dss"]))
    (seq (word "ecdsa-sha2-nistp") (plus (cls isDigit)))
  seq (opt (word "sk-")) (seq kind (seq (opt (word "-cert-v01"))
    (seq (opt (word "@openssh.com")) (seq (plus (cls Text.isSpace))
      (seq (plus (cls fun c ↦ isAlnum c || c == '+' || c == '/' || c == '=')) any)))))

def sizeUnit : Regex := cls fun c ↦ c == 'K' || c == 'M' || c == 'G' || c == 'T'

/-- `^\d+[KMGT]?$` -/
def SWAP_SIZE_RE : Regex := seq (plus (cls isDigit)) (opt sizeUnit)

/-- `^\d+([KMGT]|%)?$` -/
def TMP_SIZE_RE : Regex := seq (plus (cls isDigit)) (opt (alt sizeUnit (chr '%')))

/-- `^\d{1,3}%$` -/
def PRESSURE_LIMIT_RE : Regex :=
  seq (cls isDigit) (seq (opt (cls isDigit)) (seq (opt (cls isDigit)) (chr '%')))

/-- `^[0-7]{3,4}$` -/
def UMASK_RE : Regex :=
  let octal := cls fun c ↦ '0' ≤ c && c ≤ '7'
  seq octal (seq octal (seq octal (opt octal)))

/-- `^(\d+%|)$` -/
def CPU_QUOTA_RE : Regex := opt (seq (plus (cls isDigit)) (chr '%'))

/-- `^(\d+)([KMGT]?)(?:B)?$` -/
def DIRECT_SIZE_RE : Regex :=
  seq (plus (cls isDigit)) (seq (opt sizeUnit) (opt (chr 'B')))

/-- `^(?:[1-9]\d?|100)%$` -/
def PERCENT_RE : Regex :=
  seq (alt (seq (cls fun c ↦ '1' ≤ c && c ≤ '9') (opt (cls isDigit))) (lit ['1', '0', '0']))
    (chr '%')

end Patterns

/-! ## Memory limits -/

/-- The canonical form drops the optional `B`. -/
def canonicalMemorySize (value : String) : Option String :=
  if value == "" || Text.test PERCENT_RE value then some value
  else if Text.test DIRECT_SIZE_RE value then
    some (String.ofList (value.toList.filter (· != 'B')))
  else none

def endsWithPercent (value : String) : Bool := value.toList.getLast? == some '%'

/-- The test of a size that is neither relative nor empty. -/
def isAbsoluteSize (v : Val) : Bool :=
  match v with
  | .str s =>
      match canonicalMemorySize s with
      | some canonical => canonical != "" && !endsWithPercent canonical
      | none => false
  | _ => false

def isDirectSize (v : Val) : Bool :=
  match v with
  | .str s => (canonicalMemorySize s).isSome
  | _ => false

def isMemoryWeight (v : Val) : Bool :=
  match v with
  | .obj [(k, .num n)] => k == "weight" && n.isInteger && (Number.ofInt 0).lt n
  | _ => false

/-- `canonicalMemorySize(value) ?? value`, as the generator applies it. -/
def canonicalOrSame (v : Val) : Val :=
  match v with
  | .str s => .str ((canonicalMemorySize s).getD s)
  | v => v

/-- `canonicalMemorySize(value)!`. -/
def canonicalOrNull (v : Val) : Val :=
  match v with
  | .str s =>
      match canonicalMemorySize s with
      | some canonical => .str canonical
      | none => .null
  | _ => .null

def formatMemoryLimit (v : Val) : Js String :=
  match v with
  | .str s => .ok ((canonicalMemorySize s).getD s)
  | v => do (← v.read "weight").toStr

/-! ## Shapes shared by the checks -/

def isNonEmptyString (v : Val) : Bool :=
  match v with
  | .str s => Text.nonBlank s
  | _ => false

def isSshPublicKey (v : Val) : Bool :=
  match v with
  | .str s => Text.test SSH_KEY_RE (Text.trim s)
  | _ => false

/-- `typeof v === "string" && re.test(v)`. -/
def matchesRe (re : Regex) (v : Val) : Bool :=
  match v with
  | .str s => Text.test re s
  | _ => false

/-- `typeof v === "number" && Number.isInteger(v) && lo <= v && v <= hi`. -/
def isIntegerIn (lo hi : ℤ) (v : Val) : Bool :=
  match v with
  | .num n => n.isInteger && (Number.ofInt lo).le n && n.le (Number.ofInt hi)
  | _ => false

/-- `typeof v === "number" && Number.isInteger(v) && v >= lo`. -/
def isIntegerFrom (lo : ℤ) (v : Val) : Bool :=
  match v with
  | .num n => n.isInteger && (Number.ofInt lo).le n
  | _ => false

/-- `typeof v === "number" && Number.isInteger(v) && v > 0`. -/
def isPositiveInteger (v : Val) : Bool :=
  match v with
  | .num n => n.isInteger && (Number.ofInt 0).lt n
  | _ => false

def isPort (v : Val) : Bool := isIntegerIn 1 65535 v

theorem isPort_iff {v : Val} :
    isPort v = true ↔ ∃ n : ℤ, v = .num (.ofInt n) ∧ 1 ≤ n ∧ n ≤ 65535 := by
  cases v with
  | num n =>
      simp only [isPort, isIntegerIn, Bool.and_eq_true, Number.isInteger_iff, Val.num.injEq]
      constructor
      · rintro ⟨⟨⟨z, rfl⟩, hlo⟩, hhi⟩
        exact ⟨z, rfl, by simpa [Number.le_ofInt] using hlo, by simpa [Number.le_ofInt] using hhi⟩
      · rintro ⟨z, rfl, hlo, hhi⟩
        exact ⟨⟨⟨z, rfl⟩, by simpa [Number.le_ofInt] using hlo⟩, by simpa [Number.le_ofInt] using hhi⟩
  | _ => simp [isPort, isIntegerIn]

def isOneOf (names : List String) (v : Val) : Bool :=
  match v with
  | .str s => names.contains s
  | _ => false

end RemoteDevbox.Spec
