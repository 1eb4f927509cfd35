import RemoteDevbox.Box.Document

namespace RemoteDevbox.Box.Collect

open Js Document

/-!
# Collecting the health of a box

The doctor asks systemd about every unit and `ss` about the listeners, and sums
up what each probe answered. A probe that cannot be run answers nothing at all.
-/

structure CommandResult where
  stdout : String
  stderr : String
  exitCode : Option ℤ
  timedOut : Bool

/-- What the commands answer. The number tells the calls of one collection
apart; `none` where the command could not be run. -/
abbrev CommandRunner := ℕ → List String → Option CommandResult

def safeRun (run : CommandRunner) (call : ℕ) (argv : List String) : CommandResult :=
  (run call argv).getD ⟨"", "", none, false⟩

def worsen (current next : HealthStatus) : HealthStatus :=
  if STATUS_PRIORITY next > STATUS_PRIORITY current then next else current

/-! ## Units -/

/-- The name before the first `=` and the value behind it. -/
def property (line : String) : String × String :=
  let cs := line.toList
  (String.ofList (cs.takeWhile (· != '=')), String.ofList ((cs.dropWhile (· != '=')).drop 1))

def systemdProperties (output : String) : List (String × String) :=
  (((Text.split '\n' output).map Text.trim).filter (· != "")).map property

/-- The last line that names the property. -/
def propertyOf (state : List (String × String)) (name : String) : Option String :=
  state.reverse.lookup name

/-- What the collector has of one component. -/
structure Findings where
  status : HealthStatus
  reason : Option String
  observed : List String

def Findings.note (f : Findings) (next : HealthStatus) (reason observed : String) : Findings :=
  ⟨worsen f.status next, some reason, f.observed ++ [observed]⟩

/-- A finding that gives the reason only where the component ends up unknown. -/
def Findings.unknown (f : Findings) (reason observed : String) : Findings :=
  let status := worsen f.status .unknown
  ⟨status, if status = .unknown then some reason else f.reason, f.observed ++ [observed]⟩

def unitArgv (fact : HealthComponentFact) (unit : String) : List String :=
  let scope := if fact.unitScope = some .user then
    ["--user", "--machine=" ++ fact.profile.getD "undefined" ++ "@"] else []
  ["systemctl"] ++ scope ++ ["show", "--no-pager", "--property=LoadState", "--property=ActiveState",
    "--property=SubState", "--property=MainPID", unit]

def unitFindings (f : Findings) (unit : CommandResult) : Findings :=
  if unit.timedOut then f.note .unknown "probe_timeout" "systemd probe timed out"
  else if unit.exitCode ≠ some 0 then
    f.note .unknown (if unit.exitCode = none then "probe_unavailable" else "systemd_unavailable")
      "systemd state unavailable"
  else
    let state := systemdProperties unit.stdout
    let active := (propertyOf state "ActiveState").getD "unknown"
    let sub := (propertyOf state "SubState").getD "unknown"
    let pid := (propertyOf state "MainPID").getD "0"
    let observed := s!"{active}/{sub} pid {pid}"
    if propertyOf state "LoadState" ≠ some "loaded" then
      f.note .failed "unit_not_loaded" observed
    else if active = "activating" then f.note .recovering "unit_activating" observed
    else if active ≠ "active" then
      f.note .failed (if active = "failed" then "unit_failed" else "unit_inactive") observed
    else ⟨f.status, f.reason, f.observed ++ [observed]⟩

/-! ## Listeners -/

def protocol : ListenerFact → String
  | .tcp .. => "tcp"
  | .unix .. => "unix"

def process : ListenerFact → String
  | .tcp _ _ process _ => process
  | .unix _ process _ => process

def processMatch : ListenerFact → Option ProcessMatch
  | .tcp _ _ _ processMatch => processMatch
  | .unix _ _ processMatch => processMatch

def location : ListenerFact → String
  | .tcp address port .. => s!"{address}:{port.toStr}"
  | .unix path .. => path

def expectedListener (listener : ListenerFact) : String :=
  s!"{location listener} owned by {process listener}"

def listenerLine (listener : ListenerFact) (evidence : String) : Option String :=
  (Text.split '\n' evidence).find? fun line ↦ Text.includes line (location listener)

/-- How far the scan for a quoted name has come. -/
inductive Scan where
  | outside
  | opened
  | name (read : List Char)

/-- The names in the matches of `\("([^"]+)"`, from left to right. -/
def quotedNames : Scan → List Char → List String
  | _, [] => []
  | .outside, c :: cs => quotedNames (if c = '(' then .opened else .outside) cs
  | .opened, c :: cs =>
      quotedNames (if c = '"' then .name [] else if c = '(' then .opened else .outside) cs
  | .name read, c :: cs =>
      if c ≠ '"' then quotedNames (.name (read ++ [c])) cs
      else if read = [] then quotedNames .outside cs
      else String.ofList read :: quotedNames .outside cs

def listenerOwnerMatches (listener : ListenerFact) (line : String) : Bool :=
  let names := quotedNames .outside line.toList
  if processMatch listener = some .leading then
    names.any fun name ↦ (process listener).toList.isPrefixOf name.toList
  else names.contains (process listener)

/-- The evidence of the listener's own protocol; `none` where `ss` was not asked. -/
def listenerFindings (tcpEvidence unixEvidence : Option CommandResult) (f : Findings)
    (listener : ListenerFact) : Findings :=
  match (match listener with | .tcp .. => tcpEvidence | .unix .. => unixEvidence) with
  | none => f.unknown "probe_timeout" s!"{protocol listener} listener evidence timed out"
  | some probe =>
      if probe.timedOut then
        f.unknown "probe_timeout" s!"{protocol listener} listener evidence timed out"
      else if probe.exitCode ≠ some 0 then
        f.unknown (if probe.exitCode = none then "probe_unavailable" else "permission_denied")
          s!"{protocol listener} listener evidence unavailable"
      else
        match (listenerLine listener probe.stdout).filter (· ≠ "") with
        | none => f.note .failed "listener_missing" s!"{protocol listener} listener missing"
        | some line =>
            if listenerOwnerMatches listener line then
              ⟨f.status, f.reason, f.observed ++ [s!"{process listener} owns {location listener}"]⟩
            else
              f.note .failed "listener_owner_mismatch"
                s!"{protocol listener} listener has a different owner"

/-! ## Components -/

/-- A text of the facts that is not empty. -/
def stated (s : Option String) : Option String := s.filter (· ≠ "")

def collectComponent (run : CommandRunner) (call : ℕ)
    (tcpEvidence unixEvidence : Option CommandResult) (fact : HealthComponentFact) : HealthResult :=
  let listeners := fact.listeners.getD []
  let expected := ((stated fact.unit).map fun unit ↦ s!"{unit} active").toList ++ listeners.map expectedListener
  let start : Findings := ⟨.healthy, none, []⟩
  let unit :=
    match stated fact.unit with
    | some unit => unitFindings start (safeRun run call (unitArgv fact unit))
    | none => start
  let findings := listeners.foldl (listenerFindings tcpEvidence unixEvidence) unit
  ⟨fact.id, stated fact.profile, findings.status, expected, findings.observed,
    stated findings.reason, fact.recovery⟩

def needs (protocolName : String) (facts : HealthFacts) : Bool :=
  facts.components.any fun component ↦
    (component.listeners.getD []).any fun listener ↦ protocol listener == protocolName

/-- The calls are counted in the order they are made: the two about listeners,
then one for each component. -/
def collectHostDocument (localeCompare : String → String → ℤ) (facts : HealthFacts)
    (run : CommandRunner) (now : Date) : HealthDocument :=
  let tcpEvidence := if needs "tcp" facts then some (safeRun run 0 ["ss", "-Hlnpt"]) else none
  let unixEvidence := if needs "unix" facts then some (safeRun run 1 ["ss", "-Hxlpn"]) else none
  let components := facts.components.zipIdx.map fun p ↦
    collectComponent run (p.2 + 2) tcpEvidence unixEvidence p.1
  createHealthDocument localeCompare (Date.toISOString now) components

/-! ## What is collected can be read -/

/-- The reason found so far, if there is one, is a word. -/
def Worded (f : Findings) : Prop := ∀ s, f.reason = some s → Text.test REASON_RE s = true

theorem worded_note {f : Findings} {next : HealthStatus} {reason observed : String}
    (h : Text.test REASON_RE reason = true) : Worded (f.note next reason observed) := by
  intro s hs
  obtain rfl := Option.some.inj hs
  exact h

theorem worded_unknown {f : Findings} {reason observed : String} (hf : Worded f)
    (h : Text.test REASON_RE reason = true) : Worded (f.unknown reason observed) := by
  intro s hs
  simp only [Findings.unknown] at hs
  split at hs
  · obtain rfl := Option.some.inj hs
    exact h
  · exact hf s hs

theorem worded_unit {f : Findings} (hf : Worded f) (unit : CommandResult) :
    Worded (unitFindings f unit) := by
  unfold unitFindings
  split
  · exact worded_note (by decide +kernel)
  split
  · apply worded_note
    split <;> decide +kernel
  dsimp only
  split
  · exact worded_note (by decide +kernel)
  split
  · exact worded_note (by decide +kernel)
  split
  · apply worded_note
    split <;> decide +kernel
  · exact hf

theorem worded_listener {tcpEvidence unixEvidence : Option CommandResult} {f : Findings}
    (hf : Worded f) (listener : ListenerFact) :
    Worded (listenerFindings tcpEvidence unixEvidence f listener) := by
  unfold listenerFindings
  generalize (match listener with | .tcp .. => tcpEvidence | .unix .. => unixEvidence) = evidence
  cases evidence with
  | none => exact worded_unknown hf (by decide +kernel)
  | some probe =>
      dsimp only
      split
      · exact worded_unknown hf (by decide +kernel)
      split
      · apply worded_unknown hf
        split <;> decide +kernel
      split
      · exact worded_note (by decide +kernel)
      split
      · exact hf
      · exact worded_note (by decide +kernel)

theorem worded_listeners {tcpEvidence unixEvidence : Option CommandResult} {f : Findings}
    (hf : Worded f) (listeners : List ListenerFact) :
    Worded (listeners.foldl (listenerFindings tcpEvidence unixEvidence) f) := by
  induction listeners generalizing f with
  | nil => exact hf
  | cons listener rest ih => exact ih (worded_listener hf listener)

theorem stated_eq_some {t : Option String} {s : String} (h : stated t = some s) : t = some s :=
  (Option.filter_eq_some_iff.mp h).1

theorem inForm_collect {fact : HealthComponentFact} (hnamed : Named fact) (run : CommandRunner)
    (call : ℕ) (tcpEvidence unixEvidence : Option CommandResult) :
    InForm (collectComponent run call tcpEvidence unixEvidence fact) := by
  have hstart : Worded ⟨.healthy, none, []⟩ := fun s hs ↦ by cases hs
  refine ⟨hnamed.1, fun s hs ↦ hnamed.2 s (stated_eq_some hs), fun s hs ↦ ?_⟩
  refine worded_listeners ?_ (fact.listeners.getD []) s (stated_eq_some hs)
  split
  · exact worded_unit hstart _
  · exact hstart

/-- A component keeps its id. -/
theorem ids_collect (run : CommandRunner) (tcpEvidence unixEvidence : Option CommandResult)
    (components : List HealthComponentFact) :
    (components.zipIdx.map fun p ↦
      collectComponent run (p.2 + 2) tcpEvidence unixEvidence p.1).map (·.id) =
        components.map (·.id) := by
  rw [List.map_map]
  have hid : ((·.id) ∘ fun p : HealthComponentFact × ℕ ↦
      collectComponent run (p.2 + 2) tcpEvidence unixEvidence p.1) = (·.id) ∘ Prod.fst := rfl
  rw [hid, ← List.map_map, List.zipIdx_map_fst]

/-- Whatever the probes answer, the reader accepts what was collected. -/
theorem sound_collect {localeCompare : String → String → ℤ} {other : String → Option ℤ}
    (hcompare : TotalPreorder localeCompare) {value : Val} {facts : HealthFacts}
    (hfacts : parseHealthFacts value = .ok facts) (run : CommandRunner) (now : Date) :
    Sound localeCompare other (collectHostDocument localeCompare facts run now) := by
  obtain ⟨hnamed, hnodup⟩ := parseHealthFacts_named hfacts
  refine sound_create hcompare ?_ ?_ ?_
  · rw [Date.parse_toISOString]
    rfl
  · intro r hr
    obtain ⟨p, hp, rfl⟩ := List.mem_map.mp hr
    exact inForm_collect (hnamed _ (List.fst_mem_of_mem_zipIdx hp)) run _ _ _
  · rw [ids_collect]
    exact hnodup

end RemoteDevbox.Box.Collect
