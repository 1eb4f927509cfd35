import RemoteDevbox.Box.Collect
import RemoteDevbox.Lib.Worst

namespace RemoteDevbox.Box.Collect

open Document

/-!
# What the probes of a component come to

Every probe has one outcome: a status, and the code of what is wrong. The
collector keeps the worst of them.
-/

/-- The outcome of a unit about which systemd answered. -/
def stateOutcome (state : List (String × String)) : Outcome HealthStatus String :=
  if propertyOf state "LoadState" ≠ some "loaded" then (.failed, some "unit_not_loaded")
  else
    match propertyOf state "ActiveState" with
    | some "active" => (.healthy, none)
    | some "activating" => (.recovering, some "unit_activating")
    | some "failed" => (.failed, some "unit_failed")
    | _ => (.failed, some "unit_inactive")

def unitOutcome (unit : CommandResult) : Outcome HealthStatus String :=
  if unit.timedOut then (.unknown, some "probe_timeout")
  else
    match unit.exitCode with
    | none => (.unknown, some "probe_unavailable")
    | some 0 => stateOutcome (systemdProperties unit.stdout)
    | some _ => (.unknown, some "systemd_unavailable")

/-- What the collector finds out about one listener. -/
inductive ListenerReport where
  | timedOut
  | unavailable
  | denied
  | missing
  | otherOwner
  | owned
  deriving DecidableEq

namespace ListenerReport

def outcome : ListenerReport → Outcome HealthStatus String
  | timedOut => (.unknown, some "probe_timeout")
  | unavailable => (.unknown, some "probe_unavailable")
  | denied => (.unknown, some "permission_denied")
  | missing => (.failed, some "listener_missing")
  | otherOwner => (.failed, some "listener_owner_mismatch")
  | owned => (.healthy, none)

def entry (listener : ListenerFact) : ListenerReport → String
  | timedOut => s!"{protocol listener} listener evidence timed out"
  | unavailable | denied => s!"{protocol listener} listener evidence unavailable"
  | missing => s!"{protocol listener} listener missing"
  | otherOwner => s!"{protocol listener} listener has a different owner"
  | owned => s!"{process listener} owns {location listener}"

/-- What a report adds to the findings. -/
def add (listener : ListenerFact) (report : ListenerReport) (f : Findings) : Findings :=
  match report with
  | timedOut => f.unknown "probe_timeout" (report.entry listener)
  | unavailable => f.unknown "probe_unavailable" (report.entry listener)
  | denied => f.unknown "permission_denied" (report.entry listener)
  | missing => f.note .failed "listener_missing" (report.entry listener)
  | otherOwner => f.note .failed "listener_owner_mismatch" (report.entry listener)
  | owned => ⟨f.status, f.reason, f.observed ++ [report.entry listener]⟩

end ListenerReport

/-- The evidence of the listener's own protocol. -/
def evidenceOf (tcpEvidence unixEvidence : Option CommandResult) :
    ListenerFact → Option CommandResult
  | .tcp .. => tcpEvidence
  | .unix .. => unixEvidence

/-- The first line that has the declared location somewhere in it decides. -/
def lineReport (listener : ListenerFact) (evidence : String) : ListenerReport :=
  match (listenerLine listener evidence).filter (· ≠ "") with
  | none => .missing
  | some line => if listenerOwnerMatches listener line then .owned else .otherOwner

def listenerReport (listener : ListenerFact) : Option CommandResult → ListenerReport
  | none => .timedOut
  | some probe =>
      if probe.timedOut then .timedOut
      else
        match probe.exitCode with
        | none => .unavailable
        | some 0 => lineReport listener probe.stdout
        | some _ => .denied

/-- The outcomes of all probes of a component: its unit, then its listeners. -/
def outcomes (run : CommandRunner) (call : ℕ) (tcpEvidence unixEvidence : Option CommandResult)
    (fact : HealthComponentFact) : List (Outcome HealthStatus String) :=
  ((stated fact.unit).map fun unit ↦
    unitOutcome (safeRun run call (unitArgv fact unit))).toList ++
  (fact.listeners.getD []).map fun listener ↦
    (listenerReport listener (evidenceOf tcpEvidence unixEvidence listener)).outcome

/-! ## One probe -/

def SumsUp (outcomes : List (Outcome HealthStatus String)) (f : Findings) : Prop :=
  Sums STATUS_PRIORITY .healthy outcomes f.status f.reason

variable {f : Findings} {past : List (Outcome HealthStatus String)}

theorem worsen_of_le {current next : HealthStatus}
    (h : STATUS_PRIORITY next ≤ STATUS_PRIORITY current) : worsen current next = current :=
  if_neg (not_lt.mpr h)

theorem priority_injective : Function.Injective STATUS_PRIORITY := by
  intro s t h
  cases s <;> cases t <;> first | rfl | cases h

theorem worsen_of_ge {current next : HealthStatus}
    (h : STATUS_PRIORITY current ≤ STATUS_PRIORITY next) : worsen current next = next := by
  rcases h.lt_or_eq with hlt | heq
  · exact if_pos hlt
  · obtain rfl := priority_injective heq
    exact worsen_of_le le_rfl

theorem priority_le_failed (s : HealthStatus) : STATUS_PRIORITY s ≤ STATUS_PRIORITY .failed := by
  cases s <;> decide

/-- A note that is at least as bad as what was known. -/
theorem SumsUp.note (h : SumsUp past f) {next : HealthStatus} {reason observed : String}
    (hnext : STATUS_PRIORITY f.status ≤ STATUS_PRIORITY next) (hbad : next ≠ .healthy) :
    SumsUp (past ++ [(next, some reason)]) (f.note next reason observed) := by
  rw [SumsUp, Findings.note, worsen_of_ge hnext]
  exact Sums.take h hnext hbad

theorem SumsUp.noteFailed (h : SumsUp past f) (reason observed : String) :
    SumsUp (past ++ [(.failed, some reason)]) (f.note .failed reason observed) :=
  h.note (priority_le_failed _) (by decide)

/-- An unknown outcome gives the reason unless something worse was known. -/
theorem SumsUp.unknown (h : SumsUp past f) (reason observed : String) :
    SumsUp (past ++ [(.unknown, some reason)]) (f.unknown reason observed) := by
  rcases le_total (STATUS_PRIORITY f.status) (STATUS_PRIORITY .unknown) with hle | hge
  · rw [SumsUp, Findings.unknown, worsen_of_ge hle]
    exact Sums.take h hle (by decide)
  · rw [SumsUp, Findings.unknown, worsen_of_le hge]
    dsimp only
    split
    · rename_i hunknown
      rw [hunknown] at hge ⊢
      exact Sums.take h (by rw [hunknown]) (by decide)
    · exact Sums.keep h hge

theorem SumsUp.healthy (h : SumsUp past f) {code : Option String} :
    SumsUp (past ++ [(.healthy, code)]) f :=
  Sums.keep h (Nat.zero_le _)

/-- The start of every collection: nothing is wrong yet. -/
theorem sums_start : SumsUp [] ⟨.healthy, none, []⟩ := Sums.nil

theorem sums_start_note {next : HealthStatus} (hbad : next ≠ .healthy) (reason observed : String) :
    SumsUp [(next, some reason)] (Findings.note ⟨.healthy, none, []⟩ next reason observed) :=
  sums_start.note (Nat.zero_le _) hbad

theorem sums_state (state : List (String × String)) (observed : String) :
    SumsUp [stateOutcome state]
      (if propertyOf state "LoadState" ≠ some "loaded" then
        Findings.note ⟨.healthy, none, []⟩ .failed "unit_not_loaded" observed
      else if (propertyOf state "ActiveState").getD "unknown" = "activating" then
        Findings.note ⟨.healthy, none, []⟩ .recovering "unit_activating" observed
      else if (propertyOf state "ActiveState").getD "unknown" ≠ "active" then
        Findings.note ⟨.healthy, none, []⟩ .failed
          (if (propertyOf state "ActiveState").getD "unknown" = "failed" then "unit_failed"
            else "unit_inactive") observed
      else ⟨.healthy, none, [] ++ [observed]⟩) := by
  unfold stateOutcome
  by_cases hload : propertyOf state "LoadState" ≠ some "loaded"
  · rw [if_pos hload, if_pos hload]
    exact sums_start_note (by decide) _ _
  rw [if_neg hload, if_neg hload]
  cases propertyOf state "ActiveState" with
  | none => exact sums_start_note (by decide) _ _
  | some active =>
      rw [Option.getD_some]
      by_cases hactivating : active = "activating"
      · subst hactivating
        exact sums_start_note (by decide) _ _
      rw [if_neg hactivating]
      by_cases hactive : active = "active"
      · subst hactive
        exact sums_start.healthy
      rw [if_pos hactive]
      by_cases hfailed : active = "failed"
      · subst hfailed
        exact sums_start_note (by decide) _ _
      · rw [if_neg hfailed]
        split
        · rename_i heq
          exact absurd (Option.some.inj heq) hactive
        · rename_i heq
          exact absurd (Option.some.inj heq) hactivating
        · rename_i heq
          exact absurd (Option.some.inj heq) hfailed
        · exact sums_start_note (by decide) _ _

theorem sums_unit (unit : CommandResult) :
    SumsUp [unitOutcome unit] (unitFindings ⟨.healthy, none, []⟩ unit) := by
  unfold unitOutcome unitFindings
  by_cases htimed : unit.timedOut = true
  · rw [if_pos htimed, if_pos htimed]
    exact sums_start_note (by decide) _ _
  rw [if_neg htimed, if_neg htimed]
  cases hexit : unit.exitCode with
  | none =>
      rw [if_pos (by simp), if_pos rfl]
      exact sums_start_note (by decide) _ _
  | some code =>
      by_cases hcode : code = 0
      · subst hcode
        rw [if_neg (by simp)]
        exact sums_state _ _
      · rw [if_pos (by simpa using hcode), if_neg (by simp)]
        split
        · rename_i heq
          cases heq
        · rename_i heq
          exact absurd (Option.some.inj heq) hcode
        · exact sums_start_note (by decide) _ _

/-- Evidence that was read adds what its report adds. -/
theorem lineReport_add (listener : ListenerFact) (evidence : String) (f : Findings) :
    (match (listenerLine listener evidence).filter (· ≠ "") with
      | none => f.note .failed "listener_missing" s!"{protocol listener} listener missing"
      | some line =>
          if listenerOwnerMatches listener line then
            ⟨f.status, f.reason, f.observed ++ [s!"{process listener} owns {location listener}"]⟩
          else
            f.note .failed "listener_owner_mismatch"
              s!"{protocol listener} listener has a different owner") =
      (lineReport listener evidence).add listener f := by
  rw [lineReport]
  cases (listenerLine listener evidence).filter (· ≠ "") with
  | none => rfl
  | some line =>
      dsimp only
      split <;> rfl

theorem listenerFindings_answered (probe : CommandResult) (f : Findings) (listener : ListenerFact) :
    listenerFindings (some probe) (some probe) f listener =
      (listenerReport listener (some probe)).add listener f := by
  cases listener with
  | tcp | unix =>
      dsimp only [listenerFindings, listenerReport]
      by_cases htimed : probe.timedOut = true
      · rw [if_pos htimed, if_pos htimed]
        rfl
      rw [if_neg htimed, if_neg htimed]
      cases hexit : probe.exitCode with
      | none => rfl
      | some code =>
          by_cases hcode : code = 0
          · subst hcode
            rw [if_neg (by simp)]
            exact lineReport_add _ _ _
          · rw [if_pos (by simpa using hcode), if_neg (by simp)]
            split
            · rename_i heq
              cases heq
            · rename_i heq
              exact absurd (Option.some.inj heq) hcode
            · rfl

theorem listenerFindings_eq (tcpEvidence unixEvidence : Option CommandResult) (f : Findings)
    (listener : ListenerFact) :
    listenerFindings tcpEvidence unixEvidence f listener =
      (listenerReport listener (evidenceOf tcpEvidence unixEvidence listener)).add listener f := by
  have hown : listenerFindings tcpEvidence unixEvidence f listener =
      listenerFindings (evidenceOf tcpEvidence unixEvidence listener)
        (evidenceOf tcpEvidence unixEvidence listener) f listener := by
    cases listener <;> rfl
  rw [hown]
  cases evidenceOf tcpEvidence unixEvidence listener with
  | none => cases listener <;> rfl
  | some probe => exact listenerFindings_answered probe f listener

theorem sums_add (h : SumsUp past f) (listener : ListenerFact) (report : ListenerReport) :
    SumsUp (past ++ [report.outcome]) (report.add listener f) := by
  cases report with
  | timedOut | unavailable | denied => exact h.unknown _ _
  | missing | otherOwner => exact h.noteFailed _ _
  | owned => exact h.healthy

/-! ## All of them -/

/-- The unit's findings, which the listeners start from. -/
def unitStage (run : CommandRunner) (call : ℕ) (fact : HealthComponentFact) : Findings :=
  match stated fact.unit with
  | some unit => unitFindings ⟨.healthy, none, []⟩ (safeRun run call (unitArgv fact unit))
  | none => ⟨.healthy, none, []⟩

def stage (run : CommandRunner) (call : ℕ) (tcpEvidence unixEvidence : Option CommandResult)
    (fact : HealthComponentFact) : Findings :=
  (fact.listeners.getD []).foldl (listenerFindings tcpEvidence unixEvidence)
    (unitStage run call fact)

theorem sums_stage (run : CommandRunner) (call : ℕ)
    (tcpEvidence unixEvidence : Option CommandResult) (fact : HealthComponentFact) :
    SumsUp (outcomes run call tcpEvidence unixEvidence fact)
      (stage run call tcpEvidence unixEvidence fact) := by
  have hunit : SumsUp ((stated fact.unit).map fun unit ↦
      unitOutcome (safeRun run call (unitArgv fact unit))).toList (unitStage run call fact) := by
    unfold unitStage
    cases stated fact.unit with
    | none => exact sums_start
    | some unit => exact sums_unit _
  refine Sums.foldl Findings.status Findings.reason ?_ _ hunit
  intro f listener past h
  rw [listenerFindings_eq]
  exact sums_add h listener _

/-- Every reason is a code, so none of them is left out. -/
theorem stated_reason (run : CommandRunner) (call : ℕ)
    (tcpEvidence unixEvidence : Option CommandResult) (fact : HealthComponentFact) :
    stated (stage run call tcpEvidence unixEvidence fact).reason =
      (stage run call tcpEvidence unixEvidence fact).reason := by
  have hstart : Worded ⟨.healthy, none, []⟩ := fun s hs ↦ by cases hs
  have hunit : Worded (unitStage run call fact) := by
    unfold unitStage
    split
    · exact worded_unit hstart _
    · exact hstart
  have hworded := @worded_listeners tcpEvidence unixEvidence _ hunit
    (fact.listeners.getD [])
  cases hreason : (stage run call tcpEvidence unixEvidence fact).reason with
  | none => rfl
  | some s =>
      refine Option.filter_eq_some_iff.mpr ⟨rfl, decide_eq_true ?_⟩
      rintro rfl
      exact absurd (hworded "" hreason) (by decide +kernel)

/-- The status is the worst outcome of the unit and the listeners, and the
reason is the code of one that bad. -/
theorem status_and_reason_agree (run : CommandRunner) (call : ℕ)
    (tcpEvidence unixEvidence : Option CommandResult) (fact : HealthComponentFact) :
    Sums STATUS_PRIORITY .healthy (outcomes run call tcpEvidence unixEvidence fact)
      (collectComponent run call tcpEvidence unixEvidence fact).status
      (collectComponent run call tcpEvidence unixEvidence fact).reason := by
  have hreason : (collectComponent run call tcpEvidence unixEvidence fact).reason =
      stated (stage run call tcpEvidence unixEvidence fact).reason := rfl
  rw [hreason, stated_reason]
  exact sums_stage run call tcpEvidence unixEvidence fact

end RemoteDevbox.Box.Collect
