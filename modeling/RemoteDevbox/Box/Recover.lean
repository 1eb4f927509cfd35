import RemoteDevbox.Box.Collect
import RemoteDevbox.Lib.Dialogue

namespace RemoteDevbox.Box.Recover

open Js Collect

/-!
# Recovering a component of the box

The doctor starts a failed unit again. Whatever the commands answer, it acts
only on the component it was asked for, and only after every guard has let it.
-/

/-- What the recovery asks of its surroundings. -/
inductive Question where
  | run (argv : List String)
  | now
  | collectFresh
  | hasActiveTurn (fact : HealthComponentFact)

/-- The answers; `none` where the call throws. -/
def Answer : Question → Type
  | .run _ => Option CommandResult
  | .now => Date
  | .collectFresh => Option HealthDocument
  | .hasActiveTurn _ => Option Bool

abbrev Talk := Dialogue Unit Answer

def run (argv : List String) : Talk (Option CommandResult) := Dialogue.query (Question.run argv)

def now : Talk Date := Dialogue.query Question.now

def givenDocument : Talk (Option HealthDocument) := Dialogue.query Question.collectFresh

def givenTurn (fact : HealthComponentFact) : Talk (Option Bool) :=
  Dialogue.query (Question.hasActiveTurn fact)

def given {α : Type} : Option α → Talk α
  | some a => pure a
  | none => throw ()

/-- The caller may bring its own `collectFresh` and `hasActiveTurn`. -/
structure BoxRecoveryOptions where
  uid : Option ℕ
  facts : HealthFacts
  ownCollect : Bool
  ownTurn : Bool

inductive RecoveryStatus where
  | recovered
  | skipped
  | refused
  | failed
  deriving DecidableEq

structure BoxRecoveryResult where
  status : RecoveryStatus
  reason : String

def validComponentId (value : String) : Bool := Text.test COMPONENT_ID_RE value

def systemctlArgs (fact : HealthComponentFact) (unit action : String) : List String :=
  let scope := if fact.unitScope = some .user then
    ["--user", "--machine=" ++ fact.profile.getD "undefined" ++ "@"] else []
  ["systemctl"] ++ scope ++ [action, unit]

def isRemoteControl (fact : HealthComponentFact) : Bool :=
  "remote-control.".toList.isPrefixOf fact.id.toList

/-- The tmux socket is the unit's name without `.service`. -/
def sessionArgv (profile unit : String) : List String :=
  ["runuser", "-u", profile, "--", "tmux", "-L",
    String.ofList (unit.toList.take (unit.toList.length - ".service".length)), "has-session"]

def defaultActiveTurn (fact : HealthComponentFact) : Talk Bool :=
  match isRemoteControl fact, stated fact.unit, stated fact.profile with
  | true, some unit, some profile => do
      let answer ← run (sessionArgv profile unit)
      let result ← given answer
      return result.timedOut || result.exitCode == none || result.exitCode == some 0
  | _, _, _ => return true

def activeTurn (options : BoxRecoveryOptions) (fact : HealthComponentFact) : Talk Bool :=
  if options.ownTurn then do
    let answer ← givenTurn fact
    given answer
  else defaultActiveTurn fact

/-! ## Collecting afresh -/

/-- A call of the collection, by its number and its arguments. -/
abbrev Call := ℕ × List String

def hostCalls (facts : HealthFacts) : List Call :=
  (if needs "tcp" facts then [(0, ["ss", "-Hlnpt"])] else []) ++
    (if needs "unix" facts then [(1, ["ss", "-Hxlpn"])] else []) ++
    facts.components.zipIdx.filterMap fun p ↦
      (stated p.1.unit).map fun unit ↦ (p.2 + 2, unitArgv p.1 unit)

def askAll : List Call → Talk (List (Call × Option CommandResult))
  | [] => return []
  | call :: rest => do
      let answer ← run call.2
      let answers ← askAll rest
      return (call, answer) :: answers

def answerOf (answers : List (Call × Option CommandResult)) : CommandRunner :=
  fun call argv ↦ (answers.lookup (call, argv)).join

section

variable (localeCompare : String → String → ℤ) (options : BoxRecoveryOptions)

def collectFresh : Talk HealthDocument :=
  if options.ownCollect then do
    let answer ← givenDocument
    given answer
  else do
    let now ← now
    let answers ← askAll (hostCalls options.facts)
    return collectHostDocument localeCompare options.facts (answerOf answers) now

/-! ## The recovery -/

/-- Runs the actions in turn; whether all of them succeeded. -/
def act (fact : HealthComponentFact) (unit : String) : List String → Talk Bool
  | [] => return true
  | action :: rest => do
      let answer ← run (systemctlArgs fact unit action)
      match answer with
      | none => return false
      | some command =>
          if command.timedOut || command.exitCode != some 0 then return false
          else act fact unit rest

def componentOf (document : HealthDocument) (componentId : String) : Option HealthResult :=
  document.components.find? (·.id == componentId)

/-- The component has failed, and nobody uses it. -/
def restart (componentId : String) (fact : HealthComponentFact) (unit : String) :
    Talk BoxRecoveryResult := do
  let acted ← act fact unit ["reset-failed", "start"]
  if acted then
    let after ← collectFresh localeCompare options
    if (componentOf after componentId).any (·.status == .healthy) then
      return ⟨.recovered, "component_healthy"⟩
    else return ⟨.failed, "post_recovery_unhealthy"⟩
  else return ⟨.failed, "systemd_action_failed"⟩

def recoverFailed (componentId : String) (fact : HealthComponentFact) (unit : String) :
    Talk BoxRecoveryResult := do
  if isRemoteControl fact then
    let active ← activeTurn options fact
    if active then return ⟨.refused, "active_session"⟩
    else restart localeCompare options componentId fact unit
  else restart localeCompare options componentId fact unit

def recoverDeclared (componentId : String) (fact : HealthComponentFact) (unit : String) :
    Talk BoxRecoveryResult := do
  let document ← collectFresh localeCompare options
  match componentOf document componentId with
  | none => return ⟨.refused, "evidence_missing"⟩
  | some before =>
      if before.status = .healthy then return ⟨.skipped, "already_healthy"⟩
      else if before.status ≠ .failed then return ⟨.refused, "component_not_failed"⟩
      else recoverFailed localeCompare options componentId fact unit

def recoverBoxComponent (componentId : String) : Talk BoxRecoveryResult :=
  if options.uid ≠ some 0 then return ⟨.refused, "root_required"⟩
  else if !validComponentId componentId then return ⟨.refused, "component_not_allowlisted"⟩
  else
    match options.facts.components.find? (·.id == componentId) with
    | none => return ⟨.refused, "component_not_allowlisted"⟩
    | some fact =>
        match stated fact.unit with
        | none => return ⟨.refused, "component_not_allowlisted"⟩
        | some unit =>
            if fact.recovery = .confirmationRequired then
              return ⟨.refused, "confirmation_required"⟩
            else if fact.recovery ≠ .automatic ∧ fact.recovery ≠ .manual then
              return ⟨.refused, "recovery_not_supported"⟩
            else recoverDeclared localeCompare options componentId fact unit

end

/-! ## What is promised -/

abbrev History := List (Exchange Answer)

/-- `systemctl` is called for anything but to show a unit. -/
def mutates (argv : List String) : Bool :=
  argv.head? == some "systemctl" &&
    (argv.drop 1).find? (fun arg ↦ !"-".toList.isPrefixOf arg.toList) != some "show"

def Found (document : HealthDocument) (componentId : String) (status : HealthStatus) : Prop :=
  ∃ result, componentOf document componentId = some result ∧ result.status = status

section

variable (localeCompare : String → String → ℤ) (options : BoxRecoveryOptions)

/-- One fresh look at the box: the caller's own, or a collection. -/
inductive Probe : History → HealthDocument → Prop
  | own (document : HealthDocument) (hown : options.ownCollect = true) :
      Probe [⟨.collectFresh, some document⟩] document
  | host (now : Date) (answers : List (Call × Option CommandResult))
      (hhost : options.ownCollect = false)
      (hcalls : answers.map Prod.fst = hostCalls options.facts) :
      Probe (⟨.now, now⟩ :: answers.map fun p ↦ ⟨.run p.1.2, p.2⟩)
        (collectHostDocument localeCompare options.facts (answerOf answers) now)

/-- No active turn was detected: the caller said so, or the component's own profile has no
session on the socket of its unit. -/
def Idle (history : History) (fact : HealthComponentFact) : Prop :=
  if options.ownTurn then ⟨.hasActiveTurn fact, some false⟩ ∈ history
  else
    ∃ profile unit result code,
      stated fact.profile = some profile ∧ stated fact.unit = some unit ∧
        ⟨.run (sessionArgv profile unit), some result⟩ ∈ history ∧
        result.timedOut = false ∧ result.exitCode = some code ∧ code ≠ 0

/-- Every guard has let the component pass. -/
structure Cleared (componentId : String) (history : History) (fact : HealthComponentFact)
    (unit : String) : Prop where
  root : options.uid = some 0
  declared : fact ∈ options.facts.components
  requested : fact.id = componentId
  hasUnit : fact.unit = some unit
  policy : fact.recovery = .automatic ∨ fact.recovery = .manual
  failed : ∃ earlier probe later document, history = earlier ++ probe ++ later ∧
    Probe localeCompare options probe document ∧ Found document componentId .failed
  idle : isRemoteControl fact = true → Idle options history fact

def Permitted (componentId : String) (history : History) (question : Question) : Prop :=
  ∀ argv, question = .run argv → mutates argv = true →
    ∃ fact unit action, Cleared localeCompare options componentId history fact unit ∧
      action ∈ ["reset-failed", "start"] ∧ argv = systemctlArgs fact unit action

/-- The action was run and succeeded. -/
def Succeeded (history : History) (argv : List String) : Prop :=
  ∃ command : CommandResult, ⟨.run argv, some command⟩ ∈ history ∧ command.timedOut = false ∧
    command.exitCode = some 0

/-- A component is reported recovered only where the probe after its start finds
it healthy. -/
def Honest (componentId : String) (result : Except Unit BoxRecoveryResult) (history : History) :
    Prop :=
  ∀ r, result = .ok r → r.status = .recovered →
    ∃ before probe document fact unit, history = before ++ probe ∧
      Probe localeCompare options probe document ∧ Found document componentId .healthy ∧
      Cleared localeCompare options componentId before fact unit ∧
      Succeeded before (systemctlArgs fact unit "start")

end

/-! ## The questions that change nothing -/

section

variable {localeCompare : String → String → ℤ} {options : BoxRecoveryOptions}
  {componentId : String} {history : History}

theorem permitted_of_quiet {question : Question}
    (h : ∀ argv, question = .run argv → mutates argv = false) :
    Permitted localeCompare options componentId history question := by
  intro argv hargv hmutates
  rw [h argv hargv] at hmutates
  cases hmutates

theorem mutates_unitArgv (fact : HealthComponentFact) (unit : String) :
    mutates (unitArgv fact unit) = false := by
  have hshow : ['-'].isPrefixOf ['s', 'h', 'o', 'w'] = false := rfl
  unfold unitArgv
  dsimp only
  split
  · simp [mutates, hshow]
  · rfl

theorem hostCalls_quiet {facts : HealthFacts} {call : Call} (h : call ∈ hostCalls facts) :
    mutates call.2 = false := by
  rcases List.mem_append.mp h with h | h
  · rcases List.mem_append.mp h with h | h
    · split at h
      · obtain rfl := List.mem_singleton.mp h
        rfl
      · cases h
    · split at h
      · obtain rfl := List.mem_singleton.mp h
        rfl
      · cases h
  · obtain ⟨p, -, hp⟩ := List.mem_filterMap.mp h
    obtain ⟨unit, -, rfl⟩ := Option.map_eq_some_iff.mp hp
    exact mutates_unitArgv p.1 unit

theorem within_run {allowed : History → Question → Prop}
    {Post : Except Unit (Option CommandResult) → History → Prop} {argv : List String} :
    (run argv).Within allowed Post history ↔ allowed history (.run argv) ∧
      ∀ answer : Option CommandResult, Post (.ok answer) (history ++ [⟨.run argv, answer⟩]) :=
  Iff.rfl

theorem within_now {allowed : History → Question → Prop} {Post : Except Unit Date → History → Prop} :
    now.Within allowed Post history ↔ allowed history .now ∧
      ∀ answer : Date, Post (.ok answer) (history ++ [⟨.now, answer⟩]) := Iff.rfl

theorem within_givenDocument {allowed : History → Question → Prop}
    {Post : Except Unit (Option HealthDocument) → History → Prop} :
    givenDocument.Within allowed Post history ↔ allowed history .collectFresh ∧
      ∀ answer : Option HealthDocument, Post (.ok answer) (history ++ [⟨.collectFresh, answer⟩]) :=
  Iff.rfl

theorem within_givenTurn {allowed : History → Question → Prop}
    {Post : Except Unit (Option Bool) → History → Prop} {fact : HealthComponentFact} :
    (givenTurn fact).Within allowed Post history ↔ allowed history (.hasActiveTurn fact) ∧
      ∀ answer : Option Bool, Post (.ok answer) (history ++ [⟨.hasActiveTurn fact, answer⟩]) :=
  Iff.rfl

/-- A probe starts where the history ends, or the recovery throws. -/
def Probed (localeCompare : String → String → ℤ) (options : BoxRecoveryOptions)
    (history : History) (result : Except Unit HealthDocument) (after : History) : Prop :=
  ∀ document, result = .ok document →
    ∃ probe, Probe localeCompare options probe document ∧ after = history ++ probe

theorem within_askAll {allowed : History → Question → Prop} {calls : List Call}
    (h : ∀ call ∈ calls, ∀ history, allowed history (.run call.2)) :
    (askAll calls).Within allowed
      (fun result after ↦ ∃ answers, result = .ok answers ∧ answers.map Prod.fst = calls ∧
        after = history ++ answers.map fun p ↦ ⟨.run p.1.2, p.2⟩) history := by
  induction calls generalizing history with
  | nil => exact ⟨[], rfl, rfl, by simp⟩
  | cons call rest ih =>
      rw [askAll, Dialogue.within_bind, within_run]
      refine ⟨h call List.mem_cons_self history, fun answer ↦ ?_⟩
      rw [Dialogue.onward_ok, Dialogue.within_bind]
      refine (ih fun c hc ↦ h c (List.mem_cons_of_mem _ hc)).imp ?_
      rintro result after ⟨answers, rfl, hcalls, rfl⟩
      refine ⟨(call, answer) :: answers, rfl, by simp [hcalls], ?_⟩
      rw [List.append_assoc]
      rfl

theorem within_given {α : Type} {allowed : History → Question → Prop}
    {Post : Except Unit α → History → Prop} {answer : Option α}
    (hsome : ∀ a, answer = some a → Post (.ok a) history) (hnone : Post (.error ()) history) :
    (given answer).Within allowed Post history := by
  cases answer with
  | none => exact hnone
  | some a => exact hsome a rfl

theorem within_collectFresh (history : History) :
    (collectFresh localeCompare options).Within (Permitted localeCompare options componentId)
      (Probed localeCompare options history) history := by
  unfold collectFresh
  split
  · rename_i hown
    rw [Dialogue.within_bind, within_givenDocument]
    refine ⟨permitted_of_quiet (by simp), fun answer ↦ ?_⟩
    refine within_given (fun document hdocument ↦ ?_) (by simp [Probed])
    subst hdocument
    rintro _ ⟨⟩
    exact ⟨_, .own document hown, rfl⟩
  · rename_i hhost
    rw [Dialogue.within_bind, within_now]
    refine ⟨permitted_of_quiet (by simp), fun now ↦ ?_⟩
    rw [Dialogue.onward_ok, Dialogue.within_bind]
    have hquiet : ∀ call ∈ hostCalls options.facts, ∀ history,
        Permitted localeCompare options componentId history (.run call.2) := by
      intro call hcall history
      refine permitted_of_quiet fun argv hargv ↦ ?_
      cases hargv
      exact hostCalls_quiet hcall
    refine (within_askAll hquiet).imp ?_
    rintro result after ⟨answers, rfl, hcalls, rfl⟩ _ ⟨⟩
    exact ⟨_, .host now answers (by simpa using hhost) hcalls, by simp⟩

theorem mutates_sessionArgv (profile unit : String) : mutates (sessionArgv profile unit) = false :=
  rfl

theorem within_activeTurn (history : History) (fact : HealthComponentFact) :
    (activeTurn options fact).Within (Permitted localeCompare options componentId)
      (fun result after ↦ ∃ more, after = history ++ more ∧
        (result = .ok false → Idle options after fact)) history := by
  unfold activeTurn
  split
  · rename_i hown
    rw [Dialogue.within_bind, within_givenTurn]
    refine ⟨permitted_of_quiet (by simp), fun answer ↦ ?_⟩
    refine within_given (fun active hactive ↦ ⟨_, rfl, ?_⟩) ⟨_, rfl, by simp⟩
    rintro ⟨⟩
    subst hactive
    rw [Idle, if_pos hown]
    simp
  · rename_i hdefault
    unfold defaultActiveTurn
    split
    · rename_i unit profile _ hunit hprofile
      rw [Dialogue.within_bind, within_run]
      refine ⟨permitted_of_quiet ?_, fun answer ↦ ?_⟩
      · rintro argv ⟨⟩
        exact mutates_sessionArgv profile unit
      rw [Dialogue.onward_ok, Dialogue.within_bind]
      refine within_given (fun result hresult ↦ ⟨_, rfl, fun hidle ↦ ?_⟩) ⟨_, rfl, by simp⟩
      subst hresult
      have hquiet := Except.ok.inj hidle
      simp only [Bool.or_eq_false_iff, beq_eq_false_iff_ne] at hquiet
      obtain ⟨⟨htimed, hexit⟩, hcode⟩ := hquiet
      obtain ⟨code, hsome⟩ := Option.ne_none_iff_exists'.mp hexit
      rw [Idle, if_neg hdefault]
      refine ⟨profile, unit, result, code, hprofile, hunit,
        List.mem_append_right _ (List.mem_singleton_self _), htimed, hsome, ?_⟩
      rintro rfl
      exact hcode hsome
    · exact ⟨[], by simp, by simp⟩

/-! ## The recovery -/

theorem Cleared.mono {fact : HealthComponentFact} {unit : String}
    (h : Cleared localeCompare options componentId history fact unit) (more : History) :
    Cleared localeCompare options componentId (history ++ more) fact unit where
  root := h.root
  declared := h.declared
  requested := h.requested
  hasUnit := h.hasUnit
  policy := h.policy
  failed := by
    obtain ⟨earlier, probe, later, document, rfl, hprobe, hfound⟩ := h.failed
    exact ⟨earlier, probe, later ++ more, document, by simp, hprobe, hfound⟩
  idle hremote := by
    have hidle := h.idle hremote
    unfold Idle at hidle ⊢
    split at hidle
    · rename_i hown
      rw [if_pos hown]
      exact List.mem_append_left _ hidle
    · rename_i hown
      rw [if_neg hown]
      obtain ⟨profile, unit, result, code, hprofile, hunit, hmem, hrest⟩ := hidle
      exact ⟨profile, unit, result, code, hprofile, hunit, List.mem_append_left _ hmem, hrest⟩

theorem within_act {fact : HealthComponentFact} {unit : String} {actions : List String}
    (h : Cleared localeCompare options componentId history fact unit)
    (hactions : ∀ action ∈ actions, action ∈ ["reset-failed", "start"]) :
    (act fact unit actions).Within (Permitted localeCompare options componentId)
      (fun result after ↦ ∃ more, after = history ++ more ∧
        (result = .ok true → ∀ action ∈ actions, Succeeded after (systemctlArgs fact unit action)))
      history := by
  induction actions generalizing history with
  | nil => exact ⟨[], by simp, by simp⟩
  | cons action rest ih =>
      rw [act, Dialogue.within_bind, within_run]
      refine ⟨?_, fun answer ↦ ?_⟩
      · rintro argv ⟨⟩ -
        exact ⟨fact, unit, action, h, hactions action List.mem_cons_self, rfl⟩
      rw [Dialogue.onward_ok]
      cases answer with
      | none => exact ⟨_, rfl, by simp⟩
      | some command =>
          dsimp only
          split
          · exact ⟨_, rfl, by simp⟩
          · rename_i hsuccess
            simp only [Bool.or_eq_true, bne_iff_ne, not_or, not_not, Bool.not_eq_true] at hsuccess
            have hrest := ih (h.mono [⟨.run (systemctlArgs fact unit action), some command⟩])
              fun a ha ↦ hactions a (List.mem_cons_of_mem _ ha)
            refine hrest.imp ?_
            rintro result after ⟨more, rfl, hdone⟩
            refine ⟨_, List.append_assoc .., fun hresult ↦ ?_⟩
            rw [List.forall_mem_cons]
            exact ⟨⟨command, by simp, hsuccess⟩, hdone hresult⟩

theorem within_restart {fact : HealthComponentFact} {unit : String}
    (h : Cleared localeCompare options componentId history fact unit) :
    (restart localeCompare options componentId fact unit).Within
      (Permitted localeCompare options componentId)
      (Honest localeCompare options componentId) history := by
  have hquiet : ∀ {status : RecoveryStatus} {reason : String} {after : History},
      status ≠ .recovered →
        Honest localeCompare options componentId (.ok ⟨status, reason⟩) after := by
    rintro status reason after hne _ ⟨⟩ hrecovered
    exact absurd hrecovered hne
  rw [restart, Dialogue.within_bind]
  refine (within_act h fun action haction ↦ haction).imp ?_
  rintro result after ⟨more, rfl, hdone⟩
  cases result with
  | error e => exact fun r hr ↦ by cases hr
  | ok acted =>
      rw [Dialogue.onward_ok]
      cases acted with
      | false => exact hquiet (by simp)
      | true =>
          rw [if_pos rfl, Dialogue.within_bind]
          refine (within_collectFresh _).imp ?_
          intro result after hprobed
          cases result with
          | error e => exact fun r hr ↦ by cases hr
          | ok document =>
              obtain ⟨probe, hprobe, rfl⟩ := hprobed document rfl
              rw [Dialogue.onward_ok]
              split
              · rename_i hhealthy
                rintro _ ⟨⟩ -
                obtain ⟨found, hfound, hstatus⟩ := (Option.any_eq_true ..).mp hhealthy
                refine ⟨_, probe, document, fact, unit, rfl, hprobe, ⟨found, hfound, ?_⟩,
                  h.mono more, ?_⟩
                · simpa using hstatus
                · exact hdone rfl "start" (by simp)
              · exact hquiet (by simp)

theorem quiet_result {status : RecoveryStatus} {reason : String} {after : History}
    (hne : status ≠ .recovered) :
    Honest localeCompare options componentId (.ok ⟨status, reason⟩) after := by
  rintro _ ⟨⟩ hrecovered
  exact absurd hrecovered hne

theorem within_recoverFailed {fact : HealthComponentFact} {unit : String}
    (h : ∀ more, (isRemoteControl fact = true → Idle options (history ++ more) fact) →
      Cleared localeCompare options componentId (history ++ more) fact unit) :
    (recoverFailed localeCompare options componentId fact unit).Within
      (Permitted localeCompare options componentId)
      (Honest localeCompare options componentId) history := by
  unfold recoverFailed
  split
  · rw [Dialogue.within_bind]
    refine (within_activeTurn _ fact).imp ?_
    rintro result after ⟨more, rfl, hidle⟩
    cases result with
    | error e => exact fun r hr ↦ by cases hr
    | ok active =>
        rw [Dialogue.onward_ok]
        cases active with
        | true => exact quiet_result (by simp)
        | false => exact within_restart (h more fun _ ↦ hidle rfl)
  · rename_i hother
    refine within_restart ?_
    have hclear := h [] fun hremote ↦ absurd hremote hother
    rwa [List.append_nil] at hclear

theorem within_recoverDeclared {fact : HealthComponentFact} {unit : String}
    (hroot : options.uid = some 0) (hdeclared : fact ∈ options.facts.components)
    (hrequested : fact.id = componentId) (hunit : fact.unit = some unit)
    (hpolicy : fact.recovery = .automatic ∨ fact.recovery = .manual) :
    (recoverDeclared localeCompare options componentId fact unit).Within
      (Permitted localeCompare options componentId)
      (Honest localeCompare options componentId) history := by
  rw [recoverDeclared, Dialogue.within_bind]
  refine (within_collectFresh _).imp ?_
  intro result after hprobed
  cases result with
  | error e => exact fun r hr ↦ by cases hr
  | ok document =>
      obtain ⟨probe, hprobe, rfl⟩ := hprobed document rfl
      rw [Dialogue.onward_ok]
      split
      · exact quiet_result (by simp)
      · rename_i found hfound
        split
        · exact quiet_result (by simp)
        split
        · exact quiet_result (by simp)
        · rename_i hfailed
          refine within_recoverFailed fun more hidle ↦ ⟨hroot, hdeclared, hrequested, hunit, hpolicy,
            ⟨history, probe, more, document, rfl, hprobe, found, hfound, ?_⟩, hidle⟩
          exact not_not.mp hfailed

theorem within_recoverBoxComponent :
    (recoverBoxComponent localeCompare options componentId).Within
      (Permitted localeCompare options componentId)
      (Honest localeCompare options componentId) history := by
  unfold recoverBoxComponent
  split
  · exact quiet_result (by simp)
  rename_i hroot
  split
  · exact quiet_result (by simp)
  split
  · exact quiet_result (by simp)
  rename_i fact hfact
  split
  · exact quiet_result (by simp)
  rename_i unit hunit
  split
  · exact quiet_result (by simp)
  split
  · exact quiet_result (by simp)
  rename_i hpolicy
  refine within_recoverDeclared (not_not.mp hroot) (List.mem_of_find?_eq_some hfact) ?_
    (stated_eq_some hunit) ?_
  · simpa using List.find?_some hfact
  · by_contra hneither
    exact hpolicy (not_or.mp hneither)

end

/-- A unit is only touched after every guard has let its component pass, and a
recovery is only reported after a healthy probe. -/
theorem recovery_guarded (localeCompare : String → String → ℤ) (options : BoxRecoveryOptions)
    (componentId : String) {history : History} {result : Except Unit BoxRecoveryResult}
    (hrun : (recoverBoxComponent localeCompare options componentId).Runs history result) :
    (∀ before argv answer after, history = before ++ ⟨.run argv, answer⟩ :: after →
      mutates argv = true →
        ∃ fact unit action, Cleared localeCompare options componentId before fact unit ∧
          action ∈ ["reset-failed", "start"] ∧ argv = systemctlArgs fact unit action) ∧
    Honest localeCompare options componentId result history := by
  obtain ⟨hquestions, hresult⟩ := hrun.within
    (within_recoverBoxComponent : Dialogue.Within _ _ [] _)
  refine ⟨fun before argv answer after hsplit hmutates ↦ ?_, hresult⟩
  exact hquestions before _ answer after hsplit argv rfl hmutates

def desktopOptions : BoxRecoveryOptions :=
  ⟨some 0, ⟨[⟨"desktop.xrdp", none, some "xrdp.service", none, none, .automatic⟩]⟩, false, false⟩

def startsDesktop : Exchange Answer → Bool
  | ⟨.run argv, _⟩ => argv == ["systemctl", "start", "xrdp.service"]
  | _ => false

/-- The unit has failed until it is started. -/
def desktopAnswer (history : History) : (question : Question) → Answer question
  | .run argv =>
      let state := if history.any startsDesktop then "active" else "failed"
      let shown := if mutates argv then "" else s!"LoadState=loaded\nActiveState={state}"
      some (⟨shown, "", some 0, false⟩ : CommandResult)
  | .now => (⟨0, by decide⟩ : Date)
  | .collectFresh => (none : Option HealthDocument)
  | .hasActiveTurn _ => some false

def desktopRun : History × Except Unit BoxRecoveryResult :=
  Dialogue.play desktopAnswer []
    (recoverBoxComponent (fun _ _ ↦ 0) desktopOptions "desktop.xrdp")

/-- The failed desktop is started and then found healthy. -/
theorem desktop_recovery_guarded :
    desktopRun.2.toOption.map (·.status) = some .recovered ∧
    (∀ before argv answer after, desktopRun.1 = before ++ ⟨.run argv, answer⟩ :: after →
      mutates argv = true →
        ∃ fact unit action,
          Cleared (fun _ _ ↦ 0) desktopOptions "desktop.xrdp" before fact unit ∧
            action ∈ ["reset-failed", "start"] ∧ argv = systemctlArgs fact unit action) ∧
    Honest (fun _ _ ↦ 0) desktopOptions "desktop.xrdp" desktopRun.2 desktopRun.1 :=
  ⟨by decide +kernel, recovery_guarded _ _ _ (Dialogue.runs_play desktopAnswer [] _)⟩

end RemoteDevbox.Box.Recover
