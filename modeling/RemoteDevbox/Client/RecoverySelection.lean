import RemoteDevbox.Client.Recovery
import RemoteDevbox.Lib.Dialogue

namespace RemoteDevbox.Client.RecoverySelection

open Js Box Recovery

/-!
# Recovering the selected components

The client collects the health, acts on what it may recover and looks again.
The world may answer anything at every step, and may change in between.
-/

/-- What a selection uses of a health document. -/
structure HealthDocument where
  components : List HealthResult

inductive ActionStatus where
  | acted
  | blocked
  | failed
  deriving DecidableEq

structure RecoveryActionResult where
  status : ActionStatus
  reason : String

inductive Question where
  | collect
  | act (component : HealthResult) (registration : RecoveryRegistration)
  | wait (milliseconds : ℕ)

/-- The answers; `none` where the call throws. -/
def Answer : Question → Type
  | .collect => Option HealthDocument
  | .act _ _ => Option RecoveryActionResult
  | .wait _ => Option Unit

abbrev Talk := Dialogue Unit Answer

def given {α : Type} : Option α → Talk α
  | some a => pure a
  | none => throw ()

def askCollect : Talk (Option HealthDocument) := Dialogue.query Question.collect

def askAct (component : HealthResult) (registration : RecoveryRegistration) :
    Talk (Option RecoveryActionResult) := Dialogue.query (Question.act component registration)

def askWait (milliseconds : ℕ) : Talk (Option Unit) := Dialogue.query (Question.wait milliseconds)

def collect : Talk HealthDocument := do
  let answer ← askCollect
  given answer

def wait (milliseconds : ℕ) : Talk Unit := do
  let answer ← askWait milliseconds
  given answer

def maxAttempts : ℕ := 3

/-- A second passes before every attempt but the first. -/
def pause (attempt : ℕ) : Talk Unit := if attempt > 0 then wait 1000 else return ()

def componentOf (document : HealthDocument) (id : String) : Option HealthResult :=
  document.components.find? (·.id == id)

def isHealthy (post : Option HealthResult) : Bool := post.any (·.status == .healthy)

/-- Looks again, at most `left` times, until the component is healthy. -/
def postProbe (id : String) : (attempt left : ℕ) → Option HealthResult → Talk (Option HealthResult)
  | _, 0, post => return post
  | attempt, left + 1, _ => do
      pause attempt
      let after ← collect
      let post := componentOf after id
      if isHealthy post then return post
      else postProbe id (attempt + 1) left post

/-- One line of the report, and whether it counts as a failure. -/
structure Report where
  line : String
  failed : Bool

def statusText : ActionStatus → String
  | .acted => "acted"
  | .blocked => "blocked"
  | .failed => "failed"

def recoverOwned (component : HealthResult) (registered : RecoveryRegistration) : Talk Report := do
  let answer ← askAct component registered
  let action ← given answer
  if action.status ≠ .acted then
    return ⟨s!"{component.id} {statusText action.status}: {action.reason}", true⟩
  else
    let post ← postProbe component.id 0 maxAttempts none
    if isHealthy post then
      return ⟨s!"{component.id} recovered: healthy after {action.reason}", false⟩
    else return ⟨s!"{component.id} failed: post_probe_failed", true⟩

def recoverComponent (component : HealthResult) : Talk Report :=
  match recoveryRegistrationFor component.id with
  | none => return ⟨s!"{component.id} refused: component_not_registered", true⟩
  | some registered =>
      match decideRecovery component registered with
      | .skip reason => return ⟨s!"{component.id} skipped: {reason}", false⟩
      | .refuse reason => return ⟨s!"{component.id} refused: {reason}", true⟩
      | .run _ =>
          match registered.ownership with
          | .boxSystemd =>
              return ⟨s!"{component.id} operator-required: sudo /usr/local/libexec/remote-devbox-doctor recover {component.id}", true⟩
          | .none => return ⟨s!"{component.id} refused: recovery_not_supported", true⟩
          | .clientAgent | .clientMount | .clientSync => recoverOwned component registered

def recoverEach : List HealthResult → Talk (List Report)
  | [] => return []
  | component :: rest => do
      let report ← recoverComponent component
      let reports ← recoverEach rest
      return report :: reports

structure RecoverySelectionResult where
  exitCode : ℕ
  lines : List String

def selection (target : String) (document : HealthDocument) : List HealthResult :=
  if target = "all" then document.components
  else document.components.filter (·.id == target)

/-- The selection, from the first collection on. -/
def recoverSelected (target : String) (before : HealthDocument) : Talk RecoverySelectionResult := do
  let selected := selection target before
  if selected.isEmpty then return ⟨1, [s!"{target} refused: component_not_found"]⟩
  else
    let reports ← recoverEach selected
    return ⟨if reports.any (·.failed) then 1 else 0, reports.map (·.line)⟩

def runRecoverySelection (target : String) : Talk RecoverySelectionResult := do
  let before ← collect
  recoverSelected target before

/-! ## What the history says -/

abbrev History := List (Exchange Answer)

def actedId : Exchange Answer → Option String
  | ⟨.act component _, _⟩ => some component.id
  | _ => none

/-- The components acted on, in order. -/
def acted (history : History) : List String := history.filterMap actedId

def isCollect : Exchange Answer → Bool
  | ⟨.collect, _⟩ => true
  | _ => false

def collections (history : History) : ℕ := history.countP isCollect

/-- What is registered and found of a component lets the client act on it. -/
structure Eligible (component : HealthResult) (registration : RecoveryRegistration) : Prop where
  registered : recoveryRegistrationFor component.id = some registration
  owned : registration.ownership = .clientAgent ∨ registration.ownership = .clientMount ∨
    registration.ownership = .clientSync
  samePolicy : component.recovery = registration.policy
  policy : registration.policy = .automatic ∨ registration.policy = .manual
  status : component.status = .degraded ∨ component.status = .failed
  reason : ∃ reason, component.reason = some reason ∧ reason ∈ registration.recoverableReasons

def Permitted (selected : List HealthResult) (_ : History) (question : Question) : Prop :=
  ∀ component registered, question = .act component registered →
    component ∈ selected ∧ Eligible component registered

/-- The line says `word` of the component. -/
def Says (component : HealthResult) (word line : String) : Prop :=
  ∃ detail, line = component.id ++ " " ++ word ++ ": " ++ detail

def Benign (component : HealthResult) (line : String) : Prop :=
  Says component "skipped" line ∨ Says component "recovered" line

def WORDS : List String := ["skipped", "recovered", "refused", "operator-required", "blocked", "failed"]

/-- The component was acted on and then collected healthy. -/
def Recovered (component : HealthResult) (history : History) : Prop :=
  ∃ before registered answer between document after,
    history = before ++ ⟨.act component registered, answer⟩ ::
      (between ++ ⟨.collect, some document⟩ :: after) ∧
    isHealthy (componentOf document component.id) = true

/-- What a report says of its component, and when it is no failure. -/
def Reported (component : HealthResult) (report : Report) (history : History) : Prop :=
  ∃ word ∈ WORDS, Says component word report.line ∧
    (report.failed = false ↔ word = "skipped" ∨ word = "recovered") ∧
    (word = "recovered" → Recovered component history)

/-! ## Words -/

theorem words_no_colon {word : String} (h : word ∈ WORDS) : ':' ∉ word.toList := by
  revert word
  decide +kernel

theorem says_toList_eq (component : HealthResult) (word detail : String) :
    (component.id ++ " " ++ word ++ ": " ++ detail).toList =
      component.id.toList ++ ' ' :: (word.toList ++ ':' :: ' ' :: detail.toList) := by
  simp [String.toList_append]

theorem says_of {component : HealthResult} {word line : String} (detail : String)
    (h : line.toList = component.id.toList ++ ' ' :: (word.toList ++ ':' :: ' ' :: detail.toList)) :
    Says component word line :=
  ⟨detail, String.toList_inj.mp (h.trans (says_toList_eq component word detail).symm)⟩

/-- A line says one word. -/
theorem says_unique {component : HealthResult} {word word' line : String} (hword : word ∈ WORDS)
    (hword' : word' ∈ WORDS) (h : Says component word line) (h' : Says component word' line) :
    word = word' := by
  obtain ⟨detail, rfl⟩ := h
  obtain ⟨detail', heq⟩ := h'
  have hlists := congrArg String.toList heq
  rw [says_toList_eq, says_toList_eq] at hlists
  have htails := List.tail_eq_of_cons_eq (List.append_cancel_left hlists)
  exact String.toList_inj.mp
    ((append_sep_inj (words_no_colon hword) (words_no_colon hword')).mp htails).1

theorem Recovered.mono {component : HealthResult} {history : History}
    (h : Recovered component history) (earlier later : History) :
    Recovered component (earlier ++ history ++ later) := by
  obtain ⟨before, registered, answer, between, document, after, rfl, hhealthy⟩ := h
  exact ⟨earlier ++ before, registered, answer, between, document, after ++ later, by simp, hhealthy⟩

theorem Reported.mono {component : HealthResult} {report : Report} {history : History}
    (h : Reported component report history) (earlier later : History) :
    Reported component report (earlier ++ history ++ later) := by
  obtain ⟨word, hword, hline, hfailed, hrecovered⟩ := h
  exact ⟨word, hword, hline, hfailed, fun hw ↦ (hrecovered hw).mono earlier later⟩

/-! ## One component -/

section

variable {selected : List HealthResult} {history : History}

theorem permitted_collect : Permitted selected history .collect := by
  rintro component registered ⟨⟩

theorem permitted_wait {milliseconds : ℕ} : Permitted selected history (.wait milliseconds) := by
  rintro component registered ⟨⟩

theorem within_given {α : Type} {allowed : History → Question → Prop}
    {Post : Except Unit α → History → Prop} {answer : Option α}
    (hsome : ∀ a, answer = some a → Post (.ok a) history) (hnone : Post (.error ()) history) :
    (given answer).Within allowed Post history := by
  cases answer with
  | none => exact hnone
  | some a => exact hsome a rfl

theorem within_askAct {allowed : History → Question → Prop}
    {Post : Except Unit (Option RecoveryActionResult) → History → Prop} {component : HealthResult}
    {registration : RecoveryRegistration} :
    (askAct component registration).Within allowed Post history ↔
      allowed history (.act component registration) ∧
        ∀ answer : Option RecoveryActionResult,
          Post (.ok answer) (history ++ [⟨.act component registration, answer⟩]) := Iff.rfl

/-- A collection adds itself to the history, and may throw. -/
theorem within_collect :
    collect.Within (Permitted selected)
      (fun result after ↦ ∃ answer : Option HealthDocument, after = history ++ [⟨.collect, answer⟩] ∧
        ∀ document, result = .ok document → answer = some document) history := by
  rw [collect, Dialogue.within_bind]
  refine ⟨permitted_collect, fun answer ↦ ?_⟩
  refine within_given (fun document hdocument ↦ ⟨_, rfl, ?_⟩) ⟨_, rfl, by simp⟩
  rintro _ ⟨⟩
  exact hdocument

theorem within_pause {attempt : ℕ} :
    (pause attempt).Within (Permitted selected)
      (fun _ after ↦ ∃ more, after = history ++ more ∧ acted more = [] ∧ collections more = 0)
      history := by
  unfold pause
  split
  · rw [wait, Dialogue.within_bind]
    refine ⟨permitted_wait, fun answer ↦ ?_⟩
    exact within_given (fun _ _ ↦ ⟨_, rfl, rfl, rfl⟩) ⟨_, rfl, rfl, rfl⟩
  · exact ⟨[], by simp, rfl, rfl⟩

theorem acted_append (a b : History) : acted (a ++ b) = acted a ++ acted b :=
  List.filterMap_append

theorem collections_append (a b : History) : collections (a ++ b) = collections a + collections b :=
  List.countP_append

/-- What looking again adds: at most `left` collections, and one that shows the
component healthy where it ends so. -/
structure Looked (id : String) (left : ℕ) (result : Except Unit (Option HealthResult))
    (more : History) : Prop where
  idle : acted more = []
  bounded : collections more ≤ left
  healthy : ∀ post, result = .ok post → isHealthy post = true →
    ∃ between document after, more = between ++ ⟨.collect, some document⟩ :: after ∧
      isHealthy (componentOf document id) = true

theorem within_postProbe {id : String} {attempt left : ℕ} {post : Option HealthResult}
    (hpost : isHealthy post = false) :
    (postProbe id attempt left post).Within (Permitted selected)
      (fun result after ↦ ∃ more, after = history ++ more ∧ Looked id left result more)
      history := by
  induction left generalizing attempt post history with
  | zero =>
      refine ⟨[], by simp, rfl, le_rfl, ?_⟩
      rintro _ ⟨⟩ hhealthy
      rw [hpost] at hhealthy
      cases hhealthy
  | succ left ih =>
      rw [postProbe, Dialogue.within_bind]
      refine within_pause.imp ?_
      rintro result after ⟨paused, rfl, hidle, hcount⟩
      cases result with
      | error e => exact ⟨paused, rfl, hidle, by omega, by simp⟩
      | ok u =>
          rw [Dialogue.onward_ok, Dialogue.within_bind]
          refine within_collect.imp ?_
          rintro result after ⟨answer, rfl, hanswer⟩
          have hidle' : acted (paused ++ [⟨.collect, answer⟩]) = [] := by
            rw [acted_append, hidle]
            rfl
          have hcount' : collections (paused ++ [⟨.collect, answer⟩]) = 1 := by
            rw [collections_append, hcount]
            rfl
          cases result with
          | error e => exact ⟨_, List.append_assoc .., hidle', by omega, by simp⟩
          | ok document =>
              obtain rfl := hanswer document rfl
              rw [Dialogue.onward_ok]
              dsimp only
              split
              · rename_i hhealthy
                refine ⟨_, List.append_assoc .., hidle', by omega, ?_⟩
                rintro _ ⟨⟩ -
                exact ⟨paused, document, [], rfl, hhealthy⟩
              · rename_i hunhealthy
                refine (ih (by simpa using hunhealthy)).imp ?_
                rintro result after ⟨more, rfl, hlooked⟩
                refine ⟨(paused ++ [⟨.collect, some document⟩]) ++ more, by simp, ?_, ?_, ?_⟩
                · rw [acted_append, hidle', hlooked.idle]
                  rfl
                · rw [collections_append, hcount', add_comm]
                  exact Nat.succ_le_succ hlooked.bounded
                · intro post hresult hhealthy
                  obtain ⟨between, document', rest, rfl, hshown⟩ :=
                    hlooked.healthy post hresult hhealthy
                  exact ⟨_, document', rest, (List.append_assoc ..).symm, hshown⟩

/-- What one component adds to the history, and what is reported of it. -/
structure Handled (component : HealthResult) (result : Except Unit Report) (more : History) :
    Prop where
  once : acted more = [] ∨ acted more = [component.id]
  bounded : collections more ≤ 3 * (acted more).length
  reported : ∀ report, result = .ok report → Reported component report more

/-- A component that is only reported on. -/
theorem handled_untouched {component : HealthResult} {word line : String} {failed : Bool}
    (hword : word ∈ WORDS) (hline : Says component word line) (hrecovered : word ≠ "recovered")
    (hfailed : failed = false ↔ word = "skipped") :
    Handled component (.ok ⟨line, failed⟩) [] where
  once := .inl rfl
  bounded := Nat.zero_le _
  reported := by
    rintro _ ⟨⟩
    refine ⟨word, hword, hline, ?_, fun h ↦ absurd h hrecovered⟩
    rw [hfailed]
    simp [hrecovered]

/-- A component that is acted on, and reported as blocked or failed. -/
theorem handled_failed {component : HealthResult} {word line : String} {more : History}
    (hacted : acted more = [component.id]) (hcount : collections more ≤ 3)
    (hword : word = "blocked" ∨ word = "failed") (hline : Says component word line) :
    Handled component (.ok ⟨line, true⟩) more where
  once := .inr hacted
  bounded := by
    rw [hacted]
    exact hcount
  reported := by
    rintro _ ⟨⟩
    refine ⟨word, ?_, hline, ?_, ?_⟩
    · rcases hword with rfl | rfl <;> decide
    · rcases hword with rfl | rfl <;> simp
    · rcases hword with rfl | rfl <;> simp

theorem within_recoverOwned {component : HealthResult} {registered : RecoveryRegistration}
    (hmem : component ∈ selected) (heligible : Eligible component registered) :
    (recoverOwned component registered).Within (Permitted selected)
      (fun result after ↦ ∃ more, after = history ++ more ∧ Handled component result more)
      history := by
  rw [recoverOwned, Dialogue.within_bind, within_askAct]
  refine ⟨?_, fun answer ↦ ?_⟩
  · rintro _ _ ⟨⟩
    exact ⟨hmem, heligible⟩
  have hacted : acted [⟨.act component registered, answer⟩] = [component.id] := rfl
  have hcount : collections [⟨.act component registered, answer⟩] = 0 := rfl
  rw [Dialogue.onward_ok, Dialogue.within_bind]
  refine within_given (fun action haction ↦ ?_) ⟨_, rfl, .inr hacted, by omega, by simp⟩
  rw [Dialogue.onward_ok]
  split
  · rename_i hnot
    have hword : statusText action.status = "blocked" ∨ statusText action.status = "failed" := by
      cases hstatus : action.status with
      | acted => exact absurd hstatus hnot
      | blocked => exact .inl rfl
      | failed => exact .inr rfl
    exact ⟨_, rfl, handled_failed hacted (by omega) hword (says_of action.reason (by simp [toString]))⟩
  rw [Dialogue.within_bind]
  refine (within_postProbe rfl).imp ?_
  rintro result after ⟨more, rfl, hlooked⟩
  have hacted' : acted ([⟨.act component registered, answer⟩] ++ more) = [component.id] := by
    rw [acted_append, hacted, hlooked.idle]
    rfl
  have hcount' : collections ([⟨.act component registered, answer⟩] ++ more) ≤ 3 := by
    rw [collections_append, hcount, Nat.zero_add]
    exact hlooked.bounded
  cases result with
  | error e =>
      refine ⟨_, List.append_assoc .., .inr hacted', ?_, by simp⟩
      rw [hacted']
      exact hcount'
  | ok post =>
      rw [Dialogue.onward_ok]
      split
      · rename_i hhealthy
        refine ⟨_, List.append_assoc .., .inr hacted', ?_, ?_⟩
        · rw [hacted']
          exact hcount'
        · rintro _ ⟨⟩
          refine ⟨"recovered", by decide, says_of ("healthy after " ++ action.reason)
            (by simp [toString]),
            by simp, fun _ ↦ ?_⟩
          obtain ⟨between, document, rest, rfl, hshown⟩ := hlooked.healthy post rfl hhealthy
          exact ⟨[], registered, answer, between, document, rest, rfl, hshown⟩
      · exact ⟨_, List.append_assoc .., handled_failed hacted' hcount' (.inr rfl)
          (says_of "post_probe_failed" (by simp [toString]))⟩

theorem eligible_of_run {component : HealthResult} {registered registered' : RecoveryRegistration}
    (hregistered : recoveryRegistrationFor component.id = some registered)
    (hrun : decideRecovery component registered = .run registered')
    (howned : registered.ownership = .clientAgent ∨ registered.ownership = .clientMount ∨
      registered.ownership = .clientSync) : Eligible component registered := by
  unfold decideRecovery at hrun
  cases hstatus : component.status with
  | healthy | recovering | unknown | blocked =>
      rw [hstatus] at hrun
      cases hrun
  | degraded | failed =>
      rw [hstatus] at hrun
      dsimp only at hrun
      split at hrun
      · cases hrun
      rename_i hpolicy
      split at hrun
      · cases hrun
      rename_i hnone
      split at hrun
      · cases hrun
      rename_i hconfirmed
      split at hrun
      · cases hrun
      rename_i reason hreason
      split at hrun
      · cases hrun
      rename_i hlisted
      refine ⟨hregistered, howned, not_not.mp hpolicy, ?_, by simp [hstatus], reason, hreason, ?_⟩
      · cases hkind : registered.policy with
        | automatic => exact .inl rfl
        | manual => exact .inr rfl
        | confirmationRequired => exact absurd hkind hconfirmed
        | none => exact absurd hkind hnone
      · by_contra hmissing
        exact hlisted (.inr (by simpa using hmissing))

theorem within_recoverComponent {component : HealthResult} (hmem : component ∈ selected) :
    (recoverComponent component).Within (Permitted selected)
      (fun result after ↦ ∃ more, after = history ++ more ∧ Handled component result more)
      history := by
  have huntouched : ∀ (word line : String) (failed : Bool), word ∈ WORDS → Says component word line →
      word ≠ "recovered" → (failed = false ↔ word = "skipped") →
        ∃ more, history = history ++ more ∧ Handled component (.ok ⟨line, failed⟩) more :=
    fun word line failed hword hline hrecovered hfailed ↦
      ⟨[], by simp, handled_untouched hword hline hrecovered hfailed⟩
  unfold recoverComponent
  split
  · exact huntouched "refused" _ _ (by decide) (says_of "component_not_registered" (by simp [toString]))
      (by decide) (by decide)
  rename_i registered hregistered
  split
  · rename_i reason _
    exact huntouched "skipped" _ _ (by decide) (says_of reason (by simp [toString])) (by decide) (by decide)
  · rename_i reason _
    exact huntouched "refused" _ _ (by decide) (says_of reason (by simp [toString])) (by decide) (by decide)
  rename_i hrun
  have heligible := eligible_of_run hregistered hrun
  split
  · exact huntouched "operator-required" _ _ (by decide)
      (says_of ("sudo /usr/local/libexec/remote-devbox-doctor recover " ++ component.id)
        (by simp [toString])) (by decide)
      (by decide)
  · exact huntouched "refused" _ _ (by decide) (says_of "recovery_not_supported" (by simp [toString]))
      (by decide) (by decide)
  · rename_i howner
    exact within_recoverOwned hmem (heligible (by simp [howner]))
  · rename_i howner
    exact within_recoverOwned hmem (heligible (by simp [howner]))
  · rename_i howner
    exact within_recoverOwned hmem (heligible (by simp [howner]))

/-! ## All of them -/

/-- What the selected components add to the history, and what is reported of
them. -/
structure HandledAll (components : List HealthResult) (result : Except Unit (List Report))
    (more : History) : Prop where
  once : (acted more).Sublist (components.map (·.id))
  bounded : collections more ≤ 3 * (acted more).length
  reported : ∀ reports, result = .ok reports →
    List.Forall₂ (fun component report ↦ Reported component report more) components reports

theorem within_recoverEach {components : List HealthResult} (h : ∀ c ∈ components, c ∈ selected) :
    (recoverEach components).Within (Permitted selected)
      (fun result after ↦ ∃ more, after = history ++ more ∧ HandledAll components result more)
      history := by
  induction components generalizing history with
  | nil =>
      refine ⟨[], by simp, by simp [acted], Nat.zero_le _, ?_⟩
      rintro _ ⟨⟩
      exact .nil
  | cons component rest ih =>
      rw [recoverEach, Dialogue.within_bind]
      refine (within_recoverComponent (h _ List.mem_cons_self)).imp ?_
      rintro result after ⟨first, rfl, hfirst⟩
      have honce : (acted first).Sublist [component.id] := by
        rcases hfirst.once with hnone | hone
        · rw [hnone]
          exact List.nil_sublist _
        · rw [hone]
      cases result with
      | error e =>
          refine ⟨first, rfl, honce.trans ?_, hfirst.bounded, by simp⟩
          exact List.singleton_sublist.mpr List.mem_cons_self
      | ok report =>
          rw [Dialogue.onward_ok, Dialogue.within_bind]
          refine (ih fun c hc ↦ h c (List.mem_cons_of_mem _ hc)).imp ?_
          rintro result after ⟨others, rfl, hothers⟩
          have hacted : (acted (first ++ others)).Sublist
              ((component :: rest).map (·.id)) := by
            rw [acted_append]
            exact honce.append hothers.once
          have hbounded : collections (first ++ others) ≤ 3 * (acted (first ++ others)).length := by
            rw [collections_append, acted_append, List.length_append]
            have hle := Nat.add_le_add hfirst.bounded hothers.bounded
            omega
          cases result with
          | error e => exact ⟨_, List.append_assoc .., hacted, hbounded, by simp⟩
          | ok reports =>
              refine ⟨_, List.append_assoc .., hacted, hbounded, ?_⟩
              rintro _ ⟨⟩
              refine .cons ?_ ?_
              · exact (hfirst.reported report rfl).mono [] others
              · refine (hothers.reported reports rfl).imp fun c r hr ↦ ?_
                have hmono := hr.mono first []
                rwa [List.append_nil] at hmono

end

/-- What a whole selection comes to, once the first collection has shown
`document`. -/
structure Selected (target : String) (document : HealthDocument) (history : History)
    (result : Except Unit RecoverySelectionResult) : Prop where
  once : (acted history).Nodup
  guarded : ∀ component registered answer, ⟨.act component registered, answer⟩ ∈ history →
    component ∈ selection target document ∧ Eligible component registered
  bounded : collections history ≤ 3 * (acted history).length + 1
  notFound : ∀ outcome, result = .ok outcome → selection target document = [] →
    outcome.lines = [s!"{target} refused: component_not_found"]
  reported : ∀ outcome, result = .ok outcome → selection target document ≠ [] →
    List.Forall₂ (fun component line ↦ (∃ word ∈ WORDS, Says component word line) ∧
      (Says component "recovered" line → Recovered component history))
      (selection target document) outcome.lines
  exit : ∀ outcome, result = .ok outcome →
    (outcome.exitCode = 0 ↔ selection target document ≠ [] ∧
      List.Forall₂ Benign (selection target document) outcome.lines)

section

variable {target : String} {document : HealthDocument}

theorem selection_ids (hids : (document.components.map (·.id)).Nodup) :
    ((selection target document).map (·.id)).Nodup := by
  unfold selection
  split
  · exact hids
  · exact hids.sublist (List.filter_sublist.map _)

theorem Reported.benign_iff {component : HealthResult} {report : Report} {history : History}
    (h : Reported component report history) :
    report.failed = false ↔ Benign component report.line := by
  obtain ⟨word, hword, hline, hfailed, -⟩ := h
  rw [hfailed]
  constructor
  · rintro (rfl | rfl)
    · exact .inl hline
    · exact .inr hline
  · rintro (hskipped | hrecovered)
    · exact .inl (says_unique hword (by decide) hline hskipped)
    · exact .inr (says_unique hword (by decide) hline hrecovered)

theorem Reported.recovered {component : HealthResult} {report : Report} {history : History}
    (h : Reported component report history) (hline : Says component "recovered" report.line) :
    Recovered component history := by
  obtain ⟨word, hword, hline', -, hrecovered⟩ := h
  exact hrecovered (says_unique hword (by decide) hline' hline)

/-- No report is a failure exactly where every line is benign. -/
theorem benign_iff {components : List HealthResult} {reports : List Report} {history : History}
    (h : List.Forall₂ (fun component report ↦ Reported component report history) components
      reports) :
    reports.any (·.failed) = false ↔ List.Forall₂ Benign components (reports.map (·.line)) := by
  induction h with
  | nil => simp
  | cons hreport hrest ih =>
      rw [List.any_cons, Bool.or_eq_false_iff, ih, hreport.benign_iff, List.map_cons,
        List.forall₂_cons]

theorem within_recoverSelected (history : History) :
    (recoverSelected target document).Within (Permitted (selection target document))
      (fun result after ↦
        (result = .ok ⟨1, [s!"{target} refused: component_not_found"]⟩ ∧
          selection target document = [] ∧ after = history) ∨
        ∃ more, after = history ++ more ∧ selection target document ≠ [] ∧
          ((∃ e, result = .error e) ∧ HandledAll (selection target document) (.error ()) more ∨
            ∃ reports, result =
                .ok ⟨if reports.any (·.failed) then 1 else 0, reports.map (·.line)⟩ ∧
              HandledAll (selection target document) (.ok reports) more)) history := by
  unfold recoverSelected
  dsimp only
  split
  · rename_i hempty
    exact .inl ⟨rfl, List.isEmpty_iff.mp hempty, rfl⟩
  · rename_i hsome
    have hne : selection target document ≠ [] := fun h ↦ hsome (List.isEmpty_iff.mpr h)
    rw [Dialogue.within_bind]
    refine (within_recoverEach fun c hc ↦ hc).imp ?_
    rintro result after ⟨more, rfl, hall⟩
    cases result with
    | error e => exact .inr ⟨more, rfl, hne, .inl ⟨⟨e, rfl⟩, hall⟩⟩
    | ok reports => exact .inr ⟨more, rfl, hne, .inr ⟨reports, rfl, hall⟩⟩

/-- What holds of the whole history where the components were handled. -/
theorem HandledAll.selected {more : History} {handled : Except Unit (List Report)}
    {result : Except Unit RecoverySelectionResult}
    (hall : HandledAll (selection target document) handled more)
    (hids : (document.components.map (·.id)).Nodup)
    (hne : selection target document ≠ [])
    (hguarded : ∀ component registered answer, ⟨.act component registered, answer⟩ ∈ more →
      component ∈ selection target document ∧ Eligible component registered)
    (hresult : ∀ outcome, result = .ok outcome → ∃ reports, handled = .ok reports ∧
      outcome = ⟨if reports.any (·.failed) then 1 else 0, reports.map (·.line)⟩) :
    Selected target document (⟨.collect, some document⟩ :: more) result where
  once := (selection_ids hids).sublist hall.once
  guarded := by
    intro component registered answer hmem
    rcases List.mem_cons.mp hmem with heq | hmem
    · cases heq
    · exact hguarded component registered answer hmem
  bounded := by
    have hcount : collections (⟨.collect, some document⟩ :: more) = collections more + 1 :=
      List.countP_cons_of_pos rfl
    rw [hcount]
    exact Nat.succ_le_succ hall.bounded
  notFound := fun outcome _ hempty ↦ absurd hempty hne
  reported := by
    intro outcome houtcome _
    obtain ⟨reports, hhandled, rfl⟩ := hresult outcome houtcome
    refine List.forall₂_map_right_iff.mpr ((hall.reported reports hhandled).imp ?_)
    intro component report hreport
    refine ⟨?_, fun hline ↦ ?_⟩
    · obtain ⟨word, hword, hline, -⟩ := hreport
      exact ⟨word, hword, hline⟩
    · have hrecovered := (hreport.recovered hline).mono [⟨.collect, some document⟩] []
      rwa [List.append_nil] at hrecovered
  exit := by
    intro outcome houtcome
    obtain ⟨reports, hhandled, rfl⟩ := hresult outcome houtcome
    rw [← benign_iff (hall.reported reports hhandled)]
    dsimp only
    cases reports.any (·.failed) <;> simp [hne]

end

/-- Whatever the actions and the collections answer. -/
theorem selection_sound (target : String) {document : HealthDocument} {rest : History}
    {result : Except Unit RecoverySelectionResult}
    (hids : (document.components.map (·.id)).Nodup)
    (hrun : (runRecoverySelection target).Runs (⟨.collect, some document⟩ :: rest) result) :
    Selected target document (⟨.collect, some document⟩ :: rest) result := by
  have hrest : (recoverSelected target document).Runs rest result := by
    cases hrun with
    | ask _ hnext => exact hnext
  obtain ⟨hquestions, hresult⟩ := hrest.within (within_recoverSelected [])
  have hguarded : ∀ component registered answer, ⟨.act component registered, answer⟩ ∈ rest →
      component ∈ selection target document ∧ Eligible component registered := by
    intro component registered answer hmem
    obtain ⟨before, after, hsplit⟩ := List.append_of_mem hmem
    exact hquestions before _ answer after hsplit component registered rfl
  rcases hresult with ⟨rfl, hempty, hnone⟩ | ⟨more, hmore, hne, hhandled⟩
  · rw [List.nil_append] at hnone
    subst hnone
    refine ⟨List.nodup_nil, ?_, le_refl 1, ?_, ?_, ?_⟩
    · intro component registered answer hmem
      cases List.mem_singleton.mp hmem
    · rintro _ ⟨⟩ -
      rfl
    · rintro _ - hne
      exact absurd hempty hne
    · rintro _ ⟨⟩
      simp [hempty]
  · obtain rfl : rest = more := by simpa using hmore
    rcases hhandled with ⟨⟨e, rfl⟩, hall⟩ | ⟨reports, rfl, hall⟩
    · exact hall.selected hids hne hguarded (by simp)
    · refine hall.selected hids hne hguarded ?_
      rintro _ ⟨⟩
      exact ⟨reports, rfl, rfl⟩

/-- A sync session that is paused until it is acted on. -/
def syncAnswer (history : History) : (question : Question) → Answer question
  | .collect =>
      let status := if (acted history).isEmpty then HealthStatus.failed else .healthy
      some (⟨[⟨"client.sync.ada", status, some "sync_paused", .automatic⟩]⟩ : HealthDocument)
  | .act _ _ => some (⟨.acted, "sync_resumed"⟩ : RecoveryActionResult)
  | .wait _ => some ()

def syncRun : History × Except Unit RecoverySelectionResult :=
  Dialogue.play syncAnswer [] (runRecoverySelection "all")

def pausedSync : HealthDocument :=
  ⟨[⟨"client.sync.ada", .failed, some "sync_paused", .automatic⟩]⟩

theorem paused_sync_recovered :
    syncRun.2.toOption.map (fun outcome ↦ (outcome.exitCode, outcome.lines)) =
      some (0, ["client.sync.ada recovered: healthy after sync_resumed"]) ∧
    Selected "all" pausedSync syncRun.1 syncRun.2 :=
  ⟨by decide +kernel, @selection_sound "all" pausedSync _ _ (by simp [pausedSync])
    (Dialogue.runs_play syncAnswer [] (runRecoverySelection "all"))⟩

end RemoteDevbox.Client.RecoverySelection
