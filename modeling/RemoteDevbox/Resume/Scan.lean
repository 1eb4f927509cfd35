import RemoteDevbox.Lib.Py.Text
import RemoteDevbox.Resume.BridgeMap
import Mathlib.Algebra.Order.Round
import Mathlib.Data.Rat.Floor

namespace RemoteDevbox.Resume.Scan

open Py

/-!
# The resume scan

The scan reads the transcripts and workflow files of the sessions of an instance
and prints a plan. The error that one of its reads raises ends the whole scan.
-/

/-! ## Sessions on disk -/

def isControl (p : Point) : Bool :=
  p == .char '\t' || p == .char '\n' || p == .char '\x00'

/-- A text that passes through the shell as it is. -/
def Plain (s : Str) : Prop := s ≠ [] ∧ encodable s = true ∧ ∀ p ∈ s, isControl p = false

instance (s : Str) : Decidable (Plain s) := inferInstanceAs (Decidable (_ ∧ _ ∧ _))

/-- The transcript is `none` where it is no UTF-8; a line of it, or a workflow
file, is `none` where it is no JSON. -/
structure Session where
  cse : Str
  uuid : Str
  ageHours : ℚ
  hasWorktree : Bool
  transcript : Option (List (Option Value))
  workflows : List (Option Value)
  plain_cse : Plain cse
  plain_uuid : Plain uuid
  not_comment : uuid.head? ≠ some (.char '#')

/-- What the scripts are given besides. -/
structure Env where
  rt : Runtime
  project : Str
  wtBase : Str
  rundir : Str
  lookbackHours : ℚ
  now : ℚ
  maxAttempts : ℤ
  encodable_project : encodable project = true
  plain_wtBase : Plain wtBase
  plain_rundir : Plain rundir

structure KilledWorkflow where
  runId : Value
  name : Value
  scriptPath : Value
  status : Value
  agents : Value

structure Interrupted where
  cse : Str
  uuid : Str
  worktree : Str
  permissionMode : Value
  ageHundredths : ℤ
  killedWorkflows : List KilledWorkflow
  midResponse : Bool
  name : Str

def isStr (v : Value) (s : String) : Bool :=
  match v with
  | .str t => t == str s
  | _ => false

/-- `v is None` -/
def isNone : Value → Bool
  | .none => true
  | _ => false

/-! ## The script -/

section Script

variable (env : Env)

/-- The records of a transcript; lines that are no JSON are passed over. Bytes
that are no UTF-8 raise an error that counts as a `ValueError`. -/
def load (s : Session) : Py (List Value) :=
  match s.transcript with
  | none => .error .valueError
  | some lines => .ok lines.reduceOption

/-- The mode a record tells, or a false value. -/
def recordMode (o : Value) : Py Value := do
  let own ← o.get (str "permissionMode")
  if own.truthy then return own
  else
    let message ← o.get (str "message")
    (message.orElse (.dict [])).get (str "permissionMode")

def modes : List Value → Value → Py Value
  | [], pm => .ok pm
  | o :: recs, pm => do
      let v ← recordMode o
      modes recs (if v.truthy then v else pm)

def lastPermissionMode (recs : List Value) : Py Value := do
  let pm ← modes recs .none
  return pm.orElse (.str (str "default"))

/-- Over the records from the last one on. -/
def endedMid : List Value → Py Bool
  | [] => .ok false
  | o :: recs => do
      let t ← o.get (str "type")
      if isStr t "assistant" then return false
      else if isStr t "user" then return true
      else endedMid recs

def endedMidResponse (recs : List Value) : Py Bool := endedMid recs.reverse

/-- The text of a block, if it is one of text. -/
def textBlock : Value → Option Str
  | .dict b => if isStr (item b "type") "text" then some ((item b "text").textOr env.rt.repr)
      else none
  | _ => none

def textBlocks (rec : Value) : Py (List Str) := do
  let m ← rec.get (str "message")
  match m with
  | .dict m =>
      match item m "content" with
      | .str c => return [c]
      | .list c => return c.filterMap (textBlock env)
      | _ => return []
  | _ => return []

def customTitles : List Value → Option Str → Py (Option Str)
  | [], title => .ok title
  | o :: recs, title => do
      let t ← o.get (str "type")
      if isStr t "custom-title" then
        let customTitle ← o.get (str "customTitle")
        let v := strip (customTitle.textOr env.rt.repr)
        customTitles recs (if v ≠ [] then some v else title)
      else customTitles recs title

def lastCustomTitle (recs : List Value) : Py (Option Str) := customTitles env recs none

/-- What a block gives for a title. -/
def blockLine (limit : ℕ) (block : Str) : Option Str :=
  let text := strip block
  if text = [] || startsWith text "<" || startsWith text "Caveat:" ||
      startsWith text "[automated resume notice" then none
  else
    let line := strip ((firstLine text).filter env.rt.prints)
    if line ≠ [] then some (rstrip (line.take limit)) else none

def firstUserLine (limit : ℕ) : List Value → Py (Option Str)
  | [] => .ok none
  | o :: recs => do
      let t ← o.get (str "type")
      let isMeta ← o.get (str "isMeta")
      if !isStr t "user" || isMeta.truthy then firstUserLine limit recs
      else
        let blocks ← textBlocks env o
        match blocks.findSome? (blockLine env limit) with
        | some line => return some line
        | none => firstUserLine limit recs

/-- The name of the first killed workflow, unless it is blank. -/
def workflowName (killed : List KilledWorkflow) : Option Str :=
  killed.head?.bind fun w ↦
    let wf := strip (w.name.textOr env.rt.repr)
    if wf ≠ [] then some wf else none

/-- An empty text does not count as a candidate. -/
def resolveName (recs : List Value) (killed : List KilledWorkflow) (uuid : Str) : Py Str :=
  match workflowName env killed with
  | some wf => .ok wf
  | none => do
      let title ← lastCustomTitle env recs
      let line ← firstUserLine env 60 recs
      return ((title.filter (· ≠ [])).or (line.filter (· ≠ []))).getD
        (env.project ++ str " · " ++ uuid.take 8)

/-- A workflow file, unless its run is complete. -/
def killedWorkflow (o : Value) : Py (Option KilledWorkflow) := do
  let status ← o.get (str "status")
  let result ← o.get (str "result")
  if !isStr status "completed" && isNone result then
    let runId ← o.get (str "runId")
    let name ← o.get (str "workflowName")
    let scriptPath ← o.get (str "scriptPath")
    let agents ← o.get (str "agentCount")
    return some ⟨runId, name, scriptPath, status, agents⟩
  else return none

def killedWorkflows (files : List (Option Value)) : Py (List KilledWorkflow) := do
  let res ← files.reduceOption.mapM killedWorkflow
  return res.reduceOption

/-- `round(h, 2)`, in hundredths: half goes to the even neighbour. -/
def hundredths (h : ℚ) : ℤ :=
  let below := ⌊h * 100⌋
  let rest := h * 100 - below
  if rest < 1 / 2 || (rest = 1 / 2 && below % 2 = 0) then below else below + 1

def worktree (s : Session) : Str := env.wtBase ++ str "/bridge-" ++ s.cse

/-- A session that is to be resumed, as far as its own files are not read. -/
def Env.scans (s : Session) : Bool := decide (¬s.ageHours > env.lookbackHours)

def scanSession (s : Session) : Py (Option Interrupted) := do
  if !env.scans s then return none
  else
    let recs ← load s
    if !s.hasWorktree then return none
    else
      let kw ← killedWorkflows s.workflows
      let permissionMode ← lastPermissionMode recs
      let midResponse ← endedMidResponse recs
      let name ← resolveName env recs kw s.uuid
      return some ⟨s.cse, s.uuid, worktree env s, permissionMode, hundredths s.ageHours, kw,
        midResponse, name⟩

def KilledWorkflow.encodable (w : KilledWorkflow) : Bool :=
  w.runId.encodable && w.name.encodable && w.scriptPath.encodable && w.status.encodable &&
    w.agents.encodable

/-- The entry can be printed. -/
def Interrupted.encodable (p : Interrupted) : Bool :=
  Py.encodable p.cse && Py.encodable p.uuid && Py.encodable p.worktree &&
    p.permissionMode.encodable && p.killedWorkflows.all KilledWorkflow.encodable &&
    Py.encodable p.name

/-- The plan as it is printed. -/
def scan (sessions : List Session) : Py (List Interrupted) := do
  let found ← sessions.mapM (scanSession env)
  let plan := found.reduceOption.mergeSort fun p q ↦ p.ageHundredths ≤ q.ageHundredths
  if plan.all Interrupted.encodable then return plan
  else .error .unicodeEncodeError

end Script

end RemoteDevbox.Resume.Scan
