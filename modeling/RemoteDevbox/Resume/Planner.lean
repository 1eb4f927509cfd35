import RemoteDevbox.Lib.Shell
import RemoteDevbox.Resume.ScanFacts

namespace RemoteDevbox.Resume.Scan

open Py

/-!
# The resume planner

The planner counts the attempts of the sessions in a plan and prints a row for
each one that is not quarantined; the shell reads the rows back. What the planner
is given comes through the environment, so all of it has a UTF-8 form.
-/

/-! ## Rows -/

structure Row where
  uuid : Str
  perm : Str
  namefile : Str
  noticefile : Str
  worktree : Str
  bridgefile : Str
  deriving DecidableEq

/-- What the planner writes into the three files of a row; `none` where it removes
the file. -/
structure Files where
  name : Str
  notice : Str
  bridge : Option Str

def Row.line (r : Row) : Str :=
  join "\t" [r.uuid, r.perm, r.namefile, r.noticefile, r.worktree, r.bridgefile]

/-- `IFS=$'\t' read -r uuid perm namefile noticefile worktree bridgefile` -/
def Row.read (line : Str) : Row :=
  let (uuid, line) := Shell.word (.char '\t') line
  let (perm, line) := Shell.word (.char '\t') line
  let (namefile, line) := Shell.word (.char '\t') line
  let (noticefile, line) := Shell.word (.char '\t') line
  let (worktree, line) := Shell.word (.char '\t') line
  ⟨uuid, perm, namefile, noticefile, worktree, Shell.lastWord (.char '\t') line⟩

/-! ## Attempts -/

/-- The number a value stands for in arithmetic with a float. -/
def operand : Value → Py Double
  | .float x => .ok x
  | .int z => if z.natAbs < Value.floatLimit then .ok (.fin z) else .error .overflowError
  | .bool b => .ok (.fin (if b then 1 else 0))
  | _ => .error .typeError

/-- `count >= maxatt` -/
def atLeast (maxatt : ℤ) (count : Value) : Py Bool :=
  match count.number with
  | some (.fin q) => .ok (decide (q ≥ maxatt))
  | some .inf => .ok true
  | some .ninf => .ok false
  | some .nan => .ok false
  | none => .error .typeError

/-- `count + 1` -/
def increment : Value → Py Value
  | .bool b => .ok (.int (if b then 2 else 1))
  | .int z => .ok (.int (z + 1))
  | .float (.fin q) => .ok (.float (.fin (q + 1)))
  | .float x => .ok (.float x)
  | _ => .error .typeError

/-- The entry of a session that has none. -/
def noAttempts : Value := .dict [(str "count", .int 0), (str "last", .int 0)]

/-- The entry of a session, its counter reset if the last attempt was long ago. -/
def attempt (now : ℚ) (state : Value) (uuid : Str) : Py (List (Str × Value)) :=
  match state with
  | .dict fields =>
      match (fields.lookup uuid).getD noAttempts with
      | .dict st => do
          let last ← operand ((st.lookup (str "last")).getD (.int 0))
          return if expired now 3600 last then assign st (str "count") (.int 0) else st
      | _ => .error .attributeError
  | _ => .error .attributeError

/-- `st["count"]` -/
def countOf (st : List (Str × Value)) : Py Value :=
  match st.lookup (str "count") with
  | some count => .ok count
  | none => .error .keyError

/-- `state[uuid] = st` -/
def store (state : Value) (uuid : Str) (st : List (Str × Value)) : Value :=
  match state with
  | .dict fields => .dict (assign fields uuid (.dict st))
  | _ => state

/-- A reset counter stays in the record, if the state has one for the session. -/
def reset (state : Value) (uuid : Str) (st : List (Str × Value)) : Value :=
  match state with
  | .dict fields => if (fields.lookup uuid).isSome then store state uuid st else state
  | _ => state

/-! ## The script -/

section Script

variable (env : Env)

/-- A session whose workflows were killed is told which ones to resume. -/
def noticeOf (kw : List KilledWorkflow) : Str :=
  if kw ≠ [] then
    let wl := join "; " (kw.map fun w ↦ w.name.text env.rt.repr ++ str " resumeFromRunId=\"" ++
      w.runId.text env.rt.repr ++ str "\"")
    str "[automated resume notice — system, not the user] The host OOM-killed this run " ++
      str "and it was restarted. Per your resume-context system guidance, resume the aborted " ++
      str "workflow(s) now via the Workflow tool: " ++ wl ++
      str ". The completed agent prefix replays from cache; only the aborted/remaining agents " ++
      str "re-run. Do not re-run any workflow that already finished. Then continue the user's " ++
      str "work to completion, seamlessly, in the conversation's language."
  else
    str "[automated resume notice — system, not the user] The host OOM-killed this run and it " ++
      str "was restarted. Per your resume-context system guidance, silently continue any " ++
      str "unfinished work where it left off; if your last turn was already complete, just " ++
      str "continue naturally or wait for the user. Do not post a bare acknowledgment."

def nameOf (p : Interrupted) : Str :=
  if strip p.name ≠ [] then strip p.name else env.project ++ str " · " ++ p.uuid.take 8

/-- The pointer a session gets, if the map holds a usable one. -/
def pointer (bmap : List (Str × Value)) (uuid : Str) : Option Str :=
  match bmap.lookup uuid with
  | some (.dict entry) =>
      let bid := (item entry "bridge").textOr env.rt.repr
      if reMatch BRIDGE_RE bid then some bid else none
  | _ => none

def fileOf (uuid : Str) (extension : String) : Str :=
  env.rundir ++ str "/" ++ uuid ++ str extension

def rowOf (p : Interrupted) (perm : Str) : Row :=
  ⟨p.uuid, perm, fileOf env p.uuid ".name", fileOf env p.uuid ".notice", p.worktree,
    fileOf env p.uuid ".bridge"⟩

def quarantineLine (uuid : Str) (count : Value) : Str :=
  str "# quarantined " ++ uuid ++ str " (" ++ count.text env.rt.repr ++
    str " attempts in <1h) — skipping"

inductive Outcome where
  | quarantined (line : Str)
  | planned (row : Row) (files : Files)

/-- One session of the plan, with the state as it is left. -/
def planOne (bmap : List (Str × Value)) (state : Value) (p : Interrupted) :
    Py (Value × Outcome) := do
  let st ← attempt env.now state p.uuid
  let count ← countOf st
  let capped ← atLeast env.maxAttempts count
  if capped then return (reset state p.uuid st, .quarantined (quarantineLine env p.uuid count))
  else
    let count ← increment count
    let st := assign (assign st (str "count") count) (str "last") (.float (.fin env.now))
    let files : Files := ⟨nameOf env p, noticeOf env p.killedWorkflows, pointer env bmap p.uuid⟩
    match p.permissionMode with
    | .str perm => return (store state p.uuid st, .planned (rowOf env p perm) files)
    | _ => .error .typeError

/-- The comments are printed at once, the rows at the end. -/
structure Output where
  comments : List Str
  result : Py (Value × List (Row × Files))

def planAll (bmap : List (Str × Value)) : Value → List Interrupted → Output
  | state, [] => ⟨[], .ok (state, [])⟩
  | state, p :: plan =>
      match planOne env bmap state p with
      | .error e => ⟨[], .error e⟩
      | .ok (state, .quarantined line) =>
          let o := planAll bmap state plan
          ⟨line :: o.comments, o.result⟩
      | .ok (state, .planned row files) =>
          let o := planAll bmap state plan
          ⟨o.comments, o.result.map fun r ↦ (r.1, (row, files) :: r.2)⟩

/-- A map that cannot be loaded, or is no object, counts as an empty one. -/
def bridgeMap : Option Value → List (Str × Value)
  | some (.dict bmap) => bmap
  | _ => []

def planner (attempts bmap : Option Value) (plan : List Interrupted) : Output :=
  planAll env (bridgeMap bmap) (attempts.getD (.dict [])) plan

/-- What the planner prints. -/
def Output.lines (o : Output) : List Str :=
  o.comments ++
    match o.result with
    | .ok (_, rows) => rows.map fun r ↦ r.1.line
    | .error _ => []

/-! ## The launch loop -/

/-- A line the loop launches a session for. -/
def launchOf (line : Str) : Option Row :=
  let r := Row.read line
  if r.uuid = [] || r.uuid.head? = some (.char '#') then none else some r

def launches (out : List Str) : List Row :=
  ((Shell.substitution (.char '\x00') (.char '\n') (out.flatMap (· ++ [.char '\n']))).splitOn
    (.char '\n')).filterMap launchOf

/-- How a resume cycle ends, and what it launches. -/
structure Cycle where
  raised : Option Raised
  launches : List Row

/-- Where the scan fails the adapter says that there is nothing to resume. -/
def cycle (sessions : List Session) (attempts bmap : Option Value) : Cycle :=
  match scan env sessions with
  | .error e => ⟨some e, []⟩
  | .ok [] => ⟨none, []⟩
  | .ok (p :: plan) =>
      let o := planner env attempts bmap (p :: plan)
      ⟨match o.result with
        | .ok _ => none
        | .error e => some e, launches o.lines⟩

end Script

/-! ## Reading rows back -/

section Rows

theorem plain_append {s t : Str} (hs : Plain s) (ht : ∀ p ∈ t, isControl p = false)
    (henc : encodable t = true) : Plain (s ++ t) := by
  obtain ⟨hne, hs, hcontrol⟩ := hs
  refine ⟨by simp [hne], by simp [hs, henc], fun p hp ↦ ?_⟩
  rcases List.mem_append.mp hp with hp | hp
  · exact hcontrol p hp
  · exact ht p hp

theorem not_mem_of_control {s : Str} (hs : ∀ p ∈ s, isControl p = false) {p : Point}
    (hp : isControl p = true) : p ∉ s := by
  intro hmem
  rw [hs p hmem] at hp
  cases hp

structure Row.Plain (r : Row) : Prop where
  uuid : Scan.Plain r.uuid
  perm : Scan.Plain r.perm
  namefile : Scan.Plain r.namefile
  noticefile : Scan.Plain r.noticefile
  worktree : Scan.Plain r.worktree
  bridgefile : Scan.Plain r.bridgefile

theorem Row.line_eq (r : Row) : r.line = r.uuid ++ .char '\t' :: (r.perm ++ .char '\t' ::
    (r.namefile ++ .char '\t' :: (r.noticefile ++ .char '\t' :: (r.worktree ++ .char '\t' ::
      r.bridgefile)))) := by
  have htab : str "\t" = [.char '\t'] := by decide
  simp only [Row.line, join, htab, List.intercalate_cons_cons, List.intercalate_singleton,
    List.append_assoc, List.singleton_append]

/-- A row of plain texts is read as it was written. -/
theorem Row.read_line {r : Row} (h : r.Plain) : Row.read r.line = r := by
  have hword : ∀ {s : Str}, Scan.Plain s → ∀ line,
      Shell.word (.char '\t') (s ++ .char '\t' :: line) = (s, .char '\t' :: line) :=
    fun hs line ↦ Shell.word_append hs.1 (not_mem_of_control hs.2.2 (by decide)) line
  have hlast : Shell.lastWord (.char '\t') r.bridgefile = r.bridgefile :=
    Shell.lastWord_self h.bridgefile.1 (not_mem_of_control h.bridgefile.2.2 (by decide))
  rw [Row.read, Row.line_eq, hword h.uuid]
  simp only [Shell.word_sep_cons, Shell.lastWord_sep_cons, hword h.perm, hword h.namefile,
    hword h.noticefile, hword h.worktree, hlast]

theorem Row.line_ne_nil (r : Row) : r.line ≠ [] := by
  rw [Row.line_eq]
  simp

theorem Row.mem_line {r : Row} {p : Point} (hp : p ∈ r.line) : p = .char '\t' ∨ p ∈ r.uuid ∨
    p ∈ r.perm ∨ p ∈ r.namefile ∨ p ∈ r.noticefile ∨ p ∈ r.worktree ∨ p ∈ r.bridgefile := by
  rw [Row.line_eq] at hp
  simp only [List.mem_append, List.mem_cons] at hp
  tauto

theorem Row.not_mem_line {r : Row} (h : r.Plain) {p : Point} (hcontrol : isControl p = true)
    (htab : p ≠ .char '\t') : p ∉ r.line := by
  intro hp
  rcases Row.mem_line hp with hp | hp | hp | hp | hp | hp | hp
  · exact htab hp
  · exact not_mem_of_control h.uuid.2.2 hcontrol hp
  · exact not_mem_of_control h.perm.2.2 hcontrol hp
  · exact not_mem_of_control h.namefile.2.2 hcontrol hp
  · exact not_mem_of_control h.noticefile.2.2 hcontrol hp
  · exact not_mem_of_control h.worktree.2.2 hcontrol hp
  · exact not_mem_of_control h.bridgefile.2.2 hcontrol hp

/-- A comment of the planner. -/
structure Comment (line : Str) : Prop where
  starts : line.head? = some (.char '#')
  plain : ∀ p ∈ line, isControl p = false

theorem launchOf_comment {line : Str} (h : Comment line) : launchOf line = none := by
  obtain ⟨hstarts, _⟩ := h
  cases line with
  | nil => cases hstarts
  | cons p line =>
      obtain rfl := Option.some.inj hstarts
      have huuid : (Row.read (.char '#' :: line)).uuid.head? = some (.char '#') := by
        simp [Row.read, Shell.word]
      simp [launchOf, huuid]

theorem launchOf_line {r : Row} (h : r.Plain) (hcomment : r.uuid.head? ≠ some (.char '#')) :
    launchOf r.line = some r := by
  simp [launchOf, Row.read_line h, h.uuid.1, hcomment]

/-- What is launched for comments and rows of plain texts are the rows. -/
theorem launches_eq {comments : List Str} {rows : List Row}
    (hcomments : ∀ line ∈ comments, Comment line) (hrows : ∀ r ∈ rows, r.Plain)
    (hstarts : ∀ r ∈ rows, r.uuid.head? ≠ some (.char '#')) :
    launches (comments ++ rows.map Row.line) = rows := by
  have hlaunch : (comments ++ rows.map Row.line).filterMap launchOf = rows := by
    rw [List.filterMap_append, List.filterMap_map]
    have hnone : comments.filterMap launchOf = [] := by
      rw [List.filterMap_eq_nil_iff]
      exact fun line hline ↦ launchOf_comment (hcomments line hline)
    have hsome : rows.filterMap (launchOf ∘ Row.line) = rows.filterMap some :=
      List.filterMap_congr fun r hr ↦ launchOf_line (hrows r hr) (hstarts r hr)
    rw [hnone, hsome, List.filterMap_some, List.nil_append]
  by_cases hempty : comments ++ rows.map Row.line = []
  · rw [hempty] at hlaunch ⊢
    rw [← hlaunch]
    decide
  have hmem : ∀ line ∈ comments ++ rows.map Row.line, line ≠ [] ∧
      ∀ p, isControl p = true → p ≠ .char '\t' → p ∉ line := by
    intro line hline
    rcases List.mem_append.mp hline with hline | hline
    · refine ⟨fun hnil ↦ ?_, fun p hp _ ↦ not_mem_of_control (hcomments line hline).plain hp⟩
      have hstarts := (hcomments line hline).starts
      rw [hnil] at hstarts
      cases hstarts
    · obtain ⟨r, hr, rfl⟩ := List.mem_map.mp hline
      exact ⟨r.line_ne_nil, fun p hp htab ↦ Row.not_mem_line (hrows r hr) hp htab⟩
  rw [launches, Shell.lines_of_output hempty (fun line hline ↦ (hmem line hline).1)
    (fun line hline ↦ (hmem line hline).2 _ (by decide) (by decide))
    (fun line hline ↦ (hmem line hline).2 _ (by decide) (by decide)) (by decide), hlaunch]

/-- Whatever is printed, the second word of a launched row holds no separator. -/
theorem plain_perm_of_launches {out : List Str} {r : Row} (hr : r ∈ launches out) :
    ∀ p ∈ r.perm, isControl p = false := by
  obtain ⟨line, hline, hlaunch⟩ := List.mem_filterMap.mp hr
  obtain ⟨hnewline, hnul⟩ := Shell.not_mem_of_mem_lines hline
  unfold launchOf at hlaunch
  simp only at hlaunch
  split at hlaunch
  · cases hlaunch
  · obtain rfl := Option.some.inj hlaunch
    intro p hp
    obtain ⟨hrest, htab⟩ := Shell.mem_of_mem_word hp
    have hmem : p ∈ line := Shell.mem_line_of_mem_rest hrest
    have hn : p ≠ .char '\n' := fun heq ↦ hnewline (heq ▸ hmem)
    have hz : p ≠ .char '\x00' := fun heq ↦ hnul (heq ▸ hmem)
    simp [isControl, htab, hn, hz]

end Rows

end RemoteDevbox.Resume.Scan
