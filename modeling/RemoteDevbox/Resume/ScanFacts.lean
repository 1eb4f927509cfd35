import RemoteDevbox.Resume.Scan
import Mathlib.Data.List.ReduceOption

namespace RemoteDevbox.Resume.Scan

open Py

/-!
# What the scan gets through

The reads of the scan raise nothing exactly where every record is an object whose
message is one too, unless the record tells its mode itself, and every workflow
file holds an object.
-/

theorem get_dict (fields : List (Str × Value)) (k : String) :
    (Value.dict fields).get (str k) = .ok (item fields k) := rfl

theorem exists_dict {o : Value} (h : o.isDict = true) : ∃ fields, o = .dict fields := by
  cases o with
  | dict fields => exact ⟨fields, rfl⟩
  | _ => cases h

/-! ## The permission mode -/

section Mode

def readableRecord : Value → Bool
  | .dict fields =>
      (item fields "permissionMode").truthy || !(item fields "message").truthy ||
        (item fields "message").isDict
  | _ => false

def modeOf : Value → Value
  | .dict fields =>
      if (item fields "permissionMode").truthy then item fields "permissionMode"
      else
        match item fields "message" with
        | .dict m => item m "permissionMode"
        | _ => .none
  | _ => .none

/-- The mode of the last record that tells one. -/
def lastMode (recs : List Value) : Value :=
  ((recs.map modeOf).filter Value.truthy).getLast?.getD (.str (str "default"))

theorem isDict_of_readable {o : Value} (h : readableRecord o = true) : o.isDict = true := by
  cases o with
  | dict fields => rfl
  | _ => cases h

theorem ok_eq_ok {α : Type} {a b : α} : (Except.ok a : Py α) = .ok b ↔ b = a := by
  rw [Except.ok.injEq, eq_comm]

theorem get_orElse_eq_ok {message v : Value} {k : String} :
    (message.orElse (.dict [])).get (str k) = .ok v ↔
      (!message.truthy || message.isDict) = true ∧
        v = match message with
          | .dict m => item m k
          | _ => .none := by
  have hempty : (Value.dict []).get (str k) = .ok .none := rfl
  cases htruthy : message.truthy with
  | false =>
      rw [Value.orElse, htruthy, if_neg Bool.false_ne_true, hempty, ok_eq_ok]
      cases message with
      | dict m =>
          have hm : m = [] := by simpa [Value.truthy] using htruthy
          simp [hm, item]
      | _ => simp
  | true =>
      rw [Value.orElse, htruthy, if_pos rfl]
      cases message with
      | dict m =>
          rw [get_dict, ok_eq_ok]
          simp [Value.isDict]
      | _ => simp [Value.get, Value.isDict]

theorem recordMode_eq_ok {o v : Value} :
    recordMode o = .ok v ↔ readableRecord o = true ∧ v = modeOf o := by
  cases o with
  | dict fields =>
      simp only [recordMode, get_dict, ok_bind, readableRecord, modeOf]
      by_cases hown : (item fields "permissionMode").truthy = true
      · simp only [hown, if_true, pure_eq_ok, ok_eq_ok, Bool.true_or, true_and]
      · simp only [hown, Bool.false_eq_true, if_false, get_orElse_eq_ok, Bool.false_or]
  | _ => simp [recordMode, Value.get, readableRecord]

theorem modes_eq_ok {recs : List Value} {pm v : Value} :
    modes recs pm = .ok v ↔ (∀ o ∈ recs, readableRecord o = true) ∧
      v = ((recs.map modeOf).filter Value.truthy).getLast?.getD pm := by
  induction recs generalizing pm with
  | nil =>
      rw [modes, ok_eq_ok]
      simp
  | cons o recs ih =>
      simp only [modes, bind_eq_ok, recordMode_eq_ok, ih, List.forall_mem_cons, List.map_cons]
      by_cases htruthy : (modeOf o).truthy = true
      · simp only [List.filter_cons_of_pos htruthy, List.getLast?_cons, Option.getD_some]
        constructor
        · rintro ⟨a, ⟨hread, rfl⟩, hrest, rfl⟩
          exact ⟨⟨hread, hrest⟩, by simp [htruthy]⟩
        · rintro ⟨⟨hread, hrest⟩, rfl⟩
          exact ⟨_, ⟨hread, rfl⟩, hrest, by simp [htruthy]⟩
      · rw [List.filter_cons_of_neg htruthy]
        constructor
        · rintro ⟨a, ⟨hread, rfl⟩, hrest, rfl⟩
          exact ⟨⟨hread, hrest⟩, by simp [htruthy]⟩
        · rintro ⟨⟨hread, hrest⟩, rfl⟩
          exact ⟨_, ⟨hread, rfl⟩, hrest, by simp [htruthy]⟩

theorem lastPermissionMode_eq_ok {recs : List Value} {v : Value} :
    lastPermissionMode recs = .ok v ↔
      (∀ o ∈ recs, readableRecord o = true) ∧ v = lastMode recs := by
  have hdefault : (((recs.map modeOf).filter Value.truthy).getLast?.getD .none).orElse
      (.str (str "default")) = lastMode recs := by
    rw [lastMode]
    cases hlast : ((recs.map modeOf).filter Value.truthy).getLast? with
    | none => rfl
    | some pm =>
        have htruthy : pm.truthy = true := (List.mem_filter.mp (List.mem_of_getLast? hlast)).2
        simp [Value.orElse, htruthy]
  simp only [lastPermissionMode, bind_eq_ok, modes_eq_ok, pure_eq_ok, Except.ok.injEq]
  constructor
  · rintro ⟨a, ⟨hread, rfl⟩, rfl⟩
    exact ⟨hread, hdefault⟩
  · rintro ⟨hread, rfl⟩
    exact ⟨_, ⟨hread, rfl⟩, hdefault⟩

end Mode

/-! ## The reads that follow -/

section Dicts

variable (env : Env)

theorem endedMid_ok {recs : List Value} (h : ∀ o ∈ recs, o.isDict = true) :
    ∃ b, endedMid recs = .ok b := by
  induction recs with
  | nil => exact ⟨false, rfl⟩
  | cons o recs ih =>
      obtain ⟨fields, rfl⟩ := exists_dict (h o List.mem_cons_self)
      obtain ⟨b, hb⟩ := ih fun o ho ↦ h o (List.mem_cons_of_mem _ ho)
      simp only [endedMid, get_dict, ok_bind, pure_eq_ok, hb]
      split
      · exact ⟨_, rfl⟩
      · split <;> exact ⟨_, rfl⟩

theorem endedMidResponse_ok {recs : List Value} (h : ∀ o ∈ recs, o.isDict = true) :
    ∃ b, endedMidResponse recs = .ok b :=
  endedMid_ok fun o ho ↦ h o (List.mem_reverse.mp ho)

/-- The title a record gives the session, unless it is blank. -/
def titleOf : Value → Option Str
  | .dict fields =>
      let v := strip ((item fields "customTitle").textOr env.rt.repr)
      if isStr (item fields "type") "custom-title" && v ≠ [] then some v else none
  | _ => none

def lastTitle (recs : List Value) : Option Str := (recs.filterMap (titleOf env)).getLast?

theorem customTitles_eq {recs : List Value} (h : ∀ o ∈ recs, o.isDict = true)
    (title : Option Str) : customTitles env recs title = .ok ((lastTitle env recs).or title) := by
  induction recs generalizing title with
  | nil => simp [customTitles, lastTitle]
  | cons o recs ih =>
      obtain ⟨fields, rfl⟩ := exists_dict (h o List.mem_cons_self)
      have hrest := ih fun o ho ↦ h o (List.mem_cons_of_mem _ ho)
      simp only [customTitles, get_dict, ok_bind, hrest]
      by_cases htype : isStr (item fields "type") "custom-title" = true
      · by_cases hblank : strip ((item fields "customTitle").textOr env.rt.repr) = []
        · simp [lastTitle, titleOf, htype, hblank]
        · simp [lastTitle, titleOf, htype, hblank, List.getLast?_cons]
      · simp [lastTitle, titleOf, htype]

theorem lastCustomTitle_eq {recs : List Value} (h : ∀ o ∈ recs, o.isDict = true) :
    lastCustomTitle env recs = .ok (lastTitle env recs) := by
  rw [lastCustomTitle, customTitles_eq env h, Option.or_none]

theorem lastTitle_ne_nil {recs : List Value} {t : Str} (h : lastTitle env recs = some t) :
    t ≠ [] := by
  obtain ⟨o, _, ho⟩ := List.mem_filterMap.mp (List.mem_of_getLast? h)
  cases o with
  | dict fields =>
      simp only [titleOf] at ho
      split at ho
      · rename_i hif
        obtain rfl := Option.some.inj ho
        exact of_decide_eq_true (Bool.and_eq_true_iff.mp hif).2
      · cases ho
  | _ => cases ho

theorem textBlocks_ok (fields : List (Str × Value)) :
    ∃ blocks, textBlocks env (.dict fields) = .ok blocks := by
  simp only [textBlocks, get_dict, ok_bind]
  split
  · split <;> exact ⟨_, rfl⟩
  · exact ⟨_, rfl⟩

/-- What is made of a block holds printable characters only. -/
theorem encodable_blockLine {limit : ℕ} {block line : Str}
    (h : blockLine env limit block = some line) : encodable line = true := by
  unfold blockLine at h
  simp only at h
  split at h
  · cases h
  · split at h
    · obtain rfl := Option.some.inj h
      apply encodable_of_subset fun _ ↦ mem_of_mem_rstrip
      apply encodable_take
      apply encodable_strip
      apply @encodable_of_prints _ env.rt
      exact fun p hp ↦ (List.mem_filter.mp hp).2
    · cases h

theorem firstUserLine_ok (limit : ℕ) {recs : List Value} (h : ∀ o ∈ recs, o.isDict = true) :
    ∃ line, firstUserLine env limit recs = .ok line ∧
      ∀ l ∈ line, encodable l = true := by
  induction recs with
  | nil => exact ⟨none, rfl, by simp⟩
  | cons o recs ih =>
      obtain ⟨fields, rfl⟩ := exists_dict (h o List.mem_cons_self)
      have hrest := ih fun o ho ↦ h o (List.mem_cons_of_mem _ ho)
      obtain ⟨blocks, hblocks⟩ := textBlocks_ok env fields
      simp only [firstUserLine, get_dict, ok_bind, hblocks]
      split
      · exact hrest
      · cases hfound : blocks.findSome? (blockLine env limit) with
        | none => exact hrest
        | some line =>
            refine ⟨some line, rfl, ?_⟩
            obtain ⟨block, _, hblock⟩ := List.exists_of_findSome?_eq_some hfound
            intro l hl
            obtain rfl := Option.some.inj hl
            exact encodable_blockLine env hblock

/-- The text of the name can be printed. -/
def namePrints (recs : List Value) (killed : List KilledWorkflow) : Bool :=
  (workflowName env killed).isSome || (lastTitle env recs).all encodable

theorem encodable_workflowName {killed : List KilledWorkflow}
    (hkilled : ∀ w ∈ killed, w.encodable = true) {wf : Str}
    (h : workflowName env killed = some wf) : encodable wf = true := by
  cases killed with
  | nil => cases h
  | cons w killed =>
      simp only [workflowName, List.head?_cons, Option.bind_some] at h
      split at h
      · obtain rfl := Option.some.inj h
        apply encodable_strip
        apply Value.encodable_textOr
        have hw := hkilled w List.mem_cons_self
        simp only [KilledWorkflow.encodable, Bool.and_eq_true] at hw
        exact hw.1.1.1.2
      · cases h

theorem resolveName_ok {recs : List Value} (h : ∀ o ∈ recs, o.isDict = true)
    {killed : List KilledWorkflow} (hkilled : ∀ w ∈ killed, w.encodable = true) {uuid : Str}
    (huuid : encodable uuid = true) : ∃ name, resolveName env recs killed uuid = .ok name ∧
      encodable name = namePrints env recs killed := by
  unfold resolveName namePrints
  cases hwf : workflowName env killed with
  | some wf => exact ⟨wf, rfl, by simp [encodable_workflowName env hkilled hwf]⟩
  | none =>
      obtain ⟨line, hline, hprints⟩ := firstUserLine_ok env 60 h
      simp only [lastCustomTitle_eq env h, hline, ok_bind, pure_eq_ok]
      refine ⟨_, rfl, ?_⟩
      cases htitle : lastTitle env recs with
      | some t => simp [lastTitle_ne_nil env htitle, Option.filter]
      | none =>
          cases hfiltered : line.filter (· ≠ []) with
          | none =>
              simp [env.encodable_project, encodable_take 8 huuid]
          | some l =>
              have hl : l ∈ line := (Option.filter_eq_some_iff.mp hfiltered).1
              simp [hprints l hl]

end Dicts

/-! ## The killed workflows -/

section Workflows

/-- The run of a workflow file that is not complete. -/
def unfinished : Value → Option KilledWorkflow
  | .dict fields =>
      if !isStr (item fields "status") "completed" && isNone (item fields "result") then
        some ⟨item fields "runId", item fields "workflowName", item fields "scriptPath",
          item fields "status", item fields "agentCount"⟩
      else none
  | _ => none

def killed (files : List (Option Value)) : List KilledWorkflow :=
  files.reduceOption.filterMap unfinished

theorem killedWorkflow_eq_ok {o : Value} {w : Option KilledWorkflow} :
    killedWorkflow o = .ok w ↔ o.isDict = true ∧ w = unfinished o := by
  cases o with
  | dict fields =>
      simp only [killedWorkflow, get_dict, ok_bind, pure_eq_ok, unfinished, Value.isDict, true_and]
      split <;> exact ok_eq_ok
  | _ => simp [killedWorkflow, Value.get, Value.isDict]

theorem killedWorkflows_eq_ok {files : List (Option Value)} {kw : List KilledWorkflow} :
    killedWorkflows files = .ok kw ↔
      (∀ o ∈ files.reduceOption, o.isDict = true) ∧ kw = killed files := by
  have hmapM : ∀ (os : List Value) (ws : List (Option KilledWorkflow)),
      List.Forall₂ (fun o w ↦ killedWorkflow o = .ok w) os ws ↔
        (∀ o ∈ os, o.isDict = true) ∧ ws = os.map unfinished := by
    intro os ws
    simp only [killedWorkflow_eq_ok]
    induction os generalizing ws with
    | nil => simp
    | cons o os ih =>
        rw [List.forall₂_cons_left_iff, List.forall_mem_cons, List.map_cons]
        constructor
        · rintro ⟨w, ws, ⟨ho, rfl⟩, hws, rfl⟩
          obtain ⟨hos, rfl⟩ := (ih ws).mp hws
          exact ⟨⟨ho, hos⟩, rfl⟩
        · rintro ⟨⟨ho, hos⟩, rfl⟩
          exact ⟨_, _, ⟨ho, rfl⟩, (ih _).mpr ⟨hos, rfl⟩, rfl⟩
  have hreduce : (files.reduceOption.map unfinished).reduceOption = killed files := by
    simp [killed, List.reduceOption, List.filterMap_map]
  simp only [killedWorkflows, bind_eq_ok, mapM_eq_ok, hmapM, pure_eq_ok, Except.ok.injEq]
  constructor
  · rintro ⟨_, ⟨hdicts, rfl⟩, rfl⟩
    exact ⟨hdicts, hreduce⟩
  · rintro ⟨hdicts, rfl⟩
    exact ⟨_, ⟨hdicts, rfl⟩, hreduce⟩

end Workflows

/-! ## A session -/

section Session

variable (env : Env)

/-- What the scan needs of the files of a session. -/
structure Scannable (s : Session) (recs : List Value) : Prop where
  loads : load s = .ok recs
  records : ∀ o ∈ recs, readableRecord o = true
  workflows : ∀ o ∈ s.workflows.reduceOption, o.isDict = true
  mode : (lastMode recs).encodable = true
  fields : ∀ w ∈ killed s.workflows, w.encodable = true
  name : namePrints env recs (killed s.workflows) = true

/-- The session is one to be resumed. -/
def Env.resumes (s : Session) : Bool := env.scans s && s.hasWorktree

/-- What the entry of a session in the plan says. -/
structure EntryOf (s : Session) (recs : List Value) (p : Interrupted) : Prop where
  uuid : p.uuid = s.uuid
  worktree : p.worktree = worktree env s
  mode : p.permissionMode = lastMode recs
  printable : p.encodable = true

theorem plain_worktree (s : Session) : Plain (worktree env s) := by
  obtain ⟨hne, henc, hcontrol⟩ := env.plain_wtBase
  refine ⟨by simp [worktree, hne], by simp [worktree, henc, s.plain_cse.2.1], fun p hp ↦ ?_⟩
  rcases List.mem_append.mp hp with hp | hp
  · rcases List.mem_append.mp hp with hp | hp
    · exact hcontrol p hp
    · have hlit : ∀ p ∈ str "/bridge-", isControl p = false := by decide
      exact hlit p hp
  · exact s.plain_cse.2.2 p hp

theorem scanSession_skip {s : Session} (hscans : env.scans s = false) :
    scanSession env s = .ok none := by
  simp [scanSession, hscans]

theorem scanSession_of_loads {s : Session} {recs : List Value} (hscans : env.scans s = true)
    (hworktree : s.hasWorktree = false) (hload : load s = .ok recs) :
    scanSession env s = .ok none := by
  simp [scanSession, hscans, hworktree, hload]

theorem loads_of_scanSession {s : Session} {p : Option Interrupted} (hscans : env.scans s = true)
    (h : scanSession env s = .ok p) : ∃ recs, load s = .ok recs := by
  simp only [scanSession, hscans, Bool.not_true, Bool.false_eq_true, if_false, bind_eq_ok] at h
  obtain ⟨recs, hload, _⟩ := h
  exact ⟨recs, hload⟩

theorem scanSession_resumes {s : Session} (h : env.resumes s = true) : scanSession env s =
    (do
      let recs ← load s
      let kw ← killedWorkflows s.workflows
      let permissionMode ← lastPermissionMode recs
      let midResponse ← endedMidResponse recs
      let name ← resolveName env recs kw s.uuid
      return some ⟨s.cse, s.uuid, worktree env s, permissionMode, hundredths s.ageHours, kw,
        midResponse, name⟩) := by
  obtain ⟨hscans, hworktree⟩ := Bool.and_eq_true_iff.mp h
  simp [scanSession, hscans, hworktree]

theorem scanSession_of_scannable {s : Session} {recs : List Value} (hresumes : env.resumes s = true)
    (h : Scannable env s recs) : ∃ p, scanSession env s = .ok (some p) ∧ EntryOf env s recs p := by
  have hdicts : ∀ o ∈ recs, o.isDict = true := fun o ho ↦ isDict_of_readable (h.records o ho)
  have hmode := lastPermissionMode_eq_ok.mpr ⟨h.records, rfl⟩
  have hkilled := killedWorkflows_eq_ok.mpr ⟨h.workflows, rfl⟩
  obtain ⟨mid, hmid⟩ := endedMidResponse_ok hdicts
  obtain ⟨name, hname, hprints⟩ := resolveName_ok env hdicts h.fields s.plain_uuid.2.1
  refine ⟨_, by
    rw [scanSession_resumes env hresumes, h.loads, ok_bind, hkilled, ok_bind, hmode, ok_bind, hmid,
      ok_bind, hname, ok_bind, pure_eq_ok], rfl, rfl, rfl, ?_⟩
  rw [h.name] at hprints
  have hkw : (killed s.workflows).all KilledWorkflow.encodable = true :=
    List.all_eq_true.mpr h.fields
  simp only [Interrupted.encodable, s.plain_cse.2.1, s.plain_uuid.2.1, (plain_worktree env s).2.1,
    h.mode, hkw, hprints, Bool.and_self]

theorem scannable_of_scanSession {s : Session} (hresumes : env.resumes s = true)
    {p : Option Interrupted} (h : scanSession env s = .ok p) (hprints : p.all Interrupted.encodable) :
    ∃ recs, Scannable env s recs := by
  rw [scanSession_resumes env hresumes] at h
  simp only [bind_eq_ok, pure_eq_ok, Except.ok.injEq] at h
  obtain ⟨recs, hload, kw, hkw, pm, hpm, mid, _, name, hname, rfl⟩ := h
  obtain ⟨hworkflows, rfl⟩ := killedWorkflows_eq_ok.mp hkw
  obtain ⟨hrecords, rfl⟩ := lastPermissionMode_eq_ok.mp hpm
  have hdicts : ∀ o ∈ recs, o.isDict = true := fun o ho ↦ isDict_of_readable (hrecords o ho)
  simp only [Option.all_some, Interrupted.encodable, Bool.and_eq_true, List.all_eq_true] at hprints
  obtain ⟨⟨⟨_, hmode⟩, hfields⟩, hnamed⟩ := hprints
  obtain ⟨name', hname', hsame⟩ := resolveName_ok env hdicts hfields s.plain_uuid.2.1
  obtain rfl := Except.ok.inj (hname'.symm.trans hname)
  exact ⟨recs, hload, hrecords, hworkflows, hmode, hfields, hsame ▸ hnamed⟩

/-- The scan gets through a session, whatever it then makes of it. -/
def Passes (s : Session) : Prop :=
  env.scans s = true → if s.hasWorktree then ∃ recs, Scannable env s recs
    else ∃ recs, load s = .ok recs

theorem scanSession_of_passes {s : Session} (h : Passes env s) :
    ∃ p, scanSession env s = .ok p ∧
      (∀ q ∈ p, env.resumes s = true ∧ ∃ recs, load s = .ok recs ∧ EntryOf env s recs q) ∧
      (env.resumes s = true → p.isSome = true) := by
  cases hscans : env.scans s with
  | false => exact ⟨none, scanSession_skip env hscans, by simp, by simp [Env.resumes, hscans]⟩
  | true =>
      have hs := h hscans
      cases hworktree : s.hasWorktree with
      | false =>
          simp only [hworktree, Bool.false_eq_true, if_false] at hs
          obtain ⟨recs, hload⟩ := hs
          exact ⟨none, scanSession_of_loads env hscans hworktree hload, by simp,
            by simp [Env.resumes, hworktree]⟩
      | true =>
          simp only [hworktree, if_true] at hs
          obtain ⟨recs, hrecs⟩ := hs
          have hresumes : env.resumes s = true := by simp [Env.resumes, hscans, hworktree]
          obtain ⟨p, hp, hentry⟩ := scanSession_of_scannable env hresumes hrecs
          refine ⟨some p, hp, fun q hq ↦ ?_, fun _ ↦ rfl⟩
          obtain rfl := Option.some.inj hq
          exact ⟨hresumes, recs, hrecs.loads, hentry⟩

theorem passes_of_scanSession {s : Session} {p : Option Interrupted}
    (h : scanSession env s = .ok p) (hprints : p.all Interrupted.encodable) : Passes env s := by
  intro hscans
  split
  · rename_i hworktree
    exact scannable_of_scanSession env (by simp [Env.resumes, hscans, hworktree]) h hprints
  · exact loads_of_scanSession env hscans h

/-! ## The scan -/

theorem all_passes_of_scan {sessions : List Session} {plan : List Interrupted}
    (h : scan env sessions = .ok plan) : ∀ s ∈ sessions, Passes env s := by
  intro s hs
  simp only [scan, bind_eq_ok, mapM_eq_ok] at h
  obtain ⟨found, hfound, h⟩ := h
  split at h
  · rename_i hall
    obtain ⟨p, hp, hmem⟩ := forall₂_exists_left hfound.flip hs
    refine passes_of_scanSession env hmem ?_
    cases p with
    | none => rfl
    | some q =>
        have hq : q ∈ found.reduceOption.mergeSort fun p q ↦
            decide (p.ageHundredths ≤ q.ageHundredths) :=
          List.mem_mergeSort.mpr (List.reduceOption_mem_iff.mpr hp)
        exact List.all_eq_true.mp hall q hq
  · cases h

/-- The entry is the one a session gets. -/
def Tells (s : Session) (p : Interrupted) : Prop := ∃ recs, load s = .ok recs ∧ EntryOf env s recs p

theorem mapM_scanSession {sessions : List Session} (h : ∀ s ∈ sessions, Passes env s) :
    ∃ found, sessions.mapM (scanSession env) = .ok found ∧
      List.Forall₂ (Tells env) (sessions.filter env.resumes) found.reduceOption := by
  induction sessions with
  | nil => exact ⟨[], rfl, .nil⟩
  | cons s sessions ih =>
      obtain ⟨found, hfound, hentries⟩ := ih fun s hs ↦ h s (List.mem_cons_of_mem _ hs)
      obtain ⟨p, hp, hentry, hsome⟩ := scanSession_of_passes env (h s List.mem_cons_self)
      refine ⟨p :: found, ?_, ?_⟩
      · rw [List.mapM_cons, hp, ok_bind, hfound, ok_bind, pure_eq_ok]
      · cases p with
        | none =>
            have hskip : ¬env.resumes s = true := fun hresumes ↦ by cases hsome hresumes
            rw [List.filter_cons_of_neg hskip, List.reduceOption_cons_of_none]
            exact hentries
        | some q =>
            obtain ⟨hresumes, htells⟩ := hentry q rfl
            rw [List.filter_cons_of_pos hresumes, List.reduceOption_cons_of_some]
            exact .cons htells hentries

/-- The plan has one entry for each session to be resumed. -/
theorem scan_of_passes {sessions : List Session} (h : ∀ s ∈ sessions, Passes env s) :
    ∃ plan entries, scan env sessions = .ok plan ∧ plan.Perm entries ∧
      List.Forall₂ (Tells env) (sessions.filter env.resumes) entries := by
  obtain ⟨found, hfound, hentries⟩ := mapM_scanSession env h
  have hperm := List.mergeSort_perm found.reduceOption fun p q ↦
    decide (p.ageHundredths ≤ q.ageHundredths)
  refine ⟨_, found.reduceOption, ?_, hperm, hentries⟩
  rw [scan, hfound, ok_bind]
  apply if_pos
  apply List.all_eq_true.mpr
  intro p hp
  obtain ⟨s, _, recs, _, hentry⟩ := forall₂_exists_left hentries (hperm.mem_iff.mp hp)
  exact hentry.printable

end Session

end RemoteDevbox.Resume.Scan
