import RemoteDevbox.Lib.Dialogue
import RemoteDevbox.Lib.Runs
import Mathlib.Data.Int.Notation

namespace RemoteDevbox.Client.Bridges

/-!
# Reconciling the bridges

The client records which processes serve its bridges. A pass over the record
looks each process up, stops what is left of a broken pair, and forgets an entry
once both of its processes are gone.
-/

structure LiveMount where
  profile : String
  label : String
  tunnelPort : ℤ
  rclonePid : ℤ
  sshPid : ℤ
  remotePath : String
  localPath : String
  rcloneIdentity : Option String
  sshIdentity : Option String
  mountNonce : Option String
  createdAt : String

/-- What a lookup finds under a pid. -/
inductive Observed where
  | seen (identity : String)
  | absent
  | unknown

inductive SignalOutcome where
  | sent
  /-- The process no longer exists. -/
  | gone
  | refused

inductive Question where
  | lookup (pid : ℤ)
  | signal (pid : ℤ)

def Answer : Question → Type
  | .lookup _ => Observed
  | .signal _ => SignalOutcome

abbrev Talk := Dialogue Unit Answer

def lookup (pid : ℤ) : Talk Observed := Dialogue.query (Question.lookup pid)

def signal (pid : ℤ) : Talk SignalOutcome := Dialogue.query (Question.signal pid)

/-- An identity that is recorded: an empty one is none. -/
def recorded (identity : Option String) : Option String := identity.filter (· ≠ "")

inductive BridgeState where
  | live
  | stale
  | unknown
  deriving DecidableEq

def Observed.isSeen (identity : String) : Observed → Bool
  | .seen found => found == identity
  | _ => false

def Observed.isUnknown : Observed → Bool
  | .unknown => true
  | _ => false

def assessBridgeProcesses (bridge : LiveMount) : Talk BridgeState :=
  match recorded bridge.rcloneIdentity, recorded bridge.sshIdentity with
  | some rcloneIdentity, some sshIdentity => do
      let rclone ← lookup bridge.rclonePid
      let ssh ← lookup bridge.sshPid
      if rclone.isUnknown || ssh.isUnknown then return .unknown
      else if rclone.isSeen rcloneIdentity && ssh.isSeen sshIdentity then return .live
      else return .stale
  | _, _ => return .unknown

structure Stopped where
  safe : Bool
  signalledPids : List ℤ

def members (bridge : LiveMount) : List (ℤ × Option String) :=
  [(bridge.rclonePid, bridge.rcloneIdentity), (bridge.sshPid, bridge.sshIdentity)]

def stopMembers : List (ℤ × Option String) → Stopped → Talk Stopped
  | [], stopped => return stopped
  | (pid, expected) :: rest, stopped =>
      match recorded expected with
      | none => stopMembers rest { stopped with safe := false }
      | some expected => do
          let observed ← lookup pid
          match observed with
          | .absent => stopMembers rest stopped
          | .unknown => stopMembers rest { stopped with safe := false }
          | .seen identity =>
              if identity ≠ expected then stopMembers rest { stopped with safe := false }
              else do
                let outcome ← signal pid
                match outcome with
                | .sent => stopMembers rest ⟨stopped.safe, stopped.signalledPids ++ [pid]⟩
                | .gone => stopMembers rest stopped
                | .refused => stopMembers rest { stopped with safe := false }

def stopOwnedBridgeProcesses (bridge : LiveMount) : Talk Stopped :=
  stopMembers (members bridge) ⟨true, []⟩

/-- Whether the entry stays in the record. -/
def keeps (bridge : LiveMount) : Talk Bool := do
  let state ← assessBridgeProcesses bridge
  if state = .live || state = .unknown then return true
  else
    let stopped ← stopOwnedBridgeProcesses bridge
    return !stopped.safe || !stopped.signalledPids.isEmpty

def reconcileBridges : List LiveMount → Talk (List LiveMount)
  | [] => return []
  | bridge :: rest => do
      let keep ← keeps bridge
      let kept ← reconcileBridges rest
      return if keep then bridge :: kept else kept

/-! ## What a pass promises -/

abbrev History := List (Exchange Answer)

/-- The two lookups of the assessment, neither of them unknown, do not show the
recorded pair. -/
def Stale (bridge : LiveMount) (history : History) : Prop :=
  ∃ (rclone ssh : Observed) (rest : History),
    history = ⟨.lookup bridge.rclonePid, rclone⟩ :: ⟨.lookup bridge.sshPid, ssh⟩ :: rest ∧
      rclone ≠ .unknown ∧ ssh ≠ .unknown ∧
      ¬(∃ r s, bridge.rcloneIdentity = some r ∧ bridge.sshIdentity = some s ∧
        rclone = .seen r ∧ ssh = .seen s)

/-- A signal goes to a member of a stale entry whose recorded identity was looked
up immediately before. -/
def Permitted (bridge : LiveMount) (history : History) (question : Question) : Prop :=
  ∀ pid, question = .signal pid →
    Stale bridge history ∧
      ∃ earlier identity, history = earlier ++ [⟨.lookup pid, .seen identity⟩] ∧
        (pid, some identity) ∈ members bridge

/-- The process was found absent. -/
def FoundAbsent (pid : ℤ) (history : History) : Prop :=
  ⟨.lookup pid, .absent⟩ ∈ history ∨ ⟨.signal pid, .gone⟩ ∈ history

/-- How one entry was dealt with. -/
structure Handled (bridge : LiveMount) (keep : Bool) (history : History) : Prop where
  signals : ∀ before pid outcome after, history = before ++ ⟨.signal pid, outcome⟩ :: after →
    Stale bridge before ∧
      ∃ earlier identity, before = earlier ++ [⟨.lookup pid, .seen identity⟩] ∧
        (pid, some identity) ∈ members bridge
  dropped : keep = false → ∀ member ∈ members bridge, FoundAbsent member.1 history

/-- One entry of a pass. -/
structure Entry where
  bridge : LiveMount
  keep : Bool
  history : History

/-- A pass deals with the entries one after the other and keeps the others as
they are. -/
def Pass (entries kept : List LiveMount) (history : History) : Prop :=
  ∃ handled : List Entry, entries = handled.map (·.bridge) ∧
    kept = (handled.filter (·.keep)).map (·.bridge) ∧
    history = (handled.map (·.history)).flatten ∧
    ∀ entry ∈ handled, Handled entry.bridge entry.keep entry.history

/-- Passes over the record, each with the answers of its own time. -/
def passes : System (List LiveMount) History where
  start _ := True
  next entries history kept := (reconcileBridges entries).Runs history (.ok kept)

/-- In this pass, a process of the entry was never found absent. -/
def Survives (bridge : LiveMount) (history : History) : Prop :=
  ∃ member ∈ members bridge, ¬FoundAbsent member.1 history

/-! ## One entry -/

section

variable {bridge : LiveMount} {history : History}

theorem Stale.append (h : Stale bridge history) (more : History) :
    Stale bridge (history ++ more) := by
  obtain ⟨rclone, ssh, rest, rfl, hrest⟩ := h
  exact ⟨rclone, ssh, rest ++ more, rfl, hrest⟩

theorem permitted_lookup {pid : ℤ} : Permitted bridge history (.lookup pid) := by
  rintro pid' ⟨⟩

theorem within_lookup {allowed : History → Question → Prop}
    {Post : Except Unit Observed → History → Prop} {pid : ℤ} :
    (lookup pid).Within allowed Post history ↔ allowed history (.lookup pid) ∧
      ∀ observed : Observed, Post (.ok observed) (history ++ [⟨.lookup pid, observed⟩]) := Iff.rfl

theorem within_signal {allowed : History → Question → Prop}
    {Post : Except Unit SignalOutcome → History → Prop} {pid : ℤ} :
    (signal pid).Within allowed Post history ↔ allowed history (.signal pid) ∧
      ∀ outcome : SignalOutcome, Post (.ok outcome) (history ++ [⟨.signal pid, outcome⟩]) := Iff.rfl

theorem recorded_eq_some {identity : Option String} {s : String} (h : recorded identity = some s) :
    identity = some s :=
  (Option.filter_eq_some_iff.mp h).1

/-- Where nothing was unsafe and nothing signalled, every member was found
absent. -/
def Settled (ms : List (ℤ × Option String)) (before : Stopped) (result : Except Unit Stopped)
    (history : History) : Prop :=
  ∀ stopped, result = .ok stopped → stopped.safe = true → stopped.signalledPids = [] →
    before.safe = true ∧ before.signalledPids = [] ∧ ∀ member ∈ ms, FoundAbsent member.1 history

/-- A member that makes the rest of the pass unsafe settles nothing. -/
theorem settled_unsafe {ms ms' : List (ℤ × Option String)} {before stopped : Stopped}
    {result : Except Unit Stopped} (h : Settled ms' { stopped with safe := false } result history) :
    Settled ms before result history := by
  intro final hfinal hsafe hnone
  cases (h final hfinal hsafe hnone).1

theorem settled_cons {m : ℤ × Option String} {ms : List (ℤ × Option String)} {stopped : Stopped}
    {result : Except Unit Stopped} (h : Settled ms stopped result history)
    (hm : FoundAbsent m.1 history) : Settled (m :: ms) stopped result history := by
  intro final hfinal hsafe hnone
  obtain ⟨hbefore, hempty, hrest⟩ := h final hfinal hsafe hnone
  exact ⟨hbefore, hempty, List.forall_mem_cons.mpr ⟨hm, hrest⟩⟩

theorem within_stopMembers {ms : List (ℤ × Option String)} {stopped : Stopped}
    (hms : ∀ member ∈ ms, member ∈ members bridge) (hstale : Stale bridge history) :
    (stopMembers ms stopped).Within (Permitted bridge)
      (fun result after ↦ (∃ more, after = history ++ more) ∧ Settled ms stopped result after)
      history := by
  induction ms generalizing stopped history with
  | nil =>
      refine ⟨⟨[], by simp⟩, ?_⟩
      rintro _ ⟨⟩ hsafe hnone
      exact ⟨hsafe, hnone, by simp⟩
  | cons m rest ih =>
      obtain ⟨pid, identity⟩ := m
      have hrest : ∀ member ∈ rest, member ∈ members bridge :=
        fun member hmember ↦ hms member (List.mem_cons_of_mem _ hmember)
      rw [stopMembers]
      split
      · refine (ih hrest hstale).imp ?_
        rintro result after ⟨hmore, hsettled⟩
        exact ⟨hmore, settled_unsafe hsettled⟩
      rename_i expected hexpected
      have hmember : (pid, some expected) ∈ members bridge := by
        have hhead := hms _ List.mem_cons_self
        rwa [recorded_eq_some hexpected] at hhead
      rw [Dialogue.within_bind, within_lookup]
      refine ⟨permitted_lookup, fun observed ↦ ?_⟩
      rw [Dialogue.onward_ok]
      have hlooked := hstale.append [⟨.lookup pid, observed⟩]
      cases observed with
      | absent =>
          refine (ih hrest hlooked).imp ?_
          rintro result after ⟨⟨more, rfl⟩, hsettled⟩
          refine ⟨⟨_, List.append_assoc ..⟩, settled_cons hsettled (.inl ?_)⟩
          simp
      | unknown =>
          refine (ih hrest hlooked).imp ?_
          rintro result after ⟨⟨more, rfl⟩, hsettled⟩
          exact ⟨⟨_, List.append_assoc ..⟩, settled_unsafe hsettled⟩
      | seen found =>
          dsimp only
          split
          · refine (ih hrest hlooked).imp ?_
            rintro result after ⟨⟨more, rfl⟩, hsettled⟩
            exact ⟨⟨_, List.append_assoc ..⟩, settled_unsafe hsettled⟩
          rename_i hsame
          obtain rfl := not_not.mp hsame
          rw [Dialogue.within_bind, within_signal]
          refine ⟨?_, fun outcome ↦ ?_⟩
          · rintro _ ⟨⟩
            exact ⟨hlooked, history, found, rfl, hmember⟩
          rw [Dialogue.onward_ok]
          have hsignalled := hlooked.append [⟨.signal pid, outcome⟩]
          have hmore : ∀ more, ∃ added, history ++ [⟨.lookup pid, .seen found⟩] ++
              [⟨.signal pid, outcome⟩] ++ more = history ++ added :=
            fun more ↦ ⟨[⟨.lookup pid, .seen found⟩] ++ [⟨.signal pid, outcome⟩] ++ more, by simp⟩
          cases outcome with
          | sent =>
              refine (ih hrest hsignalled).imp ?_
              rintro result after ⟨⟨more, rfl⟩, hsettled⟩
              refine ⟨hmore more, ?_⟩
              intro final hfinal hsafe hnone
              obtain ⟨-, hempty, -⟩ := hsettled final hfinal hsafe hnone
              simp at hempty
          | gone =>
              refine (ih hrest hsignalled).imp ?_
              rintro result after ⟨⟨more, rfl⟩, hsettled⟩
              refine ⟨hmore more, settled_cons hsettled (.inr ?_)⟩
              simp
          | refused =>
              refine (ih hrest hsignalled).imp ?_
              rintro result after ⟨⟨more, rfl⟩, hsettled⟩
              exact ⟨hmore more, settled_unsafe hsettled⟩

/-- The entry is kept, or both of its processes were found absent. -/
def Kept (bridge : LiveMount) (result : Except Unit Bool) (history : History) : Prop :=
  result = .ok false → ∀ member ∈ members bridge, FoundAbsent member.1 history

theorem within_stop (hstale : Stale bridge history) :
    (do
      let stopped ← stopOwnedBridgeProcesses bridge
      return !stopped.safe || !stopped.signalledPids.isEmpty : Talk Bool).Within
        (Permitted bridge) (Kept bridge) history := by
  rw [Dialogue.within_bind]
  refine (within_stopMembers (fun member hmember ↦ hmember) hstale).imp ?_
  rintro result after ⟨-, hsettled⟩
  cases result with
  | error e => rintro ⟨⟩
  | ok stopped =>
      intro hdropped
      have hboth := Except.ok.inj hdropped
      rw [Bool.or_eq_false_iff, Bool.not_eq_false', Bool.not_eq_false', List.isEmpty_iff] at hboth
      exact (hsettled stopped rfl hboth.1 hboth.2).2.2

theorem within_keeps : (keeps bridge).Within (Permitted bridge) (Kept bridge) [] := by
  have hkept : ∀ history, Kept bridge (.ok true) history := fun history h ↦ by cases h
  rw [keeps, Dialogue.within_bind]
  unfold assessBridgeProcesses
  split
  · rename_i rcloneIdentity sshIdentity hrclone hssh
    rw [Dialogue.within_bind, within_lookup]
    refine ⟨permitted_lookup, fun rclone ↦ ?_⟩
    rw [Dialogue.onward_ok, Dialogue.within_bind, within_lookup]
    refine ⟨permitted_lookup, fun ssh ↦ ?_⟩
    rw [Dialogue.onward_ok]
    split
    · exact hkept _
    rename_i hknown
    split
    · exact hkept _
    rename_i hpair
    refine within_stop ⟨rclone, ssh, [], rfl, ?_, ?_, ?_⟩
    · rintro rfl
      exact hknown rfl
    · rintro rfl
      exact hknown (by simp [Observed.isUnknown])
    · rintro ⟨r, s, hr, hs, rfl, rfl⟩
      obtain rfl := Option.some.inj (hr.symm.trans (recorded_eq_some hrclone))
      obtain rfl := Option.some.inj (hs.symm.trans (recorded_eq_some hssh))
      exact hpair (by simp [Observed.isSeen])
  · exact hkept _

/-! ## Passes -/

theorem handled_of_runs {keep : Bool} (hrun : (keeps bridge).Runs history (.ok keep)) :
    Handled bridge keep history := by
  obtain ⟨hquestions, hkept⟩ := hrun.within within_keeps
  refine ⟨fun before pid outcome after hsplit ↦ ?_, fun hdrop ↦ ?_⟩
  · exact hquestions before _ outcome after hsplit pid rfl
  · subst hdrop
    exact hkept rfl

theorem pass_of_runs {entries kept : List LiveMount}
    (hrun : (reconcileBridges entries).Runs history (.ok kept)) : Pass entries kept history := by
  induction entries generalizing history kept with
  | nil =>
      cases hrun
      exact ⟨[], rfl, rfl, rfl, by simp⟩
  | cons bridge rest ih =>
      obtain ⟨first, keep, others, rfl, hfirst, hothers⟩ := hrun.of_bind
      obtain ⟨later, restKept, last, rfl, hlater, hlast⟩ := hothers.of_bind
      cases hlast
      obtain ⟨handled, hentries, hkept, hhistory, hall⟩ := ih hlater
      refine ⟨⟨bridge, keep, first⟩ :: handled, by simp [hentries], ?_, by simp [hhistory], ?_⟩
      · cases keep <;> simp [hkept]
      · exact List.forall_mem_cons.mpr ⟨handled_of_runs hfirst, hall⟩

theorem Pass.mem {entries kept : List LiveMount} (h : Pass entries kept history)
    (hmem : bridge ∈ entries) (hsurvives : Survives bridge history) : bridge ∈ kept := by
  obtain ⟨handled, rfl, rfl, rfl, hall⟩ := h
  obtain ⟨entry, hentry, rfl⟩ := List.mem_map.mp hmem
  refine List.mem_map.mpr ⟨entry, List.mem_filter.mpr ⟨hentry, ?_⟩, rfl⟩
  by_contra hdropped
  obtain ⟨member, hmember, hpresent⟩ := hsurvives
  have habsent := (hall entry hentry).dropped (by simpa using hdropped) member hmember
  refine hpresent (habsent.imp ?_ ?_)
  all_goals
    intro hlooked
    exact List.mem_flatten.mpr ⟨entry.history, List.mem_map_of_mem hentry, hlooked⟩

end

/-- Every pass is safe, and over any number of passes an entry with a process
that is never found absent stays in the record. -/
theorem reconciling_is_safe :
    (∀ entries kept history, (reconcileBridges entries).Runs history (.ok kept) →
      Pass entries kept history) ∧
    ∀ bridge first last, bridge ∈ first →
      passes.Path (fun _ history ↦ Survives bridge history) first last → bridge ∈ last := by
  refine ⟨fun entries kept history hrun ↦ pass_of_runs hrun, ?_⟩
  intro bridge first last hfirst hpath
  refine hpath.preserves (fun entries history kept hmem hsurvives hrun ↦ ?_) hfirst
  exact (pass_of_runs hrun).mem hmem hsurvives

def brokenPair : LiveMount :=
  ⟨"ada", "site", 40001, 811, 812, "/home/ada/site", "/Users/ada/site", some "rclone mount",
    some "ssh tunnel", none, "2026-08-09T00:00:00.000Z"⟩

/-- Only the tunnel of the pair is left. -/
def brokenAnswer (_ : History) : (question : Question) → Answer question
  | .lookup pid => if pid = 812 then Observed.seen "ssh tunnel" else Observed.absent
  | .signal _ => SignalOutcome.sent

def brokenRun : History × Except Unit (List LiveMount) :=
  Dialogue.play brokenAnswer [] (reconcileBridges [brokenPair])

/-- The tunnel is signalled, and the entry waits for the next pass. -/
theorem tunnel_signalled :
    ⟨.signal 812, .sent⟩ ∈ brokenRun.1 ∧ brokenRun.2 = .ok [brokenPair] ∧
      Pass [brokenPair] [brokenPair] brokenRun.1 := by
  refine ⟨?_, rfl, reconciling_is_safe.1 _ _ _ (Dialogue.runs_play brokenAnswer [] _)⟩
  exact List.mem_of_getElem? (show brokenRun.1[4]? = _ from rfl)

end RemoteDevbox.Client.Bridges
