import RemoteDevbox.Lib.Dialogue
import RemoteDevbox.Lib.Py.Float
import RemoteDevbox.Lib.Py.Words
import Mathlib.Data.List.MinMax
import Mathlib.Data.List.Dedup
import Mathlib.Data.List.Sort

namespace RemoteDevbox.Box.Guard

open Py

/-!
# The runaway guard

One pass over the watched cgroups. Files are read as they stand during the pass;
the answers to signals, and whether the state could be written, are questions.
-/

/-! ## What a pass reads -/

/-- A file of a process: its text, one of the errors that skip the process, or
another error. -/
inductive Reading where
  | text (s : List Char)
  | gone
  | fault

structure Machine where
  glob : String → List String
  isDir : String → Bool
  /-- A file of a cgroup, if it can be read. -/
  cgroupFile : String → String → Option (List Char)
  /-- `os.walk`: each directory below a cgroup with its files. -/
  walk : String → List (String × List String)
  procFile : ℤ → String → Reading
  /-- Whether the deadline is over before the process at a position is read. -/
  late : String → ℕ → Bool
  pageKb : ℤ
  readFloat : List Char → Option Double
  round : ℚ → Double
  now : Double

structure Args where
  dryRun : Bool
  graceSec : ℤ
  rssFloorMb : ℤ
  dominancePercent : Double
  highRatio : Double
  pressureFullMin : Double
  cgroupGlob : List String

inductive Fault where
  | osError
  | raised (e : Raised)
  deriving DecidableEq

def raising {α : Type} (x : Py α) : Except Fault α := x.mapError .raised

def DEFAULT_CGROUP_GLOBS : List String :=
  ["/sys/fs/cgroup/**/paseo-daemon.service", "/sys/fs/cgroup/**/agent-rc-*.service",
    "/sys/fs/cgroup/user.slice/user-*.slice"]

def PROTECTED_COMM_PREFIXES : List String :=
  ["Paseo Daemon", "Paseo Superviso", "systemd", "omp", "codex", "claude", "tmux",
    "sshd", "dbus", "cgroup-runaway", "agent-rc-", "mosh", "et", "hermes",
    "valkey-server", "redis-server", "postgres", "nats-server", "clickhouse",
    "victoria", "openconnector-r", "dockerd", "containerd", "docker-proxy",
    "rootlesskit", "slirp4netns", "mutagen", "syncthing", "tailscaled"]

structure Member where
  pid : ℤ
  comm : List Char
  rssKb : ℤ
  startTicks : ℤ
  cgroup : String
  deriving DecidableEq

/-- A recycled pid is another process. -/
def Member.key (m : Member) : ℤ × ℤ := (m.pid, m.startTicks)

def isProtected (comm : List Char) : Bool :=
  PROTECTED_COMM_PREFIXES.any fun p ↦ p.toList.isPrefixOf comm

section Reading

variable (machine : Machine) (args : Args)

def readCount (cgroup name : String) : Option ℤ := do
  let raw ← machine.cgroupFile cgroup name
  let raw := stripped raw
  if raw = "max".toList ∨ raw = [] then none else readInt 10 raw

/-- The `full` averages, the last of each window. -/
def parsePressure (text : List Char) : List (List Char × Double) :=
  (splitlines text).flatMap fun line ↦
    if "full".toList.isPrefixOf line then
      (words line).tail.filterMap fun field ↦
        (machine.readFloat ((field.dropWhile (· != '=')).tail)).map
          (field.takeWhile (· != '='), ·)
    else []

def readPressureFull (cgroup : String) : Double :=
  match machine.cgroupFile cgroup "memory.pressure" with
  | none => .fin 0
  | some text => ((parsePressure machine text).reverse.lookup "avg10".toList).getD (.fin 0)

def isPinned (current high : Option ℤ) (ratio : Double) : Except Fault Bool :=
  match high, current with
  | some high, some current =>
      if high = 0 ∨ current = 0 then .ok false
      else do
        let wall ← raising (Double.ofInt machine.round high)
        return (wall.mul machine.round ratio).le (.fin current)
  | _, _ => .ok false

/-- The pids of one `cgroup.procs`, up to a line that is no number. -/
def pidLines : List (List Char) → List ℤ
  | [] => []
  | line :: rest =>
      if stripped line = [] then pidLines rest
      else match readInt 10 line with
        | none => []
        | some pid => pid :: pidLines rest

def memberPids (cgroup : String) : List ℤ :=
  (machine.walk cgroup).flatMap fun (dirpath, filenames) ↦
    if filenames.contains "cgroup.procs" then
      ((machine.cgroupFile dirpath "cgroup.procs").map fun text ↦ pidLines (fileLines text)).getD []
    else []

/-- The number in a file of a process, `none` where the process is skipped. -/
def procNumber (pid : ℤ) (name : String) (number : List Char → Option ℤ) :
    Except Fault (Option ℤ) :=
  match machine.procFile pid name with
  | .text s => .ok (number s)
  | .gone => .ok none
  | .fault => .error .osError

def rssFloorKb : ℤ := args.rssFloorMb * 1024

/-- What the scan makes of one pid. -/
def readMember (cgroup : String) (pid : ℤ) : Except Fault (Option Member) := do
  let some pages ← procNumber machine pid "statm" fun s ↦ (words s)[1]? >>= readInt 10
    | return none
  let rssKb := pages * machine.pageKb
  if rssKb < rssFloorKb args then return none
  else match machine.procFile pid "comm" with
    | .gone => return none
    | .fault => throw .osError
    | .text comm => do
        let some startTicks ← procNumber machine pid "stat" fun s ↦
            (words (afterLast ')' s))[19]? >>= readInt 10
          | return none
        return some ⟨pid, stripped comm, rssKb, startTicks, cgroup⟩

def scanMembers (cgroup : String) : ℕ → List ℤ → Except Fault (List Member × Bool)
  | _, [] => .ok ([], false)
  | i, pid :: rest =>
      if machine.late cgroup i then .ok ([], true)
      else do
        let found ← readMember machine args cgroup pid
        let (members, truncated) ← scanMembers cgroup (i + 1) rest
        return (found.toList ++ members, truncated)

def readMembers (cgroup : String) : Except Fault (List Member × Bool) :=
  scanMembers machine args cgroup 0 (memberPids machine cgroup)

/-- The first of the biggest. -/
def largest (members : List Member) : Option Member :=
  @List.argmax _ _ Int.instLinearOrder.toPreorder _ Member.rssKb members

/-- Among those past both bars and unprotected. -/
def selectCandidate (members : List Member) (rssFloorKb dominanceKb : ℤ) : Option Member :=
  largest (members.filter fun m ↦
    decide (max rssFloorKb dominanceKb ≤ m.rssKb) && !isProtected m.comm)

/-- Python sorts texts by code points. -/
def findCgroups : List String :=
  let globs := if args.cgroupGlob.isEmpty then DEFAULT_CGROUP_GLOBS else args.cgroupGlob
  ((globs.flatMap machine.glob).filter machine.isDir).dedup.insertionSort (· ≤ ·)

inductive Verdict where
  | unbounded
  | belowWall
  | pinnedNoStall
  | scanTruncated
  | stalledNoCandidate
  | stalled
  deriving DecidableEq

/-- The share of what the cgroup holds. -/
def dominance (current : ℤ) : Except Fault ℤ :=
  if current = 0 then .ok 0
  else do
    let kb ← raising (Double.quotient machine.round current 1024)
    raising ((kb.mul machine.round args.dominancePercent).dividedBy machine.round 100).trunc

def assess (cgroup : String) : Except Fault (Verdict × Option Member) := do
  let high := readCount machine cgroup "memory.high"
  let current := readCount machine cgroup "memory.current"
  if high.isNone then return (.unbounded, none)
  else if !(← isPinned machine current high args.highRatio) then return (.belowWall, none)
  else if (readPressureFull machine cgroup).lt args.pressureFullMin then return (.pinnedNoStall, none)
  else do
    let (members, truncated) ← readMembers machine args cgroup
    let dominanceKb ← dominance machine args (current.getD 0)
    match selectCandidate members (rssFloorKb args) dominanceKb with
    | none => return (if truncated then .scanTruncated else .stalledNoCandidate, none)
    | some candidate => return (.stalled, some candidate)

end Reading

/-! ## What a pass does -/

inductive Signal where
  | term
  | probe
  | kill
  deriving DecidableEq

inductive Line where
  | verdict (cgroup : String) (verdict : Verdict)
  | runaway (m : Member)
  | wouldKill (m : Member)
  | dryRun (runaways due : ℕ)
  | killed (m : Member)
  | unsaved
  | reclaimed (kb : ℤ) (runaways : ℕ)

/-- The moment each process was first seen as the runaway. -/
abbrev State := List ((ℤ × ℤ) × Double)

inductive Question where
  | print (line : Line)
  | kill (pid : ℤ) (signal : Signal)
  | save (state : State)

/-- Whether a signal was delivered, and whether the state was written. -/
def Answer : Question → Type
  | .print _ => Unit
  | .kill _ _ => Bool
  | .save _ => Bool

abbrev Talk := Dialogue Fault Answer

abbrev History := List (Exchange Answer)

def print (line : Line) : Talk Unit := Dialogue.query (Question.print line)

def kill (pid : ℤ) (signal : Signal) : Talk Bool := Dialogue.query (Question.kill pid signal)

def save (state : State) : Talk Bool := Dialogue.query (Question.save state)

def printIf (c : Bool) (line : Line) : Talk Unit := if c then print line else pure ()

def announce (line : Member → Line) : List Member → Talk Unit
  | [] => pure ()
  | m :: rest => do
      print (line m)
      announce line rest

section Pass

variable (machine : Machine) (args : Args)

/-- The candidates of the watched cgroups, in their order. -/
def watch : List String → Talk (List Member)
  | [] => pure []
  | cgroup :: rest =>
      match assess machine args cgroup with
      | .error fault => throw fault
      | .ok (_, some candidate) => do
          print (.runaway candidate)
          let candidates ← watch rest
          return candidate :: candidates
      | .ok (verdict, none) =>
          if verdict = .unbounded ∨ verdict = .belowWall then watch rest
          else do
            print (.verdict cgroup verdict)
            watch rest

def firstSeen (state : State) (m : Member) : Double := (state.lookup m.key).getD machine.now

def isDue (state : State) (m : Member) : Bool :=
  Double.le (.fin args.graceSec) (machine.now.sub machine.round (firstSeen machine state m))

/-- `fresh[member.key] = first_seen` -/
def remember (fresh : State) (key : ℤ × ℤ) (moment : Double) : State :=
  if (fresh.lookup key).isSome then fresh.map fun p ↦ if p.1 = key then (key, moment) else p
  else fresh ++ [(key, moment)]

def reconcile (state : State) (candidates : List Member) : State × List Member :=
  (candidates.foldl (fun fresh m ↦ remember fresh m.key (firstSeen machine state m)) [],
    candidates.filter (isDue machine args state))

/-- SIGTERM to each; those it reached. -/
def terminate : List Member → Talk (List Member)
  | [] => pure []
  | m :: rest => do
      let reached ← kill m.pid .term
      let hit ← terminate rest
      return if reached then m :: hit else hit

def escalate : List Member → Talk Unit
  | [] => pure ()
  | m :: rest => do
      if ← kill m.pid .probe then
        let _ ← kill m.pid .kill
      escalate rest

def reap (victims : List Member) : Talk (List Member) := do
  let hit ← terminate victims
  escalate hit
  return hit

def guardPass (state : State) : Talk Unit := do
  let candidates ← watch machine args (findCgroups machine args)
  let (fresh, due) := reconcile machine args state candidates
  if args.dryRun then
    announce .wouldKill due
    print (.dryRun candidates.length due.length)
  else
    let hit ← reap due
    announce .killed hit
    let saved ← save (fresh.filter fun p ↦ !(hit.map Member.key).contains p.1)
    printIf (!saved) .unsaved
    printIf (!hit.isEmpty) (.reclaimed ((hit.map Member.rssKb).sum / 1024) hit.length)

end Pass

end RemoteDevbox.Box.Guard
