import RemoteDevbox.Lib.Py.Fnmatch
import RemoteDevbox.Lib.Py.Path
import RemoteDevbox.Lib.Py.Shlex

namespace RemoteDevbox.Box.Reap

open Py

/-!
# The browser reaper

One sweep over `/proc`: the browsers with what the rules look at, and those that
count as abandoned.
-/

/-! ## Command lines -/

def BROWSER_EXE : List String :=
  ["chrome", "chrome-stable", "google-chrome", "google-chrome-stable", "chromium",
    "chromium-browser"]

def DEFAULT_PROFILE_GLOBS : List String :=
  ["/var/tmp/devbox-scratch/*/puppeteer_dev_chrome_profile-*",
    "/tmp/puppeteer_dev_chrome_profile-*",
    "*/.omp/run/daemons/*/omp.browser*",
    "*/.cache/omp/browser/*"]

def startsWith (text : List Char) (start : String) : Bool := start.toList.isPrefixOf text

/-- `_argv` -/
def argvOf (cmdline : List Char) : List (List Char) := (Shlex.split cmdline).getD (words cmdline)

def isBrowserProcess (cmdline : List Char) : Bool :=
  match argvOf cmdline with
  | [] => false
  | exe :: rest =>
      (BROWSER_EXE.map String.toList).contains (Path.basename exe) &&
        !rest.any fun a ↦ a == "--type".toList || startsWith a "--type="

/-- A flag without a value is no profile. -/
def nonEmpty (path : List Char) : Option (List Char) := if path.isEmpty then none else some path

/-- The first `--user-data-dir` among the arguments. -/
def userDataDir : List (List Char) → Option (List Char)
  | [] => none
  | arg :: rest =>
      if startsWith arg "--user-data-dir=" then
        nonEmpty (arg.drop "--user-data-dir=".length)
      else match rest with
        | [] => none
        | next :: _ =>
            if arg = "--user-data-dir".toList then nonEmpty next else userDataDir rest

def profileDir (cmdline : List Char) : Option (List Char) := userDataDir (argvOf cmdline)

def isThrowawayProfile (profile : Option (List Char)) (globs : List String) : Bool :=
  match profile with
  | none => false
  | some profile =>
      !profile.isEmpty && globs.any fun g ↦ Fnmatch.fnmatchcase (Path.normpath profile) g.toList

def isServiceCgroup (cgroup : List Char) : Bool :=
  ".service".toList.isSuffixOf (afterLast '/' (cgroup.rdropWhile (· == '/')))

def isUserManager (cmdline : List Char) : Bool :=
  match argvOf cmdline with
  | [] => false
  | exe :: rest => Path.basename exe == "systemd".toList && rest.contains "--user".toList

/-! ## The rules -/

structure Browser where
  pid : ℤ
  cmdline : List Char
  cgroup : List Char
  profile : Option (List Char)
  spawnerAlive : Bool
  listenPorts : List ℤ
  peerPorts : List ℤ
  socketsReadable : Bool
  startTicks : ℤ
  rssPages : ℤ

def hasAttachedClient (browser : Browser) : Bool :=
  browser.listenPorts.any browser.peerPorts.contains

def isOrphan (globs : List String) (browser : Browser) : Bool :=
  if !isThrowawayProfile browser.profile globs then false
  else if isServiceCgroup browser.cgroup then false
  else if browser.spawnerAlive then false
  else if !browser.socketsReadable || browser.listenPorts.isEmpty then false
  else !hasAttachedClient browser

def selectOrphans (globs : List String) (browsers : List Browser) : List Browser :=
  browsers.filter (isOrphan globs)

/-! ## What a sweep reads -/

/-- An entry of `/proc`. One that is there and cannot be read is denied, by
permission or with another error. -/
inductive Reading (α : Type) where
  | found (a : α)
  | absent
  | denied
  | fault
  deriving DecidableEq

/-- The descriptors of a process are links. A table of sockets is its lines below
the first, each in its fields. -/
structure Procfs where
  pids : List ℤ
  file : ℤ → String → Reading (List Char)
  fds : ℤ → Reading (List (Reading (List Char)))
  tables : List (Reading (List (List (List Char))))

inductive Fault where
  | osError
  | malformed
  deriving DecidableEq

/-- Goes on with a file of the process, or skips the process. -/
def withFile {α : Type} (procfs : Procfs) (pid : ℤ) (name : String)
    (next : List Char → Except Fault (Option α)) : Except Fault (Option α) :=
  match procfs.file pid name with
  | .found text => next text
  | .absent => .ok none
  | .denied => .ok none
  | .fault => .error .osError

theorem withFile_eq_some {α : Type} {procfs : Procfs} {pid : ℤ} {name : String} {a : α}
    {next : List Char → Except Fault (Option α)} :
    withFile procfs pid name next = .ok (some a) ↔
      ∃ text, procfs.file pid name = .found text ∧ next text = .ok (some a) := by
  unfold withFile
  cases hfile : procfs.file pid name with
  | found text => simp
  | _ => simp

def nul : Char := Char.ofNat 0

/-- The arguments, which the kernel ends with NULs, one behind the other. -/
def shown (raw : List Char) : List Char :=
  stripped (raw.map fun c ↦ if c = Char.ofNat 0 then ' ' else c)

/-- What the files of a browser process say. -/
structure Own where
  cmdline : List Char
  cgroup : List Char
  ppid : ℤ
  startTicks : ℤ
  rssPages : ℤ

def numberAt (fields : List (List Char)) (i : ℕ) : Option ℤ := fields[i]? >>= readInt 10

def ownFacts (procfs : Procfs) (pid : ℤ) : Except Fault (Option Own) :=
  withFile procfs pid "comm" fun comm ↦
    if !(["chrome", "chromium", "google-chrome"].any (startsWith (stripped comm))) then .ok none
    else withFile procfs pid "cmdline" fun raw ↦
      if !isBrowserProcess (shown raw) then .ok none
      else withFile procfs pid "cgroup" fun cgroup ↦
        withFile procfs pid "stat" fun stat ↦
          withFile procfs pid "statm" fun statm ↦
            match numberAt (words statm) 1 with
            | none => .ok none
            | some rssPages =>
                -- from here on nothing is caught
                match numberAt (words (afterLast ')' stat)) 1,
                  numberAt (words (afterLast ')' stat)) 19 with
                | some ppid, some startTicks =>
                    .ok (some ⟨shown raw, afterLast ':' (stripped cgroup), ppid, startTicks, rssPages⟩)
                | _, _ => .error .malformed

def spawnerAlive (procfs : Procfs) (ppid : ℤ) : Bool :=
  if ppid ≤ 1 then false
  else match procfs.file ppid "cmdline" with
    | .found raw => !isUserManager (shown raw)
    | _ => false

structure Row where
  inode : ℤ
  localPort : ℤ
  peerPort : ℤ
  state : List Char

def TCP_ESTABLISHED : String := "01"

def TCP_LISTEN : String := "0A"

/-- The port of an address in hexadecimal digits. -/
def portOf (address : List Char) : Option ℤ :=
  if ':' ∈ address then readInt 16 (afterLast ':' address) else none

def parseRow (fields : List (List Char)) : Option Row := do
  guard (10 ≤ fields.length)
  let localPort ← fields[1]? >>= portOf
  let peerPort ← fields[2]? >>= portOf
  let inode ← numberAt fields 9
  let state ← fields[3]?
  return ⟨inode, localPort, peerPort, state⟩

def tableRows : Reading (List (List (List Char))) → List Row
  | .found lines => lines.filterMap parseRow
  | _ => []

/-- The rows of the tables that can be read. -/
def rows (procfs : Procfs) : List Row := procfs.tables.flatMap tableRows

/-- The socket a link leads to. -/
def socketOf : Reading (List Char) → Option ℤ
  | .found target =>
      if startsWith target "socket:[" then readInt 10 (target.drop "socket:[".length).dropLast
      else none
  | _ => none

def socketInodes (procfs : Procfs) (pid : ℤ) : Option (List ℤ) :=
  match procfs.fds pid with
  | .found links => some (links.filterMap socketOf)
  | _ => none

def Row.listens (row : Row) : Bool := row.state == TCP_LISTEN.toList

def Row.connected (row : Row) : Bool :=
  !row.listens && row.state == TCP_ESTABLISHED.toList && row.peerPort != 0

def portsOf (wanted : Row → Bool) (mine : List ℤ) (rows : List Row) : List ℤ :=
  (rows.filter fun row ↦ mine.contains row.inode && wanted row).map Row.localPort

/-- The listening ports, those with a peer, and whether the descriptors could be read. -/
def cdpPorts (procfs : Procfs) (pid : ℤ) : List ℤ × List ℤ × Bool :=
  match socketInodes procfs pid with
  | none => ([], [], false)
  | some mine =>
      (portsOf Row.listens mine (rows procfs), portsOf Row.connected mine (rows procfs), true)

def browserOf (procfs : Procfs) (pid : ℤ) (own : Own) : Browser where
  pid := pid
  cmdline := own.cmdline
  cgroup := own.cgroup
  profile := profileDir own.cmdline
  spawnerAlive := spawnerAlive procfs own.ppid
  listenPorts := (cdpPorts procfs pid).1
  peerPorts := (cdpPorts procfs pid).2.1
  socketsReadable := (cdpPorts procfs pid).2.2
  startTicks := own.startTicks
  rssPages := own.rssPages

def readBrowser (procfs : Procfs) (pid : ℤ) : Except Fault (Option Browser) := do
  let own ← ownFacts procfs pid
  return own.map (browserOf procfs pid)

def readBrowsers (procfs : Procfs) : Except Fault (List Browser) := do
  let browsers ← procfs.pids.mapM (readBrowser procfs)
  return browsers.reduceOption

end RemoteDevbox.Box.Reap
