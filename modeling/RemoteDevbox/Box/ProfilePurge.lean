import RemoteDevbox.Box.BrowserReap
import RemoteDevbox.Lib.Dialogue
import Mathlib.Data.List.ReduceOption

namespace RemoteDevbox.Box.Reap

open Py Path

/-!
# The profiles of reaped browsers

A profile is deleted by the path in the command line of its browser. Survivors
are compared by the spelling of theirs.
-/

/-- Strictly inside a root, as far as the normal forms tell. -/
def underRoot (profile : List Char) (root : String) : Bool :=
  normpath profile != normpath root.toList &&
    (normpath root.toList ++ ['/']).isPrefixOf (normpath profile)

inductive Question where
  | isLink (path : List Char)
  | isDir (path : List Char)
  | remove (path : List Char)

/-- Whether the path is that, or could be removed. -/
def Answer : Question → Type := fun _ ↦ Bool

abbrev Talk := Dialogue Unit Answer

abbrev History := List (Exchange Answer)

def ask (question : Question) : Talk Bool := Dialogue.query question

/-- A browser with its arguments and its working directory. -/
structure Running extends Browser where
  argv : List (List Char)
  cwd : List Name
  cmdline_eq : cmdline = shown (argv.flatMap (· ++ [Char.ofNat 0]))
  profile_eq : profile = profileDir cmdline

/-- The directory of the profile that the arguments name. -/
def Running.directory (b : Running) : Option (List Name) := (userDataDir b.argv).map (place b.cwd)

/-- No meaning to the shell, and none to `split`. -/
def isPlain (c : Char) : Bool := Shlex.isBare c && !isBlank c && c != nul

/-- No argument is empty, or has a blank, a quote or a backslash. -/
def Running.Plain (b : Running) : Prop := ∀ arg ∈ b.argv, arg ≠ [] ∧ ∀ c ∈ arg, isPlain c = true

section

variable (globs roots : List String) (cwd : List Name) (browsers hit : List Running)

/-- The running browsers that were not hit. -/
def survivors : List Running :=
  browsers.filter fun b ↦ !((hit.map Running.toBrowser).map Browser.pid).contains b.pid

/-- The same names and the same leading slashes. -/
def Alike (p q : List Char) : Prop := slashes p = slashes q ∧ names p = names q

/-- A path under a root of which no survivor's line has the spelling, but for what `normpath`
makes equal. -/
structure Exposed (path : List Char) : Prop where
  throwaway : isThrowawayProfile (some path) globs = true
  under : roots.any (underRoot path) = true
  unnamed : ∀ s ∈ survivors browsers hit, ∀ q, s.profile = some q → ¬Alike q path

/-- How the path that is read of a reaped browser misses whose directory it is. -/
inductive Mistaken (b : Running) (path : List Char) : Prop
  /-- A survivor's directory lies in it, or it lies in a survivor's. -/
  | nested (s : Running) (hs : s ∈ survivors browsers hit) (d : List Name)
      (hd : s.directory = some d) (hne : d ≠ names path)
      (hnested : d <+: names path ∨ names path <+: d)
  /-- A survivor has the same directory, by a path that is relative or starts with exactly two
  slashes, or with a blank, a quote or a backslash in its line. -/
  | respelled (s : Running) (hs : s ∈ survivors browsers hit)
      (hd : s.directory = some (names path))
      (hspelling : s.Plain → ∀ q, userDataDir s.argv = some q → slashes q ≠ slashes path)
  /-- A blank, a quote or a backslash in the line of the reaped browser has made its path that of
  no reaped browser. -/
  | cut (hline : ¬b.Plain) (hother : ∀ u ∈ hit, u.directory ≠ some (names path))

/-- No exposed path of a reaped browser misses whose directory it is. -/
def Clear : Prop :=
  ∀ b ∈ hit, ∀ path, b.profile = some path → Exposed globs roots browsers hit path →
    ¬Mistaken browsers hit b path

end

variable {globs roots : List String} {cwd : List Name} {browsers hit : List Running}

/-! ## Plain command lines -/

/-- An abandoned browser with the given profile. -/
def abandoned (pid : ℤ) (profile : String) : Running where
  pid := pid
  cmdline := shown (["/usr/bin/chrome", "--user-data-dir=" ++ profile].flatMap
    fun arg ↦ arg.toList ++ [Char.ofNat 0])
  cgroup := "/user.slice/app.scope".toList
  profile := profileDir (shown (["/usr/bin/chrome", "--user-data-dir=" ++ profile].flatMap
    fun arg ↦ arg.toList ++ [Char.ofNat 0]))
  spawnerAlive := false
  listenPorts := [9222]
  peerPorts := []
  socketsReadable := true
  startTicks := 1
  rssPages := 1
  argv := ["/usr/bin/chrome".toList, ("--user-data-dir=" ++ profile).toList]
  cwd := []
  cmdline_eq := by simp
  profile_eq := rfl

/-- Its profile lies in that of the other one. -/
def inner : Running :=
  abandoned 11 "/var/tmp/devbox-scratch/u/puppeteer_dev_chrome_profile-x/puppeteer_dev_chrome_profile-y"

end RemoteDevbox.Box.Reap
