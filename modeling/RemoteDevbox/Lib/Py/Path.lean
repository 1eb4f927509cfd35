import RemoteDevbox.Lib.Lists
import Mathlib.Data.List.Basic
import Mathlib.Data.List.SplitOn
import Mathlib.Tactic.Common

/-!
# POSIX paths

`os.path.normpath`, and the directory that a path names where no component is a
symbolic link.
-/

namespace Py.Path

abbrev Name := List Char

def dot : Name := ['.']

def dotdot : Name := ['.', '.']

/-- Exactly two leading slashes are kept, more count as one. -/
def slashes : List Char → ℕ
  | '/' :: '/' :: '/' :: _ => 1
  | '/' :: '/' :: _ => 2
  | '/' :: _ => 1
  | _ => 0

/-- One component behind those that are left so far. -/
def push (rooted : Bool) (out : List Name) (name : Name) : List Name :=
  if name = [] ∨ name = dot then out
  else if name ≠ dotdot ∨ (rooted = false ∧ out = []) ∨ out.getLast? = some dotdot then
    out ++ [name]
  else out.dropLast

def names (path : List Char) : List Name :=
  (path.splitOn '/').foldl (push (slashes path != 0)) []

/-- The normal form, empty for the directory a relative path starts from. -/
def text (path : List Char) : List Char :=
  List.replicate (slashes path) '/' ++ ['/'].intercalate (names path)

def normpath (path : List Char) : List Char := if text path = [] then dot else text path

/-- `os.path.basename` -/
def basename (path : List Char) : Name := (path.reverse.takeWhile (· != '/')).reverse

/-! ## Directories -/

/-- One step from a directory. -/
def enter (place : List Name) (name : Name) : List Name :=
  if name = [] ∨ name = dot then place
  else if name = dotdot then place.dropLast
  else place ++ [name]

/-- The directory of a path, for a process that works in `cwd`. -/
def place (cwd : List Name) (path : List Char) : List Name :=
  (path.splitOn '/').foldl enter (if slashes path = 0 then cwd else [])

/-! ## Normal names -/

section Normal

variable {rooted : Bool} {out : List Name} {name : Name} {path : List Char}

end Normal

/-! ## What `normpath` tells apart -/

section Join

variable {ns ms : List Name}

end Join

end Py.Path
