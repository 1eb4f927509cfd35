import RemoteDevbox.Lib.Js.Text

namespace RemoteDevbox.Client

open Js

/-!
# Paths on the client

The POSIX path functions of the runtime, and the two helpers of the file
bridge built on them.
-/

/-- What the machine running the CLI contributes to a path. -/
structure ClientEnv where
  homedir : String
  cwd : String

/-- One component applied to the components already resolved. -/
def pushComponent (stack : List String) (c : String) : List String :=
  if c == "" || c == "." then stack
  else if c == ".." then stack.dropLast
  else stack ++ [c]

/-- The components of an absolute path, with dot segments resolved. -/
def components (p : String) : List String := (Text.split '/' p).foldl pushComponent []

def isAbsolute (p : String) : Bool := p.toList.head? == some '/'

/-- `path.resolve(p)`. -/
def resolvePath (env : ClientEnv) (p : String) : String :=
  "/" ++ "/".intercalate (components (if isAbsolute p then p else env.cwd ++ "/" ++ p))

/-- `path.join(a, b)` before normalization, which `resolvePath` supplies. -/
def joinPath (a b : String) : String := "/".intercalate ([a, b].filter (· != ""))

def normalizePath (env : ClientEnv) (p : String) : String :=
  let expanded :=
    match p.toList with
    | ['~'] => env.homedir
    | '~' :: '/' :: rest => joinPath env.homedir (String.ofList rest)
    | _ => p
  resolvePath env expanded

def within (parent child : String) : Bool :=
  ((if parent == "/" then "/" else parent ++ "/").toList).isPrefixOf child.toList

def pathsOverlap (env : ClientEnv) (a b : String) : Bool :=
  let x := normalizePath env a
  let y := normalizePath env b
  x == y || within x y || within y x

end RemoteDevbox.Client
