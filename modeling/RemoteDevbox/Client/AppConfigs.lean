import RemoteDevbox.Lib.Js.Text
import RemoteDevbox.Lib.Js.Value

namespace RemoteDevbox.Client

open Js

/-!
# The registry of application configs
-/

structure ResolvedEntry where
  label : String
  client : String
  box : String
  mode : String
  excludes : List String
  deriving DecidableEq

def MODES : List String := ["dir", "file", "ssh-include"]

def REGISTRY : Fields :=
  [("filezilla", .obj
      [("client", "~/.config/filezilla"),
       ("box", "~/.config/filezilla"),
       ("mode", "dir"),
       ("excludes", .arr ["queue.sqlite3", "lockfile", "*.lock"])]),
   ("ssh_config", .obj
      [("client", "~/.ssh/config"),
       ("box", "~/.ssh/config"),
       ("mode", "ssh-include"),
       ("excludes", .arr [])])]

def known : String := ", ".intercalate REGISTRY.keys

def asText (v : Val) : String :=
  match v with
  | .str s => s
  | _ => ""

/-- `String(x)` over a list, in order. -/
def strings : List Val → Js (List String)
  | [] => .ok []
  | x :: xs => do
      let s ← x.toStr
      let rest ← strings xs
      return s :: rest

/-- An entry, or the text of the refusal. -/
def resolveEntry (raw : Val) : Js (Except String ResolvedEntry) :=
  match raw with
  | .str key =>
      let hit := Val.index REGISTRY key
      if !hit.truthy then
        .ok (.error ("unknown app config \"" ++ key ++ "\" — known: " ++ known))
      else do
        -- An inherited name is truthy and has no excludes: the spread throws.
        let excludes ← (hit.get "excludes").spread
        let excludes ← strings excludes
        return .ok ⟨key, asText (hit.get "client"), asText (hit.get "box"),
          asText (hit.get "mode"), excludes⟩
  | .obj _ =>
      let label := asText (raw.get "label")
      if label == "" then .ok (.error "an app config entry needs a label")
      else if let some field := ["client", "box", "mode"].find? fun k ↦ !(raw.get k).isStr then
        .ok (.error ("app config \"" ++ label ++ "\" is missing " ++ field))
      else
        let mode := asText (raw.get "mode")
        if !MODES.contains mode then
          .ok (.error ("app config \"" ++ label ++ "\" has mode \"" ++ mode ++
            "\" — must be one of: " ++ ", ".intercalate MODES))
        else do
          let excludes ←
            match raw.get "excludes" with
            | .arr xs => strings xs
            | _ => .ok []
          return .ok ⟨label, asText (raw.get "client"), asText (raw.get "box"), mode, excludes⟩
  | _ => .ok (.error "an app config entry must be a string or an object")

/-- The basename of the payload file inside the store. -/
def payloadBasename (e : ResolvedEntry) : String :=
  if e.mode == "ssh-include" then "config"
  else
    let last := ((Text.split '/' e.client).getLast?).getD ""
    if last == "" then e.label else last

end RemoteDevbox.Client
