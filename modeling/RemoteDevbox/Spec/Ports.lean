import RemoteDevbox.Spec.Types

namespace RemoteDevbox.Spec

open Js

/-!
# Port allocation

The MCP servers of a box count up from one base port; the desktop entries of
a client take the lowest free local port.
-/

def DEFAULT_MCP_PORT : Number := .ofInt 9522

def DEFAULT_CDP_PORT : Number := .ofInt 9222

def DEFAULT_CLIENT_TUNNEL_PORT : Number := .ofInt 9322

def DEFAULT_FALLBACK_CHROME_PORT : Number := .ofInt 9422

def MAX_PORT : Number := .ofInt 65535

def DEFAULT_CLIENT_PORT : Number := .ofInt 3389

structure McpServer where
  user : Val
  port : Number

def assignMcpPorts (users : List Val) (basePort : Number) : List McpServer :=
  users.zipIdx.map fun p ↦ ⟨p.1, basePort.add (.ofInt p.2)⟩

/-- `v ?? d` for a field whose value is a number when it has one. -/
def numberOr (v : Val) (d : Number) : Number :=
  match v with
  | .num n => n
  | _ => d

def mcpBasePort (spec : Val) : Number :=
  numberOr ((spec.get "browser").get "mcp_port") DEFAULT_MCP_PORT

/-- The developers, `dev.user` for those with `dev.browser`. -/
def browserUsers (developers : List Val) : List Val :=
  (developers.filter fun dev ↦ (dev.get "browser").truthy).map fun dev ↦ dev.get "user"

structure ClientPortInput where
  user : Val
  desktopEnabled : Val
  clientPort : Val

/-- The lowest port from `next` on that is not taken. Among `taken.length + 1`
successive ports one is free. -/
def lowestFree (taken : List Number) : ℕ → Number → Number
  | 0, next => next
  | fuel + 1, next =>
      if taken.contains next then lowestFree taken fuel (next.add (.ofInt 1)) else next

/-- The desktops from here on, given the taken ports and the next candidate. -/
def assignFrom (taken : List Number) (next : Number) : List ClientPortInput → List (Val × Number)
  | [] => []
  | d :: rest =>
      match d.clientPort with
      | .num n =>
          if (Val.num n).truthy then (d.user, n) :: assignFrom taken next rest
          else
            let free := lowestFree taken taken.length next
            (d.user, free) :: assignFrom (free :: taken) free rest
      | _ =>
          let free := lowestFree taken taken.length next
          (d.user, free) :: assignFrom (free :: taken) free rest

def statedPort (d : ClientPortInput) : Option Number :=
  match d.clientPort with
  | .num n => if (Val.num n).truthy then some n else none
  | _ => none

def assignClientPorts (devs : List ClientPortInput) : List (Val × Number) :=
  let desktops := devs.filter fun d ↦ d.desktopEnabled.truthy
  assignFrom (desktops.filterMap statedPort) DEFAULT_CLIENT_PORT desktops

/-- The rows both renderers hand to `assignClientPorts`. -/
def clientPortInput (dev : Val) : ClientPortInput where
  user := dev.get "user"
  desktopEnabled := ((dev.get "desktop").get "enabled").orElse false
  clientPort := (dev.get "desktop").get "client_port"

/-- `ports.get(user)`: a later entry replaces an earlier one. -/
def portOf (ports : List (Val × Number)) (user : Val) : Val :=
  match ports.reverse.find? fun p ↦ p.1.strictEq user with
  | some p => .num p.2
  | none => .undef

end RemoteDevbox.Spec
