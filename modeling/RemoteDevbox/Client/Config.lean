import RemoteDevbox.Client.Paths
import RemoteDevbox.Spec.Types

namespace RemoteDevbox.Client

open Js

/-!
# The configuration of a client

What the CLI reads from its `config.json`, with the fields that the launch
agents and the health collection use.
-/

structure Project where
  name : String
  ports : List Number

structure LazyMount where
  label : String
  path : String

structure ProfileDesktop where
  clientPort : Number

structure ProfileBrowserFailover where
  clientTunnelPort : Number
  autoBind : Bool

structure Profile where
  user : String
  projects : List Project
  lazyMounts : List LazyMount
  syncDisk : Bool
  desktop : Option ProfileDesktop
  browserFailover : Option ProfileBrowserFailover

structure MonitoringConfig where
  port : Number

/-- `hostPrefix` is the field `prefix`. -/
structure Config where
  hostPrefix : String
  default : String
  profiles : List Profile
  monitoring : Option MonitoringConfig

def die {α : Type} (message : String) : Js α := .error (.error message)

/-- `cfg.profiles.find((p) => p.user === prof)`. -/
def profileOf (cfg : Config) (prof : String) : Option Profile :=
  cfg.profiles.find? fun p ↦ p.user == prof

def hostFor (cfg : Config) (prof : String) : String :=
  if prof == cfg.hostPrefix || (cfg.hostPrefix ++ "-").toList.isPrefixOf prof.toList then prof
  else cfg.hostPrefix ++ "-" ++ prof

def lazyMountsFor (cfg : Config) (prof : String) : List LazyMount :=
  (profileOf cfg prof).elim [] (·.lazyMounts)

def syncDiskEnabled (cfg : Config) (prof : String) : Bool :=
  (profileOf cfg prof).elim false (·.syncDisk)

def browserFailoverOf (cfg : Config) (prof : String) : Option ProfileBrowserFailover :=
  (profileOf cfg prof).bind (·.browserFailover)

def validPort (port : Number) : Bool := Spec.isPort (.num port)

def truthyPort (port : Number) : Bool := (Val.num port).truthy

end RemoteDevbox.Client
