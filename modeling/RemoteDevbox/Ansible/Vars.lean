import RemoteDevbox.Spec.Load

namespace RemoteDevbox.Ansible

open Js Spec

/-!
# The generated variables as the roles read them
-/

/-- Jinja's truth of a value. -/
def truth : Val → Bool
  | .undef => false
  | .null => false
  | .bool b => b
  | .num n => n != .ofInt 0
  | .str s => s != ""
  | .arr xs => !xs.isEmpty
  | .obj fs => !fs.isEmpty
  | .fn _ => true

structure MemoryRow where
  user : Val
  name : String
  port : Number

/-- The declared memory instances of one developer, by name. -/
def instancesOf (dev : Val) : List (Val × String) :=
  if truth ((dev.get "memory").get "enabled") then
    ((dev.get "memory").get "instances").ownFields.map fun p ↦ (dev.get "user", p.1)
  else []

/-- The flattened memory instances: a port is allocated by position. -/
def memoryInstances (vars : Val) : List MemoryRow :=
  let base := numberOr (vars.get "devbox_memory_base_port") memoryBasePort
  ((listOf (vars.get "devbox_developers")).flatMap instancesOf).zipIdx.map fun p ↦
    ⟨p.1.1, p.1.2, base.add (.ofInt p.2)⟩

end RemoteDevbox.Ansible
