import RemoteDevbox.Spec.Resolve

namespace RemoteDevbox.Spec

open Js

/-!
# The secret of an account
-/

/-- One character of `user.toUpperCase().replaceAll("-", "_")`. -/
def foldChar (c : Char) : Char := if c.toUpper = '-' then '_' else c.toUpper

/-- The secret that holds the password hash of an account. -/
def rdpSecretName (user : String) : String :=
  "RDP_PASSWORD_HASH_" ++ String.ofList (user.toList.map foldChar)

end RemoteDevbox.Spec
