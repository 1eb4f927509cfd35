import RemoteDevbox.Spec.Types

namespace RemoteDevbox.Spec

open Js

/-!
# Keyboard layouts

The layout id a keyboard announces over RDP, and the layout a session comes
up on.
-/

structure XkbKeyboard where
  layout : String
  variant : Option String
  deriving DecidableEq

/-- What the machine running the CLI tells about itself. -/
structure ClientFacts where
  keyboard : Option XkbKeyboard

def RDP_LAYOUT_IDS : Fields :=
  [("us", "0x00000409"),
   ("us(intl)", "0x00020409"),
   ("gb", "0x00000809"),
   ("de", "0x00000407"),
   ("fr", "0x0000040C"),
   ("es", "0x0000040A"),
   ("it", "0x00000410"),
   ("nl", "0x00000413"),
   ("se", "0x0000041D"),
   ("no", "0x00000414"),
   ("dk", "0x00000406"),
   ("fi", "0x0000040B"),
   ("pl", "0x00000415"),
   ("pt", "0x00000816"),
   ("br", "0x00000416"),
   ("ru", "0x00000419"),
   ("ua", "0x00000422"),
   ("gr", "0x00000408"),
   ("cz", "0x00000405"),
   ("hu", "0x0000040E"),
   ("ro", "0x00000418"),
   ("ch", "0x00000807"),
   ("tr", "0x0000041F"),
   ("tr(f)", "0x0001041F")]

def xkbName (layout variant : Val) : Js String :=
  if variant.truthy then do
    let layout ← layout.toStr
    let variant ← variant.toStr
    return s!"{layout}({variant})"
  else layout.toStr

/-- The source indexes an object literal, so a name that objects inherit is
found as well. -/
def rdpLayoutId (layout variant : Val) : Js Val := do
  let name ← xkbName layout variant
  return (Val.index RDP_LAYOUT_IDS name).orElse .null

def optionalText : Option String → Val
  | some s => .str s
  | none => .null

def resolveKeyboard (dev : Val) (client : ClientFacts) : Js Val :=
  let stated := (dev.get "desktop").get "keyboard"
  if stated.truthy then withId (stated.get "layout") ((stated.get "variant").orElse .null)
  else
    match client.keyboard with
    | some k => withId k.layout (optionalText k.variant)
    | none => .ok .null
where
  withId (layout variant : Val) : Js Val := do
    let id ← rdpLayoutId layout variant
    return .obj [("layout", layout), ("variant", variant), ("rdp_layout_id", id)]

end RemoteDevbox.Spec
