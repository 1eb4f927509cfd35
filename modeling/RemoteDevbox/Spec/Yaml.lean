import RemoteDevbox.Lib.Js.Text
import RemoteDevbox.Lib.Js.Value

namespace RemoteDevbox.Spec

open Js

/-!
# The YAML emitter

Object fields that are `undefined` are dropped. Anything else that is not
plain data makes the emitter throw.
-/

section Patterns

open Regex

def plainChar (c : Char) : Bool :=
  isAlnum c || c == '_' || c == '@' || c == '.' || c == '/' || c == '+' || c == '-'

/-- `^[A-Za-z0-9_@./+-]+$` -/
def PLAIN_RE : Regex := plus (cls plainChar)

end Patterns

def RESERVED : List String := ["true", "false", "null", "yes", "no", "on", "off", "~"]

def needsQuote (s : String) : Bool :=
  s == "" || !Text.test PLAIN_RE s || RESERVED.contains (Text.lower s) || Text.isNumeric s

/-- A backslash before every backslash and double quote. -/
def guarded : List Char → List Char
  | [] => []
  | c :: cs => if c = '\\' ∨ c = '"' then '\\' :: c :: guarded cs else c :: guarded cs

def quoted (s : String) : String := "\"" ++ String.ofList (guarded s.toList) ++ "\""

/-- The text of a value that is not an object. On `undefined` and on a
function the string methods are missing. -/
def scalar : Val → Js String
  | .null => .ok "null"
  | .num n => .ok n.toStr
  | .bool b => .ok (if b then "true" else "false")
  | .str s => .ok (if needsQuote s then quoted s else s)
  | _ => .error .typeError

/-- `line.slice(n)`. -/
def sliceFrom (n : ℕ) (line : String) : String := String.ofList (line.toList.drop n)

/-- The first line of a mapping moves onto the dash. -/
def hoist (pad : String) : List String → List String
  | [] => [pad ++ "- {}"]
  | first :: rest => (pad ++ "- " ++ sliceFrom (pad.length + 2) first) :: rest

mutual

def emitEntries (pad : String) : List (String × Val) → Js (List String)
  | [] => .ok []
  | (key, value) :: rest => do
      let here ← emitEntry pad key value
      let more ← emitEntries pad rest
      return here ++ more

def emitEntry (pad key : String) : Val → Js (List String)
  | .undef => .ok []
  | .arr [] => .ok [pad ++ key ++ ": []"]
  | .arr (x :: xs) => do
      let lines ← emitList (pad ++ "  ") (x :: xs)
      return (pad ++ key ++ ":") :: lines
  | .obj fs => do
      if fs.all fun p ↦ p.2.isUndef then return [pad ++ key ++ ": {}"]
      else
        let lines ← emitEntries (pad ++ "  ") fs
        return (pad ++ key ++ ":") :: lines
  | v => do
      let text ← scalar v
      return [pad ++ key ++ ": " ++ text]

def emitList (pad : String) : List Val → Js (List String)
  | [] => .ok []
  | x :: xs => do
      let here ← emitItem pad x
      let more ← emitList pad xs
      return here ++ more

def emitItem (pad : String) : Val → Js (List String)
  | .arr [] => .ok [pad ++ "- []"]
  | .arr (x :: xs) => do
      let lines ← emitList (pad ++ "  ") (x :: xs)
      return (pad ++ "-") :: lines
  | .obj fs => do
      let sub ← emitEntries (pad ++ "  ") fs
      return hoist pad sub
  | v => do
      let text ← scalar v
      return [pad ++ "- " ++ text]

end

def emitLines : Val → Js (List String)
  | .arr xs => emitList "" xs
  | .obj fs => emitEntries "" fs
  | v => do
      let text ← scalar v
      return [text]

/-- A document body, newline-terminated. -/
def toYaml (v : Val) : Js String := do
  let lines ← emitLines v
  return if lines.isEmpty then "" else "\n".intercalate lines ++ "\n"

example : toYaml (.obj [("a", .arr [.obj [("k", "on"), ("n", 2)]]), ("e", .obj [("x", .undef)])]) =
    .ok "a:\n  - k: \"on\"\n    n: 2\ne: {}\n" := by decide +kernel

end RemoteDevbox.Spec
