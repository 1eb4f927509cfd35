import RemoteDevbox.Lib.Js.CodeUnits

namespace Js.Json

/-!
# The texts that `JSON.parse` accepts

One pass over the code units, with the open objects and arrays on a stack.
-/

inductive Frame where
  | object
  | array
  deriving DecidableEq

/-- What is read: `key` tells the texts that name a member. -/
inductive State where
  | value (opened : Bool)
  | firstKey
  | nextKey
  | colon
  | after
  | string (key : Bool)
  | escape (key : Bool)
  | hex (left : ℕ) (key : Bool)
  | minus
  | zero
  | int
  | point
  | frac
  | exp
  | expSign
  | expDigits
  | word (rest : Units)
  deriving DecidableEq

abbrev Machine := List Frame × State

def isWhite (c : CodeUnit) : Bool := (units " \t\n\r").contains c

def isDigit (c : CodeUnit) : Bool := unit '0' ≤ c && c ≤ unit '9'

def isHex (c : CodeUnit) : Bool :=
  isDigit c || (unit 'a' ≤ c && c ≤ unit 'f') || (unit 'A' ≤ c && c ≤ unit 'F')

def isExponent (c : CodeUnit) : Bool := c == unit 'e' || c == unit 'E'

/-- The first code unit of a value. -/
def start (stack : List Frame) (c : CodeUnit) : Option Machine :=
  if c = unit '\x7b' then some (.object :: stack, .firstKey)
  else if c = unit '[' then some (.array :: stack, .value true)
  else if c = unit '"' then some (stack, .string false)
  else if c = unit '-' then some (stack, .minus)
  else if c = unit '0' then some (stack, .zero)
  else if isDigit c then some (stack, .int)
  else if c = unit 't' then some (stack, .word (units "rue"))
  else if c = unit 'f' then some (stack, .word (units "alse"))
  else if c = unit 'n' then some (stack, .word (units "ull"))
  else none

def close (frame : Frame) : List Frame → Option Machine
  | top :: stack => if top = frame then some (stack, .after) else none
  | [] => none

/-- Behind a value. -/
def after (stack : List Frame) (c : CodeUnit) : Option Machine :=
  if isWhite c then some (stack, .after)
  else if c = unit '\x7d' then close .object stack
  else if c = unit ']' then close .array stack
  else if c = unit ',' then
    match stack with
    | .object :: _ => some (stack, .nextKey)
    | .array :: _ => some (stack, .value false)
    | [] => none
  else none

/-- One digit more, or what comes behind the number. -/
def number (stack : List Frame) (c : CodeUnit) (digits : State) : Option Machine :=
  if isDigit c then some (stack, digits) else after stack c

def step : Machine → CodeUnit → Option Machine
  | (stack, .value opened), c =>
      if isWhite c then some (stack, .value opened)
      else if opened && c = unit ']' then close .array stack
      else start stack c
  | (stack, .firstKey), c =>
      if isWhite c then some (stack, .firstKey)
      else if c = unit '"' then some (stack, .string true)
      else if c = unit '\x7d' then close .object stack
      else none
  | (stack, .nextKey), c =>
      if isWhite c then some (stack, .nextKey)
      else if c = unit '"' then some (stack, .string true)
      else none
  | (stack, .colon), c =>
      if isWhite c then some (stack, .colon)
      else if c = unit ':' then some (stack, .value false)
      else none
  | (stack, .after), c => after stack c
  | (stack, .string key), c =>
      if c = unit '"' then some (stack, if key then .colon else .after)
      else if c = unit '\\' then some (stack, .escape key)
      else if c < 0x20 then none
      else some (stack, .string key)
  | (stack, .escape key), c =>
      if c = unit 'u' then some (stack, .hex 3 key)
      else if (units "\"\\/bfnrt").contains c then some (stack, .string key)
      else none
  | (stack, .hex left key), c =>
      if isHex c then some (stack, if left = 0 then .string key else .hex (left - 1) key) else none
  | (stack, .minus), c =>
      if c = unit '0' then some (stack, .zero)
      else if isDigit c then some (stack, .int)
      else none
  | (stack, .zero), c =>
      if c = unit '.' then some (stack, .point)
      else if isExponent c then some (stack, .exp)
      else after stack c
  | (stack, .int), c =>
      if c = unit '.' then some (stack, .point)
      else if isExponent c then some (stack, .exp)
      else number stack c .int
  | (stack, .point), c => if isDigit c then some (stack, .frac) else none
  | (stack, .frac), c => if isExponent c then some (stack, .exp) else number stack c .frac
  | (stack, .exp), c =>
      if c = unit '+' ∨ c = unit '-' then some (stack, .expSign)
      else if isDigit c then some (stack, .expDigits)
      else none
  | (stack, .expSign), c => if isDigit c then some (stack, .expDigits) else none
  | (stack, .expDigits), c => number stack c .expDigits
  | (_, .word []), _ => none
  | (stack, .word (w :: rest)), c =>
      if c = w then some (stack, if rest = [] then .after else .word rest) else none

/-- A value may end here. -/
def State.ended : State → Bool
  | .after | .zero | .int | .frac | .expDigits => true
  | _ => false

/-- `JSON.parse(text)` does not throw. -/
def parses (text : Units) : Bool :=
  match text.foldlM step ([], .value false) with
  | some ([], state) => state.ended
  | _ => false

example : parses (units " \x7b\"a\": [1, -2.5e3, \"\\u00e9\\n\", true, null], \"b\": \x7b\x7d\x7d\r") = true := by
  decide +kernel

example : ["", "01", "[1,]", "\x7b\"a\" 1\x7d", "\"\\x\"", "1 2", "nul", "[\x7d"].all
    (fun s ↦ !parses (units s)) = true := by
  decide +kernel

end Js.Json
