import RemoteDevbox.Lib.Js.Text
import RemoteDevbox.Lib.Py.Comments

namespace RemoteDevbox.Ansible.Inventory

/-!
# Hosts of a static INI inventory

How Ansible reads the host lines of an inventory file: sections with their
modifiers, words with quotes and comments, a port behind the name. The
address of a line is `ansible_host`, the last one that is given, else the
host's name, whatever its letter case and with or without the final dot.
Ranges in host patterns stay a parameter.
-/

section Sections

def isBlank (c : Char) : Bool := c == ' ' || c == '\t' || c == '\r'

/-- What the lines of a section are about. -/
inductive Kind where
  | hosts
  | vars
  | children
  deriving DecidableEq

def kindOf (modifier : List Char) : Option Kind :=
  if modifier = [] ∨ modifier = "hosts".toList then some .hosts
  else if modifier = "vars".toList then some .vars
  else if modifier = "children".toList then some .children
  else none

def isNameChar (c : Char) : Bool := c != ':' && c != ']' && !isBlank c

/-- Blanks and a comment may follow a header. -/
def closes (rest : List Char) : Bool :=
  match rest.dropWhile isBlank with
  | [] => true
  | c :: _ => c == '#'

/-- The modifier of a header `[name]` or `[name:modifier]`. -/
def readHeader : List Char → Option (List Char)
  | '[' :: rest =>
      if (rest.takeWhile isNameChar).isEmpty then none
      else
        match rest.dropWhile isNameChar with
        | ']' :: after => if closes after then some [] else none
        | ':' :: more =>
            match more.dropWhile isNameChar with
            | ']' :: after => if closes after then some (more.takeWhile isNameChar) else none
            | _ => none
        | _ => none
  | _ => none

inductive Line where
  | nothing
  | header (kind : Kind)
  | entry
  | bad

/-- A line that is no header but stands in brackets is an error. -/
def classify (raw : List Char) : Line :=
  match raw.dropWhile isBlank with
  | [] => .nothing
  | c :: rest =>
      if c = '#' ∨ c = ';' then .nothing
      else
        match readHeader (c :: rest) with
        | some modifier =>
            match kindOf modifier with
            | some kind => .header kind
            | none => .bad
        | none => if c = '[' ∧ ((c :: rest).rdropWhile isBlank).getLast? = some ']' then .bad else .entry

/-- The lines of the host sections, `none` where the file is refused. -/
def hostLines (kind : Kind) : List (List Char) → Option (List (List Char))
  | [] => some []
  | raw :: rest =>
      match classify raw with
      | .nothing => hostLines kind rest
      | .header kind' => hostLines kind' rest
      | .entry => do
          let more ← hostLines kind rest
          return if kind = .hosts then raw :: more else more
      | .bad => none

end Sections

section Addresses

def HOST_KEY : List Char := "ansible_host=".toList

/-- The value of the last `ansible_host`. -/
def givenHost (vars : List (List Char)) : Option (List Char) :=
  ((vars.filter HOST_KEY.isPrefixOf).map (·.drop HOST_KEY.length)).getLast?

/-- The name without its port. -/
def dropPort (name : List Char) : List Char :=
  match name.splitOn ':' with
  | [host, port] => if port ≠ [] ∧ port.all Regex.isDigit then host else name
  | _ => name

def dropDot (name : List Char) : List Char := if name.getLast? = some '.' then name.dropLast else name

def lower (name : List Char) : List Char := name.map Char.toLower

/-- Two spellings of one address come to the same. -/
def norm (address : List Char) : List Char := lower (dropDot address)

/-- The names that a host pattern stands for. -/
structure Patterns where
  expand : List Char → List (List Char)
  plain : ∀ name, '[' ∉ name → expand name = [name]

/-- The addresses of a host line. -/
def addressesOf (patterns : Patterns) (line : List Char) : Option (List (List Char)) := do
  match ← Py.Shlex.splitLine line with
  | [] => none
  | pattern :: vars =>
      if vars.all (fun v ↦ v.contains '=') then
        match givenHost vars with
        | some host => some [norm host]
        | none => some ((patterns.expand (dropPort pattern)).map norm)
      else none

/-- The addresses of all hosts, `none` where Ansible refuses the file. -/
def addresses (patterns : Patterns) (text : List Char) : Option (List (List Char)) := do
  let lines ← hostLines .hosts (text.splitOn '\n')
  let each ← lines.mapM (addressesOf patterns)
  return each.flatten

end Addresses

end RemoteDevbox.Ansible.Inventory
