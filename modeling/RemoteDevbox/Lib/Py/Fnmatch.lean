import RemoteDevbox.Lib.Regex

/-!
# Shell patterns

`fnmatch.fnmatchcase`: `*` and `?` also match a slash.
-/

namespace Py.Fnmatch

/-- The characters of a bracket expression; a range that runs backwards has none. -/
def members : List Char → Char → Bool
  | a :: '-' :: b :: rest, c => (a ≤ c && c ≤ b) || members rest c
  | a :: rest, c => a == c || members rest c
  | [], _ => false

def charClass : List Char → Char → Bool
  | '!' :: set, c => !members set c
  | set, c => members set c

/-- The inside of a bracket expression and what follows it. A bracket right at
its start, or behind the negation, is one of its characters. -/
def bracket (text : List Char) : Option (List Char × List Char) :=
  let start := match text with
    | '!' :: ']' :: _ => 2
    | '!' :: _ => 1
    | ']' :: _ => 1
    | _ => 0
  let inner := (text.drop start).takeWhile (· != ']')
  match (text.drop start).dropWhile (· != ']') with
  | [] => none
  | _ :: rest => some (text.take start ++ inner, rest)

/-- `fuel` bounds the length of the pattern. -/
def translate : ℕ → List Char → Regex
  | 0, _ => .eps
  | _ + 1, [] => .eps
  | fuel + 1, '*' :: rest => .seq .any (translate fuel rest)
  | fuel + 1, '?' :: rest => .seq (.cls fun _ ↦ true) (translate fuel rest)
  | fuel + 1, '[' :: rest =>
      match bracket rest with
      | some (set, after) => .seq (.cls (charClass set)) (translate fuel after)
      | none => .seq (.chr '[') (translate fuel rest)
  | fuel + 1, c :: rest => .seq (.chr c) (translate fuel rest)

/-- `fnmatch.fnmatchcase(name, pattern)` -/
def fnmatchcase (name pattern : List Char) : Bool :=
  (translate pattern.length pattern).isMatch name

end Py.Fnmatch
