import RemoteDevbox.Lib.Py.Words

/-!
# Command lines

`shlex.split` of a text: words as a shell splits them, with its quotes and
backslashes.
-/

namespace Py.Shlex

inductive Mode where
  | blank
  | word
  | quote (q : Char)
  /-- Behind a backslash, within the quotes `back`. -/
  | escape (back : Option Char)

def isWhite (c : Char) : Bool := c == ' ' || c == '\t' || c == '\r' || c == '\n'

def isQuote (c : Char) : Bool := c == '\'' || c == '"'

/-- The words that follow, with the one read so far and whether it had quotes.
Open quotes and a last backslash are errors. -/
def tokens (mode : Mode) (token : List Char) (quoted : Bool) :
    List Char → Option (List (List Char))
  | [] =>
      match mode with
      | .blank => some []
      | .word => some (if token.isEmpty && !quoted then [] else [token])
      | _ => none
  | c :: rest =>
      match mode with
      | .blank =>
          if isWhite c then tokens .blank [] false rest
          else if c = '\\' then tokens (.escape none) [] false rest
          else if isQuote c then tokens (.quote c) [] false rest
          else tokens .word [c] false rest
      | .word =>
          if isWhite c then
            if token.isEmpty && !quoted then tokens .blank [] false rest
            else (tokens .blank [] false rest).map (token :: ·)
          else if isQuote c then tokens (.quote c) token quoted rest
          else if c = '\\' then tokens (.escape none) token quoted rest
          else tokens .word (token ++ [c]) quoted rest
      | .quote q =>
          if c = q then tokens .word token true rest
          else if c = '\\' ∧ q = '"' then tokens (.escape (some q)) token true rest
          else tokens (.quote q) (token ++ [c]) true rest
      | .escape none => tokens .word (token ++ [c]) quoted rest
      | .escape (some q) =>
          let kept := if c ≠ '\\' ∧ c ≠ q then token ++ ['\\'] else token
          tokens (.quote q) (kept ++ [c]) quoted rest

/-- `shlex.split(text)`, `none` where it raises `ValueError`. -/
def split (text : List Char) : Option (List (List Char)) := tokens .blank [] false text

/-! ## Bare words -/

/-- A character that means nothing to `split`. -/
def isBare (c : Char) : Bool := !isWhite c && !isQuote c && c != '\\'

section Bare

variable {token word rest : List Char}

end Bare

end Py.Shlex
