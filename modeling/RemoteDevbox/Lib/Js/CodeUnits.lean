import Mathlib.Data.List.Basic

namespace Js

/-!
# Code units

A text as the language indexes it is a list of UTF-16 code units. A file is read and
written as UTF-8; a surrogate that stands alone is written as U+FFFD.
-/

abbrev CodeUnit := UInt16

abbrev Units := List CodeUnit

/-- The code units of one character. -/
def unitsOfChar (c : Char) : Units :=
  if c.toNat < 0x10000 then [.ofNat c.toNat]
  else [.ofNat (0xD800 + (c.toNat - 0x10000) / 0x400), .ofNat (0xDC00 + (c.toNat - 0x10000) % 0x400)]

def units (s : String) : Units := s.toList.flatMap unitsOfChar

/-- The code unit of a character of the basic plane. -/
def unit (c : Char) : CodeUnit := .ofNat c.toNat

/-- U+FEFF. -/
def BOM : CodeUnit := 0xFEFF

def isHighSurrogate (u : CodeUnit) : Bool := 0xD800 ≤ u.toNat && u.toNat < 0xDC00

def isLowSurrogate (u : CodeUnit) : Bool := 0xDC00 ≤ u.toNat && u.toNat < 0xE000

def isSurrogate (u : CodeUnit) : Bool := isHighSurrogate u || isLowSurrogate u

/-- A code unit that is not half of a pair. -/
def charOf (u : CodeUnit) : Char := if isSurrogate u then '\uFFFD' else .ofNat u.toNat

/-- The characters of a text. -/
def charsOf : Units → List Char
  | [] => []
  | [u] => [charOf u]
  | u :: v :: rest =>
      if isHighSurrogate u && isLowSurrogate v then
        .ofNat (0x10000 + (u.toNat - 0xD800) * 0x400 + (v.toNat - 0xDC00)) :: charsOf rest
      else charOf u :: charsOf (v :: rest)

/-- The text of a file, a byte order mark included; `none` if it is not valid UTF-8. -/
def textOf (bytes : ByteArray) : Option Units :=
  bytes.utf8Decode?.map fun cs ↦ cs.toList.flatMap unitsOfChar

/-- `new TextDecoder("utf-8", { fatal: true }).decode(bytes)`, which drops a byte order
mark. -/
def decode (bytes : ByteArray) : Option Units :=
  (textOf bytes).map fun text ↦ if text.head? = some BOM then text.drop 1 else text

/-- The bytes that are written for a text. -/
def encode (text : Units) : ByteArray := (String.ofList (charsOf text)).toByteArray

end Js
