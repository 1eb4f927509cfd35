import RemoteDevbox.Lib.Js.Date
import RemoteDevbox.Lib.Py.Value

/-!
# Time stamps

`time.strptime` with the format `%Y-%m-%dT%H:%M:%S`, and `calendar.timegm` of what it
gives. Where a field takes any digit, the digits of every script count.
-/

namespace Py.Time

open Js.Date

/-- The zeros of the scripts that have decimal digits. -/
def zeros : List ℕ :=
  [0x30, 0x660, 0x6f0, 0x7c0, 0x966, 0x9e6, 0xa66, 0xae6, 0xb66, 0xbe6, 0xc66, 0xce6, 0xd66, 0xde6,
    0xe50, 0xed0, 0xf20, 0x1040, 0x1090, 0x17e0, 0x1810, 0x1946, 0x19d0, 0x1a80, 0x1a90, 0x1b50,
    0x1bb0, 0x1c40, 0x1c50, 0xa620, 0xa8d0, 0xa900, 0xa9d0, 0xa9f0, 0xaa50, 0xabf0, 0xff10, 0x104a0,
    0x10d30, 0x11066, 0x110f0, 0x11136, 0x111d0, 0x112f0, 0x11450, 0x114d0, 0x11650, 0x116c0,
    0x11730, 0x118e0, 0x11950, 0x11c50, 0x11d50, 0x11da0, 0x16a60, 0x16ac0, 0x16b50, 0x1d7ce,
    0x1d7d8, 0x1d7e2, 0x1d7ec, 0x1d7f6, 0x1e140, 0x1e2f0, 0x1e950, 0x1fbf0]

/-- The value of `\d`. -/
def decimalOf (c : Char) : Option ℕ :=
  (zeros.find? fun z ↦ z ≤ c.toNat && c.toNat ≤ z + 9).map (c.toNat - ·)

/-- The value of a digit between `low` and `high`. -/
def digitIn (low high c : Char) : Option ℕ :=
  if low ≤ c ∧ c ≤ high then some (c.toNat - '0'.toNat) else none

/-! ## Fields -/

/-- `\d\d\d\d` -/
def yearOf : List Char → Option ℕ
  | [a, b, c, d] => do
      return 1000 * (← decimalOf a) + 100 * (← decimalOf b) + 10 * (← decimalOf c) + (← decimalOf d)
  | _ => none

/-- `1[0-2]|0[1-9]|[1-9]` -/
def monthOf : List Char → Option ℕ
  | [c] => digitIn '1' '9' c
  | ['0', c] => digitIn '1' '9' c
  | ['1', c] => (digitIn '0' '2' c).map (10 + ·)
  | _ => none

/-- `3[0-1]|[1-2]\d|0[1-9]|[1-9]| [1-9]` -/
def dayOf : List Char → Option ℕ
  | [c] => digitIn '1' '9' c
  | ['3', c] => (digitIn '0' '1' c).map (30 + ·)
  | ['1', c] => (decimalOf c).map (10 + ·)
  | ['2', c] => (decimalOf c).map (20 + ·)
  | ['0', c] => digitIn '1' '9' c
  | [' ', c] => digitIn '1' '9' c
  | _ => none

/-- `2[0-3]|[0-1]\d|\d` -/
def hourOf : List Char → Option ℕ
  | [c] => decimalOf c
  | ['2', c] => (digitIn '0' '3' c).map (20 + ·)
  | ['1', c] => (decimalOf c).map (10 + ·)
  | ['0', c] => decimalOf c
  | _ => none

/-- `[0-5]\d|\d` -/
def minuteOf : List Char → Option ℕ
  | [c] => decimalOf c
  | [a, c] => do return 10 * (← digitIn '0' '5' a) + (← decimalOf c)
  | _ => none

/-- `6[0-1]|[0-5]\d|\d` -/
def secondOf : List Char → Option ℕ
  | ['6', c] => (digitIn '0' '1' c).map (60 + ·)
  | text => minuteOf text

/-! ## Stamps -/

structure Moment where
  date : Civil
  hour : ℕ
  minute : ℕ
  second : ℕ
  deriving DecidableEq

def isLeap (year : ℕ) : Bool := year % 4 == 0 && (year % 100 != 0 || year % 400 == 0)

def daysIn (year month : ℕ) : ℕ :=
  if month = 2 then (if isLeap year then 29 else 28)
  else if [4, 6, 9, 11].contains month then 30
  else 31

/-- The text before the first of the separators, and the text behind it. -/
def cutAt (isSep : Char → Bool) (text : List Char) : Option (List Char × List Char) :=
  match text.dropWhile (!isSep ·) with
  | [] => none
  | _ :: rest => some (text.takeWhile (!isSep ·), rest)

/-- No field can hold a separator, so each ends at the first. Letters match in either case. -/
def strptime (text : List Char) : Option Moment := do
  let (year, text) ← cutAt (· == '-') text
  let (month, text) ← cutAt (· == '-') text
  let (day, text) ← cutAt (fun c ↦ c == 'T' || c == 't') text
  let (hour, text) ← cutAt (· == ':') text
  let (minute, second) ← cutAt (· == ':') text
  let year ← yearOf year
  let month ← monthOf month
  let day ← dayOf day
  -- `datetime.date` takes no other
  guard (1 ≤ year ∧ day ≤ daysIn year month)
  return ⟨⟨year, month, day⟩, ← hourOf hour, ← minuteOf minute, ← secondOf second⟩

/-- `calendar.timegm` -/
def timegm (m : Moment) : ℤ := ((daysOfCivil m.date * 24 + m.hour) * 60 + m.minute) * 60 + m.second

/-- The seconds from the epoch to the time that a text tells. -/
def secondsOf (text : Str) : Option ℤ := do
  let text ← text.mapM fun
    | .char c => some c
    | .half _ => none
  return timegm (← strptime text)

example : secondsOf (str "2026-09-08T10:00:00") = some 1788861600 := by decide +kernel

end Py.Time
