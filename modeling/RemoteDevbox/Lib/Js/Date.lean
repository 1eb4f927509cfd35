import RemoteDevbox.Lib.Decimal

/-!
# Dates

A time value, the text `toISOString` writes for it, and the reading of that
text. Days are counted in years that begin with March, so that a leap day is
the last of its year.
-/

namespace Js

/-- A valid date, in milliseconds: a hundred million days on both sides of the epoch. -/
structure Date where
  time : ℤ
  valid : -8640000000000000 ≤ time ∧ time ≤ 8640000000000000

namespace Date

open Decimal

/-! ## The calendar -/

structure Civil where
  year : ℤ
  month : ℕ
  day : ℕ
  deriving DecidableEq

/-- The days of a 400-year era before its year `yoe`. -/
def eraDays (yoe : ℕ) : ℕ := 365 * yoe + yoe / 4 - yoe / 100

/-- The year of an era that holds its day `doe`: the century, the cycle of four
years, and the year of that cycle. A leap day makes the last of these longer. -/
def eraYear (doe : ℕ) : ℕ :=
  let century := min (doe / 36524) 3
  let cycle := (doe - 36524 * century) / 1461
  let year := min ((doe - 36524 * century - 1461 * cycle) / 365) 3
  100 * century + 4 * cycle + year

/-- The month that holds the day `doy` of a year, March being month `0`. -/
def marchMonth (doy : ℕ) : ℕ := (5 * doy + 2) / 153

/-- The days of a year before its month `mp`. -/
def monthDays (mp : ℕ) : ℕ := (153 * mp + 2) / 5

/-- The calendar day that is `z` days after 1970-01-01. -/
def civilOfDays (z : ℤ) : Civil :=
  let era := (z + 719468) / 146097
  let doe := ((z + 719468) % 146097).toNat
  let yoe := eraYear doe
  let mp := marchMonth (doe - eraDays yoe)
  let month := if mp < 10 then mp + 3 else mp - 9
  ⟨400 * era + yoe + (if month ≤ 2 then 1 else 0), month, doe - eraDays yoe - monthDays mp + 1⟩

def daysOfCivil (c : Civil) : ℤ :=
  let y := c.year - (if c.month ≤ 2 then 1 else 0)
  let mp := if c.month ≤ 2 then c.month + 9 else c.month - 3
  146097 * (y / 400) + eraDays (y % 400).toNat + monthDays mp + c.day - 1 - 719468

theorem eraDays_parts {century cycle year : ℕ} (hcycle : cycle ≤ 24) (hyear : year ≤ 3) :
    eraDays (100 * century + 4 * cycle + year) = 36524 * century + 1461 * cycle + 365 * year := by
  have hfours : (100 * century + 4 * cycle + year) / 4 = 25 * century + cycle := by omega
  have hhundreds : (100 * century + 4 * cycle + year) / 100 = century := by omega
  rw [eraDays, hfours, hhundreds]
  omega

theorem eraDays_eraYear (doe : ℕ) (h : doe < 146097) :
    eraYear doe < 400 ∧ eraDays (eraYear doe) ≤ doe ∧ doe < eraDays (eraYear doe) + 366 := by
  obtain ⟨century, hcentury⟩ : ∃ c, c = min (doe / 36524) 3 := ⟨_, rfl⟩
  obtain ⟨doc, hdoc⟩ : ∃ d, d = doe - 36524 * century := ⟨_, rfl⟩
  obtain ⟨cycle, hcycle⟩ : ∃ q, q = doc / 1461 := ⟨_, rfl⟩
  obtain ⟨doq, hdoq⟩ : ∃ d, d = doc - 1461 * cycle := ⟨_, rfl⟩
  obtain ⟨year, hyear⟩ : ∃ y, y = min (doq / 365) 3 := ⟨_, rfl⟩
  have heq : eraYear doe = 100 * century + 4 * cycle + year := by
    rw [hyear, hdoq, hcycle, hdoc, hcentury]
    rfl
  have hcenturies : century ≤ 3 ∧ doe = 36524 * century + doc ∧ doc ≤ 36524 := by omega
  have hcycles : cycle ≤ 24 ∧ doc = 1461 * cycle + doq ∧ doq ≤ 1460 := by omega
  have hyears : year ≤ 3 ∧ 365 * year ≤ doq ∧ doq < 365 * year + 366 := by omega
  rw [heq, eraDays_parts hcycles.1 hyears.1]
  clear heq hcentury hdoc hcycle hdoq hyear
  refine ⟨?_, ?_, ?_⟩ <;> omega

theorem marchMonth_lt (doy : ℕ) (h : doy < 366) : marchMonth doy < 12 := by
  unfold marchMonth
  omega

theorem monthDays_marchMonth (doy : ℕ) :
    monthDays (marchMonth doy) ≤ doy ∧ doy < monthDays (marchMonth doy) + 31 := by
  unfold monthDays marchMonth
  omega

/-- The year, the month and the day of a date, each in its range. -/
theorem civilOfDays_range (z : ℤ) :
    1 ≤ (civilOfDays z).month ∧ (civilOfDays z).month ≤ 12 ∧
      1 ≤ (civilOfDays z).day ∧ (civilOfDays z).day ≤ 31 := by
  obtain ⟨doe, hdoe⟩ : ∃ doe : ℕ, doe = ((z + 719468) % 146097).toNat := ⟨_, rfl⟩
  obtain ⟨_, hle, hlt⟩ := eraDays_eraYear doe (by omega)
  have hmonth := marchMonth_lt (doe - eraDays (eraYear doe)) (by omega)
  have hdays := monthDays_marchMonth (doe - eraDays (eraYear doe))
  simp only [civilOfDays, ← hdoe]
  refine ⟨?_, ?_, ?_, ?_⟩
  · split <;> omega
  · split <;> omega
  · omega
  · omega

/-- The days of a calendar day are counted back. -/
theorem daysOfCivil_civilOfDays (z : ℤ) : daysOfCivil (civilOfDays z) = z := by
  obtain ⟨doe, hdoe⟩ : ∃ doe : ℕ, doe = ((z + 719468) % 146097).toNat := ⟨_, rfl⟩
  obtain ⟨yoe, hyoe⟩ : ∃ yoe, yoe = eraYear doe := ⟨_, rfl⟩
  obtain ⟨hyear, hle, hlt⟩ := eraDays_eraYear doe (by omega)
  rw [← hyoe] at hyear hle hlt
  obtain ⟨mp, hmp⟩ : ∃ mp, mp = marchMonth (doe - eraDays yoe) := ⟨_, rfl⟩
  have hmonth := marchMonth_lt (doe - eraDays yoe) (by omega)
  have hdays := monthDays_marchMonth (doe - eraDays yoe)
  rw [← hmp] at hmonth hdays
  simp only [civilOfDays, daysOfCivil, ← hdoe, ← hyoe, ← hmp]
  have hback : (if (if mp < 10 then mp + 3 else mp - 9) ≤ 2 then
      (if mp < 10 then mp + 3 else mp - 9) + 9 else
      (if mp < 10 then mp + 3 else mp - 9) - 3) = mp := by
    split_ifs <;> omega
  have hera : (400 * ((z + 719468) / 146097) + (yoe : ℤ)) / 400 = (z + 719468) / 146097 := by omega
  have hyears : ((400 * ((z + 719468) / 146097) + (yoe : ℤ)) % 400).toNat = yoe := by omega
  rw [hback, add_sub_cancel_right, hera, hyears]
  omega

/-! ## The text of a date -/

/-- `n` in `k` digits. -/
def padded : ℕ → ℕ → List Char
  | 0, _ => []
  | k + 1, n => padded k (n / 10) ++ [digitChar (n % 10)]

/-- A year has four digits, or a sign and six. -/
def yearText (y : ℤ) : List Char :=
  if 0 ≤ y ∧ y ≤ 9999 then padded 4 y.toNat
  else if 0 ≤ y then '+' :: padded 6 y.toNat
  else '-' :: padded 6 (-y).toNat

def dayText (c : Civil) : List Char :=
  yearText c.year ++ '-' :: (padded 2 c.month ++ '-' :: padded 2 c.day)

/-- The time of a day, `ms` milliseconds after midnight. -/
def clockText (ms : ℕ) : List Char :=
  padded 2 (ms / 3600000) ++ ':' :: (padded 2 (ms / 60000 % 60) ++
    ':' :: (padded 2 (ms / 1000 % 60) ++ '.' :: (padded 3 (ms % 1000) ++ ['Z'])))

/-- `date.toISOString()`. -/
def toISOString (d : Date) : String :=
  String.ofList (dayText (civilOfDays (d.time / 86400000)) ++
    'T' :: clockText (d.time % 86400000).toNat)

/-- The number in the first `k` characters, and what follows the separator behind them. -/
def field (k : ℕ) (cs : List Char) : ℕ × List Char := (ofDigits (cs.take k), cs.drop (k + 1))

def yearField : List Char → ℤ × List Char
  | '+' :: cs => ((field 6 cs).1, (field 6 cs).2)
  | '-' :: cs => (-(field 6 cs).1, (field 6 cs).2)
  | cs => ((field 4 cs).1, (field 4 cs).2)

/-- The time value at the fixed places of a text. -/
def timeAt (cs : List Char) : ℤ :=
  let year := yearField cs
  let month := field 2 year.2
  let day := field 2 month.2
  let hour := field 2 day.2
  let minute := field 2 hour.2
  let second := field 2 minute.2
  let ms := field 3 second.2
  daysOfCivil ⟨year.1, month.1, day.1⟩ * 86400000 +
    (hour.1 * 3600000 + minute.1 * 60000 + second.1 * 1000 + ms.1 : ℕ)

/-- The date whose text this is. -/
def ofISOString (s : String) : Option Date :=
  let t := timeAt s.toList
  if h : -8640000000000000 ≤ t ∧ t ≤ 8640000000000000 then
    if toISOString ⟨t, h⟩ = s then some ⟨t, h⟩ else none
  else none

/-- `Date.parse(s)`, `none` where it is not a number. What it makes of a text in
any other form is up to the host: `other`. -/
def parse (other : String → Option ℤ) (s : String) : Option ℤ :=
  ((ofISOString s).map time).or (other s)

theorem length_padded (k n : ℕ) : (padded k n).length = k := by
  induction k generalizing n with
  | zero => rfl
  | succ k ih => simp [padded, ih]

theorem ofDigits_padded {k n : ℕ} (h : n < 10 ^ k) : ofDigits (padded k n) = n := by
  induction k generalizing n with
  | zero =>
      have hzero : n = 0 := by omega
      rw [hzero]
      rfl
  | succ k ih =>
      have hdigit : ofDigits [digitChar (n % 10)] = n % 10 := by
        simp [ofDigits, digitValue_digitChar (Nat.mod_lt n (by omega : 0 < 10))]
      rw [padded, ofDigits_append, ih (by omega), hdigit]
      simp only [List.length_singleton, pow_one]
      omega

theorem field_padded {k n : ℕ} (h : n < 10 ^ k) (c : Char) (cs : List Char) :
    field k (padded k n ++ c :: cs) = (n, cs) := by
  have htake : (padded k n ++ c :: cs).take k = padded k n := by
    have hlength := length_padded k n
    rw [List.take_append_of_le_length (by omega), List.take_of_length_le (by omega)]
  have hdrop : (padded k n ++ c :: cs).drop (k + 1) = cs := by
    have hlength := length_padded k n
    rw [List.drop_append, List.drop_of_length_le (by omega), hlength]
    simp
  rw [field, htake, hdrop, ofDigits_padded h]

theorem yearField_digit {c : Char} {cs : List Char} (hplus : c ≠ '+') (hminus : c ≠ '-') :
    yearField (c :: cs) = (((field 4 (c :: cs)).1 : ℤ), (field 4 (c :: cs)).2) := by
  unfold yearField
  split
  · rename_i heq
    exact (hplus (List.cons.inj heq).1).elim
  · rename_i heq
    exact (hminus (List.cons.inj heq).1).elim
  · rfl

theorem yearField_yearText {y : ℤ} (h : -1000000 < y ∧ y < 1000000) (c : Char) (cs : List Char) :
    yearField (yearText y ++ c :: cs) = (y, cs) := by
  unfold yearText
  split
  · rename_i hshort
    have hfield := field_padded (k := 4) (n := y.toNat) (by omega) c cs
    have hcons : ∃ d ds, padded 4 y.toNat ++ c :: cs = digitChar d :: ds ∧ d < 10 :=
      ⟨_, _, rfl, Nat.mod_lt _ (by omega)⟩
    obtain ⟨d, ds, heq, hd⟩ := hcons
    have hdigit := isDigit_digitChar hd
    rw [heq] at hfield ⊢
    rw [yearField_digit (fun h ↦ by simp [h] at hdigit; revert hdigit; decide)
      (fun h ↦ by simp [h] at hdigit; revert hdigit; decide), hfield]
    simp only [Prod.mk.injEq, and_true]
    omega
  · split
    · have hfield := field_padded (k := 6) (n := y.toNat) (by omega) c cs
      have heq : yearField (('+' :: padded 6 y.toNat) ++ c :: cs) = ((y.toNat : ℤ), cs) := by
        rw [List.cons_append, yearField, hfield]
      rw [heq]
      simp only [Prod.mk.injEq, and_true]
      omega
    · have hfield := field_padded (k := 6) (n := (-y).toNat) (by omega) c cs
      have heq : yearField (('-' :: padded 6 (-y).toNat) ++ c :: cs) =
          (-((-y).toNat : ℤ), cs) := by
        rw [List.cons_append, yearField, hfield]
      rw [heq]
      simp only [Prod.mk.injEq, and_true]
      omega

theorem civilOfDays_year {z : ℤ} (h : -100000000 ≤ z ∧ z ≤ 100000000) :
    -1000000 < (civilOfDays z).year ∧ (civilOfDays z).year < 1000000 := by
  have hyear := (eraDays_eraYear ((z + 719468) % 146097).toNat (by omega)).1
  simp only [civilOfDays]
  generalize eraYear ((z + 719468) % 146097).toNat = yoe at hyear ⊢
  split <;> constructor <;> split <;> omega

/-- The fixed places of a date's text hold the date. -/
theorem timeAt_text (d : Date) :
    timeAt (dayText (civilOfDays (d.time / 86400000)) ++ 'T' :: clockText (d.time % 86400000).toNat) =
      d.time := by
  obtain ⟨t, hlow, hhigh⟩ := d
  obtain ⟨ms, hms⟩ : ∃ ms, ms = (t % 86400000).toNat := ⟨_, rfl⟩
  have hyear := civilOfDays_year (z := t / 86400000) (by omega)
  obtain ⟨_, hmonth, _, hday⟩ := civilOfDays_range (t / 86400000)
  have hdays := daysOfCivil_civilOfDays (t / 86400000)
  rw [← hms]
  generalize civilOfDays (t / 86400000) = c at *
  simp only [timeAt, dayText, clockText, List.append_assoc, List.cons_append]
  rw [yearField_yearText hyear, field_padded (by omega), field_padded (by omega),
    field_padded (by omega), field_padded (by omega), field_padded (by omega),
    field_padded (by omega)]
  have heta : (⟨c.year, c.month, c.day⟩ : Civil) = c := rfl
  have hclock : ms / 3600000 * 3600000 + ms / 60000 % 60 * 60000 + ms / 1000 % 60 * 1000 +
      ms % 1000 = ms := by omega
  rw [heta, hdays, hclock, hms]
  omega

theorem ofISOString_toISOString (d : Date) : ofISOString (toISOString d) = some d := by
  have htime : timeAt (toISOString d).toList = d.time := by
    rw [toISOString, String.toList_ofList]
    exact timeAt_text d
  have hvalid := d.valid
  rw [← htime] at hvalid
  have heq : (⟨timeAt (toISOString d).toList, hvalid⟩ : Date) = d := by
    cases d
    simpa using htime
  simp only [ofISOString]
  rw [dif_pos hvalid, heq, if_pos rfl]

/-- `Date.parse` takes back what `toISOString` writes, on every host. -/
theorem parse_toISOString (other : String → Option ℤ) (d : Date) :
    parse other (toISOString d) = some d.time := by
  rw [parse, ofISOString_toISOString d, Option.map_some, Option.some_or]

end Date

end Js
