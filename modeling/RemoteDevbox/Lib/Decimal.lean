import Mathlib.Algebra.Order.Field.Rat
import Mathlib.Data.Nat.Digits.Lemmas
import Mathlib.Data.Nat.Log
import Mathlib.Data.Rat.Lemmas
import Mathlib.Tactic.FieldSimp
import Mathlib.Tactic.Ring

/-!
# Decimal numerals

The rationals with a finite decimal expansion, and the reading of a numeral
`[-+]?(\d+(\.\d*)?|\.\d+)([eE][-+]?\d+)?` as the number it denotes.
-/

/-- A rational whose decimal expansion ends. -/
structure Decimal where
  val : ℚ
  terminates : ∃ e : ℕ, val.den ∣ 10 ^ e

namespace Decimal

instance : DecidableEq Decimal := fun a b ↦
  decidable_of_iff (a.val = b.val) (by cases a; cases b; simp)

theorem ext_val {a b : Decimal} (h : a.val = b.val) : a = b := by
  cases a; cases b; simpa using h

def ofInt (z : ℤ) : Decimal := ⟨z, 0, by simp⟩

def add (a b : Decimal) : Decimal where
  val := a.val + b.val
  terminates := by
    obtain ⟨e, he⟩ := a.terminates
    obtain ⟨f, hf⟩ := b.terminates
    refine ⟨e + f, (Rat.add_den_dvd _ _).trans ?_⟩
    rw [pow_add]
    exact mul_dvd_mul he hf

/-- `m` shifted by `e` decimal places. -/
def ofScientific (m e : ℤ) : Decimal where
  val := if 0 ≤ e then (m * 10 ^ e.toNat : ℤ) else mkRat m (10 ^ (-e).toNat)
  terminates := by
    split
    · exact ⟨0, by rw [Rat.den_intCast, pow_zero]⟩
    · refine ⟨(-e).toNat, ?_⟩
      rw [Rat.mkRat_eq_divInt]
      exact_mod_cast Rat.den_dvd m (10 ^ (-e).toNat : ℕ)

/-- The number of places is bounded by the size of the denominator. -/
theorem exists_dvd_pow_le_log {n e : ℕ} (h : n ∣ 10 ^ e) :
    ∃ k ≤ Nat.log 2 n, n ∣ 10 ^ k := by
  induction e generalizing n with
  | zero =>
      obtain rfl : n = 1 := by simpa using h
      exact ⟨0, Nat.zero_le _, one_dvd _⟩
  | succ e ih =>
      have hnpos : 0 < n := Nat.pos_of_dvd_of_pos h (by positivity)
      have hgpos : 0 < Nat.gcd n 10 := Nat.gcd_pos_of_pos_left _ hnpos
      rcases Nat.lt_or_ge 1 (Nat.gcd n 10) with hg | hg
      · obtain ⟨m, hm⟩ := Nat.gcd_dvd_left n 10
        obtain ⟨t, ht⟩ := Nat.gcd_dvd_right n 10
        have hcop : Nat.Coprime m t := by
          have hdiv := Nat.coprime_div_gcd_div_gcd hgpos
          have hnm : n / Nat.gcd n 10 = m := Nat.div_eq_of_eq_mul_right hgpos hm
          have htt : 10 / Nat.gcd n 10 = t := Nat.div_eq_of_eq_mul_right hgpos ht
          rwa [hnm, htt] at hdiv
        have hdvd : m ∣ 10 ^ e := by
          have hmul : Nat.gcd n 10 * m ∣ Nat.gcd n 10 * (t * 10 ^ e) := by
            rw [← hm, ← mul_assoc, ← ht, ← pow_succ']
            exact h
          exact hcop.dvd_of_dvd_mul_left (Nat.dvd_of_mul_dvd_mul_left hgpos hmul)
        obtain ⟨k, hk, hmk⟩ := ih hdvd
        refine ⟨k + 1, ?_, ?_⟩
        · have hmpos : m ≠ 0 := by
            rintro rfl
            omega
          calc
            k + 1 ≤ Nat.log 2 m + 1 := Nat.succ_le_succ hk
            _ = Nat.log 2 (m * 2) := (Nat.log_mul_base (by norm_num) hmpos).symm
            _ ≤ Nat.log 2 n := Nat.log_mono_right (by rw [hm, mul_comm]; gcongr; omega)
        · rw [hm, pow_succ, mul_comm]
          exact mul_dvd_mul hmk (Nat.gcd_dvd_right n 10)
      · have hone : n = 1 := by
          have hcop : Nat.Coprime n 10 := by
            unfold Nat.Coprime
            omega
          exact (Nat.Coprime.pow_right (e + 1) hcop).eq_one_of_dvd h
        subst hone
        exact ⟨0, Nat.zero_le _, one_dvd _⟩

theorem val_ofInt (z : ℤ) : (ofInt z).val = z := rfl

theorem val_add (a b : Decimal) : (a.add b).val = a.val + b.val := rfl

theorem ofInt_inj {a b : ℤ} : ofInt a = ofInt b ↔ a = b := by
  constructor
  · intro h
    have hval : (ofInt a).val = (ofInt b).val := congrArg val h
    exact_mod_cast (show (a : ℚ) = b from hval)
  · rintro rfl
    rfl

theorem val_ofScientific (m e : ℤ) : (ofScientific m e).val = m * (10 : ℚ) ^ e := by
  rcases le_or_gt 0 e with h | h
  · obtain ⟨n, rfl⟩ := Int.eq_ofNat_of_zero_le h
    simp [ofScientific]
  · obtain ⟨n, hn, rfl⟩ : ∃ n : ℕ, 0 < n ∧ e = -(n : ℤ) := ⟨(-e).toNat, by omega, by omega⟩
    have hneg : ¬ (0 : ℤ) ≤ -(n : ℤ) := by omega
    simp only [ofScientific, if_neg hneg]
    simp [Rat.mkRat_eq_div, div_eq_mul_inv]

/-! ## Digits -/

def isDigit (c : Char) : Bool := '0' ≤ c && c ≤ '9'

def digitChar (d : ℕ) : Char := Char.ofNat (48 + d)

def digitValue (c : Char) : ℕ := c.toNat - 48

/-- The decimal digits of `n`, most significant first. -/
def digits (n : ℕ) : List ℕ := (Nat.digits 10 n).reverse

/-- The number a string of digits denotes. -/
def ofDigits (cs : List Char) : ℕ := Nat.ofDigits 10 (cs.reverse.map digitValue)

theorem isDigit_digitChar {d : ℕ} (h : d < 10) : isDigit (digitChar d) = true := by
  interval_cases d <;> decide

theorem digitValue_digitChar {d : ℕ} (h : d < 10) : digitValue (digitChar d) = d := by
  interval_cases d <;> decide

theorem digit_lt {n d : ℕ} (h : d ∈ digits n) : d < 10 :=
  Nat.digits_lt_base (by norm_num) (List.mem_reverse.mp h)

theorem ofDigits_append (a b : List Char) :
    ofDigits (a ++ b) = ofDigits a * 10 ^ b.length + ofDigits b := by
  simp [ofDigits, Nat.ofDigits_append]
  ring

theorem ofDigits_zeros (k : ℕ) : ofDigits (List.replicate k '0') = 0 := by
  induction k with
  | zero => rfl
  | succ k ih =>
      rw [List.replicate_succ', ofDigits_append, ih]
      rfl

theorem ofDigits_map_digitChar {ds : List ℕ} (h : ∀ d ∈ ds, d < 10) :
    ofDigits (ds.map digitChar) = Nat.ofDigits 10 ds.reverse := by
  have hmap : (ds.map digitChar).reverse.map digitValue = ds.reverse := by
    rw [← List.map_reverse, List.map_map]
    refine (List.map_congr_left fun d hd ↦ ?_).trans (List.map_id _)
    exact digitValue_digitChar (h d (List.mem_reverse.mp hd))
  rw [ofDigits, hmap]

theorem ofDigits_digits (n : ℕ) : ofDigits ((digits n).map digitChar) = n := by
  rw [ofDigits_map_digitChar fun d ↦ digit_lt, digits, List.reverse_reverse, Nat.ofDigits_digits]

theorem all_isDigit_map {ds : List ℕ} (h : ∀ d ∈ ds, d < 10) :
    ∀ c ∈ ds.map digitChar, isDigit c = true := by
  intro c hc
  obtain ⟨d, hd, rfl⟩ := List.mem_map.mp hc
  exact isDigit_digitChar (h d hd)

/-! ## Reading -/

/-- A nonempty run of digits and nothing else. -/
def readNat (cs : List Char) : Option ℕ :=
  if cs != [] && cs.all isDigit then some (ofDigits cs) else none

/-- A sign, `+` when there is none, and the rest. -/
def splitSign : List Char → Bool × List Char
  | '-' :: cs => (true, cs)
  | '+' :: cs => (false, cs)
  | cs => (false, cs)

def applySign (neg : Bool) (n : ℤ) : ℤ := if neg then -n else n

/-- The exponent part, zero when it is absent. -/
def readExponent : List Char → Option ℤ
  | [] => some 0
  | c :: cs =>
      if c = 'e' ∨ c = 'E' then
        (readNat (splitSign cs).2).map fun n ↦ applySign (splitSign cs).1 n
      else none

/-- Mantissa and exponent of a numeral without its sign. -/
def readUnsigned (cs : List Char) : Option (ℕ × ℤ) :=
  let ints := cs.takeWhile isDigit
  match cs.dropWhile isDigit with
  | '.' :: rest =>
      let fracs := rest.takeWhile isDigit
      if ints = [] ∧ fracs = [] then none
      else (readExponent (rest.dropWhile isDigit)).map fun e ↦
        (ofDigits (ints ++ fracs), e - fracs.length)
  | rest =>
      if ints = [] then none else (readExponent rest).map fun e ↦ (ofDigits ints, e)

def read (cs : List Char) : Option Decimal :=
  (readUnsigned (splitSign cs).2).map fun p ↦
    ofScientific (applySign (splitSign cs).1 p.1) p.2

example : read "9522".toList = some (ofInt 9522) := by decide +kernel
example : read "-.5e+3".toList = some (ofInt (-500)) := by decide +kernel
example : read "1.2.3".toList = none := by decide +kernel

theorem takeWhile_digits {a b : List Char} (ha : ∀ c ∈ a, isDigit c = true)
    (hb : ∀ c ∈ b.head?, isDigit c = false) : (a ++ b).takeWhile isDigit = a := by
  rw [List.takeWhile_append_of_pos ha]
  cases b with
  | nil => simp
  | cons c b => simp [hb c rfl]

theorem dropWhile_digits {a b : List Char} (ha : ∀ c ∈ a, isDigit c = true)
    (hb : ∀ c ∈ b.head?, isDigit c = false) : (a ++ b).dropWhile isDigit = b := by
  rw [List.dropWhile_append_of_pos ha]
  cases b with
  | nil => rfl
  | cons c b => simp [hb c rfl]

theorem readNat_digits {cs : List Char} (hne : cs ≠ []) (h : ∀ c ∈ cs, isDigit c = true) :
    readNat cs = some (ofDigits cs) := by
  have hall : cs.all isDigit = true := List.all_eq_true.mpr h
  simp [readNat, hne, hall]

/-- A numeral without a fraction. -/
theorem readUnsigned_whole {a t : List Char} {e : ℤ} (hne : a ≠ [])
    (ha : ∀ c ∈ a, isDigit c = true) (htail : ∀ c ∈ t.head?, c = 'e')
    (he : readExponent t = some e) : readUnsigned (a ++ t) = some (ofDigits a, e) := by
  have hhead : ∀ c ∈ t.head?, isDigit c = false := by
    intro c hc
    rw [htail c hc]
    decide
  unfold readUnsigned
  rw [takeWhile_digits ha hhead, dropWhile_digits ha hhead]
  cases t with
  | nil => simp [hne, he]
  | cons c t =>
      obtain rfl := htail c rfl
      simp [hne, he]

/-- A numeral with a fraction. -/
theorem readUnsigned_fraction {a b t : List Char} {e : ℤ} (hne : b ≠ [])
    (ha : ∀ c ∈ a, isDigit c = true) (hb : ∀ c ∈ b, isDigit c = true)
    (htail : ∀ c ∈ t.head?, c = 'e') (he : readExponent t = some e) :
    readUnsigned (a ++ '.' :: (b ++ t)) = some (ofDigits (a ++ b), e - b.length) := by
  have hhead : ∀ c ∈ t.head?, isDigit c = false := by
    intro c hc
    rw [htail c hc]
    decide
  have hdot : ∀ c ∈ ('.' :: (b ++ t)).head?, isDigit c = false := by
    intro c hc
    obtain rfl : '.' = c := by simpa using hc
    decide
  unfold readUnsigned
  rw [takeWhile_digits ha hdot, dropWhile_digits ha hdot]
  simp only [takeWhile_digits hb hhead, dropWhile_digits hb hhead, hne, and_false, if_false, he,
    Option.map_some]

/-- A numeral without a sign is read as it stands. -/
theorem splitSign_of_readUnsigned {cs : List Char} {p : ℕ × ℤ} (h : readUnsigned cs = some p) :
    splitSign cs = (false, cs) := by
  unfold splitSign
  split
  · have hminus : isDigit '-' = false := by decide
    simp [readUnsigned, hminus] at h
  · have hplus : isDigit '+' = false := by decide
    simp [readUnsigned, hplus] at h
  · rfl

end Decimal
