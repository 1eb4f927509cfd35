import RemoteDevbox.Lib.Binary64
import RemoteDevbox.Lib.Decimal
import Mathlib.Data.List.DropRight
import Mathlib.Tactic.Linarith

namespace Js

/-!
# JavaScript numbers

A finite number is kept as the decimal its text denotes, so arithmetic is
exact and there is one zero. Printing follows the `Number::toString`
algorithm on the digits of the value.
-/

inductive Number where
  | fin (d : Decimal)
  | inf (neg : Bool)
  | nan
  deriving DecidableEq

namespace Number

/-- The coercion every integer literal of the source goes through. -/
def ofInt (n : ℤ) : Number := .fin (.ofInt n)

theorem ofInt_inj {a b : ℤ} : ofInt a = ofInt b ↔ a = b := by
  simp [ofInt, Decimal.ofInt_inj]

def isNaN : Number → Bool
  | .nan => true
  | _ => false

/-- `Number.isInteger`. -/
def isInteger : Number → Bool
  | .fin d => d.val.den == 1
  | _ => false

/-- The `<` of two numbers; every comparison with `NaN` is false. -/
def lt : Number → Number → Bool
  | .fin p, .fin q => decide (p.val < q.val)
  | .fin _, .inf neg => !neg
  | .inf neg, .fin _ => neg
  | .inf a, .inf b => a && !b
  | _, _ => false

/-- The `<=` of two numbers. -/
def le : Number → Number → Bool
  | .fin p, .fin q => decide (p.val ≤ q.val)
  | .fin _, .inf neg => !neg
  | .inf neg, .fin _ => neg
  | .inf a, .inf b => a || !b
  | _, _ => false

/-- Addition, with `NaN` for opposite infinities. -/
def add : Number → Number → Number
  | .fin p, .fin q => .fin (p.add q)
  | .inf a, .inf b => if a = b then .inf a else .nan
  | .inf a, .fin _ => .inf a
  | .fin _, .inf b => .inf b
  | _, _ => .nan

/-- Multiplication by a positive constant, of doubles: of the double that the decimal stands
for, and the product is rounded again. -/
def scale (k : ℕ) : Number → Number
  | .fin d =>
      let product := Binary64.round (Binary64.round d.val * k)
      if Binary64.limit ≤ product then .inf false
      else if product ≤ -Binary64.limit then .inf true
      else .fin ⟨product, 1074, Binary64.den_round_dvd _⟩
  | n => n

theorem isInteger_iff {n : Number} : n.isInteger = true ↔ ∃ z : ℤ, n = ofInt z := by
  cases n with
  | fin d =>
      simp only [isInteger, beq_iff_eq, ofInt, fin.injEq]
      constructor
      · intro h
        refine ⟨d.val.num, Decimal.ext_val ?_⟩
        exact ((Rat.den_eq_one_iff d.val).mp h).symm
      · rintro ⟨z, rfl⟩
        simp [Decimal.val_ofInt]
  | inf neg => simp [isInteger, ofInt]
  | nan => simp [isInteger, ofInt]

theorem le_ofInt {a b : ℤ} : (ofInt a).le (ofInt b) = decide (a ≤ b) := by
  simp [le, ofInt, Decimal.val_ofInt]

theorem isNaN_scale (n : Number) (k : ℕ) : (n.scale k).isNaN = n.isNaN := by
  cases n with
  | fin d =>
      rw [scale]
      split
      · rfl
      · split <;> rfl
  | inf neg => rfl
  | nan => rfl

/-- Whole numbers that the product can be are multiplied exactly. -/
theorem scale_ofInt {z : ℤ} {k : ℕ} (hz : |z| < 2 ^ 53) (hproduct : |z * k| < 2 ^ 53) :
    (ofInt z).scale k = ofInt (z * k) := by
  have hround : Binary64.round (Binary64.round (Decimal.ofInt z).val * k) = (z * k : ℤ) := by
    rw [Decimal.val_ofInt, Binary64.round_intCast hz, ← Binary64.round_intCast hproduct,
      Int.cast_mul, Int.cast_natCast]
  have hsmall : |((z * k : ℤ) : ℚ)| < 2 ^ 53 := by exact_mod_cast hproduct
  obtain ⟨hlower, hupper⟩ := abs_lt.mp (hsmall.trans Binary64.lt_limit)
  rw [← hround] at hlower hupper
  rw [ofInt, scale, if_neg (not_le.mpr hupper), if_neg (not_le.mpr hlower)]
  exact congrArg fin (Decimal.ext_val hround)

theorem le_scale {k : ℕ} (hk : k ≤ 2 ^ 53) {n : Number} (h : (ofInt 1).le n = true) :
    (ofInt k).le (n.scale k) = true := by
  cases n with
  | fin d =>
      have hd : (1 : ℚ) ≤ d.val := by
        simpa [le, ofInt, Decimal.val_ofInt] using h
      have hround : (1 : ℚ) ≤ Binary64.round d.val := by
        exact_mod_cast Binary64.le_round (z := 1) (by decide) (by exact_mod_cast hd)
          (zero_le_one.trans hd)
      have hscaled : (k : ℚ) ≤ Binary64.round d.val * k := by
        simpa using mul_le_mul_of_nonneg_right hround (Nat.cast_nonneg k)
      have hproduct : (k : ℚ) ≤ Binary64.round (Binary64.round d.val * k) := by
        exact_mod_cast Binary64.le_round (z := k) (by exact_mod_cast hk)
          (by exact_mod_cast hscaled) ((Nat.cast_nonneg k).trans hscaled)
      rw [scale]
      split
      · rfl
      · split
        next hlow =>
          have hlimit : (0 : ℚ) < Binary64.limit := pow_pos two_pos _
          have hnonneg : (0 : ℚ) ≤ Binary64.round (Binary64.round d.val * k) :=
            (Nat.cast_nonneg k).trans hproduct
          linarith
        next => exact decide_eq_true (by simpa [Decimal.val_ofInt] using hproduct)
  | inf neg => exact h
  | nan => exact h

theorem add_ofInt (a b : ℤ) : (ofInt a).add (ofInt b) = ofInt (a + b) := by
  simp only [add, ofInt, fin.injEq]
  apply Decimal.ext_val
  simp [Decimal.val_add, Decimal.val_ofInt]

/-! ## Printing -/

open Decimal (digits digitChar)

/-- The least number of decimal places that writes `q` exactly. -/
def places (q : ℚ) : ℕ :=
  ((List.range (Nat.log 2 q.den + 1)).find? fun e ↦ q.den ∣ 10 ^ e).getD 0

def dropZeros (ds : List ℕ) : List ℕ := ds.rdropWhile (· == 0)

/-- `e+21` or `e-7`. -/
def exponentText (e : ℤ) : List Char :=
  'e' :: (if 0 ≤ e then '+' else '-') :: (digits e.natAbs).map digitChar

/-- The layout step of `Number::toString`: significant digits `ds`, with the
decimal point after the first `n` of them. -/
def layout (ds : List ℕ) (n : ℤ) : List Char :=
  let s := ds.map digitChar
  let k : ℤ := ds.length
  if k ≤ n ∧ n ≤ 21 then
    s ++ List.replicate (n - k).toNat '0'
  else if 0 < n ∧ n ≤ 21 then
    s.take n.toNat ++ '.' :: s.drop n.toNat
  else if -6 < n ∧ n ≤ 0 then
    '0' :: '.' :: List.replicate (-n).toNat '0' ++ s
  else
    match s with
    | [] => []
    | d :: rest =>
        if rest = [] then d :: exponentText (n - 1) else d :: '.' :: rest ++ exponentText (n - 1)

/-- `Number::toString` of a nonnegative finite value. -/
def magnitudeText (q : ℚ) : List Char :=
  if q = 0 then ['0']
  else
    let e := places q
    let ds := digits (q.num.natAbs * 10 ^ e / q.den)
    layout (dropZeros ds) ((ds.length : ℤ) - e)

def text : Number → List Char
  | .fin d => if d.val < 0 then '-' :: magnitudeText (-d.val) else magnitudeText d.val
  | .inf neg => (if neg then "-Infinity" else "Infinity").toList
  | .nan => "NaN".toList

/-- `String(n)`. -/
def toStr (n : Number) : String := String.ofList n.text

example : (ofInt 9522).toStr = "9522" := by decide +kernel
example : (fin (.ofScientific 98 (-2))).toStr = "0.98" := by decide +kernel
example : (fin (.ofScientific 1 (-7))).toStr = "1e-7" := by decide +kernel

/-! ## The text of a number reads back as that number -/

theorem places_dvd {q : ℚ} (h : ∃ e : ℕ, q.den ∣ 10 ^ e) : q.den ∣ 10 ^ places q := by
  obtain ⟨e, he⟩ := h
  obtain ⟨k, hk, hdvd⟩ := Decimal.exists_dvd_pow_le_log he
  have hsome : ((List.range (Nat.log 2 q.den + 1)).find? fun e ↦ q.den ∣ 10 ^ e).isSome := by
    rw [List.find?_isSome]
    exact ⟨k, List.mem_range.mpr (by omega), by simpa using hdvd⟩
  obtain ⟨j, hj⟩ := Option.isSome_iff_exists.mp hsome
  have hspec := List.find?_some hj
  simpa [places, hj] using hspec

theorem digits_ne_nil {n : ℕ} (h : n ≠ 0) : digits n ≠ [] := by
  simpa [digits] using Nat.digits_ne_nil_iff_ne_zero.mpr h

theorem readExponent_exponentText {e : ℤ} (he : e ≠ 0) :
    Decimal.readExponent (exponentText e) = some e := by
  have hne : (digits e.natAbs).map digitChar ≠ [] := by
    simpa using digits_ne_nil (Int.natAbs_ne_zero.mpr he)
  have hnat := Decimal.readNat_digits hne (Decimal.all_isDigit_map fun d ↦ Decimal.digit_lt)
  rw [Decimal.ofDigits_digits] at hnat
  rcases le_or_gt 0 e with h | h
  · simp [exponentText, h, Decimal.readExponent, Decimal.splitSign, hnat, Decimal.applySign]
  · simp [exponentText, not_le.mpr h, Decimal.readExponent, Decimal.splitSign, hnat,
      Decimal.applySign, abs_of_neg h]

section Layouts

variable {s : List Char} (hne : s ≠ []) (hs : ∀ c ∈ s, Decimal.isDigit c = true)

include hs

theorem all_isDigit_zeros (k : ℕ) :
    ∀ c ∈ List.replicate k '0' ++ s, Decimal.isDigit c = true := by
  intro c hc
  rcases List.mem_append.mp hc with h | h
  · rw [List.eq_of_mem_replicate h]
    decide
  · exact hs c h

theorem read_pointed {k : ℕ} (hk : k < s.length) :
    Decimal.readUnsigned (s.take k ++ '.' :: s.drop k) =
      some (Decimal.ofDigits s, (k : ℤ) - s.length) := by
  have hdrop : s.drop k ≠ [] := by
    rw [ne_eq, List.drop_eq_nil_iff]
    omega
  have hread := Decimal.readUnsigned_fraction (a := s.take k) (t := []) hdrop
    (fun c hc ↦ hs c (List.mem_of_mem_take hc)) (fun c hc ↦ hs c (List.mem_of_mem_drop hc))
    (by simp) rfl
  rw [List.append_nil, List.take_append_drop, List.length_drop] at hread
  rw [hread]
  congr 2
  omega

theorem read_scientific {d : Char} (hd : Decimal.isDigit d = true) {e : ℤ} (he : e ≠ 0) :
    Decimal.readUnsigned (if s = [] then d :: exponentText e else d :: '.' :: s ++ exponentText e) =
      some (Decimal.ofDigits (d :: s), e - s.length) := by
  have hhead : ∀ c ∈ [d], Decimal.isDigit c = true := by simpa using hd
  have htail : ∀ c ∈ (exponentText e).head?, c = 'e' := by
    intro c hc
    simpa [exponentText, eq_comm] using hc
  by_cases hnil : s = []
  · subst hnil
    have hread := Decimal.readUnsigned_whole (by simp) hhead htail (readExponent_exponentText he)
    simpa using hread
  · have hread := Decimal.readUnsigned_fraction hnil hhead hs htail (readExponent_exponentText he)
    simpa [hnil] using hread

include hne

theorem read_padded (k : ℕ) :
    Decimal.readUnsigned (s ++ List.replicate k '0') = some (Decimal.ofDigits s * 10 ^ k, 0) := by
  have hall : ∀ c ∈ s ++ List.replicate k '0', Decimal.isDigit c = true := by
    intro c hc
    rcases List.mem_append.mp hc with h | h
    · exact hs c h
    · rw [List.eq_of_mem_replicate h]
      decide
  have hread := Decimal.readUnsigned_whole (t := []) (by simp [hne]) hall (by simp) rfl
  rw [List.append_nil, Decimal.ofDigits_append, Decimal.ofDigits_zeros] at hread
  simpa using hread

theorem read_small (k : ℕ) :
    Decimal.readUnsigned ('0' :: '.' :: List.replicate k '0' ++ s) =
      some (Decimal.ofDigits s, -(k : ℤ) - s.length) := by
  have hread := Decimal.readUnsigned_fraction (a := ['0']) (t := []) (by simp [hne])
    (by simp [Decimal.isDigit]) (all_isDigit_zeros hs k) (by simp) rfl
  rw [List.append_nil, ← List.append_assoc, Decimal.ofDigits_append,
    show ['0'] ++ List.replicate k '0' = List.replicate (k + 1) '0' from rfl,
    Decimal.ofDigits_zeros, zero_mul, zero_add] at hread
  refine Eq.trans (by simp) (hread.trans ?_)
  congr 2
  simp
  omega

end Layouts

/-- The digits `ds` with the point after the first `n` of them. -/
def layoutValue (ds : List ℕ) (n : ℤ) : ℚ :=
  (Decimal.ofDigits (ds.map digitChar) : ℚ) * 10 ^ (n - ds.length)

theorem readUnsigned_layout {ds : List ℕ} (hne : ds ≠ []) (hds : ∀ d ∈ ds, d < 10) (n : ℤ) :
    ∃ m e, Decimal.readUnsigned (layout ds n) = some (m, e) ∧
      (m : ℚ) * 10 ^ e = layoutValue ds n := by
  have hs := Decimal.all_isDigit_map hds
  have hsne : ds.map digitChar ≠ [] := by simpa using hne
  have hlen : (ds.map digitChar).length = ds.length := List.length_map _
  have hpos : 0 < ds.length := List.length_pos_iff.mpr hne
  unfold layout layoutValue
  simp only []
  split
  · rename_i hcase
    obtain ⟨k, hk⟩ : ∃ k : ℕ, n - ds.length = k := ⟨(n - ds.length).toNat, by omega⟩
    rw [hk]
    refine ⟨_, _, read_padded hsne hs k, ?_⟩
    simp
  · split
    · obtain ⟨k, rfl⟩ : ∃ k : ℕ, n = k := ⟨n.toNat, by omega⟩
      refine ⟨_, _, read_pointed hs (by omega), ?_⟩
      rw [hlen, Int.toNat_natCast]
    · split
      · obtain ⟨k, rfl⟩ : ∃ k : ℕ, n = -(k : ℤ) := ⟨(-n).toNat, by omega⟩
        rw [show (- -(k : ℤ)).toNat = k by omega]
        refine ⟨_, _, read_small hsne hs k, ?_⟩
        rw [hlen]
      · have hexp : n - 1 ≠ 0 := by omega
        cases hmap : ds.map digitChar with
        | nil => exact (hsne hmap).elim
        | cons d rest =>
            rw [hmap] at hs hlen
            have hrest : ∀ c ∈ rest, Decimal.isDigit c = true :=
              fun c hc ↦ hs c (List.mem_cons_of_mem _ hc)
            refine ⟨_, _, read_scientific hrest (hs d List.mem_cons_self) hexp, ?_⟩
            simp only [List.length_cons] at hlen
            congr 2
            omega

theorem dropZeros_append (ds : List ℕ) :
    ∃ k, ds = dropZeros ds ++ List.replicate k 0 := by
  refine ⟨(ds.rtakeWhile (· == 0)).length, ?_⟩
  have hzeros : ds.rtakeWhile (· == 0) = List.replicate (ds.rtakeWhile (· == 0)).length 0 := by
    rw [List.eq_replicate_iff]
    refine ⟨rfl, fun d hd ↦ ?_⟩
    simpa using List.mem_rtakeWhile_imp hd
  rw [← hzeros]
  exact List.rdropWhile_append_rtakeWhile.symm

theorem ofDigits_dropZeros {ds : List ℕ} {k : ℕ} (h : ds = dropZeros ds ++ List.replicate k 0) :
    Decimal.ofDigits (ds.map digitChar) =
      Decimal.ofDigits ((dropZeros ds).map digitChar) * 10 ^ k := by
  conv_lhs => rw [h]
  rw [List.map_append, List.map_replicate, Decimal.ofDigits_append, List.length_replicate,
    show digitChar 0 = '0' from rfl, Decimal.ofDigits_zeros, add_zero]

/-- The numerator of `q` written over the power of ten of its places. -/
theorem num_mul_div {q : ℚ} (hq : 0 < q) (h : ∃ e : ℕ, q.den ∣ 10 ^ e) :
    ((q.num.natAbs * 10 ^ places q / q.den : ℕ) : ℚ) = q * 10 ^ places q := by
  obtain ⟨t, ht⟩ := places_dvd h
  have hden : q.den ≠ 0 := q.den_ne_zero
  have hdiv : q.num.natAbs * 10 ^ places q / q.den = q.num.natAbs * t := by
    rw [ht, mul_left_comm, Nat.mul_div_cancel_left _ q.den_pos]
  have hnum : ((q.num.natAbs : ℕ) : ℚ) = q * q.den := by
    rw [Rat.mul_den_eq_num]
    have habs : ((q.num.natAbs : ℕ) : ℤ) = q.num := Int.natAbs_of_nonneg (Rat.num_pos.mpr hq).le
    rw [← Int.cast_natCast, habs]
  have hten : (10 : ℚ) ^ places q = q.den * t := by exact_mod_cast ht
  rw [hdiv, hten]
  push_cast
  rw [hnum]
  ring

theorem readUnsigned_magnitudeText {q : ℚ} (hq : 0 ≤ q) (h : ∃ e : ℕ, q.den ∣ 10 ^ e) :
    ∃ m e, Decimal.readUnsigned (magnitudeText q) = some (m, e) ∧ (m : ℚ) * 10 ^ e = q := by
  rcases hq.eq_or_lt with rfl | hpos
  · exact ⟨0, 0, by decide +kernel, by simp⟩
  · have hval := num_mul_div hpos h
    have hNpos : (0 : ℚ) < (q.num.natAbs * 10 ^ places q / q.den : ℕ) := by
      rw [hval]
      positivity
    unfold magnitudeText
    rw [if_neg hpos.ne']
    simp only []
    generalize q.num.natAbs * 10 ^ places q / q.den = N at hval hNpos
    have hNne : N ≠ 0 := by
      rintro rfl
      simp at hNpos
    obtain ⟨k, hk⟩ := dropZeros_append (digits N)
    have hdigits := ofDigits_dropZeros hk
    rw [Decimal.ofDigits_digits] at hdigits
    have hne : dropZeros (digits N) ≠ [] := by
      intro hnil
      rw [hnil] at hdigits
      exact hNne (by simpa [Decimal.ofDigits] using hdigits)
    have hlt : ∀ d ∈ dropZeros (digits N), d < 10 := by
      intro d hd
      apply Decimal.digit_lt (n := N)
      rw [hk]
      exact List.mem_append_left _ hd
    obtain ⟨m, e, hread, hme⟩ := readUnsigned_layout hne hlt ((digits N).length - places q)
    refine ⟨m, e, hread, ?_⟩
    have hlength : ((digits N).length : ℤ) = (dropZeros (digits N)).length + k := by
      have := congrArg List.length hk
      rw [List.length_append, List.length_replicate] at this
      exact_mod_cast this
    have hexp : ((digits N).length : ℤ) - places q - (dropZeros (digits N)).length =
        k - places q := by omega
    rw [hme, layoutValue, hexp, zpow_sub₀ (by norm_num), zpow_natCast, zpow_natCast]
    have hcast : (N : ℚ) =
        Decimal.ofDigits ((dropZeros (digits N)).map digitChar) * 10 ^ k := by
      exact_mod_cast hdigits
    rw [← mul_div_assoc, ← hcast, hval]
    field_simp

/-- `String(n)` of a finite number is a numeral of that number. -/
theorem read_text (d : Decimal) : Decimal.read (text (.fin d)) = some d := by
  rcases lt_or_ge d.val 0 with h | h
  · have hden : ∃ e : ℕ, (-d.val).den ∣ 10 ^ e := by simpa using d.terminates
    obtain ⟨m, e, hread, hval⟩ := readUnsigned_magnitudeText (neg_nonneg.mpr h.le) hden
    simp only [text, if_pos h, Decimal.read, Decimal.splitSign, hread, Option.map_some,
      Option.some.injEq]
    apply Decimal.ext_val
    rw [Decimal.val_ofScientific]
    simp [Decimal.applySign, hval]
  · obtain ⟨m, e, hread, hval⟩ := readUnsigned_magnitudeText h d.terminates
    simp only [text, if_neg (not_lt.mpr h), Decimal.read, Decimal.splitSign_of_readUnsigned hread,
      hread, Option.map_some, Option.some.injEq]
    apply Decimal.ext_val
    rw [Decimal.val_ofScientific]
    simp [Decimal.applySign, hval]

/-- The characters a numeral is made of. -/
def isNumeralChar (c : Char) : Bool :=
  Decimal.isDigit c || c == '.' || c == 'e' || c == '+' || c == '-'

theorem isNumeralChar_digits {ds : List ℕ} (hds : ∀ d ∈ ds, d < 10) :
    ∀ c ∈ ds.map digitChar, isNumeralChar c = true := by
  intro c hc
  simp [isNumeralChar, Decimal.all_isDigit_map hds c hc]

theorem isNumeralChar_exponentText (e : ℤ) :
    ∀ c ∈ exponentText e, isNumeralChar c = true := by
  intro c hc
  simp only [exponentText, List.mem_cons] at hc
  rcases hc with rfl | rfl | hc
  · decide
  · split <;> decide
  · exact isNumeralChar_digits (fun d ↦ Decimal.digit_lt) c hc

theorem isNumeralChar_layout {ds : List ℕ} (hds : ∀ d ∈ ds, d < 10) (n : ℤ) :
    ∀ c ∈ layout ds n, isNumeralChar c = true := by
  have hs := isNumeralChar_digits hds
  have hzeros : ∀ k, ∀ c ∈ List.replicate k '0', isNumeralChar c = true := by
    intro k c hc
    rw [List.eq_of_mem_replicate hc]
    decide
  have hdot : isNumeralChar '.' = true := by decide
  have hzero : isNumeralChar '0' = true := by decide
  have hexp := isNumeralChar_exponentText (n - 1)
  intro c hc
  simp only [layout] at hc
  split at hc
  · exact (List.mem_append.mp hc).elim (hs c) (hzeros _ c)
  · split at hc
    · rcases List.mem_append.mp hc with hc | hc
      · exact hs c (List.mem_of_mem_take hc)
      · rcases List.mem_cons.mp hc with rfl | hc
        · exact hdot
        · exact hs c (List.mem_of_mem_drop hc)
    · split at hc
      · simp only [List.cons_append, List.mem_cons, List.mem_append] at hc
        rcases hc with rfl | rfl | hc | hc
        · exact hzero
        · exact hdot
        · exact hzeros _ c hc
        · exact hs c hc
      · cases hmap : ds.map digitChar with
        | nil =>
            rw [hmap] at hc
            cases hc
        | cons d rest =>
            rw [hmap] at hs hc
            simp only at hc
            split at hc
            · rcases List.mem_cons.mp hc with rfl | hc
              · exact hs _ List.mem_cons_self
              · exact hexp c hc
            · simp only [List.cons_append, List.mem_cons, List.mem_append] at hc
              rcases hc with rfl | rfl | hc | hc
              · exact hs _ List.mem_cons_self
              · exact hdot
              · exact hs c (List.mem_cons_of_mem _ hc)
              · exact hexp c hc

theorem isNumeralChar_text (d : Decimal) : ∀ c ∈ text (.fin d), isNumeralChar c = true := by
  have hmagnitude : ∀ q : ℚ, ∀ c ∈ magnitudeText q, isNumeralChar c = true := by
    intro q c hc
    unfold magnitudeText at hc
    split at hc
    · obtain rfl : c = '0' := by simpa using hc
      decide
    · refine isNumeralChar_layout (fun d hd ↦ ?_) _ c hc
      exact Decimal.digit_lt ((List.rdropWhile_prefix _ _).subset hd)
  intro c hc
  simp only [text] at hc
  split at hc
  · rcases List.mem_cons.mp hc with rfl | hc
    · decide
    · exact hmagnitude _ c hc
  · exact hmagnitude _ c hc

/-- A positive integer is printed as its digits. -/
theorem text_ofInt {n : ℕ} (hpos : 0 < n) (hshort : (digits n).length ≤ 21) :
    text (ofInt n) = (digits n).map digitChar := by
  have hne : (n : ℚ) ≠ 0 := by exact_mod_cast hpos.ne'
  have hplaces : places (n : ℚ) = 0 := by
    simp [places, Rat.den_natCast]
  have hvalue : (Decimal.ofInt (n : ℤ)).val = (n : ℚ) := Int.cast_natCast n
  have hnonneg : ¬ ((n : ℚ) < 0) := not_lt.mpr (by exact_mod_cast n.zero_le)
  obtain ⟨k, hk⟩ := dropZeros_append (digits n)
  have hlength := congrArg List.length hk
  rw [List.length_append, List.length_replicate] at hlength
  simp only [ofInt, text, hvalue, if_neg hnonneg, magnitudeText, if_neg hne, hplaces]
  simp only [Rat.num_natCast, Int.natAbs_natCast, pow_zero, mul_one, Rat.den_natCast, Nat.div_one,
    Nat.cast_zero, sub_zero]
  rw [layout, if_pos ⟨by omega, by omega⟩]
  have hzeros : ((digits n).length - (dropZeros (digits n)).length : ℤ).toNat = k := by omega
  rw [hzeros]
  conv_rhs => rw [hk]
  rw [List.map_append, List.map_replicate, show digitChar 0 = '0' from rfl]

end Number

end Js
