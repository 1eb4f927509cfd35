import RemoteDevbox.Spec.HeavyGate
import Mathlib.Tactic.Linarith

namespace RemoteDevbox.Box.MemorySizes

open Js Spec Regex

/-!
# Readers of a memory size

A size of the specification is read by systemd, by the shell of the container
limiter, by Docker and Redis, and in another spelling by Go.
-/

/-! ## Numerals and sizes -/

def digitValue (c : Char) : ℕ := c.toNat - 48

/-- The number that digits write in a base. -/
def numeral (base : ℕ) (digits : List Char) : ℕ :=
  digits.foldl (fun n d ↦ n * base + digitValue d) 0

def powerOf : List Char → Option ℕ
  | [] => some 0
  | ['K'] => some 1
  | ['M'] => some 2
  | ['G'] => some 3
  | ['T'] => some 4
  | _ => none

def amountOf (size : List Char) : List Char := size.takeWhile isDigit

def suffixOf (size : List Char) : List Char := size.dropWhile isDigit

/-- What a size says: a decimal number and a power of the base. -/
def bytesOf (base : ℕ) (size : List Char) : Option ℕ := do
  guard (amountOf size ≠ [])
  let power ← powerOf (suffixOf size)
  return numeral 10 (amountOf size) * base ^ power

/-- The notation of systemd. That a number can be too large for it is not part of it. -/
def systemdBytes (size : List Char) : Option ℕ := bytesOf 1024 size

/-! ## The container limiter -/

/-- A number in an arithmetic expansion: behind a zero, the digits are octal. -/
def bashNumber : List Char → Option ℕ
  | '0' :: digits => if digits.all (· < '8') then some (numeral 8 digits) else none
  | digits => some (numeral 10 digits)

/-- Arithmetic is that of signed words of 64 bits. -/
def toBytes (value : List Char) (base : ℕ) : Option ℤ := do
  guard (amountOf value ≠ [])
  let power ← powerOf (suffixOf value)
  let amount ← bashNumber (amountOf value)
  return ((amount * base ^ power : ℕ) : ℤ).bmod (2 ^ 64)

/-- What the engine holds for a container, and its Redis. -/
structure Container where
  memory : ℤ
  memorySwap : ℤ
  maxmemory : ℤ

inductive Command where
  | update (memory memorySwap : List Char)
  | configSet (maxmemory : List Char)

/-- The count can be stored. -/
def held (base : ℕ) (size : List Char) : Bool := (bytesOf base size).any (· < 2 ^ 63)

/-- Redis has no suffix for terabytes. -/
def accepted : Command → Bool
  | .update memory memorySwap => held 1024 memory && held 1024 memorySwap
  | .configSet maxmemory => held 1000 maxmemory && suffixOf maxmemory != ['T']

def count (base : ℕ) (size : List Char) : ℤ := ((bytesOf base size).getD 0 : ℕ)

def carryOut (container : Container) : Command → Container
  | .update memory memorySwap =>
      { container with memory := count 1024 memory, memorySwap := count 1024 memorySwap }
  | .configSet maxmemory => { container with maxmemory := count 1000 maxmemory }

/-- A refused update ends the script. -/
def limitMemory (memoryMax memorySwapMax : List Char) (container : Container) :
    Option (Container × List Command) := do
  let desiredMemory ← toBytes memoryMax 1024
  let desiredSwap ← toBytes memorySwapMax 1024
  if container.memory ≠ desiredMemory ∨ container.memorySwap ≠ desiredSwap then
    guard (accepted (.update memoryMax memorySwapMax))
    return (carryOut container (.update memoryMax memorySwapMax), [.update memoryMax memorySwapMax])
  else return (container, [])

/-- A refused setting does not end the script: the client of Redis prints the error. -/
def limitRedis (redisMaxmemory : List Char) (container : Container) :
    Option (Container × List Command) := do
  let desiredRedis ← toBytes redisMaxmemory 1000
  if container.maxmemory = desiredRedis then return (container, [])
  else
    let set := Command.configSet redisMaxmemory
    return (if accepted set then carryOut container set else container, [set])

/-- The script, with the commands it gives. -/
def run (memoryMax memorySwapMax : List Char) (redisMaxmemory : Option (List Char))
    (container : Container) : Option (Container × List Command) := do
  let (container, commands) ← limitMemory memoryMax memorySwapMax container
  match redisMaxmemory with
  | none => return (container, commands)
  | some redisMaxmemory =>
      let (container, more) ← limitRedis redisMaxmemory container
      return (container, commands ++ more)

/-! ## Go -/

def endsWith (text : List Char) (ending : String) : Bool := ending.toList.isSuffixOf text

/-- `go_mem_limit` -/
def goMemLimit (size : List Char) : Option (List Char) :=
  if ["KiB", "MiB", "GiB", "TiB", "B"].any (endsWith size) then some size
  else if endsWith size "K" || endsWith size "k" then some (size.dropLast ++ "KiB".toList)
  else if endsWith size "M" || endsWith size "m" then some (size.dropLast ++ "MiB".toList)
  else if endsWith size "G" || endsWith size "g" then some (size.dropLast ++ "GiB".toList)
  else if endsWith size "T" || endsWith size "t" then some (size.dropLast ++ "TiB".toList)
  else if size.getLast?.any isDigit then some (size ++ ['B'])
  else none

def goPower : List Char → Option ℕ
  | [] => some 0
  | ['B'] => some 0
  | ['K', 'i', 'B'] => some 1
  | ['M', 'i', 'B'] => some 2
  | ['G', 'i', 'B'] => some 3
  | ['T', 'i', 'B'] => some 4
  | _ => none

/-- The notation of `GOMEMLIMIT`. -/
def goBytes (limit : List Char) : Option ℕ := do
  guard (amountOf limit ≠ [])
  let power ← goPower (suffixOf limit)
  return numeral 10 (amountOf limit) * 1024 ^ power

/-! ## What is to hold -/

/-- The readers of a canonical size read the same. -/
def SameBytes (size : List Char) : Prop :=
  ∃ n, systemdBytes size = some n ∧ (n < 2 ^ 63 → toBytes size 1024 = some (n : ℤ)) ∧
    (goMemLimit size).bind goBytes = some n

/-- The limiter reads a size for Redis as Redis does. -/
def SameForRedis (size : List Char) : Prop :=
  ∀ n, bytesOf 1000 size = some n → n < 2 ^ 63 → toBytes size 1000 = some (n : ℤ)

/-- Once a limit has been applied, the script gives no commands. -/
def Settles (memoryMax memorySwapMax : List Char) (redisMaxmemory : Option (List Char)) : Prop :=
  ∀ before after commands, run memoryMax memorySwapMax redisMaxmemory before = some (after, commands) →
    (∀ c ∈ commands, accepted c = true) →
      run memoryMax memorySwapMax redisMaxmemory after = some (after, [])

/-- The amount does not start with a zero or is less than eight, or the count cannot
be stored. -/
def ReadsPlain (base : ℕ) (size : List Char) : Prop :=
  (bytesOf base size).any (· < 2 ^ 63) = true →
    (amountOf size).head? ≠ some '0' ∨ numeral 10 (amountOf size) < 8

/-! ## Digits -/

section Digits

variable {digits : List Char}

theorem numeral_concat (base : ℕ) (digits : List Char) (d : Char) :
    numeral base (digits ++ [d]) = numeral base digits * base + digitValue d := by
  rw [numeral, numeral, List.foldl_append]
  rfl

theorem numeral_zero (base : ℕ) (digits : List Char) :
    numeral base ('0' :: digits) = numeral base digits := by
  have hzero : 0 * base + digitValue '0' = 0 := by
    rw [zero_mul, zero_add]
    rfl
  rw [numeral, List.foldl_cons, hzero]
  rfl

theorem octal_le (digits : List Char) : numeral 8 digits ≤ numeral 10 digits := by
  induction digits using List.reverseRecOn with
  | nil => exact le_refl _
  | append_singleton digits d ih =>
      rw [numeral_concat, numeral_concat]
      omega

theorem isDigit_bounds {d : Char} (h : isDigit d = true) : 48 ≤ d.toNat ∧ d.toNat ≤ 57 := by
  simp only [isDigit, Bool.and_eq_true, decide_eq_true_eq] at h
  exact ⟨toNat_le_of_le h.1, toNat_le_of_le h.2⟩

theorem lt_eight {d : Char} (h : isDigit d = true) : d < '8' ↔ digitValue d < 8 := by
  have hbounds := isDigit_bounds h
  have hlt : d < '8' ↔ d.toNat < 56 := by
    rw [Char.lt_def, UInt32.lt_iff_toNat_lt]
    rfl
  rw [hlt, digitValue]
  omega

/-- Read as octal digits, a number stays what it is only below eight. -/
theorem octal_eq_iff (hdigits : ∀ d ∈ digits, isDigit d = true) :
    digits.all (· < '8') = true ∧ numeral 8 digits = numeral 10 digits ↔ numeral 10 digits < 8 := by
  induction digits using List.reverseRecOn with
  | nil => simp [numeral]
  | append_singleton digits d ih =>
      have hd := hdigits d (by simp)
      have hle := octal_le digits
      have hrest := ih fun e he ↦ hdigits e (by simp [he])
      rw [numeral_concat, numeral_concat, List.all_append, List.all_cons, List.all_nil, Bool.and_true,
        Bool.and_eq_true, decide_eq_true_eq, lt_eight hd]
      constructor
      · rintro ⟨⟨_, hlast⟩, heq⟩
        omega
      · intro hlt
        obtain ⟨hall, heq⟩ := hrest.mpr (by omega)
        exact ⟨⟨hall, by omega⟩, by omega⟩

theorem bashNumber_eq_iff (hdigits : ∀ d ∈ digits, isDigit d = true) :
    bashNumber digits = some (numeral 10 digits) ↔ digits.head? ≠ some '0' ∨ numeral 10 digits < 8 := by
  unfold bashNumber
  split
  · rename_i rest
    have hrest := octal_eq_iff fun d hd ↦ hdigits d (List.mem_cons_of_mem _ hd)
    rw [numeral_zero, ← hrest]
    by_cases hall : rest.all (· < '8') = true
    · simp [hall]
    · simp [hall]
  · rename_i hzero
    refine iff_of_true rfl (.inl fun hhead ↦ ?_)
    obtain ⟨rest, hrest⟩ := List.head?_eq_some_iff.mp hhead
    exact hzero rest hrest

theorem bashNumber_le {m : ℕ} (h : bashNumber digits = some m) : m ≤ numeral 10 digits := by
  unfold bashNumber at h
  split at h
  · split at h
    · obtain rfl := Option.some.inj h
      rw [numeral_zero]
      exact octal_le _
    · cases h
  · exact (Option.some.inj h).ge

end Digits

/-! ## Sizes in canonical form -/

section Sizes

variable {size : List Char}

theorem DirectForm.parts (h : DirectForm size) : ∃ digits unit power, size = digits ++ unit ∧
    digits ≠ [] ∧ (∀ d ∈ digits, isDigit d = true) ∧ amountOf size = digits ∧ suffixOf size = unit ∧
      powerOf unit = some power ∧ (unit = [] ∨ unit = ['K'] ∨ unit = ['M'] ∨ unit = ['G'] ∨ unit = ['T']) := by
  obtain ⟨digits, unit, rfl, hne, hdigits, hunit⟩ := h
  have hcases : unit = [] ∨ unit = ['K'] ∨ unit = ['M'] ∨ unit = ['G'] ∨ unit = ['T'] := by
    rcases isMatch_alt.mp hunit with hunit | hunit
    · obtain ⟨u, hu, rfl⟩ := isMatch_cls.mp hunit
      simpa [or_assoc] using hu
    · exact .inl (isMatch_eps.mp hunit)
  have hstop : unit.takeWhile isDigit = [] ∧ unit.dropWhile isDigit = unit := by
    rcases hcases with rfl | rfl | rfl | rfl | rfl <;> decide
  obtain ⟨power, hpower⟩ : ∃ power, powerOf unit = some power := by
    rcases hcases with rfl | rfl | rfl | rfl | rfl <;> exact ⟨_, rfl⟩
  refine ⟨digits, unit, power, rfl, hne, hdigits, ?_, ?_, hpower, hcases⟩
  · rw [amountOf, List.takeWhile_append_of_pos hdigits, hstop.1, List.append_nil]
  · rw [suffixOf, List.dropWhile_append_of_pos hdigits, hstop.2]

theorem bytesOf_some (base : ℕ) (h : DirectForm size) : ∃ power, powerOf (suffixOf size) = some power ∧
    bytesOf base size = some (numeral 10 (amountOf size) * base ^ power) := by
  obtain ⟨digits, unit, power, _, hne, _, hamount, hsuffix, hpower, _⟩ := DirectForm.parts h
  refine ⟨power, by rw [hsuffix, hpower], ?_⟩
  rw [bytesOf, hamount, hsuffix, hpower, guard, if_pos hne]
  rfl

theorem toBytes_eq {base n : ℕ} (h : DirectForm size) (hbase : 0 < base)
    (hn : bytesOf base size = some n) (hfits : n < 2 ^ 63) :
    toBytes size base = some (n : ℤ) ↔
      (amountOf size).head? ≠ some '0' ∨ numeral 10 (amountOf size) < 8 := by
  obtain ⟨digits, unit, power, _, hne, hdigits, hamount, hsuffix, hpower, _⟩ := DirectForm.parts h
  obtain ⟨power', hpower', hbytes⟩ := bytesOf_some base h
  rw [hsuffix, hpower] at hpower'
  obtain rfl := Option.some.inj hpower'
  rw [hn] at hbytes
  have hscale : 0 < base ^ power := Nat.pow_pos hbase
  rw [hamount] at hbytes ⊢
  rw [← bashNumber_eq_iff hdigits, toBytes, hamount, hsuffix, hpower, guard, if_pos hne]
  cases hnumber : bashNumber digits with
  | none => simp
  | some m =>
      have hle := bashNumber_le hnumber
      have hproduct : m * base ^ power ≤ n := by
        rw [Option.some.inj hbytes]
        exact Nat.mul_le_mul_right _ hle
      have hword : ((m * base ^ power : ℕ) : ℤ).bmod (2 ^ 64) = ((m * base ^ power : ℕ) : ℤ) := by
        rw [Int.bmod_eq_of_le] <;> omega
      change some (((m * base ^ power : ℕ) : ℤ).bmod (2 ^ 64)) = some (n : ℤ) ↔ _
      rw [hword, Option.some.injEq, Option.some.injEq, Nat.cast_inj, Option.some.inj hbytes,
        Nat.mul_left_inj hscale.ne']

theorem endsWith_letter (text : List Char) (c d : Char) :
    endsWith (text ++ [c]) (String.singleton d) = (c == d) := by
  rw [endsWith, Bool.eq_iff_iff, List.isSuffixOf_iff_suffix, beq_iff_eq, String.toList_singleton]
  constructor
  · rintro ⟨front, hfront⟩
    exact (List.singleton_inj.mp (List.append_inj_right' hfront rfl)).symm
  · rintro rfl
    exact List.suffix_append _ _

/-- The endings that Go knows. -/
theorem go_endings (text : List Char) {c : Char} (hc : c ≠ 'B') :
    ["KiB", "MiB", "GiB", "TiB", "B"].any (endsWith (text ++ [c])) = false := by
  rw [List.any_eq_false]
  intro ending hending hends
  obtain ⟨front, hfront⟩ := List.isSuffixOf_iff_suffix.mp hends
  have hlast : ∀ e ∈ ["KiB", "MiB", "GiB", "TiB", "B"], e.toList.getLast? = some 'B' := by decide
  have hgetLast := congrArg List.getLast? hfront
  have hne : ending.toList ≠ [] := by
    intro hnil
    have hsome := hlast ending hending
    rw [hnil] at hsome
    cases hsome
  rw [List.getLast?_append_of_ne_nil _ hne, hlast ending hending, List.getLast?_concat] at hgetLast
  exact hc (Option.some.inj hgetLast).symm

theorem goMemLimit_digit (text : List Char) {d : Char} (hd : isDigit d = true) :
    goMemLimit (text ++ [d]) = some (text ++ [d] ++ ['B']) := by
  have hne : ∀ e : Char, isDigit e = false → (d == e) = false := by
    intro e he
    rw [beq_eq_false_iff_ne]
    rintro rfl
    rw [hd] at he
    cases he
  have hB : d ≠ 'B' := by
    rintro rfl
    cases hd
  rw [goMemLimit, go_endings text hB]
  simp only [show "K" = String.singleton 'K' from rfl, show "k" = String.singleton 'k' from rfl,
    show "M" = String.singleton 'M' from rfl, show "m" = String.singleton 'm' from rfl,
    show "G" = String.singleton 'G' from rfl, show "g" = String.singleton 'g' from rfl,
    show "T" = String.singleton 'T' from rfl, show "t" = String.singleton 't' from rfl, endsWith_letter,
    hne 'K' (by decide), hne 'k' (by decide), hne 'M' (by decide), hne 'm' (by decide),
    hne 'G' (by decide), hne 'g' (by decide), hne 'T' (by decide), hne 't' (by decide)]
  simp [hd]

theorem goMemLimit_letter (text : List Char) {c : Char} (hc : c = 'K' ∨ c = 'M' ∨ c = 'G' ∨ c = 'T') :
    goMemLimit (text ++ [c]) = some (text ++ [c, 'i', 'B']) := by
  have hB : c ≠ 'B' := by rcases hc with rfl | rfl | rfl | rfl <;> decide
  rw [goMemLimit, go_endings text hB]
  simp only [show "K" = String.singleton 'K' from rfl, show "k" = String.singleton 'k' from rfl,
    show "M" = String.singleton 'M' from rfl, show "m" = String.singleton 'm' from rfl,
    show "G" = String.singleton 'G' from rfl, show "g" = String.singleton 'g' from rfl,
    show "T" = String.singleton 'T' from rfl, show "t" = String.singleton 't' from rfl, endsWith_letter,
    List.dropLast_concat]
  rcases hc with rfl | rfl | rfl | rfl <;> rfl

/-- Go reads the same number of bytes out of its own spelling. -/
theorem goBytes_goMemLimit (h : DirectForm size) :
    (goMemLimit size).bind goBytes = bytesOf 1024 size := by
  obtain ⟨digits, unit, power, rfl, hne, hdigits, hamount, hsuffix, hpower, hunit⟩ := DirectForm.parts h
  have hread : ∀ ending : List Char, ending.takeWhile isDigit = [] → ending.dropWhile isDigit = ending →
      goPower ending = some power → goBytes (digits ++ ending) = bytesOf 1024 (digits ++ unit) := by
    intro ending htake hdrop hgo
    rw [goBytes, bytesOf, hamount, hsuffix, hpower, amountOf, suffixOf,
      List.takeWhile_append_of_pos hdigits, List.dropWhile_append_of_pos hdigits, htake, hdrop,
      List.append_nil, hgo]
  rcases hunit with rfl | hunit
  · obtain ⟨front, d, rfl⟩ := List.eq_nil_or_concat digits |>.resolve_left hne
    rw [List.append_nil, List.concat_eq_append, goMemLimit_digit front (hdigits d (by simp)),
      Option.bind_some]
    obtain rfl := Option.some.inj hpower
    have hB := hread ['B'] (by decide) (by decide) rfl
    rwa [List.append_nil, List.concat_eq_append] at hB
  · obtain ⟨c, rfl, hc⟩ : ∃ c, unit = [c] ∧ (c = 'K' ∨ c = 'M' ∨ c = 'G' ∨ c = 'T') := by
      rcases hunit with rfl | rfl | rfl | rfl <;> exact ⟨_, rfl, by decide⟩
    rw [goMemLimit_letter digits hc, Option.bind_some]
    have hletter : isDigit c = false := by rcases hc with rfl | rfl | rfl | rfl <;> decide
    refine hread [c, 'i', 'B'] (by simp [hletter]) (by simp [hletter]) ?_
    rcases hc with rfl | rfl | rfl | rfl <;> exact hpower

theorem sameBytes_iff (h : DirectForm size) : SameBytes size ↔ ReadsPlain 1024 size := by
  obtain ⟨power, _, hbytes⟩ := bytesOf_some 1024 h
  rw [ReadsPlain, hbytes, Option.any_some, decide_eq_true_iff]
  constructor
  · rintro ⟨n, hn, hsame, _⟩ hfits
    obtain rfl := Option.some.inj (hbytes.symm.trans hn)
    exact (toBytes_eq h (by decide) hbytes hfits).mp (hsame hfits)
  · intro hplain
    exact ⟨_, hbytes, fun hfits ↦ (toBytes_eq h (by decide) hbytes hfits).mpr (hplain hfits),
      (goBytes_goMemLimit h).trans hbytes⟩

theorem sameForRedis_iff (h : DirectForm size) : SameForRedis size ↔ ReadsPlain 1000 size := by
  obtain ⟨power, _, hbytes⟩ := bytesOf_some 1000 h
  rw [ReadsPlain, hbytes, Option.any_some, decide_eq_true_iff]
  constructor
  · intro hsame hfits
    exact (toBytes_eq h (by decide) hbytes hfits).mp (hsame _ hbytes hfits)
  · intro hplain n hn hfits
    obtain rfl := Option.some.inj (hbytes.symm.trans hn)
    exact (toBytes_eq h (by decide) hbytes hfits).mpr (hplain hfits)

/-- What is stored is what the limiter computes. -/
theorem toBytes_of_held {base : ℕ} (hbase : 0 < base) (h : DirectForm size) (hplain : ReadsPlain base size)
    (hheld : held base size = true) : toBytes size base = some (count base size) := by
  obtain ⟨power, _, hbytes⟩ := bytesOf_some base h
  have hcount : count base size = ((numeral 10 (amountOf size) * base ^ power : ℕ) : ℤ) := by
    rw [count, hbytes]
    rfl
  have hfits : numeral 10 (amountOf size) * base ^ power < 2 ^ 63 := by
    rw [held, hbytes, Option.any_some, decide_eq_true_iff] at hheld
    exact hheld
  rw [hcount]
  exact (toBytes_eq h hbase hbytes hfits).mpr (hplain hheld)

end Sizes

/-! ## The limiter settles -/

section Settles

variable {memory swap : List Char}

theorem limitMemory_settles (hmemory : DirectForm memory) (hswap : DirectForm swap)
    (hplainMemory : ReadsPlain 1024 memory) (hplainSwap : ReadsPlain 1024 swap)
    {before after : Container} {commands : List Command}
    (h : limitMemory memory swap before = some (after, commands)) :
    ∃ desiredMemory desiredSwap, toBytes memory 1024 = some desiredMemory ∧
      toBytes swap 1024 = some desiredSwap ∧ after.memory = desiredMemory ∧
      after.memorySwap = desiredSwap := by
  simp only [limitMemory, bind, Option.bind_eq_some_iff] at h
  obtain ⟨desiredMemory, hm, desiredSwap, hs, h⟩ := h
  split at h
  · obtain ⟨_, haccepted, h⟩ := Option.bind_eq_some_iff.mp h
    obtain ⟨rfl, _⟩ := Prod.mk.inj (Option.some.inj h)
    have hheld : held 1024 memory = true ∧ held 1024 swap = true := by
      by_contra hno
      have hrefused : accepted (.update memory swap) = false := by
        rw [accepted, Bool.eq_false_iff, ne_eq, Bool.and_eq_true]
        exact hno
      simp [guard, hrefused] at haccepted
    have hstored := toBytes_of_held (by decide) hmemory hplainMemory hheld.1
    have hstoredSwap := toBytes_of_held (by decide) hswap hplainSwap hheld.2
    exact ⟨_, _, hstored, hstoredSwap, rfl, rfl⟩
  · rename_i hsame
    obtain ⟨rfl, _⟩ := Prod.mk.inj (Option.some.inj h)
    rw [not_or, not_not, not_not] at hsame
    exact ⟨_, _, hm, hs, hsame.1, hsame.2⟩

theorem limitMemory_of_settled {desiredMemory desiredSwap : ℤ} {container : Container}
    (hm : toBytes memory 1024 = some desiredMemory) (hs : toBytes swap 1024 = some desiredSwap)
    (hmemory : container.memory = desiredMemory) (hswap : container.memorySwap = desiredSwap) :
    limitMemory memory swap container = some (container, []) := by
  rw [limitMemory, hm, hs]
  simp [hmemory, hswap]

theorem limitRedis_settles {redis : List Char} (hredis : DirectForm redis) (hplain : ReadsPlain 1000 redis)
    {before after : Container} {commands : List Command}
    (h : limitRedis redis before = some (after, commands))
    (haccepted : ∀ c ∈ commands, accepted c = true) :
    after.memory = before.memory ∧ after.memorySwap = before.memorySwap ∧
      limitRedis redis after = some (after, []) := by
  simp only [limitRedis, bind, Option.bind_eq_some_iff] at h
  obtain ⟨desired, hd, h⟩ := h
  split at h
  · rename_i hsame
    obtain ⟨rfl, _⟩ := Prod.mk.inj (Option.some.inj h)
    refine ⟨rfl, rfl, ?_⟩
    rw [limitRedis, hd]
    simp [hsame]
  · obtain ⟨hafter, rfl⟩ := Prod.mk.inj (Option.some.inj h)
    have hset := haccepted _ (List.mem_singleton_self _)
    rw [if_pos hset] at hafter
    subst hafter
    have hstored := toBytes_of_held (by decide) hredis hplain ((Bool.and_eq_true _ _).mp hset).1
    refine ⟨rfl, rfl, ?_⟩
    rw [limitRedis, hstored]
    simp [carryOut]

theorem settles_of_plain (hmemory : DirectForm memory) (hswap : DirectForm swap)
    (hplainMemory : ReadsPlain 1024 memory) (hplainSwap : ReadsPlain 1024 swap)
    {redis : Option (List Char)} (hredis : ∀ r ∈ redis, DirectForm r ∧ ReadsPlain 1000 r) :
    Settles memory swap redis := by
  intro before after commands hrun haccepted
  simp only [run, bind, Option.bind_eq_some_iff] at hrun
  obtain ⟨⟨limited, first⟩, hlimit, hrun⟩ := hrun
  obtain ⟨dm, ds, hm, hs, hmem, hswp⟩ :=
    limitMemory_settles hmemory hswap hplainMemory hplainSwap hlimit
  cases redis with
  | none =>
      obtain ⟨rfl, rfl⟩ := Prod.mk.inj (Option.some.inj hrun)
      rw [run, limitMemory_of_settled hm hs hmem hswp]
      rfl
  | some r =>
      obtain ⟨hdirect, hplain⟩ := hredis r rfl
      obtain ⟨⟨set, more⟩, hset, hrun⟩ := Option.bind_eq_some_iff.mp hrun
      obtain ⟨rfl, rfl⟩ := Prod.mk.inj (Option.some.inj hrun)
      obtain ⟨hsame, hsameSwap, hagain⟩ := limitRedis_settles hdirect hplain hset
        fun c hc ↦ haccepted c (List.mem_append_right _ hc)
      rw [run, limitMemory_of_settled hm hs (hsame.trans hmem) (hsameSwap.trans hswp)]
      simp [hagain]

end Settles

/-! ## Every direct size -/

/-- A text that is accepted as a direct size. -/
structure DirectSize where
  text : String
  direct : Text.test DIRECT_SIZE_RE text = true

def DirectSize.canonical (s : DirectSize) : List Char :=
  ((canonicalMemorySize s.text).getD "").toList

/-- The canonical form is one again, and its readers agree. -/
def Means (s : DirectSize) : Prop :=
  ∃ c, canonicalMemorySize s.text = some c ∧ canonicalMemorySize c = some c ∧ SameBytes c.toList

theorem percent_mem {s : String} (h : Text.test PERCENT_RE s = true) : '%' ∈ s.toList := by
  obtain ⟨_, sign, hs, _, hsign⟩ := isMatch_seq.mp h
  rw [← hs, isMatch_chr.mp hsign]
  simp

theorem DirectSize.canonical_eq (s : DirectSize) :
    ∃ c, canonicalMemorySize s.text = some c ∧ c.toList = s.canonical ∧ DirectForm s.canonical := by
  have hform := directForm_filter s.direct
  have hnot : ¬(s.text == "" || Text.test PERCENT_RE s.text) = true := by
    rw [Bool.or_eq_true, beq_iff_eq, not_or]
    refine ⟨fun hempty ↦ ?_, fun hpercent ↦ ?_⟩
    · obtain ⟨digits, unit, hsplit, hne, _⟩ := hform
      rw [hempty] at hsplit
      exact hne (List.append_eq_nil_iff.mp hsplit.symm).1
    · have hmem : '%' ∈ s.text.toList.filter (· != 'B') :=
        List.mem_filter.mpr ⟨percent_mem hpercent, by decide⟩
      obtain ⟨digits, unit, _, hsplit, _, hdigits, _, _, _, hunit⟩ := DirectForm.parts hform
      rw [hsplit] at hmem
      rcases List.mem_append.mp hmem with hmem | hmem
      · exact absurd (hdigits _ hmem) (by decide)
      · rcases hunit with rfl | rfl | rfl | rfl | rfl <;> exact absurd hmem (by decide)
  have hcanonical : canonicalMemorySize s.text =
      some (String.ofList (s.text.toList.filter (· != 'B'))) := by
    rw [canonicalMemorySize, if_neg hnot, if_pos s.direct]
  refine ⟨_, hcanonical, by rw [canonical, hcanonical]; rfl, ?_⟩
  rw [canonical, hcanonical, Option.getD_some, String.toList_ofList]
  exact hform

theorem means_iff (s : DirectSize) : Means s ↔ ReadsPlain 1024 s.canonical := by
  obtain ⟨c, hc, hlist, hform⟩ := s.canonical_eq
  rw [← sameBytes_iff hform, ← hlist]
  constructor
  · rintro ⟨c', hc', _, hsame⟩
    rwa [Option.some.inj (hc.symm.trans hc')]
  · exact fun hsame ↦ ⟨c, hc, canonical_idem hc, hsame⟩

/-- Of every limit, and of every limit for Redis beside it. -/
theorem sizes_mean_the_same_iff (memory swap : DirectSize) (redis : Option DirectSize) :
    (Means memory ∧ Means swap ∧ (∀ r ∈ redis, Means r ∧ SameForRedis r.canonical) ∧
        Settles memory.canonical swap.canonical (redis.map DirectSize.canonical)) ↔
      ReadsPlain 1024 memory.canonical ∧ ReadsPlain 1024 swap.canonical ∧
        ∀ r ∈ redis, ReadsPlain 1024 r.canonical ∧ ReadsPlain 1000 r.canonical := by
  obtain ⟨_, _, _, hmemory⟩ := memory.canonical_eq
  obtain ⟨_, _, _, hswap⟩ := swap.canonical_eq
  have hform : ∀ r : DirectSize, DirectForm r.canonical := fun r ↦ by
    obtain ⟨_, _, _, hr⟩ := r.canonical_eq
    exact hr
  simp only [means_iff, sameForRedis_iff (hform _)]
  constructor
  · rintro ⟨hm, hs, hr, _⟩
    exact ⟨hm, hs, hr⟩
  · rintro ⟨hm, hs, hr⟩
    refine ⟨hm, hs, hr, settles_of_plain hmemory hswap hm hs fun r hmem ↦ ?_⟩
    obtain ⟨size, hsize, rfl⟩ := Option.map_eq_some_iff.mp hmem
    exact ⟨hform size, (hr size hsize).2⟩

/-- With a leading zero the limiter reads octal digits: of ten gibibytes it makes eight,
and it gives the update again and again. -/
theorem octal_limit : canonicalMemorySize "010G" = some "010G" ∧
    systemdBytes "010G".toList = some (10 * 1024 ^ 3) ∧
    toBytes "010G".toList 1024 = some (8 * 1024 ^ 3) ∧
    ∃ after, run "010G".toList "010G".toList none ⟨0, 0, 0⟩ =
        some (after, [.update "010G".toList "010G".toList]) ∧
      run "010G".toList "010G".toList none after =
        some (after, [.update "010G".toList "010G".toList]) := by
  refine ⟨by decide +kernel, by decide +kernel, by decide +kernel, ⟨_, _, 0⟩, rfl, rfl⟩

end RemoteDevbox.Box.MemorySizes
