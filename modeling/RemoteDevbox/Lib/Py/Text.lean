import RemoteDevbox.Lib.Py.Value
import Mathlib.Data.List.DropRight

/-!
# Python texts

Methods of `str`. Which characters are printable, and how a value that is no text
is written, is left open: the writing of a value has no control characters and no
lone surrogates, these are escaped in it.
-/

namespace Py

/-- `c.isspace()` -/
def isSpace : Point → Bool
  | .char c =>
      let n := c.toNat
      (9 ≤ n && n ≤ 13) || (28 ≤ n && n ≤ 32) || n == 0x85 || n == 0xA0 || n == 0x1680 ||
        (0x2000 ≤ n && n ≤ 0x200A) || n == 0x2028 || n == 0x2029 || n == 0x202F ||
        n == 0x205F || n == 0x3000
  | .half _ => false

/-- A character `splitlines` ends a line at. -/
def endsLine : Point → Bool
  | .char c =>
      let n := c.toNat
      (10 ≤ n && n ≤ 13) || (28 ≤ n && n ≤ 30) || n == 0x85 || n == 0x2028 || n == 0x2029
  | .half _ => false

def rstrip (s : Str) : Str := s.rdropWhile isSpace

def strip (s : Str) : Str := rstrip (s.dropWhile isSpace)

/-- `s.splitlines()[0]`, of a text that has a line. -/
def firstLine (s : Str) : Str := s.takeWhile fun p ↦ !endsLine p

def startsWith (s : Str) (start : String) : Bool := (str start).isPrefixOf s

/-- `sep.join(texts)` -/
def join (sep : String) (texts : List Str) : Str := (str sep).intercalate texts

/-- What is left open of the language. -/
structure Runtime where
  isPrintable : Char → Bool
  repr : Value → Str
  encodable_repr : ∀ v, encodable (repr v) = true
  no_control_repr : ∀ v c, Point.char c ∈ repr v → 32 ≤ c.toNat

/-- `p.isprintable()`: half of a pair is not. -/
def Runtime.prints (rt : Runtime) : Point → Bool
  | .char c => rt.isPrintable c
  | .half _ => false

/-! ## Texts with a UTF-8 form -/

section Encodable

variable {s t : Str}

@[simp] theorem encodable_nil : encodable [] = true := rfl

@[simp] theorem encodable_append :
    encodable (s ++ t) = (encodable s && encodable t) := by
  simp [encodable]

@[simp] theorem encodable_lit (s : String) : encodable (str s) = true := by
  simp [encodable, str, Point.char?]

theorem encodable_of_subset (hsub : ∀ p ∈ s, p ∈ t) (ht : encodable t = true) :
    encodable s = true := by
  unfold encodable at ht ⊢
  rw [List.all_eq_true] at ht ⊢
  exact fun p hp ↦ ht p (hsub p hp)

theorem mem_of_mem_rstrip {p : Point} (hp : p ∈ rstrip s) : p ∈ s :=
  (List.rdropWhile_prefix _ _).subset hp

theorem mem_of_mem_strip {p : Point} (hp : p ∈ strip s) : p ∈ s :=
  (List.dropWhile_sublist _).mem (mem_of_mem_rstrip hp)

theorem encodable_strip (hs : encodable s = true) : encodable (strip s) = true :=
  encodable_of_subset (fun _ ↦ mem_of_mem_strip) hs

theorem encodable_take (n : ℕ) (hs : encodable s = true) : encodable (s.take n) = true :=
  encodable_of_subset (fun _ ↦ List.mem_of_mem_take) hs

theorem encodable_of_prints {rt : Runtime} (h : ∀ p ∈ s, rt.prints p = true) :
    encodable s = true := by
  apply List.all_eq_true.mpr
  intro p hp
  cases p with
  | char c => rfl
  | half u => exact absurd (h _ hp) (by simp [Runtime.prints])

end Encodable

namespace Value

mutual

/-- Every text in the value has a UTF-8 form. -/
def encodable : Value → Bool
  | str s => Py.encodable s
  | list xs => encodableList xs
  | dict fields => encodableFields fields
  | _ => true

def encodableList : List Value → Bool
  | [] => true
  | x :: xs => encodable x && encodableList xs

def encodableFields : List (Str × Value) → Bool
  | [] => true
  | (k, v) :: rest => Py.encodable k && encodable v && encodableFields rest

end

variable {rt : Runtime} {v : Value}

theorem encodable_text (hv : v.encodable = true) : Py.encodable (v.text rt.repr) = true := by
  cases v with
  | str s => simpa [text, encodable] using hv
  | _ => exact rt.encodable_repr _

theorem encodable_textOr (hv : v.encodable = true) : Py.encodable (v.textOr rt.repr) = true := by
  rw [textOr]
  split
  · exact encodable_text hv
  · rfl

end Value

end Py
