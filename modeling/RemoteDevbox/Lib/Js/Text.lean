import RemoteDevbox.Lib.Decimal
import RemoteDevbox.Lib.Regex
import Mathlib.Data.List.TakeWhile

namespace Js.Text

/-!
# Text operations of the JavaScript standard library
-/

/-- White space and line terminators: the class `\s`, and what `trim` removes. -/
def isSpace (c : Char) : Bool :=
  (9 ≤ c.toNat && c.toNat ≤ 13) || c.toNat == 0x20 || c.toNat == 0xA0 || c.toNat == 0x1680 ||
    (0x2000 ≤ c.toNat && c.toNat ≤ 0x200A) || c.toNat == 0x2028 || c.toNat == 0x2029 ||
    c.toNat == 0x202F || c.toNat == 0x205F || c.toNat == 0x3000 || c.toNat == 0xFEFF

def trimChars (cs : List Char) : List Char :=
  ((cs.dropWhile isSpace).reverse.dropWhile isSpace).reverse

/-- `s.trim()`. -/
def trim (s : String) : String := String.ofList (trimChars s.toList)

/-- `s.trim().length > 0`. -/
def nonBlank (s : String) : Bool := trim s != ""

/-- `re.test(s)` for a pattern anchored at both ends. -/
def test (re : Regex) (s : String) : Bool := Regex.isMatch re s.toList

/-- `s.split(sep)` for a one-character separator. -/
def split (sep : Char) (s : String) : List String :=
  (s.toList.splitOn sep).map String.ofList

/-- `s.includes(part)`. -/
def includes (s part : String) : Bool := s.toList.tails.any part.toList.isPrefixOf

/-- `s.padEnd(n)`. -/
def padEnd (n : ℕ) (s : String) : String :=
  s ++ String.ofList (List.replicate (n - s.length) ' ')

/-- The digits a radix prefix announces. -/
def radixDigit (c : Char) : Option (Char → Bool) :=
  if c == 'x' || c == 'X' then
    some fun d ↦ Regex.isDigit d || ('a' ≤ d && d ≤ 'f') || ('A' ≤ d && d ≤ 'F')
  else if c == 'o' || c == 'O' then some fun d ↦ '0' ≤ d && d ≤ '7'
  else if c == 'b' || c == 'B' then some fun d ↦ d == '0' || d == '1'
  else none

def isRadixLiteral : List Char → Bool
  | '0' :: c :: ds =>
      match radixDigit c with
      | some ok => ds != [] && ds.all ok
      | none => false
  | _ => false

/-- `!Number.isNaN(Number(s))`. -/
def isNumeric (s : String) : Bool :=
  let cs := trimChars s.toList
  cs == [] || (Decimal.splitSign cs).2 == "Infinity".toList || (Decimal.read cs).isSome ||
    isRadixLiteral cs

/-- `s.toLowerCase()` for the ASCII letters. -/
def lower (s : String) : String := String.ofList (s.toList.map Char.toLower)

theorem trimChars_eq_nil_iff {cs : List Char} :
    trimChars cs = [] ↔ ∀ c ∈ cs, isSpace c = true := by
  constructor
  · intro h
    have hdrop : ∀ c ∈ (cs.dropWhile isSpace).reverse, isSpace c = true := by
      have : (cs.dropWhile isSpace).reverse.dropWhile isSpace = [] := by
        simpa [trimChars] using h
      exact List.dropWhile_eq_nil_iff.mp this
    have hnil : cs.dropWhile isSpace = [] := by
      by_contra hne
      have hhead := List.head_dropWhile_not isSpace hne
      have hmem : (cs.dropWhile isSpace).head hne ∈ (cs.dropWhile isSpace).reverse := by simp
      rw [hdrop _ hmem] at hhead
      exact Bool.noConfusion hhead
    exact List.dropWhile_eq_nil_iff.mp hnil
  · intro h
    simp [trimChars, List.dropWhile_eq_nil_iff.mpr h]

/-- White space around a text that starts and ends otherwise. -/
theorem trimChars_within {before core after : List Char} (hbefore : ∀ c ∈ before, isSpace c = true)
    (hafter : ∀ c ∈ after, isSpace c = true) (hfirst : ∀ c ∈ core.head?, isSpace c = false)
    (hlast : ∀ c ∈ core.getLast?, isSpace c = false) :
    trimChars (before ++ core ++ after) = core := by
  cases core with
  | nil =>
      rw [List.append_nil]
      refine trimChars_eq_nil_iff.mpr fun c hc ↦ ?_
      exact (List.mem_append.mp hc).elim (hbefore c) (hafter c)
  | cons c core =>
      have hstart : (before ++ c :: core ++ after).dropWhile isSpace = c :: core ++ after := by
        rw [List.append_assoc, List.dropWhile_append_of_pos hbefore, List.cons_append,
          List.dropWhile_cons_of_neg (by rw [hfirst c rfl]; exact Bool.false_ne_true)]
      have hend : ∀ d ∈ after.reverse, isSpace d = true := fun d hd ↦
        hafter d (List.mem_reverse.mp hd)
      have hback : (c :: core).reverse.dropWhile isSpace = (c :: core).reverse := by
        have hhead : ∀ d ∈ (c :: core).reverse.head?, isSpace d = false := fun d hd ↦
          hlast d (by rwa [List.head?_reverse] at hd)
        cases hrev : (c :: core).reverse with
        | nil => rfl
        | cons d rest =>
            rw [List.dropWhile_cons_of_neg]
            rw [hhead d (by rw [hrev]; rfl)]
            exact Bool.false_ne_true
      rw [trimChars, hstart, List.reverse_append, List.dropWhile_append_of_pos hend, hback,
        List.reverse_reverse]

theorem nonBlank_iff {s : String} :
    nonBlank s = true ↔ ∃ c ∈ s.toList, isSpace c = false := by
  have hnil : trim s = "" ↔ trimChars s.toList = [] := by
    rw [trim, ← String.toList_inj]
    simp
  rw [nonBlank, bne_iff_ne, ne_eq, hnil, trimChars_eq_nil_iff]
  simp

theorem ne_empty_of_nonBlank {s : String} (h : nonBlank s = true) : s ≠ "" := by
  rintro rfl
  obtain ⟨c, hc, _⟩ := nonBlank_iff.mp h
  simp at hc

/-- Texts with incomparable heads differ. -/
theorem append_ne {p q : String} (hpq : ¬ p.toList <+: q.toList) (hqp : ¬ q.toList <+: p.toList)
    (x y : String) : p ++ x ≠ q ++ y := by
  intro heq
  have hlists := congrArg String.toList heq
  rw [String.toList_append, String.toList_append] at hlists
  have hp : p.toList <+: q.toList ++ y.toList := hlists ▸ List.prefix_append _ _
  exact (List.prefix_or_prefix_of_prefix hp (List.prefix_append _ _)).elim hpq hqp

end Js.Text
