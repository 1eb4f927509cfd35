import RemoteDevbox.Lib.Py.Text
import RemoteDevbox.Lib.Decimal

/-!
# Words, lines and whole numbers

Methods of `str` on texts of whole characters. Digits are those of ASCII.
-/

namespace Py

def isBlank (c : Char) : Bool := isSpace (.char c)

/-- `text.strip()` -/
def stripped (text : List Char) : List Char := (text.dropWhile isBlank).rdropWhile isBlank

/-- `text.split()` -/
def words (text : List Char) : List (List Char) :=
  (text.splitOnP isBlank).filter fun word ↦ !word.isEmpty

/-- The text behind the last `c`, all of it where there is none. -/
def afterLast (c : Char) (text : List Char) : List Char :=
  (text.reverse.takeWhile (· != c)).reverse

/-- The lines of a text, `line` read so far. A carriage return and a newline end
one line. -/
def cutLines (ends : Char → Bool) (line : List Char) : List Char → List (List Char)
  | [] => if line.isEmpty then [] else [line.reverse]
  | '\r' :: '\n' :: rest => line.reverse :: cutLines ends [] rest
  | c :: rest =>
      if ends c then line.reverse :: cutLines ends [] rest else cutLines ends (c :: line) rest

/-- `text.splitlines()` -/
def splitlines (text : List Char) : List (List Char) := cutLines (fun c ↦ endsLine (.char c)) [] text

/-- The lines of a file opened as text. -/
def fileLines (text : List Char) : List (List Char) :=
  cutLines (fun c ↦ c == '\n' || c == '\r') [] text

section Words

variable {a b text : List Char}

/-- A blank ends a word. -/
theorem words_append {c : Char} (h : isBlank c = true) (a b : List Char) :
    words (a ++ c :: b) = words a ++ words b := by
  rw [words, List.splitOnP_append_cons a b h, List.filter_append, words, words]

theorem words_cons {c : Char} (h : isBlank c = true) (text : List Char) :
    words (c :: text) = words text := words_append h [] text

theorem words_blanks (h : ∀ c ∈ b, isBlank c = true) : words (a ++ b) = words a := by
  induction b generalizing a with
  | nil => rw [List.append_nil]
  | cons c b ih =>
      obtain ⟨hc, hb⟩ := List.forall_mem_cons.mp h
      have hnone : words b = [] := ih (a := []) hb
      rw [words_append hc, hnone, List.append_nil]

theorem words_dropWhile : words (text.dropWhile isBlank) = words text := by
  induction text with
  | nil => rfl
  | cons c text ih =>
      rw [List.dropWhile_cons]
      split
      · rename_i hc
        rw [ih, words_cons hc]
      · rfl

theorem words_stripped : words (stripped text) = words text := by
  have hends : words ((text.dropWhile isBlank).rdropWhile isBlank) =
      words (text.dropWhile isBlank) := by
    have hsplit := List.rdropWhile_append_rtakeWhile (p := isBlank) (l := text.dropWhile isBlank)
    conv_rhs => rw [← hsplit]
    exact (words_blanks fun c hc ↦ List.mem_rtakeWhile_imp hc).symm
  rw [stripped, hends, words_dropWhile]

/-- Texts put together with blanks have the words of all of them. -/
theorem words_intercalate {c : Char} (h : isBlank c = true) (texts : List (List Char)) :
    words ([c].intercalate texts) = texts.flatMap words := by
  induction texts with
  | nil => rfl
  | cons text texts ih =>
      cases texts with
      | nil => simp
      | cons next texts =>
          rw [List.intercalate_cons_cons, List.append_assoc, List.singleton_append,
            words_append h, ih]
          rfl

end Words

/-! ## Whole numbers -/

def digitOf (base : ℕ) (c : Char) : Option ℕ :=
  let value :=
    if '0' ≤ c ∧ c ≤ '9' then c.toNat - 48
    else if 'a' ≤ c ∧ c ≤ 'z' then c.toNat - 87
    else if 'A' ≤ c ∧ c ≤ 'Z' then c.toNat - 55
    else base
  if value < base then some value else none

/-- Further digits, with single underscores before them. -/
def moreDigits (base n : ℕ) : List Char → Option ℕ
  | [] => some n
  | '_' :: c :: rest => (digitOf base c).bind fun d ↦ moreDigits base (n * base + d) rest
  | c :: rest => (digitOf base c).bind fun d ↦ moreDigits base (n * base + d) rest

def readDigits (base : ℕ) : List Char → Option ℕ
  | [] => none
  | c :: rest => (digitOf base c).bind fun d ↦ moreDigits base d rest

/-- The text of an unsigned number; one to base 16 may start with `0x`. -/
def readUnsigned (base : ℕ) : List Char → Option ℕ
  | '0' :: x :: c :: rest =>
      if base = 16 ∧ (x = 'x' ∨ x = 'X') then moreDigits base 0 (c :: rest)
      else readDigits base ('0' :: x :: c :: rest)
  | text => readDigits base text

/-- `int(text, base)` -/
def readInt (base : ℕ) (text : List Char) : Option ℤ :=
  let (neg, body) := Decimal.splitSign (stripped text)
  (readUnsigned base body).map fun n ↦ Decimal.applySign neg n

end Py
