import Mathlib.Computability.Language

/-!
# Regular expressions over character classes

The leaves are predicates on characters, as in the bracket classes of a
regular expression literal. Matching is by derivatives and is exact for the
denoted language.
-/

inductive Regex where
  | empty
  | eps
  | cls (p : Char → Bool)
  | seq (r s : Regex)
  | alt (r s : Regex)
  | star (r : Regex)

namespace Regex

/-- The one-letter words of a class. -/
def letters (p : Char → Bool) : Language Char := {w | ∃ c, p c = true ∧ w = [c]}

theorem mem_letters {p : Char → Bool} {w : List Char} :
    w ∈ letters p ↔ ∃ c, p c = true ∧ w = [c] := Iff.rfl

def lang : Regex → Language Char
  | empty => 0
  | eps => 1
  | cls p => letters p
  | seq r s => lang r * lang s
  | alt r s => lang r + lang s
  | star r => KStar.kstar (lang r)

def nullable : Regex → Bool
  | empty => false
  | eps => true
  | cls _ => false
  | seq r s => nullable r && nullable s
  | alt r s => nullable r || nullable s
  | star _ => true

/-- Concatenation that keeps derivatives small. -/
def mkSeq : Regex → Regex → Regex
  | empty, _ => empty
  | eps, s => s
  | r, s => seq r s

/-- Alternation that keeps derivatives small. -/
def mkAlt : Regex → Regex → Regex
  | empty, s => s
  | r, empty => r
  | r, s => alt r s

def deriv (c : Char) : Regex → Regex
  | empty => empty
  | eps => empty
  | cls p => if p c then eps else empty
  | seq r s =>
      if nullable r then mkAlt (mkSeq (deriv c r) s) (deriv c s)
      else mkSeq (deriv c r) s
  | alt r s => mkAlt (deriv c r) (deriv c s)
  | star r => mkSeq (deriv c r) (star r)

/-- The whole word is in the language. -/
def isMatch (r : Regex) : List Char → Bool
  | [] => nullable r
  | c :: w => isMatch (deriv c r) w

/-! ## Derived forms -/

def opt (r : Regex) : Regex := alt r eps

def plus (r : Regex) : Regex := seq r (star r)

def chr (c : Char) : Regex := cls (· == c)

def lit (w : List Char) : Regex := w.foldr (fun c r ↦ seq (chr c) r) eps

def oneOf (rs : List Regex) : Regex := rs.foldr alt empty

/-- At most `n` times. -/
def upTo : ℕ → Regex → Regex
  | 0, _ => eps
  | n + 1, r => opt (seq r (upTo n r))

def any : Regex := star (cls fun _ ↦ true)

def isDigit (c : Char) : Bool := '0' ≤ c && c ≤ '9'

def isLower (c : Char) : Bool := 'a' ≤ c && c ≤ 'z'

def isUpper (c : Char) : Bool := 'A' ≤ c && c ≤ 'Z'

def isAlnum (c : Char) : Bool := isLower c || isUpper c || isDigit c

theorem toNat_le_of_le {c d : Char} (h : c ≤ d) : c.toNat ≤ d.toNat :=
  UInt32.le_iff_toNat_le.mp (Char.le_def.mp h)

theorem isAlnum_lt {c : Char} (h : isAlnum c = true) : c.toNat < 128 := by
  simp only [isAlnum, isLower, isUpper, isDigit, Bool.or_eq_true, Bool.and_eq_true,
    decide_eq_true_eq] at h
  rcases h with (⟨_, h⟩ | ⟨_, h⟩) | ⟨_, h⟩ <;>
    exact lt_of_le_of_lt (toNat_le_of_le h) (by decide)

/-- A property of the ASCII characters is checked one by one. -/
theorem ascii_forall {P : Char → Prop} (h : ∀ n < 128, P (Char.ofNat n)) {c : Char}
    (hc : c.toNat < 128) : P c := by
  simpa using h c.toNat hc

/-! ## The matcher decides the language -/

theorem nullable_iff (r : Regex) : nullable r = true ↔ [] ∈ lang r := by
  induction r with
  | empty => simp [nullable, lang]
  | eps => simp [nullable, lang]
  | cls p => simp [nullable, lang, mem_letters]
  | seq r s ihr ihs => simp [nullable, lang, ihr, ihs, Language.mem_mul]
  | alt r s ihr ihs => simp [nullable, lang, ihr, ihs, Language.mem_add]
  | star r _ => simp [nullable, lang, Language.nil_mem_kstar]

theorem lang_mkSeq (r s : Regex) : lang (mkSeq r s) = lang r * lang s := by
  cases r <;> simp [mkSeq, lang]

theorem lang_mkAlt (r s : Regex) : lang (mkAlt r s) = lang r + lang s := by
  cases r <;> cases s <;> simp [mkAlt, lang]

theorem cons_mem_mul {l m : Language Char} {c : Char} {w : List Char} :
    c :: w ∈ l * m ↔
      (∃ a b, c :: a ∈ l ∧ b ∈ m ∧ a ++ b = w) ∨ ([] ∈ l ∧ c :: w ∈ m) := by
  rw [Language.mem_mul]
  constructor
  · rintro ⟨a, ha, b, hb, hab⟩
    cases a with
    | nil => exact .inr ⟨ha, by simpa using hab ▸ hb⟩
    | cons d a =>
        obtain ⟨rfl, rfl⟩ := List.cons_eq_cons.mp hab
        exact .inl ⟨a, b, ha, hb, rfl⟩
  · rintro (⟨a, b, ha, hb, rfl⟩ | ⟨ha, hw⟩)
    · exact ⟨c :: a, ha, b, hb, rfl⟩
    · exact ⟨[], ha, c :: w, hw, rfl⟩

theorem cons_mem_kstar {l : Language Char} {c : Char} {w : List Char} :
    c :: w ∈ KStar.kstar l ↔
      ∃ a b, c :: a ∈ l ∧ b ∈ KStar.kstar l ∧ a ++ b = w := by
  constructor
  · intro h
    obtain ⟨parts, hw, hparts⟩ := Language.mem_kstar_iff_exists_nonempty.mp h
    cases parts with
    | nil => simp at hw
    | cons first rest =>
        obtain ⟨hfirst, hne⟩ := hparts first (by simp)
        cases first with
        | nil => exact (hne rfl).elim
        | cons d a =>
            simp only [List.flatten_cons, List.cons_append, List.cons_eq_cons] at hw
            obtain ⟨rfl, rfl⟩ := hw
            refine ⟨a, rest.flatten, hfirst, ?_, rfl⟩
            exact Language.mem_kstar.mpr
              ⟨rest, rfl, fun y hy ↦ (hparts y (List.mem_cons_of_mem _ hy)).1⟩
  · rintro ⟨a, b, ha, hb, rfl⟩
    obtain ⟨rest, rfl, hrest⟩ := Language.mem_kstar.mp hb
    refine Language.mem_kstar.mpr ⟨(c :: a) :: rest, rfl, ?_⟩
    intro y hy
    rcases List.mem_cons.mp hy with rfl | hy
    · exact ha
    · exact hrest y hy

theorem mem_lang_deriv (r : Regex) (c : Char) (w : List Char) :
    w ∈ lang (deriv c r) ↔ c :: w ∈ lang r := by
  induction r generalizing w with
  | empty => simp [deriv, lang]
  | eps => simp [deriv, lang, Language.mem_one]
  | cls p =>
      by_cases hp : p c = true
      · simp [deriv, hp, lang, Language.mem_one, mem_letters]
      · simp [deriv, hp, lang, mem_letters]
  | seq r s ihr ihs =>
      have hfirst : w ∈ lang (mkSeq (deriv c r) s) ↔
          ∃ a b, c :: a ∈ lang r ∧ b ∈ lang s ∧ a ++ b = w := by
        simp [lang_mkSeq, Language.mem_mul, ihr]
      simp only [lang, cons_mem_mul, ← nullable_iff]
      by_cases hn : nullable r = true
      · simp [deriv, hn, lang_mkAlt, Language.mem_add, hfirst, ihs]
      · simp [deriv, hn, hfirst]
  | alt r s ihr ihs => simp [deriv, lang_mkAlt, lang, Language.mem_add, ihr, ihs]
  | star r ihr =>
      simp [deriv, lang_mkSeq, lang, cons_mem_kstar, Language.mem_mul, ihr]

theorem isMatch_iff (r : Regex) (w : List Char) : isMatch r w = true ↔ w ∈ lang r := by
  induction w generalizing r with
  | nil => exact nullable_iff r
  | cons c w ih => rw [isMatch, ih, mem_lang_deriv]

/-! ## Matching by shape -/

theorem isMatch_cls {p : Char → Bool} {w : List Char} :
    isMatch (cls p) w = true ↔ ∃ c, p c = true ∧ w = [c] := by
  rw [isMatch_iff]; rfl

theorem isMatch_seq {r s : Regex} {w : List Char} :
    isMatch (seq r s) w = true ↔
      ∃ a b, a ++ b = w ∧ isMatch r a = true ∧ isMatch s b = true := by
  simp only [isMatch_iff, lang, Language.mem_mul]
  constructor
  · rintro ⟨a, ha, b, hb, hab⟩
    exact ⟨a, b, hab, ha, hb⟩
  · rintro ⟨a, b, hab, ha, hb⟩
    exact ⟨a, ha, b, hb, hab⟩

theorem isMatch_alt {r s : Regex} {w : List Char} :
    isMatch (alt r s) w = true ↔ isMatch r w = true ∨ isMatch s w = true := by
  simp only [isMatch_iff, lang, Language.mem_add]

theorem isMatch_eps {w : List Char} : isMatch eps w = true ↔ w = [] := by
  simp only [isMatch_iff, lang, Language.mem_one]

theorem isMatch_empty {w : List Char} : isMatch empty w = true ↔ False := by
  simp only [isMatch_iff, lang, Language.notMem_zero]

theorem isMatch_chr {c : Char} {w : List Char} :
    isMatch (chr c) w = true ↔ w = [c] := by
  simp [chr, isMatch_cls]

theorem isMatch_lit {v w : List Char} : isMatch (lit v) w = true ↔ w = v := by
  induction v generalizing w with
  | nil => exact isMatch_eps
  | cons c v ih =>
      rw [show lit (c :: v) = seq (chr c) (lit v) from rfl, isMatch_seq]
      simp only [isMatch_chr, ih]
      constructor
      · rintro ⟨a, b, rfl, rfl, rfl⟩
        rfl
      · rintro rfl
        exact ⟨[c], v, rfl, rfl, rfl⟩

theorem isMatch_star_cls {p : Char → Bool} {w : List Char} :
    isMatch (star (cls p)) w = true ↔ ∀ c ∈ w, p c = true := by
  induction w with
  | nil => simp [isMatch, nullable]
  | cons c w ih =>
      by_cases hp : p c = true
      · simp [isMatch, deriv, hp, mkSeq, ih]
      · have hno : isMatch empty w ≠ true := by simp [isMatch_empty]
        simp [isMatch, deriv, hp, mkSeq, hno]

theorem isMatch_plus_cls {p : Char → Bool} {w : List Char} :
    isMatch (plus (cls p)) w = true ↔ w ≠ [] ∧ ∀ c ∈ w, p c = true := by
  simp only [plus, isMatch_seq, isMatch_cls, isMatch_star_cls]
  constructor
  · rintro ⟨_, b, rfl, ⟨c, hc, rfl⟩, hb⟩
    simpa [hc] using hb
  · rintro ⟨hne, hw⟩
    cases w with
    | nil => exact (hne rfl).elim
    | cons c w =>
        exact ⟨[c], w, rfl, ⟨c, hw c (by simp), rfl⟩, fun d hd ↦ hw d (by simp [hd])⟩

/-- The shape of an identifier pattern: one head character, then a tail. -/
theorem isMatch_head_tail {p q : Char → Bool} {w : List Char} :
    isMatch (seq (cls p) (star (cls q))) w = true ↔
      ∃ c v, w = c :: v ∧ p c = true ∧ ∀ d ∈ v, q d = true := by
  simp only [isMatch_seq, isMatch_cls, isMatch_star_cls]
  constructor
  · rintro ⟨_, b, rfl, ⟨c, hc, rfl⟩, hb⟩
    exact ⟨c, b, rfl, hc, hb⟩
  · rintro ⟨c, v, rfl, hc, hv⟩
    exact ⟨[c], v, rfl, ⟨c, hc, rfl⟩, hv⟩

theorem isMatch_upTo_cls {p : Char → Bool} {n : ℕ} {w : List Char} :
    isMatch (upTo n (cls p)) w = true ↔ w.length ≤ n ∧ ∀ c ∈ w, p c = true := by
  induction n generalizing w with
  | zero =>
      rw [upTo, isMatch_eps]
      constructor
      · rintro rfl
        simp
      · rintro ⟨h, _⟩
        exact List.length_eq_zero_iff.mp (by omega)
  | succ n ih =>
      simp only [upTo, opt, isMatch_alt, isMatch_seq, isMatch_cls, isMatch_eps, ih]
      constructor
      · rintro (⟨_, b, rfl, ⟨c, hc, rfl⟩, hlength, hb⟩ | rfl)
        · refine ⟨by simpa using hlength, ?_⟩
          intro d hd
          rcases List.mem_cons.mp hd with rfl | hd
          · exact hc
          · exact hb d hd
        · simp
      · rintro ⟨hlength, hw⟩
        cases w with
        | nil => exact .inr rfl
        | cons c w =>
            refine .inl ⟨[c], w, rfl, ⟨c, hw c (by simp), rfl⟩, by simpa using hlength, ?_⟩
            exact fun d hd ↦ hw d (by simp [hd])

end Regex
