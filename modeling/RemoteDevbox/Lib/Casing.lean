import RemoteDevbox.Lib.Regex
import Mathlib.Data.List.Infix
import Mathlib.Tactic.Common

namespace RemoteDevbox

/-!
# Lower case

Each letter is written in lower case where it stands: what it becomes can depend on the
text around it, as of a sigma that ends a word. A tag of ASCII signs is found in the
text that is written so where it is found in the text itself.
-/

structure Casing where
  /-- A letter between the text before it and the text behind it. -/
  lowerAt : List Char → Char → List Char → List Char
  ascii : ∀ before c after, c.toNat < 128 → lowerAt before c after = [c.toLower]
  /-- Of the other letters, only the Kelvin sign becomes nothing but ASCII. -/
  other : ∀ before c after, 128 ≤ c.toNat →
    lowerAt before c after = ['k'] ∨ ∃ d ∈ lowerAt before c after, 128 ≤ d.toNat
  letters : ∀ before c after, 128 ≤ c.toNat →
    ∀ d ∈ lowerAt before c after, d.toNat < 128 → d.isAlpha = true

theorem isAlpha_lt {c : Char} (h : c.isAlpha = true) : c.toNat < 128 := by
  have hval : c.toNat = c.val.toNat := rfl
  have hparts : decide (c.val ≥ 65 ∧ c.val ≤ 90) = true ∨
      (decide (c.val ≥ 97) && decide (c.val ≤ 122)) = true := (Bool.or_eq_true _ _).mp h
  simp only [Bool.and_eq_true, decide_eq_true_eq, ge_iff_le, UInt32.le_iff_toNat_le] at hparts
  change 65 ≤ c.val.toNat ∧ c.val.toNat ≤ 90 ∨ 97 ≤ c.val.toNat ∧ c.val.toNat ≤ 122 at hparts
  omega

theorem toLower_of_not_isAlpha {c : Char} (h : c.isAlpha = false) : c.toLower = c := by
  have hparts : c.isUpper = false ∧ c.isLower = false := (Bool.or_eq_false_iff).mp h
  refine dif_neg fun hupper ↦ ?_
  have hletter : c.isUpper = true := decide_eq_true hupper
  rw [hletter] at hparts
  cases hparts.1

theorem isAlpha_toLower {c : Char} (h : c.isAlpha = true) : c.toLower.isAlpha = true :=
  Regex.ascii_forall (P := fun c ↦ c.isAlpha = true → c.toLower.isAlpha = true)
    (by decide +kernel) (isAlpha_lt h) h

theorem toLower_of_le {c : Char} (h : 128 ≤ c.toNat) : c.toLower = c := by
  refine toLower_of_not_isAlpha ?_
  rw [Bool.eq_false_iff]
  intro hletter
  exact absurd (isAlpha_lt hletter) (not_lt.mpr h)

/-- A sign that is no letter is written as itself alone. -/
theorem eq_of_toLower {c sign : Char} (hsign : sign.isAlpha = false) (h : c.toLower = sign) :
    c = sign := by
  cases halpha : c.isAlpha with
  | false => rwa [toLower_of_not_isAlpha halpha] at h
  | true =>
      rw [← h, isAlpha_toLower halpha] at hsign
      cases hsign

namespace Casing

variable (casing : Casing)

/-- A text between two others. -/
def lowerIn (before : List Char) : List Char → List Char → List Char
  | [], _ => []
  | c :: text, after =>
      casing.lowerAt before c (text ++ after) ++ lowerIn (before ++ [c]) text after

/-- The text by itself. -/
def lower (text : List Char) : List Char := casing.lowerIn [] text []

theorem lowerIn_append (before x y after : List Char) :
    casing.lowerIn before (x ++ y) after =
      casing.lowerIn before x (y ++ after) ++ casing.lowerIn (before ++ x) y after := by
  induction x generalizing before with
  | nil => rw [List.nil_append, List.append_nil, lowerIn, List.nil_append]
  | cons c x ih =>
      rw [List.cons_append, lowerIn, lowerIn, ih]
      simp only [List.append_assoc, List.singleton_append]

variable {casing} {before after text tag : List Char}

theorem lowerIn_ascii (h : ∀ c ∈ text, c.toNat < 128) :
    casing.lowerIn before text after = text.map Char.toLower := by
  induction text generalizing before with
  | nil => rfl
  | cons c text ih =>
      obtain ⟨hc, htext⟩ := List.forall_mem_cons.mp h
      rw [lowerIn, casing.ascii _ _ _ hc, ih htext]
      rfl

theorem lower_ascii (h : ∀ c ∈ text, c.toNat < 128) : casing.lower text = text.map Char.toLower :=
  lowerIn_ascii h

/-- A sign that is no letter stands in the text already. -/
theorem mem_of_lowerAt {sign c : Char} (hascii : sign.toNat < 128) (hsign : sign.isAlpha = false)
    (h : sign ∈ casing.lowerAt before c after) : c = sign := by
  rcases Nat.lt_or_ge c.toNat 128 with hsmall | hlarge
  · rw [casing.ascii _ _ _ hsmall, List.mem_singleton] at h
    exact eq_of_toLower hsign h.symm
  · have halpha := casing.letters _ _ _ hlarge sign h hascii
    rw [hsign] at halpha
    cases halpha

theorem notMem_lowerIn {sign : Char} (hascii : sign.toNat < 128) (hsign : sign.isAlpha = false)
    (h : sign ∉ text) : sign ∉ casing.lowerIn before text after := by
  induction text generalizing before with
  | nil => exact List.not_mem_nil
  | cons c text ih =>
      rw [lowerIn, List.mem_append, not_or]
      refine ⟨fun hmem ↦ h ?_, ih fun hmem ↦ h (List.mem_cons_of_mem _ hmem)⟩
      rw [mem_of_lowerAt hascii hsign hmem]
      exact List.mem_cons_self

/-! ## Tags -/

/-- Signs that only ASCII is written as, and at the end one that is no letter. -/
structure IsTag (tag : List Char) : Prop where
  signs : ∀ c ∈ tag, c.toNat < 128 ∧ c ≠ 'k'
  mark : ∃ name mark, tag = name ++ [mark] ∧ mark.isAlpha = false

/-- What no letter of ASCII is written as does not start with a tag. -/
theorem not_starts_tag {c : Char} (htag : IsTag tag) (hlarge : 128 ≤ c.toNat) {rest : List Char} :
    ¬tag <+: casing.lowerAt before c after ++ rest := by
  obtain ⟨name, mark, rfl, hmark⟩ := htag.mark
  have hmem : mark ∈ name ++ [mark] := List.mem_append_right _ (List.mem_singleton_self _)
  intro hprefix
  rcases List.prefix_or_prefix_of_prefix hprefix (List.prefix_append _ rest) with hshort | hlong
  · have halpha := casing.letters _ _ _ hlarge mark (hshort.subset hmem) (htag.signs mark hmem).1
    rw [hmark] at halpha
    cases halpha
  · rcases casing.other before c after hlarge with hkelvin | ⟨d, hd, hlarge'⟩
    · rw [hkelvin] at hlong
      exact (htag.signs 'k' (hlong.subset (List.mem_singleton_self _))).2 rfl
    · exact absurd (htag.signs d (hlong.subset hd)).1 (by omega)

theorem IsTag.tail {c : Char} (h : IsTag (c :: tag)) : tag = [] ∨ IsTag tag := by
  obtain ⟨name, mark, heq, hmark⟩ := h.mark
  cases name with
  | nil =>
      rw [List.nil_append, List.cons.injEq] at heq
      exact .inl heq.2
  | cons d name =>
      rw [List.cons_append, List.cons.injEq] at heq
      exact .inr ⟨fun e he ↦ h.signs e (List.mem_cons_of_mem _ he), name, mark, heq.2, hmark⟩

/-- The text starts with the tag in either case. -/
theorem tag_prefix_iff (htag : tag = [] ∨ IsTag tag) :
    tag <+: casing.lowerIn before text after ↔ (text.take tag.length).map Char.toLower = tag := by
  induction tag generalizing before text with
  | nil => simp
  | cons t tag ih =>
      have htag := htag.resolve_left (List.cons_ne_nil _ _)
      cases text with
      | nil => simp [lowerIn]
      | cons c text =>
          rw [List.length_cons, List.take_succ_cons, List.map_cons, List.cons.injEq, lowerIn]
          rcases Nat.lt_or_ge c.toNat 128 with hsmall | hlarge
          · rw [casing.ascii _ _ _ hsmall, List.singleton_append, List.cons_prefix_cons,
              ih htag.tail, eq_comm]
          · refine iff_of_false (not_starts_tag htag hlarge) fun ⟨hc, _⟩ ↦ ?_
            rw [toLower_of_le hlarge] at hc
            have hsign := (htag.signs t List.mem_cons_self).1
            rw [← hc] at hsign
            omega

/-- What stands behind the tag is written as it would be without it. -/
theorem drop_tag (htag : IsTag tag) (h : (text.take tag.length).map Char.toLower = tag) :
    (casing.lowerIn before text after).drop tag.length =
      casing.lowerIn (before ++ text.take tag.length) (text.drop tag.length) after := by
  have hascii : ∀ c ∈ text.take tag.length, c.toNat < 128 := by
    intro c hc
    by_contra hlarge
    have hmem : c.toLower ∈ tag := by
      rw [← h]
      exact List.mem_map_of_mem hc
    rw [toLower_of_le (not_lt.mp hlarge)] at hmem
    exact hlarge (htag.signs c hmem).1
  conv_lhs => rw [← List.take_append_drop tag.length text, lowerIn_append, lowerIn_ascii hascii, h]
  exact List.drop_left ..

end Casing

end RemoteDevbox
