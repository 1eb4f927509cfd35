import RemoteDevbox.Lib.Js.CodeUnits
import RemoteDevbox.Lib.Substitution

namespace Js

/-!
# Patterns of literal alternatives

A pattern whose alternatives are literal texts is read back from its spelling, and
replaces like any global pattern: at each position the first alternative that
matches wins.
-/

namespace RegExp

/-- The syntax characters, which stand for themselves only behind a backslash. -/
def SYNTAX : Units := units "^$\\.*+?()[]\x7b\x7d|"

/-- The alternatives of a pattern all of which are literal, `current` being the one
that is read. -/
def alternatives (current : Units) : Units → Option (List Units)
  | [] => some [current]
  | c :: rest =>
      if c = unit '|' then (alternatives [] rest).map (current :: ·)
      else if c = unit '\\' then
        match rest with
        | [] => none
        | e :: rest => if e ∈ SYNTAX then alternatives (current ++ [e]) rest else none
      else if c ∈ SYNTAX then none
      else alternatives (current ++ [c]) rest

theorem bar_mem : unit '|' ∈ SYNTAX := by decide +kernel

theorem backslash_mem : unit '\\' ∈ SYNTAX := by decide +kernel

theorem alternatives_bar (current rest : Units) :
    alternatives current (unit '|' :: rest) = (alternatives [] rest).map (current :: ·) := by
  rw [alternatives.eq_def]
  rfl

theorem alternatives_escaped {c : CodeUnit} (hc : c ∈ SYNTAX) (current rest : Units) :
    alternatives current (unit '\\' :: c :: rest) = alternatives (current ++ [c]) rest := by
  have hne : unit '\\' ≠ unit '|' := by decide
  rw [alternatives.eq_def]
  simp only [hne, if_false, if_true, hc]

theorem alternatives_plain {c : CodeUnit} (hc : c ∉ SYNTAX) (current rest : Units) :
    alternatives current (c :: rest) = alternatives (current ++ [c]) rest := by
  have hbar : c ≠ unit '|' := fun heq ↦ hc (heq ▸ bar_mem)
  have hslash : c ≠ unit '\\' := fun heq ↦ hc (heq ▸ backslash_mem)
  rw [alternatives.eq_def]
  simp only [hbar, hslash, hc, if_false]

section Scan

variable {α : Type*} [DecidableEq α]

/-- The match at a position: the first alternative that the rest of the text starts with. -/
def firstAt (alts : List (List α)) (text : List α) : Option (List α) :=
  alts.find? (·.isPrefixOf text)

/-- The matches of a global pattern and the letters between them. An empty match
moves on by one letter. The first argument counts the letters of the last match. -/
def scan (alts : List (List α)) : ℕ → List α → List (α ⊕ List α)
  | _, [] => (firstAt alts []).toList.map .inr
  | 0, a :: text =>
      match firstAt alts (a :: text) with
      | none => .inl a :: scan alts 0 text
      | some [] => .inr [] :: .inl a :: scan alts 0 text
      | some (b :: found) => .inr (b :: found) :: scan alts found.length text
  | k + 1, _ :: text => scan alts k text

/-- `text.replace(re, f)`. -/
def replace (alts : List (List α)) (f : List α → List α) (text : List α) : List α :=
  (scan alts 0 text).flatMap (Sum.elim (fun a ↦ [a]) f)

end Scan

/-! ## Patterns with the longest alternative first -/

section Longest

open Substitution

variable {α : Type*} [DecidableEq α]

theorem scan_drop (alts : List (List α)) {k : ℕ} {text : List α} (hk : k ≤ text.length) :
    scan alts k text = scan alts 0 (text.drop k) := by
  induction k generalizing text with
  | zero => rfl
  | succ k ih =>
      cases text with
      | nil => simp at hk
      | cons a text => exact ih (by simpa using hk)

variable {rules : List (Rule α)}

theorem firstAt_none {text : List α} (h : firstAt (rules.map (·.source)) text = none) :
    ∀ r ∈ rules, ¬ r.source <+: text := by
  intro r hr hprefix
  have hno := List.find?_eq_none.mp h r.source (List.mem_map_of_mem hr)
  exact hno (List.isPrefixOf_iff_prefix.mpr hprefix)

theorem firstAt_longest (hsorted : rules.Pairwise (fun r r' ↦ r'.source.length ≤ r.source.length))
    {text found : List α} (h : firstAt (rules.map (·.source)) text = some found) :
    ∃ r, r.source = found ∧ Longest rules text r := by
  obtain ⟨hfound, as, bs, hsplit, hbefore⟩ := List.find?_eq_some_iff_append.mp h
  obtain ⟨before, rest, rfl, rfl, hrest⟩ := List.map_eq_append_iff.mp hsplit
  obtain ⟨r, after, rfl, rfl, rfl⟩ := List.map_eq_cons_iff.mp hrest
  refine ⟨r, rfl, by simp, List.isPrefixOf_iff_prefix.mp hfound, fun r' hr' hprefix ↦ ?_⟩
  rcases List.mem_append.mp hr' with hr' | hr'
  · have hno := hbefore r'.source (List.mem_map_of_mem hr')
    simp [List.isPrefixOf_iff_prefix.mpr hprefix] at hno
  · rcases List.mem_cons.mp hr' with rfl | hr'
    · exact le_rfl
    · exact List.rel_of_pairwise_cons (List.pairwise_append.mp hsorted).2.1 hr'

/-- Replacing with the longest alternative first is leftmost-longest substitution. -/
theorem substituted_replace (hrules : Functional rules)
    (hsorted : rules.Pairwise (fun r r' ↦ r'.source.length ≤ r.source.length))
    {f : List α → List α} (hf : ∀ r ∈ rules, f r.source = r.dest) (text : List α) :
    Substituted rules text (replace (rules.map (·.source)) f text) := by
  induction hlength : text.length using Nat.strong_induction_on generalizing text with
  | _ n ih =>
      subst hlength
      cases hfirst : firstAt (rules.map (·.source)) text with
      | none =>
          have hnone := firstAt_none hfirst
          cases text with
          | nil =>
              refine ⟨[], .done, rfl, ?_⟩
              simp [replace, scan, hfirst]
          | cons a text =>
              obtain ⟨ps, hps, rfl, hout⟩ := ih text.length (by simp) text rfl
              refine ⟨.keep a :: ps, .keep hnone hps, rfl, ?_⟩
              rw [replaced_cons, hout, replace, replace, scan, hfirst]
              rfl
      | some found =>
          obtain ⟨r, rfl, hlongest⟩ := firstAt_longest hsorted hfirst
          obtain ⟨rest, rfl⟩ := hlongest.starts
          have hne := hrules.nonempty r hlongest.mem
          cases hsource : r.source with
          | nil => exact absurd hsource hne
          | cons b found =>
              obtain ⟨ps, hps, rfl, hout⟩ := ih rest.length (by grind) rest rfl
              refine ⟨.hit r :: ps, .hit hlongest hps, by rw [original_cons, ← hsource]; rfl, ?_⟩
              rw [hsource] at hfirst
              rw [replaced_cons, hout, replace, replace, List.cons_append, scan, ← List.cons_append,
                hfirst]
              simp only [List.flatMap_cons, Sum.elim_inr]
              rw [← hsource, hf r hlongest.mem,
                @scan_drop _ _ _ found.length (found ++ original ps) (by simp), List.drop_left]
              rfl

end Longest

end RegExp

end Js
