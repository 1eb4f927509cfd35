import Mathlib.Data.List.Basic
import Mathlib.Tactic.Common

namespace RemoteDevbox

/-!
# The first occurrence of a mark, and lines

A text is cut at the first place where a mark stands. Where the mark has no separator in it,
no occurrence goes over one.
-/

section Cut

variable {α : Type} [DecidableEq α] {mark text pre post : List α}

/-- What stands before and behind the first occurrence. -/
def cut (mark : List α) : List α → Option (List α × List α)
  | [] => if mark = [] then some ([], []) else none
  | c :: text =>
      if mark.isPrefixOf (c :: text) then some ([], (c :: text).drop mark.length)
      else (cut mark text).map fun p ↦ (c :: p.1, p.2)

theorem cut_eq_none : cut mark text = none ↔ ¬ mark <:+: text := by
  induction text with
  | nil =>
      rw [cut, List.infix_nil]
      split
      next hmark => exact iff_of_false nofun fun hnot ↦ hnot hmark
      next hmark => exact iff_of_true rfl hmark
  | cons c text ih =>
      rw [cut, List.infix_cons_iff, not_or, ← ih]
      split
      next hstarts =>
        exact iff_of_false nofun fun hnot ↦ hnot.1 (List.isPrefixOf_iff_prefix.mp hstarts)
      next hstarts =>
        have hnot : ¬ mark <+: c :: text := fun h ↦ hstarts (List.isPrefixOf_iff_prefix.mpr h)
        rw [Option.map_eq_none_iff]
        exact (and_iff_right hnot).symm

theorem cut_of_prefix (post : List α) : cut mark (mark ++ post) = some ([], post) := by
  cases htext : mark ++ post with
  | nil =>
      obtain ⟨hmark, hpost⟩ := List.append_eq_nil_iff.mp htext
      rw [cut, if_pos hmark, hpost]
  | cons c text =>
      have hstarts : mark.isPrefixOf (c :: text) = true :=
        List.isPrefixOf_iff_prefix.mpr (htext ▸ List.prefix_append mark post)
      rw [cut, if_pos hstarts, ← htext, List.drop_left]

/-- The first occurrence is where none begins before. -/
theorem cut_append (h : ∀ u v, pre = u ++ v → v ≠ [] → ¬ mark <+: v ++ (mark ++ post)) :
    cut mark (pre ++ (mark ++ post)) = some (pre, post) := by
  induction pre with
  | nil => exact cut_of_prefix post
  | cons c pre ih =>
      have hnot : ¬ mark.isPrefixOf (c :: (pre ++ (mark ++ post))) = true := fun hstarts ↦
        h [] (c :: pre) rfl (List.cons_ne_nil c pre) (List.isPrefixOf_iff_prefix.mp hstarts)
      have hrest : cut mark (pre ++ (mark ++ post)) = some (pre, post) :=
        ih fun u v hpre ↦ h (c :: u) v (congrArg (c :: ·) hpre)
      rw [List.cons_append, cut, if_neg hnot, hrest, Option.map_some]

omit [DecidableEq α] in
/-- What has no separator in it ends before the next one. -/
theorem prefix_before_sep {sep : α} {part before after : List α} (hsep : sep ∉ part)
    (h : part <+: before ++ sep :: after) : part <+: before := by
  induction before generalizing part with
  | nil =>
      rcases List.prefix_cons_iff.mp h with rfl | ⟨rest, rfl, -⟩
      · exact List.nil_prefix
      · exact absurd List.mem_cons_self hsep
  | cons c before ih =>
      rcases List.prefix_cons_iff.mp h with rfl | ⟨rest, rfl, hrest⟩
      · exact List.nil_prefix
      · have hlater : rest <+: before := ih (fun hmem ↦ hsep (List.mem_cons_of_mem c hmem)) hrest
        exact (List.prefix_cons_inj c).mpr hlater

omit [DecidableEq α] in
theorem not_prefix_sep {sep : α} {part after : List α} (hpart : part ≠ []) (hsep : sep ∉ part) :
    ¬ part <+: sep :: after := by
  intro h
  have hnil : part <+: [] := prefix_before_sep hsep h
  exact hpart (List.prefix_nil.mp hnil)

end Cut

/-! ## Lines -/

/-- The lines, each with its newline; the last one may have none. -/
def linesOf : List Char → List (List Char)
  | [] => []
  | c :: text =>
      if c = '\n' then ['\n'] :: linesOf text
      else
        match linesOf text with
        | [] => [[c]]
        | line :: lines => (c :: line) :: lines

/-- A text is one line without a newline, or begins with one that has a newline. -/
theorem line_induction {motive : List Char → Prop} (last : ∀ line, '\n' ∉ line → motive line)
    (line : ∀ line rest, '\n' ∉ line → motive rest → motive (line ++ '\n' :: rest))
    (text : List Char) : motive text := by
  induction hlength : text.length using Nat.strongRecOn generalizing text with
  | ind n ih =>
      by_cases hmem : '\n' ∈ text
      · obtain ⟨first, rest, rfl, hfirst⟩ := List.eq_append_cons_of_mem hmem
        have hshort : rest.length < n := by
          rw [← hlength, List.length_append, List.length_cons]
          omega
        exact line first rest hfirst (ih rest.length hshort rest rfl)
      · exact last text hmem

theorem linesOf_line {line : List Char} (h : '\n' ∉ line) (rest : List Char) :
    linesOf (line ++ '\n' :: rest) = (line ++ ['\n']) :: linesOf rest := by
  induction line with
  | nil => exact if_pos rfl
  | cons c line ih =>
      have hc : c ≠ '\n' := fun hc ↦ h (hc ▸ List.mem_cons_self)
      rw [List.cons_append, linesOf, if_neg hc, ih fun hmem ↦ h (List.mem_cons_of_mem c hmem)]
      rfl

theorem linesOf_last {line : List Char} (h : '\n' ∉ line) (hne : line ≠ []) :
    linesOf line = [line] := by
  induction line with
  | nil => exact absurd rfl hne
  | cons c line ih =>
      have hc : c ≠ '\n' := fun hc ↦ h (hc ▸ List.mem_cons_self)
      rw [linesOf, if_neg hc]
      cases line with
      | nil => rfl
      | cons c' line =>
          rw [ih (fun hmem ↦ h (List.mem_cons_of_mem c hmem)) (List.cons_ne_nil c' line)]

theorem flatten_linesOf (text : List Char) : (linesOf text).flatten = text := by
  induction text using line_induction with
  | last line h =>
      cases line with
      | nil => rfl
      | cons c line =>
          rw [linesOf_last h (List.cons_ne_nil c line), List.flatten_singleton]
  | line line rest h ih =>
      rw [linesOf_line h, List.flatten_cons, ih, List.append_assoc]
      rfl

/-- A line of the beginning begins a line of the whole. -/
theorem linesOf_mono {text line : List Char} (more : List Char) (h : line ∈ linesOf text) :
    ∃ line' ∈ linesOf (text ++ more), line <+: line' := by
  induction text using line_induction with
  | last first hfirst =>
      cases first with
      | nil => exact absurd h List.not_mem_nil
      | cons c first =>
          rw [linesOf_last hfirst (List.cons_ne_nil c first), List.mem_singleton] at h
          subst h
          by_cases hmem : '\n' ∈ more
          · obtain ⟨u, v, rfl, hu⟩ := List.eq_append_cons_of_mem hmem
            have hboth : '\n' ∉ (c :: first) ++ u := fun hmem ↦
              (List.mem_append.mp hmem).elim hfirst hu
            rw [← List.append_assoc, linesOf_line hboth, List.append_assoc]
            exact ⟨_, List.mem_cons_self, List.prefix_append _ _⟩
          · have hboth : '\n' ∉ (c :: first) ++ more := fun hmem' ↦
              (List.mem_append.mp hmem').elim hfirst hmem
            rw [linesOf_last hboth (List.cons_ne_nil c _)]
            exact ⟨_, List.mem_singleton.mpr rfl, List.prefix_append _ _⟩
  | line first rest hfirst ih =>
      rw [linesOf_line hfirst] at h
      rw [List.append_assoc, List.cons_append, linesOf_line hfirst]
      rcases List.mem_cons.mp h with rfl | hlater
      · exact ⟨_, List.mem_cons_self, List.prefix_rfl⟩
      · obtain ⟨line', hline', hstarts⟩ := ih hlater
        exact ⟨line', List.mem_cons_of_mem _ hline', hstarts⟩

/-- Where a newline is put at the end, a line is as it was, or it is the last one. -/
theorem linesOf_newline {text line : List Char} (h : line ∈ linesOf (text ++ ['\n'])) :
    line = ['\n'] ∨ ∃ line' ∈ linesOf text, line = line' ∨ line = line' ++ ['\n'] := by
  induction text using line_induction with
  | last first hfirst =>
      rw [linesOf_line hfirst [], linesOf, List.mem_singleton] at h
      cases first with
      | nil => exact .inl h
      | cons c first =>
          rw [linesOf_last hfirst (List.cons_ne_nil c first)]
          exact .inr ⟨_, List.mem_singleton.mpr rfl, .inr h⟩
  | line first rest hfirst ih =>
      rw [List.append_assoc, List.cons_append, linesOf_line hfirst] at h
      rw [linesOf_line hfirst]
      rcases List.mem_cons.mp h with rfl | hlater
      · exact .inr ⟨_, List.mem_cons_self, .inl rfl⟩
      · refine (ih hlater).imp_right fun ⟨line', hline', hsame⟩ ↦ ?_
        exact ⟨line', List.mem_cons_of_mem _ hline', hsame⟩

end RemoteDevbox
