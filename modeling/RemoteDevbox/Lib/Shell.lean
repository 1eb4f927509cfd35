import RemoteDevbox.Lib.Lists
import Mathlib.Data.List.DropRight

/-!
# What a shell reads

The output of a command as `$(…)` keeps it, its lines as `<<<` hands them on, and
the words `read` takes from a line. A separator that counts as white space is
skipped however often it stands.
-/

namespace Shell

variable {α : Type*} [DecidableEq α]

/-- `$(…)` of an output. -/
def substitution (nul newline : α) (out : List α) : List α :=
  (out.filter (· ≠ nul)).rdropWhile (· = newline)

/-- The next word of a line, and what is left of the line. -/
def word (sep : α) (line : List α) : List α × List α :=
  let line := line.dropWhile (· = sep)
  (line.takeWhile (· ≠ sep), line.dropWhile (· ≠ sep))

/-- What the last variable of a `read` takes. -/
def lastWord (sep : α) (line : List α) : List α :=
  (line.dropWhile (· = sep)).rdropWhile (· = sep)

/-! ## Words -/

section Words

variable {sep : α} {w line : List α}

theorem word_sep_cons : word sep (sep :: line) = word sep line := by
  simp [word]

theorem dropWhile_self (hne : w ≠ []) (hw : sep ∉ w) (line : List α) :
    (w ++ line).dropWhile (· = sep) = w ++ line := by
  cases w with
  | nil => exact absurd rfl hne
  | cons a w =>
      have ha : a ≠ sep := fun heq ↦ hw (heq ▸ List.mem_cons_self)
      simp [ha]

/-- A word that stands before a separator is read as it is. -/
theorem word_append (hne : w ≠ []) (hw : sep ∉ w) (line : List α) :
    word sep (w ++ sep :: line) = (w, sep :: line) := by
  have hother : ∀ a ∈ w, decide (a ≠ sep) = true := by
    intro a ha
    simp only [decide_eq_true_eq]
    exact fun heq ↦ hw (heq ▸ ha)
  rw [word, dropWhile_self hne hw, List.takeWhile_append_of_pos hother,
    List.dropWhile_append_of_pos hother]
  simp

theorem lastWord_sep_cons : lastWord sep (sep :: line) = lastWord sep line := by
  simp [lastWord]

theorem lastWord_self (hne : w ≠ []) (hw : sep ∉ w) : lastWord sep w = w := by
  have hdrop := dropWhile_self hne hw []
  rw [List.append_nil] at hdrop
  rw [lastWord, hdrop, List.rdropWhile_eq_self_iff]
  intro hl
  simp only [decide_eq_true_eq]
  exact fun heq ↦ hw (heq ▸ List.getLast_mem hl)

theorem mem_line_of_mem_rest {a : α} (ha : a ∈ (word sep line).2) : a ∈ line :=
  (List.dropWhile_sublist _).mem ((List.dropWhile_sublist _).mem ha)

theorem mem_of_mem_word {a : α} (ha : a ∈ (word sep line).1) : a ∈ line ∧ a ≠ sep :=
  ⟨(List.dropWhile_sublist _).mem ((List.takeWhile_sublist _).mem ha),
    by simpa using List.mem_takeWhile_imp ha⟩

end Words

/-! ## Lines -/

section Lines

variable {nul newline : α}

theorem not_mem_of_mem_lines {l out : List α}
    (h : l ∈ (substitution nul newline out).splitOn newline) : newline ∉ l ∧ nul ∉ l := by
  obtain ⟨hnewline, hmem⟩ := not_mem_of_mem_splitOn h
  refine ⟨hnewline, fun hnul ↦ ?_⟩
  have hkept := (List.rdropWhile_prefix _ _).subset (hmem _ hnul)
  simp at hkept

omit [DecidableEq α] in
theorem flatMap_line (lines : List (List α)) (hne : lines ≠ []) :
    lines.flatMap (· ++ [newline]) = [newline].intercalate lines ++ [newline] := by
  induction lines with
  | nil => exact absurd rfl hne
  | cons l lines ih =>
      cases lines with
      | nil => simp
      | cons l' lines =>
          rw [List.flatMap_cons, ih (by simp), List.intercalate_cons_cons]
          simp

omit [DecidableEq α] in
theorem intercalate_concat (sep : List α) (pre : List (List α)) (last : List α) :
    ∃ front, sep.intercalate (pre.concat last) = front ++ last := by
  rw [List.concat_eq_append]
  induction pre with
  | nil => exact ⟨[], by simp⟩
  | cons l pre ih =>
      obtain ⟨front, hfront⟩ := ih
      refine ⟨l ++ sep ++ front, ?_⟩
      rw [List.cons_append, List.intercalate_cons_of_ne_nil (by simp), hfront]
      simp

/-- Lines that hold neither character are read back as they were written. -/
theorem lines_of_output {lines : List (List α)} (hlines : lines ≠ [])
    (hne : ∀ l ∈ lines, l ≠ []) (hnewline : ∀ l ∈ lines, newline ∉ l)
    (hnul : ∀ l ∈ lines, nul ∉ l) (hdiff : newline ≠ nul) :
    (substitution nul newline (lines.flatMap (· ++ [newline]))).splitOn newline = lines := by
  have hfilter : (lines.flatMap (· ++ [newline])).filter (fun a ↦ decide (a ≠ nul)) =
      lines.flatMap (· ++ [newline]) := by
    apply List.filter_eq_self.mpr
    intro a ha
    obtain ⟨l, hl, ha⟩ := List.mem_flatMap.mp ha
    rcases List.mem_append.mp ha with ha | ha
    · simp only [decide_eq_true_eq]
      exact fun heq ↦ hnul l hl (heq ▸ ha)
    · simpa [List.mem_singleton.mp ha] using hdiff
  have hstripped : ([newline].intercalate lines).rdropWhile (· = newline) =
      [newline].intercalate lines := by
    obtain ⟨pre, last, rfl⟩ := List.eq_nil_or_concat lines |>.resolve_left hlines
    have hlast : last ≠ [] := hne last (by simp)
    obtain ⟨front, hfront⟩ := intercalate_concat [newline] pre last
    rw [hfront, List.rdropWhile_eq_self_iff]
    intro hl
    rw [List.getLast_append_of_ne_nil hl hlast]
    simp only [decide_eq_true_eq]
    exact fun heq ↦ hnewline last (by simp) (heq ▸ List.getLast_mem hlast)
  rw [substitution, hfilter, flatMap_line lines hlines,
    List.rdropWhile_concat_pos _ _ _ (by simp), hstripped]
  exact List.splitOn_intercalate newline hnewline hlines

end Lines

end Shell
