import RemoteDevbox.Lib.Py.Shlex

/-!
# Command lines with comments

`shlex.split` with `comments=True`, on one line: an unquoted number sign ends it.
Lines that are put together from complete words are read word by word.
-/

namespace Py.Shlex

/-- The mode behind a character. -/
def after (mode : Mode) (c : Char) : Mode :=
  match mode with
  | .blank =>
      if isWhite c then .blank
      else if c = '\\' then .escape none
      else if isQuote c then .quote c
      else .word
  | .word =>
      if isWhite c then .blank
      else if isQuote c then .quote c
      else if c = '\\' then .escape none
      else .word
  | .quote q =>
      if c = q then .word
      else if c = '\\' ∧ q = '"' then .escape (some q)
      else .quote q
  | .escape none => .word
  | .escape (some q) => .quote q

/-- Neither quotes nor a backslash are open. -/
def Mode.isOpen : Mode → Bool
  | .blank => true
  | .word => true
  | _ => false

/-- The line up to its comment. -/
def uncommented (mode : Mode) : List Char → List Char
  | [] => []
  | c :: rest =>
      if c = '#' ∧ mode.isOpen then [] else c :: uncommented (after mode c) rest

/-- `shlex.split(text, comments=True)` on one line. -/
def splitLine (text : List Char) : Option (List (List Char)) := split (uncommented .blank text)

example : splitLine "box x='#1' # main".toList = some ["box".toList, "x=#1".toList] := by
  decide +kernel

/-! ## Complete words -/

/-- The word that a text spells, and whether with quotes, when it is one
complete word: no white space and no number sign outside quotes. -/
def spelled (mode : Mode) (token : List Char) (quoted : Bool) : List Char → Option (List Char × Bool)
  | [] =>
      match mode with
      | .word => some (token, quoted)
      | _ => none
  | c :: rest =>
      match mode with
      | .blank =>
          if isWhite c ∨ c = '#' then none
          else if c = '\\' then spelled (.escape none) [] false rest
          else if isQuote c then spelled (.quote c) [] false rest
          else spelled .word [c] false rest
      | .word =>
          if isWhite c ∨ c = '#' then none
          else if isQuote c then spelled (.quote c) token quoted rest
          else if c = '\\' then spelled (.escape none) token quoted rest
          else spelled .word (token ++ [c]) quoted rest
      | .quote q =>
          if c = q then spelled .word token true rest
          else if c = '\\' ∧ q = '"' then spelled (.escape (some q)) token true rest
          else spelled (.quote q) (token ++ [c]) true rest
      | .escape none => spelled .word (token ++ [c]) quoted rest
      | .escape (some q) =>
          let kept := if c ≠ '\\' ∧ c ≠ q then token ++ ['\\'] else token
          spelled (.quote q) (kept ++ [c]) quoted rest

theorem uncommented_spelled {mode : Mode} {token word text : List Char} {quoted quoted' : Bool}
    (h : spelled mode token quoted text = some (word, quoted')) (rest : List Char) :
    uncommented mode (text ++ rest) = text ++ uncommented .word rest := by
  induction text generalizing mode token quoted with
  | nil =>
      cases mode with
      | word => rfl
      | _ => cases h
  | cons c text ih =>
      cases mode with
      | blank =>
          rw [spelled] at h
          split at h
          · cases h
          · rename_i hplain
            rw [not_or] at hplain
            have hnot : ¬(c = '#' ∧ Mode.blank.isOpen = true) := fun hc ↦ hplain.2 hc.1
            rw [List.cons_append, uncommented, if_neg hnot, List.cons_append]
            congr 1
            simp only [after, if_neg hplain.1]
            split at h
            · rename_i hslash
              rw [if_pos hslash]
              exact ih h
            · rename_i hslash
              rw [if_neg hslash]
              split at h
              · rename_i hquote
                rw [if_pos hquote]
                exact ih h
              · rename_i hquote
                rw [if_neg hquote]
                exact ih h
      | word =>
          rw [spelled] at h
          split at h
          · cases h
          · rename_i hplain
            rw [not_or] at hplain
            have hnot : ¬(c = '#' ∧ Mode.word.isOpen = true) := fun hc ↦ hplain.2 hc.1
            rw [List.cons_append, uncommented, if_neg hnot, List.cons_append]
            congr 1
            simp only [after, if_neg hplain.1]
            split at h
            · rename_i hquote
              rw [if_pos hquote]
              exact ih h
            · rename_i hquote
              rw [if_neg hquote]
              split at h
              · rename_i hslash
                rw [if_pos hslash]
                exact ih h
              · rename_i hslash
                rw [if_neg hslash]
                exact ih h
      | quote q =>
          have hnot : ¬(c = '#' ∧ (Mode.quote q).isOpen = true) := fun hc ↦ Bool.false_ne_true hc.2
          rw [List.cons_append, uncommented, if_neg hnot, List.cons_append]
          congr 1
          rw [spelled] at h
          simp only [after]
          split at h
          · rename_i hend
            rw [if_pos hend]
            exact ih h
          · rename_i hend
            rw [if_neg hend]
            split at h
            · rename_i hslash
              rw [if_pos hslash]
              exact ih h
            · rename_i hslash
              rw [if_neg hslash]
              exact ih h
      | escape back =>
          have hnot : ¬(c = '#' ∧ (Mode.escape back).isOpen = true) := fun hc ↦
            Bool.false_ne_true hc.2
          rw [List.cons_append, uncommented, if_neg hnot, List.cons_append]
          congr 1
          cases back with
          | none => exact ih h
          | some q => exact ih h

theorem tokens_spelled {mode : Mode} {token word text : List Char} {quoted quoted' : Bool}
    (h : spelled mode token quoted text = some (word, quoted')) (rest : List Char) :
    tokens mode token quoted (text ++ rest) = tokens .word word quoted' rest := by
  induction text generalizing mode token quoted with
  | nil =>
      cases mode with
      | word =>
          obtain ⟨rfl, rfl⟩ := Prod.mk.inj (Option.some.inj h)
          rfl
      | _ => cases h
  | cons c text ih =>
      rw [List.cons_append]
      cases mode with
      | blank =>
          rw [spelled] at h
          rw [tokens]
          split at h
          · cases h
          · rename_i hplain
            rw [not_or] at hplain
            simp only [if_neg hplain.1]
            split at h
            · rename_i hslash
              rw [if_pos hslash]
              exact ih h
            · rename_i hslash
              rw [if_neg hslash]
              split at h
              · rename_i hquote
                rw [if_pos hquote]
                exact ih h
              · rename_i hquote
                rw [if_neg hquote]
                exact ih h
      | word =>
          rw [spelled] at h
          rw [tokens]
          split at h
          · cases h
          · rename_i hplain
            rw [not_or] at hplain
            simp only [if_neg hplain.1]
            split at h
            · rename_i hquote
              rw [if_pos hquote]
              exact ih h
            · rename_i hquote
              rw [if_neg hquote]
              split at h
              · rename_i hslash
                rw [if_pos hslash]
                exact ih h
              · rename_i hslash
                rw [if_neg hslash]
                exact ih h
      | quote q =>
          rw [spelled] at h
          rw [tokens]
          split at h
          · rename_i hend
            simp only [if_pos hend]
            exact ih h
          · rename_i hend
            simp only [if_neg hend]
            split at h
            · rename_i hslash
              rw [if_pos hslash]
              exact ih h
            · rename_i hslash
              rw [if_neg hslash]
              exact ih h
      | escape back =>
          cases back with
          | none => exact ih h
          | some q => exact ih h

/-- A complete word has a character or quotes. -/
theorem spelled_kept {mode : Mode} {token word text : List Char} {quoted quoted' : Bool}
    (hstart : mode = .word → token ≠ [] ∨ quoted = true)
    (h : spelled mode token quoted text = some (word, quoted')) : word ≠ [] ∨ quoted' = true := by
  induction text generalizing mode token quoted with
  | nil =>
      cases mode with
      | word =>
          obtain ⟨rfl, rfl⟩ := Prod.mk.inj (Option.some.inj h)
          exact hstart rfl
      | _ => cases h
  | cons c text ih =>
      cases mode with
      | blank =>
          rw [spelled] at h
          split_ifs at h
          · exact ih (fun hmode ↦ by cases hmode) h
          · exact ih (fun hmode ↦ by cases hmode) h
          · exact ih (fun _ ↦ .inl (List.cons_ne_nil _ _)) h
      | word =>
          rw [spelled] at h
          split_ifs at h
          · exact ih (fun hmode ↦ by cases hmode) h
          · exact ih (fun hmode ↦ by cases hmode) h
          · exact ih (fun _ ↦ .inl (by simp)) h
      | quote q =>
          rw [spelled] at h
          split_ifs at h
          · exact ih (fun _ ↦ .inr rfl) h
          · exact ih (fun hmode ↦ by cases hmode) h
          · exact ih (fun hmode ↦ by cases hmode) h
      | escape back =>
          cases back with
          | none => exact ih (fun _ ↦ .inl (by simp)) h
          | some q => exact ih (fun hmode ↦ by cases hmode) h

theorem spelled_head {word text : List Char} {quoted : Bool}
    (h : spelled .blank [] false text = some (word, quoted)) :
    ∃ c rest, text = c :: rest ∧ isWhite c = false ∧ c ≠ '#' := by
  cases text with
  | nil => cases h
  | cons c rest =>
      rw [spelled] at h
      split at h
      · cases h
      · rename_i hplain
        rw [not_or, Bool.not_eq_true] at hplain
        exact ⟨c, rest, rfl, hplain⟩

/-! ## Words one after the other -/

theorem uncommented_white {mode : Mode} (hmode : mode = .blank ∨ mode = .word) {blanks : List Char}
    (h : ∀ c ∈ blanks, isWhite c = true) (hne : blanks ≠ []) (rest : List Char) :
    uncommented mode (blanks ++ rest) = blanks ++ uncommented .blank rest := by
  induction blanks generalizing mode with
  | nil => exact absurd rfl hne
  | cons c blanks ih =>
      obtain ⟨hc, hblanks⟩ := List.forall_mem_cons.mp h
      have hhash : c ≠ '#' := by
        rintro rfl
        exact absurd hc (by decide)
      have hafter : after mode c = .blank := by
        rcases hmode with rfl | rfl <;> simp [after, hc]
      rw [List.cons_append, uncommented, if_neg fun hh ↦ hhash hh.1, hafter]
      cases blanks with
      | nil => rfl
      | cons d blanks => exact congrArg (c :: ·) (ih (.inl rfl) hblanks (List.cons_ne_nil _ _))

theorem tokens_blanks {blanks : List Char} (h : ∀ c ∈ blanks, isWhite c = true)
    (rest : List Char) : tokens .blank [] false (blanks ++ rest) = tokens .blank [] false rest := by
  induction blanks with
  | nil => rfl
  | cons c blanks ih =>
      obtain ⟨hc, hblanks⟩ := List.forall_mem_cons.mp h
      rw [List.cons_append, tokens]
      simp only [hc, if_true]
      exact ih hblanks

theorem tokens_word_blanks {word : List Char} {quoted : Bool} (hword : word ≠ [] ∨ quoted = true)
    {blanks : List Char} (h : ∀ c ∈ blanks, isWhite c = true) (hne : blanks ≠ [])
    (rest : List Char) : tokens .word word quoted (blanks ++ rest) =
      (tokens .blank [] false rest).map (word :: ·) := by
  cases blanks with
  | nil => exact absurd rfl hne
  | cons c blanks =>
      obtain ⟨hc, hblanks⟩ := List.forall_mem_cons.mp h
      have hkept : ¬(word.isEmpty && !quoted) = true := by
        rcases hword with hword | rfl
        · simp [hword]
        · simp
      rw [List.cons_append, tokens]
      simp only [hc, if_true, if_neg hkept]
      rw [tokens_blanks hblanks]

end Py.Shlex
