import Mathlib.Data.List.Induction

namespace RemoteDevbox

/-!
# Sightings that are carried from pass to pass

Each pass sees some keys, acts on some of them, and writes down since when it has
seen the others, if it can write at all. What is written down afterwards tells since
when a key has been seen without a break.
-/

/-- One pass: its moment, the keys in sight, those it acted on, and whether what it
wrote down was kept. -/
structure Sighting (κ τ : Type*) where
  now : τ
  seen : List κ
  hit : List κ
  saved : Bool

namespace Sighting

variable {κ τ : Type*} [DecidableEq κ]

/-- The key is in sight and left alone. -/
def Keeps (p : Sighting κ τ) (k : κ) : Prop := k ∈ p.seen ∧ k ∉ p.hit

instance (p : Sighting κ τ) (k : κ) : Decidable (p.Keeps k) :=
  inferInstanceAs (Decidable (_ ∧ _))

/-- What is written down after a pass. -/
def after (p : Sighting κ τ) (memory : κ → Option τ) : κ → Option τ :=
  if p.saved then fun k ↦ if p.Keeps k then some ((memory k).getD p.now) else none else memory

/-- What is written down after some passes, the first of which found nothing. -/
def memory (passes : List (Sighting κ τ)) : κ → Option τ :=
  passes.foldl (fun memory p ↦ p.after memory) fun _ ↦ none

/-- Every pass that was kept sees the key. -/
def Unbroken (passes : List (Sighting κ τ)) (k : κ) : Prop :=
  ∀ p ∈ passes, p.saved = true → p.Keeps k

/-- The key has been in sight, without a break, since a pass at this moment, and was
not in sight before. -/
def Since (passes : List (Sighting κ τ)) (k : κ) (t : τ) : Prop :=
  ∃ earlier first later, passes = earlier ++ first :: later ∧ first.saved = true ∧
    first.now = t ∧ Unbroken (first :: later) k ∧
    ∀ before last others, earlier = before ++ last :: others → last.saved = true →
      (∀ p ∈ others, p.saved = false) → ¬last.Keeps k

variable {passes : List (Sighting κ τ)} {p : Sighting κ τ} {k : κ} {t : τ}

@[simp] theorem memory_nil : memory ([] : List (Sighting κ τ)) k = none := rfl

theorem memory_snoc : memory (passes ++ [p]) = p.after (memory passes) := by
  simp [memory]

theorem after_unsaved (h : p.saved = false) (memory : κ → Option τ) : p.after memory = memory := by
  simp [after, h]

theorem after_saved (h : p.saved = true) (memory : κ → Option τ) :
    p.after memory k = if p.Keeps k then some ((memory k).getD p.now) else none := by
  simp [after, h]

/-- Nothing is written down of a key exactly when the last pass that was kept did not
see it. -/
theorem memory_eq_none :
    memory passes k = none ↔ ∀ before last others, passes = before ++ last :: others →
      last.saved = true → (∀ p ∈ others, p.saved = false) → ¬last.Keeps k := by
  induction passes using List.reverseRecOn with
  | nil => simp
  | append_singleton passes p ih =>
      rw [memory_snoc]
      cases hsaved : p.saved with
      | false =>
          rw [after_unsaved hsaved, ih]
          constructor
          · intro h before last others heq hlast hothers
            obtain ⟨rfl, hp⟩ | ⟨others, rfl, rfl⟩ : (passes = before ∧ [p] = last :: others) ∨
                ∃ rest, others = rest ++ [p] ∧ passes = before ++ last :: rest := by
              cases others using List.reverseRecOn with
              | nil => exact .inl (List.append_inj' heq rfl)
              | append_singleton rest q =>
                  rw [← List.cons_append, ← List.append_assoc] at heq
                  obtain ⟨hpasses, hq⟩ := List.append_inj' heq rfl
                  obtain rfl := (List.cons.inj hq).1
                  exact .inr ⟨rest, rfl, hpasses⟩
            · obtain rfl := (List.cons.inj hp).1
              rw [hsaved] at hlast
              cases hlast
            · exact h before last others rfl hlast fun q hq ↦ hothers q (by simp [hq])
          · intro h before last others heq hlast hothers
            refine h before last (others ++ [p]) (by simp [heq]) hlast fun q hq ↦ ?_
            rcases List.mem_append.mp hq with hq | hq
            · exact hothers q hq
            · rwa [List.mem_singleton.mp hq]
      | true =>
          rw [after_saved hsaved]
          constructor
          · intro h before last others heq hlast hothers hkeeps
            cases others using List.reverseRecOn with
            | nil =>
                obtain rfl := (List.cons.inj (List.append_inj' heq rfl).2).1
                rw [if_pos hkeeps] at h
                cases h
            | append_singleton rest q =>
                rw [← List.cons_append, ← List.append_assoc] at heq
                obtain rfl := (List.cons.inj (List.append_inj' heq rfl).2).1
                have hunsaved := hothers p (by simp)
                rw [hsaved] at hunsaved
                cases hunsaved
          · intro h
            exact if_neg (h passes p [] rfl hsaved (by simp))

/-- What is written down of a key tells since when it has been in sight. -/
theorem memory_eq_some : memory passes k = some t ↔ Since passes k t := by
  induction passes using List.reverseRecOn generalizing t with
  | nil =>
      constructor
      · simp
      · rintro ⟨earlier, first, later, heq, _⟩
        simp at heq
  | append_singleton passes p ih =>
      rw [memory_snoc]
      constructor
      · intro h
        cases hsaved : p.saved with
        | false =>
            rw [after_unsaved hsaved] at h
            obtain ⟨earlier, first, later, rfl, hfirst, hnow, hunbroken, hbefore⟩ := ih.mp h
            refine ⟨earlier, first, later ++ [p], by simp, hfirst, hnow, fun q hq hkept ↦ ?_,
              hbefore⟩
            rw [← List.cons_append] at hq
            rcases List.mem_append.mp hq with hq | hq
            · exact hunbroken q hq hkept
            · rw [List.mem_singleton.mp hq, hsaved] at hkept
              cases hkept
        | true =>
            rw [after_saved hsaved] at h
            split at h
            · rename_i hkeeps
              cases hmemory : memory passes k with
              | none =>
                  rw [hmemory] at h
                  refine ⟨passes, p, [], rfl, hsaved, Option.some.inj h, fun q hq _ ↦ ?_,
                    memory_eq_none.mp hmemory⟩
                  rwa [List.mem_singleton.mp hq]
              | some t' =>
                  rw [hmemory] at h
                  obtain rfl : t' = t := Option.some.inj h
                  obtain ⟨earlier, first, later, rfl, hfirst, hnow, hunbroken, hbefore⟩ :=
                    ih.mp hmemory
                  refine ⟨earlier, first, later ++ [p], by simp, hfirst, hnow,
                    fun q hq hkept ↦ ?_, hbefore⟩
                  rw [← List.cons_append] at hq
                  rcases List.mem_append.mp hq with hq | hq
                  · exact hunbroken q hq hkept
                  · rwa [List.mem_singleton.mp hq]
            · cases h
      · rintro ⟨earlier, first, later, heq, hfirst, hnow, hunbroken, hbefore⟩
        cases later using List.reverseRecOn with
        | nil =>
            obtain ⟨rfl, hp⟩ := List.append_inj' heq rfl
            obtain rfl := (List.cons.inj hp).1
            rw [after_saved hfirst, if_pos (hunbroken p (by simp) hfirst),
              memory_eq_none.mpr hbefore]
            exact congrArg some hnow
        | append_singleton later q =>
            rw [← List.cons_append, ← List.append_assoc] at heq
            obtain ⟨rfl, hq⟩ := List.append_inj' heq rfl
            obtain rfl := (List.cons.inj hq).1
            have hmemory : memory (earlier ++ first :: later) k = some t :=
              ih.mpr ⟨earlier, first, later, rfl, hfirst, hnow,
                fun q hq ↦ hunbroken q (by
                  rw [← List.cons_append]
                  exact List.mem_append_left _ hq), hbefore⟩
            cases hsaved : p.saved with
            | false => rwa [after_unsaved hsaved]
            | true =>
                rw [after_saved hsaved, if_pos (hunbroken p (by simp) hsaved), hmemory]
                rfl

end Sighting

end RemoteDevbox
