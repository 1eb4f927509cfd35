import Mathlib.Data.List.Basic
import Mathlib.Order.Basic

namespace RemoteDevbox

/-!
# The worst of several outcomes

A summary keeps one status, the worst by a ranking, and one reason. It is right
when it bounds every outcome, is one of them, and says why.
-/

section

variable {σ ρ α β κ : Type} {rank : σ → κ} {best : σ}

/-- What one outcome says: a status, and a reason where it is not the best. -/
abbrev Outcome (σ ρ : Type) := σ × Option ρ

/-- `status` and `reason` sum up the outcomes. -/
structure Sums [LE κ] (rank : σ → κ) (best : σ) (outcomes : List (Outcome σ ρ)) (status : σ)
    (reason : Option ρ) : Prop where
  bound : ∀ o ∈ outcomes, rank o.1 ≤ rank status
  attained : status = best ∨ ∃ o ∈ outcomes, o.1 = status
  explained : reason.isSome = true ↔ status ≠ best
  justified : ∀ r, reason = some r → ∃ o ∈ outcomes, o.1 = status ∧ o.2 = some r

variable {outcomes : List (Outcome σ ρ)} {status : σ} {reason : Option ρ}

theorem Sums.nil [LE κ] : Sums rank best ([] : List (Outcome σ ρ)) best none where
  bound := by simp
  attained := .inl rfl
  explained := by simp
  justified := by simp

/-- An outcome that is no worse changes nothing. -/
theorem Sums.keep [LE κ] (h : Sums rank best outcomes status reason) {o : Outcome σ ρ}
    (ho : rank o.1 ≤ rank status) : Sums rank best (outcomes ++ [o]) status reason where
  bound := by
    intro o' ho'
    rcases List.mem_append.mp ho' with hold | hnew
    · exact h.bound o' hold
    · obtain rfl := List.mem_singleton.mp hnew
      exact ho
  attained := by
    refine h.attained.imp id ?_
    rintro ⟨o', ho', heq⟩
    exact ⟨o', List.mem_append_left _ ho', heq⟩
  explained := h.explained
  justified := by
    intro r hr
    obtain ⟨o', ho', heq⟩ := h.justified r hr
    exact ⟨o', List.mem_append_left _ ho', heq⟩

/-- An outcome that is at least as bad takes over, with its own reason. -/
theorem Sums.take [Preorder κ] (h : Sums rank best outcomes status reason) {next : σ} {r : ρ}
    (hnext : rank status ≤ rank next) (hbad : next ≠ best) :
    Sums rank best (outcomes ++ [(next, some r)]) next (some r) where
  bound := by
    intro o' ho'
    rcases List.mem_append.mp ho' with hold | hnew
    · exact (h.bound o' hold).trans hnext
    · obtain rfl := List.mem_singleton.mp hnew
      exact le_rfl
  attained := .inr ⟨_, List.mem_append_right _ (List.mem_singleton_self _), rfl⟩
  explained := by simpa using hbad
  justified := by
    intro r' hr'
    exact ⟨_, List.mem_append_right _ (List.mem_singleton_self _), rfl, hr'⟩

/-- A summary that every step carries on sums up the whole list. -/
theorem Sums.foldl [LE κ] (statusOf : β → σ) (reasonOf : β → Option ρ) {step : β → α → β}
    {outcome : α → Outcome σ ρ}
    (hstep : ∀ b a outcomes, Sums rank best outcomes (statusOf b) (reasonOf b) →
      Sums rank best (outcomes ++ [outcome a]) (statusOf (step b a)) (reasonOf (step b a)))
    (as : List α) {b : β} (h : Sums rank best outcomes (statusOf b) (reasonOf b)) :
    Sums rank best (outcomes ++ as.map outcome) (statusOf (as.foldl step b))
      (reasonOf (as.foldl step b)) := by
  induction as generalizing b outcomes with
  | nil => simpa using h
  | cons a as ih =>
      have hrest := ih (hstep b a outcomes h)
      rwa [List.append_assoc] at hrest

end

end RemoteDevbox
