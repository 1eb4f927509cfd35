import Mathlib.Logic.Function.Basic

namespace RemoteDevbox

/-!
# One live value and parked values

A value is live, and under each label one more value may be parked. Where the
values belong to accounts and the labels too, each parked value should belong to
its label's account.
-/

structure Slots (L V : Type) where
  live : Option V
  parked : L → Option V

namespace Slots

variable {L V A : Type} [DecidableEq L]

def park (s : Slots L V) (l : L) (v : V) : Slots L V :=
  { s with parked := Function.update s.parked l (some v) }

def forget (s : Slots L V) (l : L) : Slots L V :=
  { s with parked := Function.update s.parked l none }

def setLive (s : Slots L V) (v : Option V) : Slots L V := { s with live := v }

variable {s : Slots L V} {l : L} {v : V}

@[simp] theorem park_live : (s.park l v).live = s.live := rfl

@[simp] theorem park_self : (s.park l v).parked l = some v := Function.update_self ..

theorem park_ne {l' : L} (h : l' ≠ l) : (s.park l v).parked l' = s.parked l' :=
  Function.update_of_ne h ..

@[simp] theorem forget_live : (s.forget l).live = s.live := rfl

@[simp] theorem forget_self : (s.forget l).parked l = none := Function.update_self ..

theorem forget_ne {l' : L} (h : l' ≠ l) : (s.forget l).parked l' = s.parked l' :=
  Function.update_of_ne h ..

omit [DecidableEq L] in
@[simp] theorem setLive_live {v : Option V} : (s.setLive v).live = v := rfl

omit [DecidableEq L] in
@[simp] theorem setLive_parked {v : Option V} : (s.setLive v).parked = s.parked := rfl

/-- Every value parked under a label with an owner belongs to the owner. -/
def Owned (account : V → A) (owner : L → Option A) (s : Slots L V) : Prop :=
  ∀ l a v, owner l = some a → s.parked l = some v → account v = a

variable {account : V → A} {owner : L → Option A}

theorem Owned.park (h : s.Owned account owner) (hv : ∀ a, owner l = some a → account v = a) :
    (s.park l v).Owned account owner := by
  intro l' a v' hl' hv'
  by_cases heq : l' = l
  · subst heq
    rw [park_self] at hv'
    obtain rfl := Option.some.inj hv'
    exact hv a hl'
  · rw [park_ne heq] at hv'
    exact h l' a v' hl' hv'

theorem Owned.forget (h : s.Owned account owner) : (s.forget l).Owned account owner := by
  intro l' a v hl' hv
  by_cases heq : l' = l
  · subst heq
    rw [forget_self] at hv
    cases hv
  · rw [forget_ne heq] at hv
    exact h l' a v hl' hv

/-- A label gets an owner to whom the value under it belongs. -/
theorem Owned.adopt (h : s.Owned account owner) {a : A}
    (hv : ∀ v, s.parked l = some v → account v = a) :
    s.Owned account (Function.update owner l (some a)) := by
  intro l' a' v hl' hv'
  by_cases heq : l' = l
  · subst heq
    rw [Function.update_self] at hl'
    obtain rfl := Option.some.inj hl'
    exact hv v hv'
  · rw [Function.update_of_ne heq] at hl'
    exact h l' a' v hl' hv'

/-- A label loses its owner. -/
theorem Owned.disown (h : s.Owned account owner) :
    s.Owned account (Function.update owner l none) := by
  intro l' a v hl' hv
  by_cases heq : l' = l
  · subst heq
    rw [Function.update_self] at hl'
    cases hl'
  · rw [Function.update_of_ne heq] at hl'
    exact h l' a v hl' hv

end Slots

end RemoteDevbox
