import Mathlib.Tactic.Common

namespace RemoteDevbox

/-!
# Stateful computations that can throw

A computation keeps the state it has reached when it throws. `Leaves x s Q E`
says what `x` leaves when it starts in `s`: `Q` when it ends well, `E` when it
throws. One rule for each way to build a computation reads it backwards.
-/

section

variable {ε σ α β : Type} {s : σ} {Q : α → σ → Prop} {E : ε → σ → Prop}

def Leaves (x : EStateM ε σ α) (s : σ) (Q : α → σ → Prop) (E : ε → σ → Prop) : Prop :=
  match x s with
  | .ok a t => Q a t
  | .error e t => E e t

theorem Leaves.of_ok {x : EStateM ε σ α} {a : α} {t : σ} (h : Leaves x s Q E)
    (hx : x s = .ok a t) : Q a t := by
  rwa [Leaves, hx] at h

theorem Leaves.of_error {x : EStateM ε σ α} {e : ε} {t : σ} (h : Leaves x s Q E)
    (hx : x s = .error e t) : E e t := by
  rwa [Leaves, hx] at h

/-- The state a computation ends in, whether it threw or not. -/
def after (x : EStateM ε σ α) (s : σ) : σ :=
  match x s with
  | .ok _ t => t
  | .error _ t => t

theorem Leaves.after {P : σ → Prop} {x : EStateM ε σ α}
    (h : Leaves x s (fun _ ↦ P) fun _ ↦ P) : P (after x s) := by
  unfold RemoteDevbox.after
  cases hx : x s with
  | ok a t => exact h.of_ok hx
  | error e t => exact h.of_error hx

theorem Leaves.imp {Q' : α → σ → Prop} {E' : ε → σ → Prop} {x : EStateM ε σ α}
    (h : Leaves x s Q E) (hQ : ∀ a t, Q a t → Q' a t) (hE : ∀ e t, E e t → E' e t) :
    Leaves x s Q' E' := by
  unfold Leaves at h ⊢
  cases hx : x s with
  | ok a t =>
      rw [hx] at h
      exact hQ a t h
  | error e t =>
      rw [hx] at h
      exact hE e t h

@[simp] theorem leaves_pure {a : α} : Leaves (pure a) s Q E ↔ Q a s := Iff.rfl

@[simp] theorem leaves_throw {e : ε} : Leaves (throw e) s Q E ↔ E e s := Iff.rfl

@[simp] theorem leaves_get {Q : σ → σ → Prop} : Leaves (get : EStateM ε σ σ) s Q E ↔ Q s s := Iff.rfl

@[simp] theorem leaves_modify {f : σ → σ} {Q : Unit → σ → Prop} :
    Leaves (modify f) s Q E ↔ Q () (f s) := Iff.rfl

@[simp] theorem leaves_bind {x : EStateM ε σ β} {f : β → EStateM ε σ α} :
    Leaves (x >>= f) s Q E ↔ Leaves x s (fun b t ↦ Leaves (f b) t Q E) E := by
  change Leaves (EStateM.bind x f) s Q E ↔ _
  rw [Leaves, EStateM.bind, Leaves]
  cases x s <;> exact Iff.rfl

@[simp] theorem leaves_map {x : EStateM ε σ β} {f : β → α} :
    Leaves (f <$> x) s Q E ↔ Leaves x s (fun b ↦ Q (f b)) E := by
  change Leaves (EStateM.map f x) s Q E ↔ _
  rw [Leaves, EStateM.map, Leaves]
  cases x s <;> exact Iff.rfl

@[simp] theorem leaves_discard {x : EStateM ε σ β} {Q : Unit → σ → Prop} :
    Leaves (discard x) s Q E ↔ Leaves x s (fun _ ↦ Q ()) E := leaves_map

theorem leaves_tryCatch {x : EStateM ε σ α} {handle : ε → EStateM ε σ α} :
    Leaves (tryCatch x handle) s Q E ↔ Leaves x s Q (fun e t ↦ Leaves (handle e) t Q E) := by
  change Leaves (EStateM.tryCatch x handle) s Q E ↔ _
  rw [Leaves, EStateM.tryCatch, Leaves]
  cases x s <;> exact Iff.rfl

@[simp] theorem leaves_ite {c : Prop} [Decidable c] {x y : EStateM ε σ α} :
    Leaves (if c then x else y) s Q E ↔ (c → Leaves x s Q E) ∧ (¬c → Leaves y s Q E) := by
  split <;> simp [*]

end

end RemoteDevbox
