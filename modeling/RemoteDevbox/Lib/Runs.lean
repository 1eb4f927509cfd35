import Mathlib.Logic.Relation

namespace RemoteDevbox

/-!
# Runs of a system whose steps meet a condition

A system starts in one of its start states and takes labelled steps. What every
step that meets the condition preserves holds in every state of such a run.
-/

structure System (σ ε : Type) where
  start : σ → Prop
  next : σ → ε → σ → Prop

namespace System

variable {σ ε : Type} {sys : System σ ε} {meets : σ → ε → Prop}

/-- One step that meets the condition. -/
def Step (sys : System σ ε) (meets : σ → ε → Prop) (s s' : σ) : Prop :=
  ∃ e, meets s e ∧ sys.next s e s'

/-- Some number of steps, all of which meet the condition. -/
def Path (sys : System σ ε) (meets : σ → ε → Prop) : σ → σ → Prop :=
  Relation.ReflTransGen (sys.Step meets)

/-- The states of the runs whose steps all meet the condition. -/
def Reaches (sys : System σ ε) (meets : σ → ε → Prop) (s : σ) : Prop :=
  ∃ s₀, sys.start s₀ ∧ sys.Path meets s₀ s

theorem Path.preserves {I : σ → Prop} {s s' : σ} (h : sys.Path meets s s')
    (hstep : ∀ s e s', I s → meets s e → sys.next s e s' → I s') (hs : I s) : I s' := by
  induction h with
  | refl => exact hs
  | tail _ hlast ih =>
      obtain ⟨e, hmeets, hnext⟩ := hlast
      exact hstep _ e _ ih hmeets hnext

theorem Reaches.invariant {I : σ → Prop} {s : σ} (h : sys.Reaches meets s)
    (hstart : ∀ s, sys.start s → I s)
    (hstep : ∀ s e s', I s → meets s e → sys.next s e s' → I s') : I s := by
  obtain ⟨s₀, hs₀, hpath⟩ := h
  exact hpath.preserves hstep (hstart s₀ hs₀)

theorem Reaches.of_start {s : σ} (h : sys.start s) : sys.Reaches meets s :=
  ⟨s, h, .refl⟩

theorem Path.snoc {s s' s'' : σ} {e : ε} (h : sys.Path meets s s') (hmeets : meets s' e)
    (hnext : sys.next s' e s'') : sys.Path meets s s'' :=
  h.tail ⟨e, hmeets, hnext⟩

/-- A weaker condition on the steps. -/
theorem Path.weaken {meets' : σ → ε → Prop} {s s' : σ} (h : sys.Path meets s s')
    (himp : ∀ s e, meets s e → meets' s e) : sys.Path meets' s s' := by
  induction h with
  | refl => exact .refl
  | tail _ hlast ih =>
      obtain ⟨e, hmeets, hnext⟩ := hlast
      exact ih.snoc (himp _ e hmeets) hnext

theorem Reaches.snoc {s s' : σ} {e : ε} (h : sys.Reaches meets s) (hmeets : meets s e)
    (hnext : sys.next s e s') : sys.Reaches meets s' := by
  obtain ⟨s₀, hs₀, hpath⟩ := h
  exact ⟨s₀, hs₀, hpath.snoc hmeets hnext⟩

end System

end RemoteDevbox
