import RemoteDevbox.Lib.Js.Value

namespace RemoteDevbox.Spec

open Js

/-!
# Issues and checks

A check returns the issues it found, or throws when an evaluation inside it
does. `Passes` is acceptance: the check ran and reported no error.
-/

inductive Severity where
  | error
  | warning
  deriving DecidableEq

structure Issue where
  severity : Severity
  path : String
  message : String
  deriving DecidableEq

def err (path message : String) : Issue := ⟨.error, path, message⟩

def warn (path message : String) : Issue := ⟨.warning, path, message⟩

def hasErrors (issues : List Issue) : Bool := issues.any fun i ↦ i.severity == .error

@[simp] theorem hasErrors_nil : hasErrors [] = false := rfl

@[simp] theorem hasErrors_append (a b : List Issue) :
    hasErrors (a ++ b) = (hasErrors a || hasErrors b) := by
  simp [hasErrors]

@[simp] theorem hasErrors_err (path message : String) :
    hasErrors [err path message] = true := rfl

@[simp] theorem hasErrors_warn (path message : String) :
    hasErrors [warn path message] = false := rfl

def Check := Js (List Issue)

namespace Check

def report (issues : List Issue) : Check := Except.ok issues

def pass : Check := report []

def fail (path message : String) : Check := Except.ok [err path message]

def alert (path message : String) : Check := Except.ok [warn path message]

/-- An error whose text is the result of an evaluation. -/
def failWith (path : String) (message : Js String) : Check :=
  Except.map (fun m ↦ [err path m]) message

/-- One check after another. -/
def append : Check → Check → Check
  | Except.ok a, Except.ok b => Except.ok (a ++ b)
  | Except.ok _, Except.error e => Except.error e
  | Except.error e, _ => Except.error e

instance : Append Check := ⟨append⟩

def when (c : Bool) (k : Check) : Check := if c then k else pass

/-- Evaluate first, then check the result. -/
def eval {α : Type} (x : Js α) (k : α → Check) : Check :=
  match x with
  | .ok a => k a
  | .error e => Except.error e

def each {α : Type} (xs : List α) (f : α → Check) : Check :=
  xs.foldr (fun x rest ↦ f x ++ rest) pass

def eachIdx {α : Type} (xs : List α) (f : ℕ → α → Check) : Check :=
  each xs.zipIdx fun p ↦ f p.2 p.1

/-- The usual opening of a section: absent is fine, anything but a mapping
is an error. -/
def section? (v : Val) (path message : String) (k : Val → Check) : Check :=
  match v with
  | .undef => pass
  | .obj fs => k (.obj fs)
  | _ => fail path message

def Passes (c : Check) : Prop := ∃ issues, c = Except.ok issues ∧ hasErrors issues = false

@[simp] theorem passes_report {issues : List Issue} :
    Passes (report issues) ↔ hasErrors issues = false := by
  constructor
  · rintro ⟨found, h, hno⟩
    obtain rfl := Except.ok.inj h
    exact hno
  · exact fun hno ↦ ⟨issues, rfl, hno⟩

@[simp] theorem passes_pass : Passes pass := ⟨[], rfl, rfl⟩

@[simp] theorem not_passes_fail (path message : String) : ¬ Passes (fail path message) := by
  rintro ⟨issues, h, hno⟩
  obtain rfl : [err path message] = issues := Except.ok.inj h
  simp at hno

@[simp] theorem passes_alert (path message : String) : Passes (alert path message) :=
  ⟨_, rfl, rfl⟩

@[simp] theorem not_passes_failWith (path : String) (message : Js String) :
    ¬ Passes (failWith path message) := by
  rintro ⟨issues, h, hno⟩
  cases message with
  | error e => cases h
  | ok m =>
      obtain rfl : [err path m] = issues := Except.ok.inj h
      simp at hno

@[simp] theorem passes_append {a b : Check} : Passes (a ++ b) ↔ Passes a ∧ Passes b := by
  constructor
  · rintro ⟨issues, h, hno⟩
    change append a b = _ at h
    cases a with
    | error e => cases b <;> simp [append] at h
    | ok x =>
        cases b with
        | error e => simp [append] at h
        | ok y =>
            obtain rfl : x ++ y = issues := Except.ok.inj h
            simp only [hasErrors_append, Bool.or_eq_false_iff] at hno
            exact ⟨⟨x, rfl, hno.1⟩, ⟨y, rfl, hno.2⟩⟩
  · rintro ⟨⟨x, rfl, hx⟩, ⟨y, rfl, hy⟩⟩
    exact ⟨x ++ y, rfl, by simp [hx, hy]⟩

@[simp] theorem passes_when {c : Bool} {k : Check} :
    Passes (when c k) ↔ (c = true → Passes k) := by
  cases c <;> simp [when]

@[simp] theorem passes_eval {α : Type} {x : Js α} {k : α → Check} :
    Passes (eval x k) ↔ ∃ a, x = .ok a ∧ Passes (k a) := by
  cases x with
  | ok a => simp [eval]
  | error e =>
      simp only [eval, reduceCtorEq, false_and, exists_false, iff_false]
      rintro ⟨issues, h, _⟩
      cases h

@[simp] theorem passes_each {α : Type} {xs : List α} {f : α → Check} :
    Passes (each xs f) ↔ ∀ x ∈ xs, Passes (f x) := by
  induction xs with
  | nil => simp [each]
  | cons x xs ih =>
      change Passes (f x ++ each xs f) ↔ _
      rw [passes_append, ih]
      simp

theorem passes_eachIdx {α : Type} {xs : List α} {f : ℕ → α → Check} :
    Passes (eachIdx xs f) ↔ ∀ i x, xs[i]? = some x → Passes (f i x) := by
  simp only [eachIdx, passes_each, Prod.forall, List.mem_zipIdx_iff_getElem?]
  exact ⟨fun h i x ↦ h x i, fun h x i ↦ h i x⟩

@[simp] theorem passes_section? {v : Val} {path message : String} {k : Val → Check} :
    Passes (section? v path message k) ↔
      v = .undef ∨ ∃ fs, v = .obj fs ∧ Passes (k (.obj fs)) := by
  cases v <;> simp [section?]

/-- The fields of an absent section are absent. -/
theorem section_cases {v : Val} {path message : String} {k : Val → Check}
    (h : Passes (section? v path message k)) :
    (∀ field, v.get field = .undef) ∨ Passes (k v) := by
  rcases passes_section?.mp h with rfl | ⟨fs, rfl, hk⟩
  · exact .inl fun _ ↦ rfl
  · exact .inr hk

end Check

end RemoteDevbox.Spec
