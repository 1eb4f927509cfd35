import Mathlib.Tactic.Common

namespace RemoteDevbox

/-!
# Programs that question their surroundings

A program asks, and goes on with whatever it is answered; it may throw. `Runs`
says which exchanges a program can have and how it then ends, for any
surroundings. `Within` bounds what it may ask in the light of the exchanges
so far and says what holds at its end; one rule for each way to build a program
reads it backwards.
-/

inductive Dialogue (ε : Type) {Q : Type} (A : Q → Type) (α : Type) where
  | done (a : α)
  | fail (e : ε)
  | ask (q : Q) (next : A q → Dialogue ε A α)

/-- A question together with its answer. -/
abbrev Exchange {Q : Type} (A : Q → Type) := (q : Q) × A q

namespace Dialogue

variable {ε Q α β : Type} {A : Q → Type}

/-- Asks one question and gives its answer. -/
def query (q : Q) : Dialogue ε A (A q) := .ask q .done

def bind (p : Dialogue ε A α) (f : α → Dialogue ε A β) : Dialogue ε A β :=
  match p with
  | .done a => f a
  | .fail e => .fail e
  | .ask q next => .ask q fun a ↦ (next a).bind f

def tryCatch (p : Dialogue ε A α) (handle : ε → Dialogue ε A α) : Dialogue ε A α :=
  match p with
  | .done a => .done a
  | .fail e => handle e
  | .ask q next => .ask q fun a ↦ (next a).tryCatch handle

instance : Monad (Dialogue ε A) where
  pure := .done
  bind := .bind

instance : MonadExcept ε (Dialogue ε A) where
  throw := .fail
  tryCatch := .tryCatch

/-! ## Runs -/

inductive Runs : Dialogue ε A α → List (Exchange A) → Except ε α → Prop
  | done (a : α) : Runs (.done a) [] (.ok a)
  | fail (e : ε) : Runs (.fail e) [] (.error e)
  | ask {q : Q} {next : A q → Dialogue ε A α} {t : List (Exchange A)} {r : Except ε α} (a : A q) :
      Runs (next a) t r → Runs (.ask q next) (⟨q, a⟩ :: t) r

/-- The run in which `answer` speaks for the surroundings, knowing the exchanges
so far. -/
def play (answer : List (Exchange A) → (q : Q) → A q) :
    List (Exchange A) → Dialogue ε A α → List (Exchange A) × Except ε α
  | _, .done a => ([], .ok a)
  | _, .fail e => ([], .error e)
  | h, .ask q next =>
      let a := answer h q
      let rest := play answer (h ++ [⟨q, a⟩]) (next a)
      (⟨q, a⟩ :: rest.1, rest.2)

theorem runs_play (answer : List (Exchange A) → (q : Q) → A q) (h : List (Exchange A))
    (p : Dialogue ε A α) : p.Runs (play answer h p).1 (play answer h p).2 := by
  induction p generalizing h with
  | done a => exact .done a
  | fail e => exact .fail e
  | ask q next ih => exact .ask _ (ih _ _)

theorem Runs.bind {p : Dialogue ε A α} {f : α → Dialogue ε A β} {t u : List (Exchange A)} {a : α}
    {r : Except ε β} (hp : p.Runs t (.ok a)) (hf : (f a).Runs u r) : (p >>= f).Runs (t ++ u) r := by
  change (p.bind f).Runs (t ++ u) r
  induction p generalizing t with
  | done b =>
      cases hp
      exact hf
  | fail e => cases hp
  | ask q next ih =>
      cases hp with
      | ask answer hnext => exact .ask answer (ih answer hnext)

/-- A run of a program that goes on with `f` has two parts. -/
theorem Runs.of_bind {p : Dialogue ε A α} {f : α → Dialogue ε A β} {t : List (Exchange A)} {b : β}
    (hrun : (p >>= f).Runs t (.ok b)) :
    ∃ first a rest, t = first ++ rest ∧ p.Runs first (.ok a) ∧ (f a).Runs rest (.ok b) := by
  change (p.bind f).Runs t (.ok b) at hrun
  induction p generalizing t with
  | done a => exact ⟨[], a, t, rfl, .done a, hrun⟩
  | fail e => cases hrun
  | ask q next ih =>
      cases hrun with
      | @ask _ _ t _ answer hnext =>
          obtain ⟨first, a, rest, rfl, hfirst, hrest⟩ := ih answer hnext
          exact ⟨⟨q, answer⟩ :: first, a, rest, rfl, .ask answer hfirst, hrest⟩

/-! ## What a run keeps to -/

variable {allowed : List (Exchange A) → Q → Prop} {Post : Except ε α → List (Exchange A) → Prop}
  {h : List (Exchange A)}

/-- After the exchanges `h`, the program asks only what is allowed, and `Post`
holds of its result and of all exchanges. -/
def Within (allowed : List (Exchange A) → Q → Prop)
    (Post : Except ε α → List (Exchange A) → Prop) : List (Exchange A) → Dialogue ε A α → Prop
  | h, .done a => Post (.ok a) h
  | h, .fail e => Post (.error e) h
  | h, .ask q next => allowed h q ∧ ∀ a, (next a).Within allowed Post (h ++ [⟨q, a⟩])

theorem Runs.within {p : Dialogue ε A α} {t : List (Exchange A)} {r : Except ε α}
    (hrun : p.Runs t r) (hp : p.Within allowed Post h) :
    (∀ before q a after, t = before ++ ⟨q, a⟩ :: after → allowed (h ++ before) q) ∧
      Post r (h ++ t) := by
  induction hrun generalizing h with
  | done a | fail e =>
      refine ⟨fun before q a after ht ↦ ?_, by rwa [List.append_nil]⟩
      simp at ht
  | @ask q next t r a _ ih =>
      obtain ⟨hq, hnext⟩ := hp
      obtain ⟨hrest, hpost⟩ := ih (hnext a)
      refine ⟨fun before q' a' after ht ↦ ?_, by simpa using hpost⟩
      cases before with
      | nil =>
          obtain ⟨hhead, -⟩ := List.cons.inj ht
          cases hhead
          rwa [List.append_nil]
      | cons e before =>
          obtain ⟨rfl, htail⟩ := List.cons.inj ht
          have hsplit := hrest before q' a' after htail
          rwa [List.append_assoc] at hsplit

theorem Within.imp {Post' : Except ε α → List (Exchange A) → Prop} {p : Dialogue ε A α}
    (hp : p.Within allowed Post h) (himp : ∀ r t, Post r t → Post' r t) :
    p.Within allowed Post' h := by
  induction p generalizing h with
  | done a => exact himp _ _ hp
  | fail e => exact himp _ _ hp
  | ask q next ih => exact ⟨hp.1, fun a ↦ ih a (hp.2 a)⟩

@[simp] theorem within_pure {a : α} :
    Within allowed Post h (pure a : Dialogue ε A α) ↔ Post (.ok a) h := Iff.rfl

@[simp] theorem within_throw {e : ε} :
    Within allowed Post h (throw e : Dialogue ε A α) ↔ Post (.error e) h := Iff.rfl

@[simp] theorem within_query {q : Q} {Post : Except ε (A q) → List (Exchange A) → Prop} :
    Within allowed Post h (query q) ↔ allowed h q ∧ ∀ a, Post (.ok a) (h ++ [⟨q, a⟩]) := Iff.rfl

/-- What has to hold where a program goes on with `f`, or throws. -/
def Onward (allowed : List (Exchange A) → Q → Prop)
    (Post : Except ε β → List (Exchange A) → Prop) (f : α → Dialogue ε A β) :
    Except ε α → List (Exchange A) → Prop
  | .ok a, h => (f a).Within allowed Post h
  | .error e, h => Post (.error e) h

@[simp] theorem onward_ok {a : α} {f : α → Dialogue ε A β}
    {Post : Except ε β → List (Exchange A) → Prop} :
    Onward allowed Post f (.ok a) h ↔ (f a).Within allowed Post h := Iff.rfl

@[simp] theorem onward_error {e : ε} {f : α → Dialogue ε A β}
    {Post : Except ε β → List (Exchange A) → Prop} :
    Onward allowed Post f (.error e) h ↔ Post (.error e) h := Iff.rfl

theorem within_bind {p : Dialogue ε A α} {f : α → Dialogue ε A β}
    {Post : Except ε β → List (Exchange A) → Prop} :
    Within allowed Post h (p >>= f) ↔ Within allowed (Onward allowed Post f) h p := by
  change Within allowed Post h (p.bind f) ↔ _
  induction p generalizing h with
  | done a => exact Iff.rfl
  | fail e => exact Iff.rfl
  | ask q next ih => exact and_congr Iff.rfl (forall_congr' fun a ↦ ih a)

end Dialogue

end RemoteDevbox
