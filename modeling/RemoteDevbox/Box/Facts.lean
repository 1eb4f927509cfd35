import RemoteDevbox.Spec.Types

namespace RemoteDevbox.Box

open Js

/-!
# Reading the health facts

The doctor reads the desired state of a box from one document. A single
component that is out of shape rejects the whole of it.
-/

inductive RecoveryPolicy where
  | automatic
  | manual
  | confirmationRequired
  | none
  deriving DecidableEq

inductive UnitScope where
  | system
  | user
  deriving DecidableEq

inductive ProcessMatch where
  | exact
  | leading
  deriving DecidableEq

inductive ListenerFact where
  | tcp (address : String) (port : Number) (process : String) (processMatch : Option ProcessMatch)
  | unix (path process : String) (processMatch : Option ProcessMatch)

structure HealthComponentFact where
  id : String
  profile : Option String
  unit : Option String
  unitScope : Option UnitScope
  listeners : Option (List ListenerFact)
  recovery : RecoveryPolicy

/-- The facts of a document with `schemaVersion` 1. -/
structure HealthFacts where
  components : List HealthComponentFact

section Patterns

open Regex

def idHead (c : Char) : Bool := isLower c || isDigit c

def idTail (c : Char) : Bool := isLower c || isDigit c || c == '.' || c == '_' || c == '-'

/-- `^[a-z0-9][a-z0-9._-]*$` -/
def COMPONENT_ID_RE : Regex := seq (cls idHead) (star (cls idTail))

/-- `^[a-z_][a-z0-9_-]{0,31}$` -/
def PROFILE_RE : Regex := seq (cls Spec.nameHead) (upTo 31 (cls Spec.nameTail))

def unitChar (c : Char) : Bool := isAlnum c || c == '_' || c == '.' || c == '@' || c == '-'

/-- `^[A-Za-z0-9_.@-]+[.]service$` -/
def UNIT_RE : Regex := seq (plus (cls unitChar)) (lit ".service".toList)

/-- `^[A-Za-z0-9_.@-]+$` -/
def PROCESS_RE : Regex := plus (cls unitChar)

/-- `^[A-Fa-f0-9:.]+$` -/
def ADDRESS_RE : Regex :=
  plus (cls fun c ↦ isDigit c || ('a' ≤ c && c ≤ 'f') || ('A' ≤ c && c ≤ 'F') || c == ':' || c == '.')

/-- `^[A-Za-z0-9_./@-]+$` -/
def SOCKET_RE : Regex := plus (cls fun c ↦ unitChar c || c == '/')

end Patterns

def fail {α : Type} (message : String) : Js α := .error (.error message)

def record (value : Val) (label : String) : Js Val :=
  if value.isRecord then .ok value else fail s!"{label} must be an object"

/-- A field that holds a string of the given form. -/
def parseText (re : Regex) (value : Val) (message : String) : Js String :=
  match value with
  | .str s => if Text.test re s then .ok s else fail message
  | _ => fail message

/-- A field that may be absent. -/
def ifStated {α : Type} (value : Val) (parse : Val → Js α) : Js (Option α) :=
  match value with
  | .undef => .ok none
  | v => do
      let a ← parse v
      return some a

def parseProcessMatch (value : Val) : Js ProcessMatch :=
  if value.isStrLit "exact" then .ok .exact
  else if value.isStrLit "prefix" then .ok .leading
  else fail "invalid listener process match"

def parsePort (value : Val) (message : String) : Js Number :=
  match value with
  | .num n => if Spec.isPort (.num n) then .ok n else fail message
  | _ => fail message

def parseListener (value : Val) : Js ListenerFact := do
  let raw ← record value "health listener"
  let process ← parseText PROCESS_RE (raw.get "process") "invalid listener process"
  let processMatch ← ifStated (raw.get "processMatch") parseProcessMatch
  if (raw.get "protocol").isStrLit "tcp" then do
    let address ← parseText ADDRESS_RE (raw.get "address") "invalid TCP listener"
    let port ← parsePort (raw.get "port") "invalid TCP listener"
    return .tcp address port process processMatch
  else if (raw.get "protocol").isStrLit "unix" then do
    let path ← parseText SOCKET_RE (raw.get "path") "invalid Unix listener"
    return .unix path process processMatch
  else fail "invalid listener protocol"

def parseRecovery (id : String) (value : Val) : Js RecoveryPolicy :=
  if value.isStrLit "automatic" then .ok .automatic
  else if value.isStrLit "manual" then .ok .manual
  else if value.isStrLit "confirmation-required" then .ok .confirmationRequired
  else if value.isStrLit "none" then .ok .none
  else fail s!"invalid recovery policy for '{id}'"

def parseScope (id : String) (value : Val) : Js UnitScope :=
  if value.isStrLit "system" then .ok .system
  else if value.isStrLit "user" then .ok .user
  else fail s!"invalid unit scope for '{id}'"

def parseListeners (id : String) (value : Val) : Js (List ListenerFact) :=
  match value with
  | .arr xs => xs.mapM parseListener
  | _ => fail s!"listeners for '{id}' must be a list"

/-- Everything of a component but its id. -/
def parseBody (id : String) (component : Val) : Js HealthComponentFact := do
  let profile ← ifStated (component.get "profile") fun v ↦
    parseText PROFILE_RE v s!"invalid profile for '{id}'"
  let recovery ← parseRecovery id (component.get "recovery")
  let unit ← ifStated (component.get "unit") fun v ↦
    parseText UNIT_RE v s!"invalid unit for '{id}'"
  let scope ← ifStated (component.get "unitScope") (parseScope id)
  if scope == some .user && profile.isNone then fail s!"user unit '{id}' requires a profile"
  else do
    let listeners ← ifStated (component.get "listeners") (parseListeners id)
    return ⟨id, profile, unit, scope, listeners, recovery⟩

def parseComponent (seen : List String) (index : ℕ) (value : Val) : Js HealthComponentFact := do
  let component ← record value s!"health component {index}"
  let id ← parseText COMPONENT_ID_RE (component.get "id") s!"invalid component id at index {index}"
  if seen.contains id then fail s!"duplicate component id '{id}'"
  else parseBody id component

/-- The components from position `index` on, given the ids already seen. -/
def parseComponents (seen : List String) (index : ℕ) : List Val → Js (List HealthComponentFact)
  | [] => .ok []
  | value :: rest => do
      let component ← parseComponent seen index value
      let more ← parseComponents (component.id :: seen) (index + 1) rest
      return component :: more

def parseHealthFacts (value : Val) : Js HealthFacts := do
  let raw ← record value "health facts"
  if !(raw.get "schemaVersion").isNumLit (.ofInt 1) then fail "unsupported health facts schema"
  else
    match raw.get "components" with
    | .arr components => do
        let facts ← parseComponents [] 0 components
        return ⟨facts⟩
    | _ => fail "health facts components must be a list"

/-! ## What is accepted -/

theorem parseText_eq_ok {re : Regex} {value : Val} {message s : String} :
    parseText re value message = .ok s ↔ value = .str s ∧ Text.test re s = true := by
  unfold parseText fail
  split
  · rename_i t
    by_cases ht : Text.test re t = true
    · simp only [ht, if_true, Except.ok.injEq, Val.str.injEq]
      constructor
      · rintro rfl
        exact ⟨rfl, ht⟩
      · exact fun h ↦ h.1
    · simp only [ht, if_false, Bool.false_eq_true, reduceCtorEq, false_iff, not_and]
      intro h
      exact Val.str.inj h ▸ ht
  · rename_i hne
    simp only [reduceCtorEq, false_iff, not_and]
    exact fun h ↦ (hne s h).elim

/-- A component on its own: its id and everything else is of the right form. -/
def WellFormed (component : Val) : Prop :=
  component.isRecord = true ∧ ∃ id, component.get "id" = .str id ∧
    Text.test COMPONENT_ID_RE id = true ∧ Returns (parseBody id component)

def idOf (component : Val) : String :=
  match component.get "id" with
  | .str id => id
  | _ => ""

theorem parseBody_id {id : String} {component : Val} {fact : HealthComponentFact}
    (h : parseBody id component = .ok fact) : fact.id = id := by
  simp only [parseBody, bind_eq_ok] at h
  obtain ⟨profile, _, recovery, _, unit, _, scope, _, h⟩ := h
  split at h
  · cases h
  · simp only [bind_eq_ok, pure_eq_ok, Except.ok.injEq] at h
    obtain ⟨listeners, _, rfl⟩ := h
    rfl

theorem parseComponent_eq_ok {seen : List String} {index : ℕ} {value : Val}
    {fact : HealthComponentFact} :
    parseComponent seen index value = .ok fact ↔
      value.isRecord = true ∧ idOf value ∉ seen ∧ value.get "id" = .str (idOf value) ∧
        Text.test COMPONENT_ID_RE (idOf value) = true ∧ parseBody (idOf value) value = .ok fact := by
  unfold parseComponent record
  by_cases hrecord : value.isRecord = true
  · simp only [hrecord, if_true, ok_bind, bind_eq_ok, parseText_eq_ok, true_and]
    constructor
    · rintro ⟨id, ⟨hid, htest⟩, h⟩
      have hidOf : idOf value = id := by rw [idOf, hid]
      rw [hidOf]
      split at h
      · cases h
      · rename_i hfresh
        exact ⟨by simpa using hfresh, hid, htest, h⟩
    · rintro ⟨hfresh, hid, htest, h⟩
      exact ⟨_, ⟨hid, htest⟩, by rw [if_neg (by simpa using hfresh)]; exact h⟩
  · simp [hrecord, fail]

theorem parseComponents_returns {seen : List String} {index : ℕ} {values : List Val} :
    Returns (parseComponents seen index values) ↔
      (∀ v ∈ values, WellFormed v) ∧ (values.map idOf).Nodup ∧ ∀ v ∈ values, idOf v ∉ seen := by
  induction values generalizing seen index with
  | nil => simp [parseComponents]
  | cons value rest ih =>
      simp only [parseComponents, returns_bind, pure_eq_ok, returns_ok, and_true,
        parseComponent_eq_ok]
      constructor
      · rintro ⟨fact, ⟨hrecord, hfresh, hid, htest, hbody⟩, hrest⟩
        obtain ⟨hall, hnodup, hother⟩ := ih.mp hrest
        rw [parseBody_id hbody] at hother
        refine ⟨?_, ?_, ?_⟩
        · intro v hv
          rcases List.mem_cons.mp hv with rfl | hv
          · exact ⟨hrecord, _, hid, htest, fact, hbody⟩
          · exact hall v hv
        · rw [List.map_cons, List.nodup_cons]
          refine ⟨?_, hnodup⟩
          intro hmem
          obtain ⟨v, hv, heq⟩ := List.mem_map.mp hmem
          exact hother v hv (heq ▸ List.mem_cons_self)
        · intro v hv
          rcases List.mem_cons.mp hv with rfl | hv
          · exact hfresh
          · exact fun hmem ↦ hother v hv (List.mem_cons_of_mem _ hmem)
      · rintro ⟨hall, hnodup, hother⟩
        obtain ⟨hrecord, id, hid, htest, fact, hbody⟩ := hall value List.mem_cons_self
        have hidOf : idOf value = id := by rw [idOf, hid]
        rw [List.map_cons, List.nodup_cons] at hnodup
        refine ⟨fact, ⟨hrecord, hother value List.mem_cons_self, ?_⟩, ih.mpr ⟨?_, hnodup.2, ?_⟩⟩
        · rw [hidOf]
          exact ⟨hid, htest, hbody⟩
        · exact fun v hv ↦ hall v (List.mem_cons_of_mem _ hv)
        · intro v hv hmem
          rw [parseBody_id hbody, ← hidOf] at hmem
          rcases List.mem_cons.mp hmem with heq | hmem
          · exact hnodup.1 (List.mem_map.mpr ⟨v, hv, heq⟩)
          · exact hother v (List.mem_cons_of_mem _ hv) hmem

/-- The id and the profile of a component as they are read. -/
def Named (fact : HealthComponentFact) : Prop :=
  Text.test COMPONENT_ID_RE fact.id = true ∧
    ∀ s, fact.profile = some s → Text.test PROFILE_RE s = true

theorem parseBody_profile {id : String} {component : Val} {fact : HealthComponentFact}
    (h : parseBody id component = .ok fact) {s : String} (hs : fact.profile = some s) :
    Text.test PROFILE_RE s = true := by
  simp only [parseBody, bind_eq_ok] at h
  obtain ⟨profile, hprofile, recovery, _, unit, _, scope, _, h⟩ := h
  split at h
  · cases h
  · simp only [bind_eq_ok, pure_eq_ok, Except.ok.injEq] at h
    obtain ⟨listeners, _, rfl⟩ := h
    obtain rfl : profile = some s := hs
    generalize component.get "profile" = v at hprofile
    cases v with
    | undef => cases hprofile
    | _ =>
        simp only [ifStated, bind_eq_ok, pure_eq_ok, Except.ok.injEq, parseText_eq_ok,
          Option.some.injEq] at hprofile
        obtain ⟨t, ⟨_, htest⟩, rfl⟩ := hprofile
        exact htest

/-- The components that are read are named in form, and no two alike. -/
theorem parseComponents_named {seen : List String} {index : ℕ} {values : List Val}
    {facts : List HealthComponentFact} (h : parseComponents seen index values = .ok facts) :
    (∀ fact ∈ facts, Named fact) ∧ (facts.map (·.id)).Nodup ∧ ∀ fact ∈ facts, fact.id ∉ seen := by
  induction values generalizing seen index facts with
  | nil =>
      obtain rfl := Except.ok.inj h
      simp
  | cons value rest ih =>
      simp only [parseComponents, bind_eq_ok, parseComponent_eq_ok, pure_eq_ok,
        Except.ok.injEq] at h
      obtain ⟨fact, ⟨_, hfresh, _, htest, hbody⟩, more, hmore, rfl⟩ := h
      obtain ⟨hnamed, hnodup, hother⟩ := ih hmore
      rw [← parseBody_id hbody] at hfresh htest
      refine ⟨?_, ?_, ?_⟩
      · rw [List.forall_mem_cons]
        exact ⟨⟨htest, fun s hs ↦ parseBody_profile hbody hs⟩, hnamed⟩
      · rw [List.map_cons, List.nodup_cons]
        refine ⟨fun hmem ↦ ?_, hnodup⟩
        obtain ⟨other, hin, heq⟩ := List.mem_map.mp hmem
        exact hother other hin (heq ▸ List.mem_cons_self)
      · rw [List.forall_mem_cons]
        exact ⟨hfresh, fun other hin hmem ↦ hother other hin (List.mem_cons_of_mem _ hmem)⟩

theorem parseHealthFacts_named {value : Val} {facts : HealthFacts}
    (h : parseHealthFacts value = .ok facts) :
    (∀ fact ∈ facts.components, Named fact) ∧ (facts.components.map (·.id)).Nodup := by
  simp only [parseHealthFacts, bind_eq_ok] at h
  obtain ⟨raw, _, h⟩ := h
  split at h
  · cases h
  · split at h
    · simp only [bind_eq_ok, pure_eq_ok, Except.ok.injEq] at h
      obtain ⟨components, hcomponents, rfl⟩ := h
      obtain ⟨hnamed, hnodup, _⟩ := parseComponents_named hcomponents
      exact ⟨hnamed, hnodup⟩
    · cases h

/-- A document of the right version is accepted exactly when every component
is in form and no id is used twice. -/
theorem parseHealthFacts_returns {f : Fields} {components : List Val}
    (hversion : (Val.obj f).get "schemaVersion" = 1)
    (hcomponents : (Val.obj f).get "components" = .arr components) :
    Returns (parseHealthFacts (.obj f)) ↔
      (∀ c ∈ components, WellFormed c) ∧ (components.map idOf).Nodup := by
  have hone : (1 : Val).isNumLit (.ofInt 1) = true := by decide +kernel
  have hrun : parseHealthFacts (.obj f) = (do
      let facts ← parseComponents [] 0 components
      return ⟨facts⟩) := by
    simp only [parseHealthFacts, record, Val.isRecord, if_true, ok_bind, hversion, hone,
      Bool.not_true, Bool.false_eq_true, if_false, hcomponents]
  rw [hrun, returns_bind]
  simp only [pure_eq_ok, returns_ok, and_true]
  exact parseComponents_returns.trans (by simp)

/-! ## The parts of a component -/

/-- A field that is absent or a string of the given form. -/
def Stated (re : Regex) (v : Val) : Prop := v = .undef ∨ ∃ s, v = .str s ∧ Text.test re s = true

theorem ifStated_returns {α : Type} {v : Val} {parse : Val → Js α} :
    Returns (ifStated v parse) ↔ v = .undef ∨ Returns (parse v) := by
  cases v with
  | undef => simp [ifStated]
  | _ =>
      simp only [ifStated, returns_bind, pure_eq_ok, returns_ok, and_true, reduceCtorEq, false_or]
      exact Iff.rfl

theorem ifStated_eq_none {α : Type} {v : Val} {parse : Val → Js α} {a : Option α}
    (h : ifStated v parse = .ok a) : a.isNone = true ↔ v = .undef := by
  cases v with
  | undef =>
      obtain rfl := Except.ok.inj h
      simp
  | _ =>
      simp only [ifStated, bind_eq_ok, pure_eq_ok, Except.ok.injEq] at h
      obtain ⟨b, _, rfl⟩ := h
      simp

theorem parseText_returns {re : Regex} {v : Val} {message : String} :
    Returns (parseText re v message) ↔ ∃ s, v = .str s ∧ Text.test re s = true := by
  unfold Returns
  simp only [parseText_eq_ok]

/-- The listeners of a component, each in form. -/
def ListenersOk (v : Val) : Prop :=
  v = .undef ∨ ∃ xs, v = .arr xs ∧ ∀ x ∈ xs, Returns (parseListener x)

theorem parseListeners_returns {id : String} {v : Val} :
    Returns (ifStated v (parseListeners id)) ↔ ListenersOk v := by
  rw [ifStated_returns, ListenersOk]
  refine or_congr_right ?_
  cases v with
  | arr xs => simp [parseListeners, mapM_returns]
  | _ => simp [parseListeners, fail]

theorem stated_iff {re : Regex} {v : Val} {message : String} :
    Returns (ifStated v fun v ↦ parseText re v message) ↔ Stated re v := by
  rw [ifStated_returns, parseText_returns, Stated]

theorem parseScope_eq_ok {id : String} {v : Val} {scope : Option UnitScope} :
    ifStated v (parseScope id) = .ok scope ↔
      (v = .undef ∧ scope = none) ∨ (v = "system" ∧ scope = some .system) ∨
        (v = "user" ∧ scope = some .user) := by
  cases v with
  | undef => simp [ifStated, eq_comm]
  | str s =>
      by_cases hsystem : s = "system"
      · subst hsystem
        simp [ifStated, parseScope, Val.isStrLit, eq_comm]
      · by_cases huser : s = "user"
        · subst huser
          simp [ifStated, parseScope, Val.isStrLit, eq_comm]
        · simp [ifStated, parseScope, Val.isStrLit, hsystem, huser, fail]
  | _ => simp [ifStated, parseScope, Val.isStrLit, fail]

/-- Which fields make up a component in form. -/
theorem parseBody_returns {id : String} {component : Val} :
    Returns (parseBody id component) ↔
      Stated PROFILE_RE (component.get "profile") ∧
        Returns (parseRecovery id (component.get "recovery")) ∧
        Stated UNIT_RE (component.get "unit") ∧
        (component.get "unitScope" = .undef ∨ component.get "unitScope" = "system" ∨
          component.get "unitScope" = "user" ∧ component.get "profile" ≠ .undef) ∧
        ListenersOk (component.get "listeners") := by
  rw [← stated_iff, ← stated_iff, ← parseListeners_returns]
  unfold parseBody
  simp only [returns_bind]
  constructor
  · rintro ⟨profile, hprofile, recovery, hrecovery, unit, hunit, scope, hscope, h⟩
    split at h
    · exact (not_returns_error _ h).elim
    · rename_i hscoped
      obtain ⟨listeners, hlisteners, _⟩ := returns_bind.mp h
      refine ⟨⟨_, hprofile⟩, ⟨_, hrecovery⟩, ⟨_, hunit⟩, ?_, ⟨_, hlisteners⟩⟩
      rcases parseScope_eq_ok.mp hscope with ⟨hv, _⟩ | ⟨hv, _⟩ | ⟨hv, rfl⟩
      · exact .inl hv
      · exact .inr (.inl hv)
      · refine .inr (.inr ⟨hv, ?_⟩)
        intro habsent
        exact hscoped (by simp [(ifStated_eq_none hprofile).mpr habsent])
  · rintro ⟨⟨profile, hprofile⟩, ⟨recovery, hrecovery⟩, ⟨unit, hunit⟩, hscope, ⟨listeners,
      hlisteners⟩⟩
    have hparsed : ∃ scope, ifStated (component.get "unitScope") (parseScope id) = .ok scope ∧
        ¬ (scope == some .user && profile.isNone) = true := by
      rcases hscope with hv | hv | ⟨hv, hstated⟩
      · exact ⟨none, parseScope_eq_ok.mpr (.inl ⟨hv, rfl⟩), by simp⟩
      · exact ⟨some .system, parseScope_eq_ok.mpr (.inr (.inl ⟨hv, rfl⟩)), by simp⟩
      · refine ⟨some .user, parseScope_eq_ok.mpr (.inr (.inr ⟨hv, rfl⟩)), ?_⟩
        intro hnone
        have hprofileNone : profile.isNone = true := by simpa using hnone
        exact hstated ((ifStated_eq_none hprofile).mp hprofileNone)
    obtain ⟨scope, hscoped, hother⟩ := hparsed
    refine ⟨_, hprofile, _, hrecovery, _, hunit, _, hscoped, ?_⟩
    rw [if_neg hother, returns_bind]
    exact ⟨listeners, hlisteners, returns_ok _⟩

end RemoteDevbox.Box
