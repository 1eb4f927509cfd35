import RemoteDevbox.Box.Facts
import RemoteDevbox.Lib.Js.Date

namespace RemoteDevbox.Box

open Js

/-!
# Health documents

What the doctor publishes about a box, and the reader that checks it before it
is used. The sound documents are the ones the reader can return, and it takes
each of them back.
-/

inductive HealthStatus where
  | healthy
  | degraded
  | recovering
  | blocked
  | failed
  | unknown
  deriving DecidableEq

structure HealthResult where
  id : String
  profile : Option String
  status : HealthStatus
  expected : List String
  observed : List String
  reason : Option String
  recovery : RecoveryPolicy
  deriving DecidableEq

/-- A document with `schemaVersion` 1. -/
structure HealthDocument where
  status : HealthStatus
  observedAt : String
  components : List HealthResult
  deriving DecidableEq

def HealthStatus.text : HealthStatus → String
  | healthy => "healthy"
  | degraded => "degraded"
  | recovering => "recovering"
  | blocked => "blocked"
  | failed => "failed"
  | unknown => "unknown"

def RecoveryPolicy.text : RecoveryPolicy → String
  | automatic => "automatic"
  | manual => "manual"
  | confirmationRequired => "confirmation-required"
  | none => "none"

/-! ## As a value -/

def stringsVal (xs : List String) : Val := .arr (xs.map .str)

/-- A property that is left out where it has no value. -/
def optionalField (k : String) (v : Option String) : Fields := (v.map fun s ↦ (k, .str s)).toList

def HealthResult.toVal (r : HealthResult) : Val :=
  .obj ([("id", .str r.id)] ++ optionalField "profile" r.profile ++
    [("status", .str r.status.text), ("expected", stringsVal r.expected),
      ("observed", stringsVal r.observed)] ++
    optionalField "reason" r.reason ++ [("recovery", .str r.recovery.text)])

def HealthDocument.toVal (d : HealthDocument) : Val :=
  .obj [("schemaVersion", 1), ("status", .str d.status.text), ("observedAt", .str d.observedAt),
    ("components", .arr (d.components.map HealthResult.toVal))]

namespace Document

/-! ## Making a document -/

def STATUS_PRIORITY : HealthStatus → ℕ
  | .healthy => 0
  | .recovering => 1
  | .degraded => 2
  | .unknown => 3
  | .blocked => 4
  | .failed => 5

def aggregateStatus (statuses : List HealthStatus) : HealthStatus :=
  statuses.foldl
    (fun worst status ↦ if STATUS_PRIORITY status > STATUS_PRIORITY worst then status else worst)
    .healthy

/-- The comparison that sorts components by their ids. -/
def idLe (localeCompare : String → String → ℤ) (a b : HealthResult) : Bool :=
  decide (localeCompare a.id b.id ≤ 0)

def createHealthDocument (localeCompare : String → String → ℤ) (observedAt : String)
    (components : List HealthResult) : HealthDocument :=
  let sorted := components.mergeSort (idLe localeCompare)
  ⟨aggregateStatus (sorted.map (·.status)), observedAt, sorted⟩

/-! ## Reading a document -/

def STATUSES : List HealthStatus := [.healthy, .degraded, .recovering, .blocked, .failed, .unknown]

def RECOVERY : List RecoveryPolicy := [.automatic, .manual, .confirmationRequired, .none]

/-- `^[a-z0-9_]+$` -/
def REASON_RE : Regex :=
  .plus (.cls fun c ↦ Regex.isLower c || Regex.isDigit c || c == '_')

def object (value : Val) (label : String) : Js Val :=
  if value.isRecord then .ok value else fail s!"{label} must be an object"

def textOf : Val → Option String
  | .str s => some s
  | _ => none

def strings (value : Val) (label : String) : Js (List String) :=
  match value with
  | .arr xs =>
      match xs.mapM textOf with
      | some texts => .ok texts
      | none => fail s!"{label} must be a string list"
  | _ => fail s!"{label} must be a string list"

/-- A field that names a member of a set of texts. -/
def parseMember {α : Type} (members : List α) (text : α → String) (value : Val)
    (message : String) : Js α :=
  match members.find? fun a ↦ value.isStrLit (text a) with
  | some a => .ok a
  | none => fail message

def parseComponent (value : Val) (index : ℕ) : Js HealthResult := do
  let raw ← object value s!"health component {index}"
  let id ← parseText COMPONENT_ID_RE (raw.get "id") s!"invalid health component id at index {index}"
  let profile ← ifStated (raw.get "profile") fun v ↦
    parseText PROFILE_RE v s!"invalid profile for '{id}'"
  let status ← parseMember STATUSES HealthStatus.text (raw.get "status") s!"invalid status for '{id}'"
  let recovery ← parseMember RECOVERY RecoveryPolicy.text (raw.get "recovery")
    s!"invalid recovery for '{id}'"
  let reason ← ifStated (raw.get "reason") fun v ↦
    parseText REASON_RE v s!"invalid reason for '{id}'"
  let expected ← strings (raw.get "expected") s!"expected for '{id}'"
  let observed ← strings (raw.get "observed") s!"observed for '{id}'"
  return ⟨id, profile, status, expected, observed, reason, recovery⟩

/-- The components have different ids. -/
def distinct (ids : List String) : List HealthResult → Js Unit
  | [] => .ok ()
  | component :: rest =>
      if ids.contains component.id then fail s!"duplicate component '{component.id}'"
      else distinct (component.id :: ids) rest

/-- A text `Date.parse` makes a finite number of. -/
def parseTime (other : String → Option ℤ) (value : Val) : Js String :=
  match value with
  | .str s => if (Date.parse other s).isSome then .ok s else fail "invalid observedAt"
  | _ => fail "invalid observedAt"

def parseHealthDocument (localeCompare : String → String → ℤ) (other : String → Option ℤ)
    (value : Val) : Js HealthDocument := do
  let raw ← object value "health document"
  if !(raw.get "schemaVersion").isNumLit (.ofInt 1) then fail "unsupported health schema"
  else do
    let observedAt ← parseTime other (raw.get "observedAt")
    match raw.get "components" with
    | .arr values => do
        let components ← values.zipIdx.mapM fun p ↦ parseComponent p.1 p.2
        distinct [] components
        return createHealthDocument localeCompare observedAt components
    | _ => fail "health components must be a list"

/-! ## What is accepted -/

/-- A result whose texts are in form. -/
structure InForm (r : HealthResult) : Prop where
  id : Text.test COMPONENT_ID_RE r.id = true
  profile : ∀ s, r.profile = some s → Text.test PROFILE_RE s = true
  reason : ∀ s, r.reason = some s → Text.test REASON_RE s = true

theorem parseMember_eq_ok {α : Type} {members : List α} {text : α → String} {value : Val}
    {message : String} {a : α} (hinj : ∀ a b, text a = text b → a = b) :
    parseMember members text value message = .ok a ↔ a ∈ members ∧ value = .str (text a) := by
  have hlit : ∀ b, value.isStrLit (text b) = true ↔ value = .str (text b) := fun b ↦ by
    cases value <;> simp [Val.isStrLit]
  unfold parseMember
  cases hfind : members.find? fun b ↦ value.isStrLit (text b) with
  | none =>
      simp only [fail, reduceCtorEq, false_iff, not_and]
      intro hmem heq
      exact List.find?_eq_none.mp hfind a hmem ((hlit a).mpr heq)
  | some b =>
      have hb : b ∈ members ∧ value = .str (text b) :=
        ⟨List.mem_of_find?_eq_some hfind,
          (hlit b).mp (List.find?_some (p := fun b ↦ value.isStrLit (text b)) hfind)⟩
      constructor
      · intro h
        obtain rfl := Except.ok.inj h
        exact hb
      · rintro ⟨_, heq⟩
        have htext : text b = text a := Val.str.inj (hb.2.symm.trans heq)
        rw [hinj b a htext]

theorem mapM_textOf {values : List Val} {xs : List String} :
    values.mapM textOf = some xs ↔ values = xs.map .str := by
  induction values generalizing xs with
  | nil => cases xs <;> simp
  | cons value rest ih =>
      simp only [List.mapM_cons, bind, Option.bind_eq_some_iff, pure, Option.some.injEq, ih]
      constructor
      · rintro ⟨s, hs, texts, rfl, rfl⟩
        cases value <;> simp_all [textOf]
      · intro h
        cases xs with
        | nil => cases h
        | cons s texts =>
            obtain ⟨rfl, rfl⟩ := List.cons.inj h
            exact ⟨s, rfl, texts, rfl, rfl⟩

theorem strings_eq_ok {value : Val} {label : String} {xs : List String} :
    strings value label = .ok xs ↔ value = stringsVal xs := by
  unfold strings stringsVal
  cases value with
  | arr values =>
      simp only [Val.arr.injEq, ← mapM_textOf]
      cases values.mapM textOf <;> simp [fail]
  | _ => simp [fail]

theorem ifStated_parseText {re : Regex} {v : Val} {message : String} {s : Option String} :
    ifStated v (fun v ↦ parseText re v message) = .ok s ↔
      (v = .undef ∧ s = none) ∨ ∃ t, v = .str t ∧ s = some t ∧ Text.test re t = true := by
  cases v with
  | undef =>
      simp only [ifStated, Except.ok.injEq, true_and, reduceCtorEq, false_and, exists_false, or_false]
      exact eq_comm
  | str t =>
      simp only [ifStated, bind_eq_ok, parseText_eq_ok, pure_eq_ok, Except.ok.injEq, reduceCtorEq,
        false_and, false_or, Val.str.injEq]
      constructor
      · rintro ⟨u, ⟨rfl, htest⟩, rfl⟩
        exact ⟨_, rfl, rfl, htest⟩
      · rintro ⟨u, rfl, rfl, htest⟩
        exact ⟨_, ⟨rfl, htest⟩, rfl⟩
  | _ => simp [ifStated, parseText, fail]

theorem HealthStatus.text_inj (a b : HealthStatus) (h : a.text = b.text) : a = b := by
  revert h
  cases a <;> cases b <;> decide

theorem RecoveryPolicy.text_inj (a b : RecoveryPolicy) (h : a.text = b.text) : a = b := by
  revert h
  cases a <;> cases b <;> decide

theorem parseComponent_eq_ok {value : Val} {index : ℕ} {r : HealthResult} :
    parseComponent value index = .ok r ↔
      value.isRecord = true ∧ InForm r ∧ value.get "id" = .str r.id ∧
        value.get "profile" = (r.profile.map Val.str).getD .undef ∧
        value.get "status" = .str r.status.text ∧
        value.get "recovery" = .str r.recovery.text ∧
        value.get "reason" = (r.reason.map Val.str).getD .undef ∧
        value.get "expected" = stringsVal r.expected ∧
        value.get "observed" = stringsVal r.observed := by
  unfold parseComponent object
  by_cases hrecord : value.isRecord = true
  · simp only [hrecord, if_true, ok_bind, bind_eq_ok, parseText_eq_ok, ifStated_parseText,
      parseMember_eq_ok HealthStatus.text_inj, parseMember_eq_ok RecoveryPolicy.text_inj,
      strings_eq_ok, pure_eq_ok, Except.ok.injEq, true_and]
    constructor
    · rintro ⟨id, ⟨hid, htest⟩, profile, hprofile, status, ⟨_, hstatus⟩, recovery, ⟨_, hrecovery⟩,
        reason, hreason, expected, hexpected, observed, hobserved, rfl⟩
      refine ⟨⟨htest, ?_, ?_⟩, hid, ?_, hstatus, hrecovery, ?_, hexpected, hobserved⟩
      · intro s hs
        rcases hprofile with ⟨_, rfl⟩ | ⟨t, _, rfl, ht⟩
        · cases hs
        · exact Option.some.inj hs ▸ ht
      · intro s hs
        rcases hreason with ⟨_, rfl⟩ | ⟨t, _, rfl, ht⟩
        · cases hs
        · exact Option.some.inj hs ▸ ht
      · rcases hprofile with ⟨hget, rfl⟩ | ⟨t, hget, rfl, _⟩ <;> exact hget
      · rcases hreason with ⟨hget, rfl⟩ | ⟨t, hget, rfl, _⟩ <;> exact hget
    · rintro ⟨⟨htest, hprofileForm, hreasonForm⟩, hid, hprofile, hstatus, hrecovery, hreason,
        hexpected, hobserved⟩
      refine ⟨r.id, ⟨hid, htest⟩, r.profile, ?_, r.status, ⟨?_, hstatus⟩, r.recovery,
        ⟨?_, hrecovery⟩, r.reason, ?_, r.expected, hexpected, r.observed, hobserved, rfl⟩
      · cases hp : r.profile with
        | none => exact .inl ⟨by rw [hprofile, hp]; rfl, rfl⟩
        | some s => exact .inr ⟨s, by rw [hprofile, hp]; rfl, rfl, hprofileForm s hp⟩
      · cases r.status <;> decide
      · cases r.recovery <;> decide
      · cases hr : r.reason with
        | none => exact .inl ⟨by rw [hreason, hr]; rfl, rfl⟩
        | some s => exact .inr ⟨s, by rw [hreason, hr]; rfl, rfl, hreasonForm s hr⟩
  · simp [hrecord, fail]

theorem distinct_eq_ok {ids : List String} {rs : List HealthResult} :
    distinct ids rs = .ok () ↔ (rs.map (·.id)).Nodup ∧ ∀ r ∈ rs, r.id ∉ ids := by
  induction rs generalizing ids with
  | nil => simp [distinct]
  | cons r rest ih =>
      unfold distinct
      by_cases hmem : ids.contains r.id = true
      · have hin : r.id ∈ ids := by simpa using hmem
        simp [hin, fail]
      · have hfresh : r.id ∉ ids := by simpa using hmem
        rw [if_neg hmem, ih, List.map_cons, List.nodup_cons, List.forall_mem_cons]
        constructor
        · rintro ⟨hnodup, hother⟩
          refine ⟨⟨?_, hnodup⟩, hfresh, fun q hq h ↦ hother q hq (List.mem_cons_of_mem _ h)⟩
          intro hr
          obtain ⟨q, hq, heq⟩ := List.mem_map.mp hr
          exact hother q hq (heq ▸ List.mem_cons_self)
        · rintro ⟨⟨hr, hnodup⟩, _, hother⟩
          refine ⟨hnodup, fun q hq h ↦ ?_⟩
          rcases List.mem_cons.mp h with heq | h
          · exact hr (List.mem_map.mpr ⟨q, hq, heq⟩)
          · exact hother q hq h

theorem parseTime_eq_ok {other : String → Option ℤ} {value : Val} {s : String} :
    parseTime other value = .ok s ↔ value = .str s ∧ (Date.parse other s).isSome = true := by
  unfold parseTime
  cases value with
  | str t =>
      by_cases ht : (Date.parse other t).isSome = true
      · simp only [ht, if_true, Except.ok.injEq, Val.str.injEq]
        constructor
        · rintro rfl
          exact ⟨rfl, ht⟩
        · exact fun h ↦ h.1
      · simp only [ht, Bool.false_eq_true, if_false, fail, reduceCtorEq, false_iff, not_and]
        exact fun h ↦ Val.str.inj h ▸ ht
  | _ => simp [fail]

theorem isNumLit_one {value : Val} : value.isNumLit (.ofInt 1) = true ↔ value = 1 := by
  cases value with
  | num n =>
      simp only [Val.isNumLit, Bool.and_eq_true, beq_iff_eq]
      constructor
      · rintro ⟨rfl, _⟩
        rfl
      · intro h
        obtain rfl := Val.num.inj h
        exact ⟨rfl, rfl⟩
  | _ =>
      simp only [Val.isNumLit, Bool.false_eq_true, false_iff]
      exact fun h ↦ by cases h

section Reading

variable {localeCompare : String → String → ℤ} {other : String → Option ℤ}

theorem parseHealthDocument_eq_ok {value : Val} {d : HealthDocument} :
    parseHealthDocument localeCompare other value = .ok d ↔
      value.isRecord = true ∧ value.get "schemaVersion" = 1 ∧
        ∃ t values rs, value.get "observedAt" = .str t ∧ (Date.parse other t).isSome = true ∧
          value.get "components" = .arr values ∧
          List.Forall₂ (fun p r ↦ parseComponent p.1 p.2 = .ok r) values.zipIdx rs ∧
          (rs.map (·.id)).Nodup ∧ d = createHealthDocument localeCompare t rs := by
  unfold parseHealthDocument object
  by_cases hrecord : value.isRecord = true
  swap
  · simp [hrecord, fail]
  by_cases hversion : value.get "schemaVersion" = 1
  swap
  · have hlit : (value.get "schemaVersion").isNumLit (.ofInt 1) = false := by
      rw [← Bool.not_eq_true, isNumLit_one]
      exact hversion
    simp [hrecord, hversion, hlit, fail]
  have hlit : (value.get "schemaVersion").isNumLit (.ofInt 1) = true := isNumLit_one.mpr hversion
  simp only [hrecord, if_true, ok_bind, hlit, Bool.not_true, Bool.false_eq_true, if_false,
    bind_eq_ok, parseTime_eq_ok, true_and]
  rw [and_iff_right hversion]
  constructor
  · rintro ⟨t, ⟨hget, htime⟩, h⟩
    split at h
    · rename_i values hvalues
      simp only [bind_eq_ok, pure_eq_ok, Except.ok.injEq] at h
      obtain ⟨rs, hrs, _, hdistinct, rfl⟩ := h
      exact ⟨t, values, rs, hget, htime, hvalues, mapM_eq_ok.mp hrs,
        (distinct_eq_ok.mp hdistinct).1, rfl⟩
    · cases h
  · rintro ⟨t, values, rs, hget, htime, hvalues, hrs, hnodup, rfl⟩
    refine ⟨t, ⟨hget, htime⟩, ?_⟩
    simp only [hvalues, bind_eq_ok, pure_eq_ok, Except.ok.injEq]
    exact ⟨rs, mapM_eq_ok.mpr hrs, (), distinct_eq_ok.mpr ⟨hnodup, by simp⟩, rfl⟩

/-- A document the reader can return. -/
structure Sound (localeCompare : String → String → ℤ) (other : String → Option ℤ)
    (d : HealthDocument) : Prop where
  observedAt : (Date.parse other d.observedAt).isSome = true
  components : ∀ r ∈ d.components, InForm r
  distinct : (d.components.map (·.id)).Nodup
  created : createHealthDocument localeCompare d.observedAt d.components = d

/-- A comparison that orders any two texts, and does so transitively. -/
structure TotalPreorder (compare : String → String → ℤ) : Prop where
  total : ∀ a b, compare a b ≤ 0 ∨ compare b a ≤ 0
  trans : ∀ a b c, compare a b ≤ 0 → compare b c ≤ 0 → compare a c ≤ 0

/-- The components of a document that was made are in order: sorting them again
changes nothing. -/
theorem createHealthDocument_again (hcompare : TotalPreorder localeCompare) (t : String)
    (rs : List HealthResult) :
    createHealthDocument localeCompare t (createHealthDocument localeCompare t rs).components =
      createHealthDocument localeCompare t rs := by
  have hsorted : (rs.mergeSort (idLe localeCompare)).Pairwise
      fun a b ↦ idLe localeCompare a b = true := by
    refine List.pairwise_mergeSort ?_ ?_ rs
    · intro a b c hab hbc
      exact decide_eq_true (hcompare.trans _ _ _ (of_decide_eq_true hab) (of_decide_eq_true hbc))
    · intro a b
      rw [Bool.or_eq_true]
      exact (hcompare.total a.id b.id).imp decide_eq_true decide_eq_true
  simp only [createHealthDocument, List.mergeSort_of_pairwise hsorted]

theorem sound_create (hcompare : TotalPreorder localeCompare) {t : String} {rs : List HealthResult}
    (htime : (Date.parse other t).isSome = true) (hform : ∀ r ∈ rs, InForm r)
    (hnodup : (rs.map (·.id)).Nodup) :
    Sound localeCompare other (createHealthDocument localeCompare t rs) := by
  have hperm : (rs.mergeSort (idLe localeCompare)).Perm rs := List.mergeSort_perm rs _
  refine ⟨htime, ?_, ?_, createHealthDocument_again hcompare t rs⟩
  · exact fun r hr ↦ hform r (hperm.mem_iff.mp hr)
  · exact (hperm.map (·.id)).nodup_iff.mpr hnodup

theorem get_toVal {r : HealthResult} :
    r.toVal.get "id" = .str r.id ∧ r.toVal.get "profile" = (r.profile.map Val.str).getD .undef ∧
      r.toVal.get "status" = .str r.status.text ∧ r.toVal.get "recovery" = .str r.recovery.text ∧
      r.toVal.get "reason" = (r.reason.map Val.str).getD .undef ∧
      r.toVal.get "expected" = stringsVal r.expected ∧
      r.toVal.get "observed" = stringsVal r.observed := by
  obtain ⟨id, profile, status, expected, observed, reason, recovery⟩ := r
  cases profile <;> cases reason <;>
    simp [HealthResult.toVal, optionalField, Val.get, Fields.lookup_cons]

theorem parseComponent_toVal {r : HealthResult} (h : InForm r) (index : ℕ) :
    parseComponent r.toVal index = .ok r :=
  parseComponent_eq_ok.mpr ⟨rfl, h, get_toVal⟩

/-- A sound document is read back as itself. -/
theorem parse_toVal {d : HealthDocument} (h : Sound localeCompare other d) :
    parseHealthDocument localeCompare other d.toVal = .ok d := by
  obtain ⟨htime, hform, hnodup, hcreated⟩ := h
  refine parseHealthDocument_eq_ok.mpr ⟨rfl, rfl, d.observedAt, _, d.components, rfl, htime, rfl, ?_,
    hnodup, hcreated.symm⟩
  refine List.forall₂_iff_get.mpr ⟨by simp, ?_⟩
  intro i hleft hright
  have hget : (d.components.map HealthResult.toVal).zipIdx.get ⟨i, hleft⟩ =
      (d.components[i].toVal, i) := by simp
  rw [hget]
  exact parseComponent_toVal (hform _ (List.getElem_mem _)) i

end Reading

end Document

end RemoteDevbox.Box
