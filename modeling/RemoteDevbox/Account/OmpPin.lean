import RemoteDevbox.Lib.Casing
import RemoteDevbox.Lib.Js.Text
import RemoteDevbox.Lib.Lists
import RemoteDevbox.Lib.Py.Words

namespace RemoteDevbox.Account.OmpPin

/-!
# Pinning omp to an account

After a switch of accounts, the OAuth rows of omp that belong to the account are
enabled and the others disabled. One program does this in TypeScript and another in
Python. Lower case is a parameter that both share; the account of a row is read from
its key, where one program trims a value by itself and the other leaves it in its place.
-/

/-! ## The table -/

structure Row where
  id : ℤ
  provider : String
  credentialType : String
  identityKey : Option (List Char)
  disabledCause : Option (List Char)
  data : List Char
  updatedAt : ℤ
  deriving DecidableEq

/-- The rows, of which the `id` is the key. -/
structure Table where
  rows : List Row
  ids : (rows.map Row.id).Nodup

/-- Either table may be missing; `revision` is the counter of the other one. -/
structure Database where
  credentials : Option Table
  revision : Option ℤ

/-- The account as the vault has it. -/
structure Target where
  email : List Char
  org : Option (List Char)

def Row.oauth (row : Row) : Bool :=
  row.provider == "anthropic" && row.credentialType == "oauth"

def Table.oauth (table : Table) : List Row := table.rows.filter Row.oauth

/-- The ids of the rows to enable and of those to disable, with the cause. -/
structure Choice where
  enabled : List ℤ
  disabled : List ℤ
  cause : List Char
  deriving DecidableEq

def OMP_PIN_CAUSE_PREFIX : String := "devbox-account: pinned away from "

/-- The end of either program, which leaves alone what is pinned already. -/
def update (want : List Char) (rows matched : List Row) : Option Choice :=
  let others := rows.filter fun r ↦ !(matched.map Row.id).contains r.id
  if matched.all (fun r ↦ r.disabledCause.isNone) && others.all fun r ↦ r.disabledCause.isSome then
    none
  else some ⟨matched.map Row.id, others.map Row.id, OMP_PIN_CAUSE_PREFIX.toList ++ want⟩

section Programs

variable (lower : List Char → List Char)

/-! ## The program in TypeScript -/

/-- The pattern `i` ignores the case of ASCII letters. -/
def dropTag (tag : String) (part : List Char) : Option (List Char) :=
  if (part.take tag.length).map Char.toLower = tag.toList then some (part.drop tag.length) else none

/-- The value behind the first tag that has one, for `(?:^|\|)tag([^|]+)`. -/
def valueFromKey (tag : String) : Option (List Char) → Option (List Char)
  | none => none
  | some key =>
      let group := (key.splitOn '|').findSome? fun part ↦
        (dropTag tag part).filter fun value ↦ !value.isEmpty
      (group.map fun value ↦ lower (Js.Text.trimChars value)).filter fun value ↦ !value.isEmpty

def emailFromIdentityKey (key : Option (List Char)) : Option (List Char) :=
  valueFromKey lower "email:" key

def orgFromIdentityKey (key : Option (List Char)) : Option (List Char) :=
  valueFromKey lower "org:" key

def wantTs (target : Target) : List Char := lower (Js.Text.trimChars target.email)

def wantOrgTs (target : Target) : Option (List Char) :=
  (target.org.map fun org ↦ lower (Js.Text.trimChars org)).filter fun org ↦ !org.isEmpty

def pinOmpAnthropic (target : Target) (rows : List Row) : Option Choice :=
  let want := wantTs lower target
  if want.isEmpty then none
  else if rows.isEmpty then none
  else
    let matched := rows.filter fun r ↦ emailFromIdentityKey lower r.identityKey == some want
    if matched.isEmpty then none
    else
      match wantOrgTs lower target with
      | none => update want rows matched
      | some org =>
          let byOrg := matched.filter fun r ↦ orgFromIdentityKey lower r.identityKey == some org
          if byOrg.isEmpty then none else update want rows byOrg

/-! ## The program in Python -/

/-- The value behind the first tag, in lower case throughout. -/
def valueOf (tag : String) : Option (List Char) → Option (List Char)
  | none => none
  | some key =>
      if key.isEmpty then none
      else ((lower key).splitOn '|').findSome? fun part ↦
        if tag.toList.isPrefixOf part then some (part.drop tag.length) else none

def emailOf (key : Option (List Char)) : Option (List Char) := valueOf lower "email:" key

def orgOf (key : Option (List Char)) : Option (List Char) := valueOf lower "org:" key

def wantPy (target : Target) : List Char := lower (Py.stripped target.email)

def wantOrgPy (target : Target) : List Char := lower (Py.stripped (target.org.getD []))

def pinLabel (target : Target) (rows : List Row) : Option Choice :=
  let email := wantPy lower target
  let org := wantOrgPy lower target
  if email.isEmpty then none
  else if rows.isEmpty then none
  else
    let matched := rows.filter fun r ↦ emailOf lower r.identityKey == some email
    let byOrg := matched.filter fun r ↦ orgOf lower r.identityKey == some org
    if !org.isEmpty && byOrg.isEmpty && !matched.isEmpty then none
    else
      let kept := if !org.isEmpty && !byOrg.isEmpty then byOrg else matched
      if kept.isEmpty then none else update email rows kept

end Programs

/-! ## What is written -/

def Choice.applyTo (choice : Choice) (now : ℤ) (row : Row) : Row :=
  if row.id ∈ choice.enabled then { row with disabledCause := none, updatedAt := now }
  else if row.id ∈ choice.disabled then
    { row with disabledCause := some choice.cause, updatedAt := now }
  else row

theorem Choice.applyTo_id (choice : Choice) (now : ℤ) (row : Row) :
    (choice.applyTo now row).id = row.id := by
  unfold Choice.applyTo
  split
  · rfl
  · split <;> rfl

def Choice.write (choice : Choice) (now : ℤ) (table : Table) : Table where
  rows := table.rows.map (choice.applyTo now)
  ids := by
    have hids : (table.rows.map (choice.applyTo now)).map Row.id = table.rows.map Row.id := by
      rw [List.map_map]
      exact List.map_congr_left fun row _ ↦ choice.applyTo_id now row
    rw [hids]
    exact table.ids

/-- The database after a program, and whether it ends with the error that data was
mutated. -/
structure Outcome where
  database : Database
  aborted : Bool

/-- A row whose data is not what it was before. -/
def mutated (before after : Table) : Bool :=
  after.oauth.any fun r ↦ (before.oauth.map fun r ↦ (r.id, r.data)).lookup r.id != some r.data

def run (choose : List Row → Option Choice) (now : ℤ) (db : Database) : Outcome :=
  match db.credentials with
  | none => ⟨db, false⟩
  | some table =>
      match choose table.oauth with
      | none => ⟨db, false⟩
      | some choice =>
          let after := choice.write now table
          ⟨⟨some after, db.revision.map (· + 1)⟩, mutated table after⟩

/-! ## Rows of the account -/

section Matches

variable (lower : List Char → List Char) (target : Target)

/-- The TypeScript parser reads the account in the row. -/
def matchesTs (row : Row) : Bool :=
  !(wantTs lower target).isEmpty &&
    emailFromIdentityKey lower row.identityKey == some (wantTs lower target) &&
    match wantOrgTs lower target with
    | none => true
    | some org => orgFromIdentityKey lower row.identityKey == some org

/-- The Python parser does. -/
def matchesPy (row : Row) : Bool :=
  !(wantPy lower target).isEmpty &&
    emailOf lower row.identityKey == some (wantPy lower target) &&
    ((wantOrgPy lower target).isEmpty ||
      orgOf lower row.identityKey == some (wantOrgPy lower target))

/-- What both programs do, up to who counts as a match. -/
def chosen (want : List Char) (isMatch : Row → Bool) (rows : List Row) : Option Choice :=
  if (rows.filter isMatch).isEmpty then none else update want rows (rows.filter isMatch)

theorem chosen_of_none (want : List Char) {isMatch : Row → Bool} {rows : List Row}
    (h : ∀ r ∈ rows, isMatch r = false) : chosen want isMatch rows = none := by
  have hnil : rows.filter isMatch = [] := by
    rw [List.filter_eq_nil_iff]
    intro r hr
    rw [h r hr]
    exact Bool.false_ne_true
  rw [chosen, hnil]
  rfl

theorem pinOmpAnthropic_eq (rows : List Row) :
    pinOmpAnthropic lower target rows = chosen (wantTs lower target) (matchesTs lower target) rows := by
  unfold pinOmpAnthropic
  dsimp only
  split
  · rename_i hwant
    exact (chosen_of_none _ fun r _ ↦ by rw [matchesTs, hwant]; rfl).symm
  · rename_i hwant
    split
    · rename_i hrows
      rw [List.isEmpty_iff.mp hrows]
      rfl
    · have hmatches : ∀ r, matchesTs lower target r =
          ((emailFromIdentityKey lower r.identityKey == some (wantTs lower target)) &&
            match wantOrgTs lower target with
            | none => true
            | some org => orgFromIdentityKey lower r.identityKey == some org) := by
        intro r
        rw [matchesTs, Bool.eq_false_iff.mpr hwant]
        rfl
      split
      · rename_i hnone
        refine (chosen_of_none _ fun r hr ↦ ?_).symm
        have hno := List.filter_eq_nil_iff.mp (List.isEmpty_iff.mp hnone) r hr
        rw [hmatches, Bool.eq_false_iff.mpr hno]
        rfl
      · rename_i hsome
        cases horg : wantOrgTs lower target with
        | none =>
            have hfilter : rows.filter (matchesTs lower target) = rows.filter fun r ↦
                emailFromIdentityKey lower r.identityKey == some (wantTs lower target) := by
              refine List.filter_congr fun r _ ↦ ?_
              rw [hmatches, horg, Bool.and_true]
            rw [chosen, hfilter, if_neg hsome]
        | some org =>
            have hfilter : rows.filter (matchesTs lower target) = (rows.filter fun r ↦
                emailFromIdentityKey lower r.identityKey == some (wantTs lower target)).filter
                  fun r ↦ orgFromIdentityKey lower r.identityKey == some org := by
              rw [List.filter_filter]
              refine List.filter_congr fun r _ ↦ ?_
              rw [hmatches, horg, Bool.and_comm]
            rw [chosen, hfilter]

theorem pinLabel_eq (rows : List Row) :
    pinLabel lower target rows = chosen (wantPy lower target) (matchesPy lower target) rows := by
  unfold pinLabel
  dsimp only
  split
  · rename_i hwant
    exact (chosen_of_none _ fun r _ ↦ by rw [matchesPy, hwant]; rfl).symm
  · rename_i hwant
    split
    · rename_i hrows
      rw [List.isEmpty_iff.mp hrows]
      rfl
    · have hmatches : ∀ r, matchesPy lower target r =
          ((emailOf lower r.identityKey == some (wantPy lower target)) &&
            ((wantOrgPy lower target).isEmpty ||
              orgOf lower r.identityKey == some (wantOrgPy lower target))) := by
        intro r
        rw [matchesPy, Bool.eq_false_iff.mpr hwant]
        rfl
      have hfilter : rows.filter (matchesPy lower target) = (rows.filter fun r ↦
          emailOf lower r.identityKey == some (wantPy lower target)).filter fun r ↦
            (wantOrgPy lower target).isEmpty ||
              orgOf lower r.identityKey == some (wantOrgPy lower target) := by
        rw [List.filter_filter]
        refine List.filter_congr fun r _ ↦ ?_
        rw [hmatches, Bool.and_comm]
      rw [chosen, hfilter]
      generalize rows.filter (fun r ↦ emailOf lower r.identityKey == some (wantPy lower target)) =
        matched
      cases horg : (wantOrgPy lower target).isEmpty with
      | true => simp
      | false =>
          simp only [Bool.not_false, Bool.true_and, Bool.false_or]
          generalize matched.filter (fun r ↦ orgOf lower r.identityKey ==
            some (wantOrgPy lower target)) = byOrg
          cases hbyOrg : byOrg.isEmpty <;> cases hmatched : matched.isEmpty <;> simp [hbyOrg, hmatched]

end Matches

/-! ## What a run leaves -/

/-- What becomes of a row where `isMatch` holds of some row or other. -/
structure Settles (isMatch : Row → Bool) (anyMatch : Prop) (r r' : Row) : Prop where
  kept : r'.id = r.id ∧ r'.provider = r.provider ∧ r'.credentialType = r.credentialType ∧
    r'.identityKey = r.identityKey ∧ r'.data = r.data
  exact : r.oauth = true → anyMatch → (r'.disabledCause = none ↔ isMatch r = true)
  others : r.oauth = false → r' = r

/-- The run of a program keeps the credentials, enables exactly its matches, and
changes nothing where it has none. -/
structure Sound (isMatch : Row → Bool) (db : Database) (table : Table) (outcome : Outcome) :
    Prop where
  notAborted : outcome.aborted = false
  rows : ∃ table', outcome.database.credentials = some table' ∧
    List.Forall₂ (Settles isMatch (∃ r ∈ table.oauth, isMatch r = true)) table.rows table'.rows
  unmatched : (∀ r ∈ table.oauth, isMatch r = false) → outcome.database = db

section Run

variable {want : List Char} {isMatch : Row → Bool} {table : Table}

theorem mem_matched_ids {r : Row} (hr : r ∈ table.oauth) :
    r.id ∈ (table.oauth.filter isMatch).map Row.id ↔ isMatch r = true := by
  constructor
  · intro hmem
    obtain ⟨q, hq, hid⟩ := List.mem_map.mp hmem
    obtain ⟨hq, hmatch⟩ := List.mem_filter.mp hq
    have heq : q = r := List.inj_on_of_nodup_map table.ids (List.mem_filter.mp hq).1
      (List.mem_filter.mp hr).1 hid
    rwa [← heq]
  · exact fun hmatch ↦ List.mem_map.mpr ⟨r, List.mem_filter.mpr ⟨hr, hmatch⟩, rfl⟩

/-- The rows that are enabled already are the matches, or they are written. -/
theorem chosen_cases (want : List Char) (h : ∃ r ∈ table.oauth, isMatch r = true) :
    (chosen want isMatch table.oauth = none ∧
      ∀ r ∈ table.oauth, r.disabledCause = none ↔ isMatch r = true) ∨
    ∃ choice, chosen want isMatch table.oauth = some choice ∧
      (∀ r ∈ table.oauth, r.id ∈ choice.enabled ↔ isMatch r = true) ∧
      (∀ r ∈ table.oauth, r.id ∈ choice.disabled ↔ isMatch r = false) ∧
      (∀ id, id ∈ choice.enabled ∨ id ∈ choice.disabled → ∃ r ∈ table.oauth, r.id = id) ∧
      ¬∀ r ∈ table.oauth, r.disabledCause = none ↔ isMatch r = true := by
  have hsome : ¬(table.oauth.filter isMatch).isEmpty = true := by
    obtain ⟨r, hr, hmatch⟩ := h
    rw [List.isEmpty_iff]
    exact List.ne_nil_of_mem (List.mem_filter.mpr ⟨hr, hmatch⟩)
  have hothers : ∀ r ∈ table.oauth, r ∈ (table.oauth.filter fun r ↦
      !((table.oauth.filter isMatch).map Row.id).contains r.id) ↔ isMatch r = false := by
    intro r hr
    rw [List.mem_filter, Bool.not_eq_true', List.contains_eq_mem, decide_eq_false_iff_not,
      mem_matched_ids hr, Bool.not_eq_true]
    exact and_iff_right hr
  rw [chosen, if_neg hsome, update]
  split
  · rename_i halready
    obtain ⟨hon, hoff⟩ := (Bool.and_eq_true _ _).mp halready
    refine .inl ⟨rfl, fun r hr ↦ ?_⟩
    cases hmatch : isMatch r with
    | true =>
        have hnone := List.all_eq_true.mp hon r (List.mem_filter.mpr ⟨hr, hmatch⟩)
        exact iff_of_true (Option.isNone_iff_eq_none.mp hnone) rfl
    | false =>
        have hstated := List.all_eq_true.mp hoff r ((hothers r hr).mpr hmatch)
        refine iff_of_false (fun hnone ↦ ?_) Bool.false_ne_true
        rw [hnone] at hstated
        cases hstated
  · rename_i hdue
    refine .inr ⟨_, rfl, fun r hr ↦ mem_matched_ids hr, fun r hr ↦ ?_, ?_, fun hpinned ↦ hdue ?_⟩
    · rw [← hothers r hr]
      constructor
      · intro hmem
        obtain ⟨q, hq, hid⟩ := List.mem_map.mp hmem
        have heq : q = r := List.inj_on_of_nodup_map table.ids
          (List.mem_filter.mp (List.mem_filter.mp hq).1).1 (List.mem_filter.mp hr).1 hid
        rwa [← heq]
      · exact fun hmem ↦ List.mem_map.mpr ⟨r, hmem, rfl⟩
    · rintro id (hmem | hmem)
      · obtain ⟨q, hq, hid⟩ := List.mem_map.mp hmem
        exact ⟨q, (List.mem_filter.mp hq).1, hid⟩
      · obtain ⟨q, hq, hid⟩ := List.mem_map.mp hmem
        exact ⟨q, (List.mem_filter.mp hq).1, hid⟩
    · rw [Bool.and_eq_true, List.all_eq_true, List.all_eq_true]
      refine ⟨fun r hr ↦ ?_, fun r hr ↦ ?_⟩
      · obtain ⟨hr, hmatch⟩ := List.mem_filter.mp hr
        exact Option.isNone_iff_eq_none.mpr ((hpinned r hr).mpr hmatch)
      · have hmem := (List.mem_filter.mp hr).1
        have hmatch := (hothers r hmem).mp hr
        refine Option.ne_none_iff_isSome.mp fun hnone ↦ ?_
        rw [(hpinned r hmem).mp hnone] at hmatch
        cases hmatch

theorem applyTo_keeps (choice : Choice) (now : ℤ) (r : Row) :
    (choice.applyTo now r).id = r.id ∧ (choice.applyTo now r).provider = r.provider ∧
      (choice.applyTo now r).credentialType = r.credentialType ∧
      (choice.applyTo now r).identityKey = r.identityKey ∧
      (choice.applyTo now r).data = r.data := by
  unfold Choice.applyTo
  split
  · exact ⟨rfl, rfl, rfl, rfl, rfl⟩
  · split <;> exact ⟨rfl, rfl, rfl, rfl, rfl⟩

/-- The check behind the update finds nothing. -/
theorem not_mutated (choice : Choice) (now : ℤ) (table : Table) :
    mutated table (choice.write now table) = false := by
  rw [mutated, List.any_eq_false]
  intro r' hr'
  obtain ⟨hmem, hoauth⟩ := List.mem_filter.mp hr'
  obtain ⟨r, hr, rfl⟩ := List.mem_map.mp hmem
  obtain ⟨hid, hprovider, htype, _, hdata⟩ := applyTo_keeps choice now r
  have hbefore : r ∈ table.oauth := by
    refine List.mem_filter.mpr ⟨hr, ?_⟩
    rwa [Row.oauth, hprovider, htype] at hoauth
  have hnodup : ((table.oauth.map fun r ↦ (r.id, r.data)).map Prod.fst).Nodup := by
    rw [List.map_map]
    exact table.ids.sublist (List.filter_sublist.map Row.id)
  have hlookup : (table.oauth.map fun r ↦ (r.id, r.data)).lookup r.id = some r.data :=
    lookup_of_mem hnodup (List.mem_map.mpr ⟨r, hbefore, rfl⟩)
  rw [hid, hdata, hlookup]
  simp

theorem applyTo_settles {choice : Choice} (now : ℤ)
    (henabled : ∀ r ∈ table.oauth, r.id ∈ choice.enabled ↔ isMatch r = true)
    (hdisabled : ∀ r ∈ table.oauth, r.id ∈ choice.disabled ↔ isMatch r = false)
    (hids : ∀ id, id ∈ choice.enabled ∨ id ∈ choice.disabled → ∃ r ∈ table.oauth, r.id = id)
    {r : Row} (hr : r ∈ table.rows) (anyMatch : Prop) :
    Settles isMatch anyMatch r (choice.applyTo now r) := by
  refine ⟨applyTo_keeps choice now r, fun hoauth _ ↦ ?_, fun hoauth ↦ ?_⟩
  · have hmem : r ∈ table.oauth := List.mem_filter.mpr ⟨hr, hoauth⟩
    unfold Choice.applyTo
    cases hmatch : isMatch r with
    | true =>
        rw [if_pos ((henabled r hmem).mpr hmatch)]
        exact iff_of_true rfl rfl
    | false =>
        have hout : r.id ∉ choice.enabled := by
          rw [henabled r hmem, hmatch]
          exact Bool.false_ne_true
        rw [if_neg hout, if_pos ((hdisabled r hmem).mpr hmatch)]
        exact iff_of_false (Option.some_ne_none _) Bool.false_ne_true
  · have hout : ¬(r.id ∈ choice.enabled ∨ r.id ∈ choice.disabled) := by
      intro hmem
      obtain ⟨q, hq, hid⟩ := hids r.id hmem
      obtain ⟨hq, hqOauth⟩ := List.mem_filter.mp hq
      rw [List.inj_on_of_nodup_map table.ids hq hr hid, hoauth] at hqOauth
      cases hqOauth
    obtain ⟨hon, hoff⟩ := not_or.mp hout
    rw [Choice.applyTo, if_neg hon, if_neg hoff]

theorem sound_of_chosen (want : List Char) (isMatch : Row → Bool) (now : ℤ) {db : Database}
    (htable : db.credentials = some table) :
    Sound isMatch db table (run (chosen want isMatch) now db) := by
  have hrun : run (chosen want isMatch) now db = match chosen want isMatch table.oauth with
      | none => ⟨db, false⟩
      | some choice => ⟨⟨some (choice.write now table), db.revision.map (· + 1)⟩,
          mutated table (choice.write now table)⟩ := by
    rw [run, htable]
  by_cases hany : ∃ r ∈ table.oauth, isMatch r = true
  · rcases chosen_cases want hany with ⟨hnone, hexact⟩ | ⟨choice, hsome, hon, hoff, hids, _⟩
    · rw [hrun, hnone]
      refine ⟨rfl, ⟨table, htable, List.forall₂_same.mpr fun r hr ↦ ?_⟩, fun _ ↦ rfl⟩
      exact ⟨⟨rfl, rfl, rfl, rfl, rfl⟩,
        fun hoauth _ ↦ hexact r (List.mem_filter.mpr ⟨hr, hoauth⟩), fun _ ↦ rfl⟩
    · rw [hrun, hsome]
      refine ⟨not_mutated choice now table, ⟨_, rfl, ?_⟩, fun hno ↦ ?_⟩
      · refine List.forall₂_map_right_iff.mpr (List.forall₂_same.mpr fun r hr ↦ ?_)
        exact applyTo_settles now hon hoff hids hr _
      · obtain ⟨r, hr, hmatch⟩ := hany
        rw [hno r hr] at hmatch
        cases hmatch
  · have hno : ∀ r ∈ table.oauth, isMatch r = false := fun r hr ↦
      Bool.eq_false_iff.mpr fun hmatch ↦ hany ⟨r, hr, hmatch⟩
    rw [hrun, chosen_of_none want hno]
    refine ⟨rfl, ⟨table, htable, List.forall₂_same.mpr fun r _ ↦ ?_⟩, fun _ ↦ rfl⟩
    exact ⟨⟨rfl, rfl, rfl, rfl, rfl⟩, fun _ h ↦ absurd h hany, fun _ ↦ rfl⟩

end Run

/-! ## The values behind a tag -/

/-- A part of a key, between the text before it and the text behind it. -/
structure Part where
  before : List Char
  value : List Char
  after : List Char

/-- What stands behind a part. -/
def behind : List (List Char) → List Char
  | [] => []
  | values => '|' :: ['|'].intercalate values

def partsFrom (before : List Char) : List (List Char) → List Part
  | [] => []
  | value :: values =>
      ⟨before, value, behind values⟩ :: partsFrom (before ++ value ++ ['|']) values

/-- The parts of a key between its bars. -/
def parts (key : List Char) : List Part := partsFrom [] (key.splitOn '|')

/-- A part without its tag, in upper or lower case. -/
def Part.untag (tag : String) (p : Part) : Option Part :=
  (dropTag tag p.value).map fun value ↦ ⟨p.before ++ p.value.take tag.length, value, p.after⟩

/-- The values behind a tag, in their order. -/
def tagged (tag : String) (key : List Char) : List Part := (parts key).filterMap (Part.untag tag)

/-- The first value behind a tag. -/
def First (tag : String) (key : List Char) (p : Part) : Prop := (tagged tag key).head? = some p

/-- The first one that is not empty. -/
def Filled (tag : String) (key : List Char) (p : Part) : Prop :=
  (tagged tag key).find? (fun p ↦ !p.value.isEmpty) = some p

section Parts

theorem intercalate_cons (value : List Char) (values : List (List Char)) :
    ['|'].intercalate (value :: values) = value ++ behind values := by
  cases values with
  | nil => simp [behind]
  | cons next values => rw [behind, List.intercalate_cons_cons] <;> simp

theorem behind_cons (value : List Char) (values : List (List Char)) :
    behind (value :: values) = '|' :: (value ++ behind values) := by
  rw [behind, intercalate_cons]
  exact fun h ↦ nomatch h

theorem partsFrom_value (before : List Char) (values : List (List Char)) :
    (partsFrom before values).map Part.value = values := by
  induction values generalizing before with
  | nil => rfl
  | cons value values ih => rw [partsFrom, List.map_cons, ih]

theorem parts_value (key : List Char) : (parts key).map Part.value = key.splitOn '|' :=
  partsFrom_value [] _

variable {casing : Casing}

def Part.inPlace (casing : Casing) (p : Part) : List Char := casing.lowerIn p.before p.value p.after

def Part.trimmed (casing : Casing) (p : Part) : List Char := casing.lower (Js.Text.trimChars p.value)

theorem lowerIn_behind (before : List Char) (values : List (List Char)) :
    casing.lowerIn before (behind values) [] =
      behind ((partsFrom (before ++ ['|']) values).map (Part.inPlace casing)) := by
  induction values generalizing before with
  | nil => rfl
  | cons value values ih =>
      have hbar : ∀ after, casing.lowerAt before '|' after = ['|'] :=
        fun after ↦ casing.ascii _ _ _ (by decide)
      rw [behind_cons, Casing.lowerIn, hbar, Casing.lowerIn_append, List.append_nil, ih, partsFrom,
        List.map_cons, behind_cons, Part.inPlace]
      rfl

theorem lower_splitOn (key : List Char) :
    (casing.lower key).splitOn '|' = (parts key).map (Part.inPlace casing) := by
  have hbars : ∀ text ∈ (parts key).map (Part.inPlace casing), '|' ∉ text := by
    intro text htext
    obtain ⟨p, hp, rfl⟩ := List.mem_map.mp htext
    have hpart : p.value ∈ key.splitOn '|' := by
      rw [← parts_value]
      exact List.mem_map_of_mem hp
    exact Casing.notMem_lowerIn (by decide) (by decide) (not_mem_of_mem_splitOn hpart).1
  have hparts : (parts key).map (Part.inPlace casing) ≠ [] := by
    intro hnil
    have hsplit := parts_value key
    rw [List.map_eq_nil_iff.mp hnil] at hsplit
    exact List.splitOn_ne_nil '|' key hsplit.symm
  have hlower : casing.lower key = ['|'].intercalate ((parts key).map (Part.inPlace casing)) := by
    have hkey : ['|'].intercalate (key.splitOn '|') = key := List.intercalate_splitOn '|'
    conv_lhs => rw [← hkey]
    rw [parts]
    cases key.splitOn '|' with
    | nil => rfl
    | cons value values =>
        rw [intercalate_cons, Casing.lower, Casing.lowerIn_append, lowerIn_behind, partsFrom,
          List.map_cons, intercalate_cons, List.append_nil, Part.inPlace]
  rw [hlower, List.splitOn_intercalate '|' hbars hparts]

theorem isTag_of_all (name : List Char) (mark : Char) (hmark : mark.isAlpha = false)
    (h : ((name ++ [mark]).all fun c ↦ decide (c.toNat < 128) && c != 'k') = true) :
    Casing.IsTag (name ++ [mark]) := by
  refine ⟨fun c hc ↦ ?_, name, mark, rfl, hmark⟩
  obtain ⟨hascii, hkelvin⟩ := (Bool.and_eq_true _ _).mp (List.all_eq_true.mp h c hc)
  exact ⟨of_decide_eq_true hascii, bne_iff_ne.mp hkelvin⟩

theorem tag_isTag {tag : String} (h : tag = "email:" ∨ tag = "org:") :
    Casing.IsTag tag.toList := by
  obtain rfl | rfl := h
  · exact isTag_of_all "email".toList ':' (by decide) (by decide)
  · exact isTag_of_all "org".toList ':' (by decide) (by decide)

/-- The TypeScript program reads the first value that is not empty, trimmed. -/
theorem valueFromKey_some (lower : List Char → List Char) (tag : String) (key : List Char) :
    valueFromKey lower tag (some key) =
      (((tagged tag key).find? fun p ↦ !p.value.isEmpty).map fun p ↦
        lower (Js.Text.trimChars p.value)).filter fun value ↦ !value.isEmpty := by
  have hfirst : ((tagged tag key).find? fun p ↦ !p.value.isEmpty).map Part.value =
      (key.splitOn '|').findSome? fun part ↦
        (dropTag tag part).filter fun value ↦ !value.isEmpty := by
    rw [tagged, ← parts_value, List.findSome?_map]
    induction parts key with
    | nil => rfl
    | cons p ps ih =>
        rw [List.filterMap_cons, List.findSome?_cons, Function.comp_apply, Part.untag]
        cases dropTag tag p.value with
        | none => exact ih
        | some value =>
            cases value with
            | nil => exact ih
            | cons c value => rfl
  rw [valueFromKey, ← hfirst, Option.map_map]
  rfl

/-- The Python program reads the first value, in its place. -/
theorem valueOf_some {tag : String} (htag : Casing.IsTag tag.toList) (key : List Char) :
    valueOf casing.lower tag (some key) = (tagged tag key).head?.map (Part.inPlace casing) := by
  have hread : ∀ p : Part, (if tag.toList.isPrefixOf (p.inPlace casing) then
      some ((p.inPlace casing).drop tag.length) else none) =
        (p.untag tag).map (Part.inPlace casing) := by
    intro p
    rw [Part.untag, dropTag, ← String.length_toList]
    by_cases hprefix : (p.value.take tag.toList.length).map Char.toLower = tag.toList
    · have hlower : tag.toList.isPrefixOf (p.inPlace casing) = true :=
        List.isPrefixOf_iff_prefix.mpr ((Casing.tag_prefix_iff (.inr htag)).mpr hprefix)
      rw [if_pos hprefix, if_pos hlower, Part.inPlace, Casing.drop_tag htag hprefix]
      rfl
    · have hlower : ¬tag.toList.isPrefixOf (p.inPlace casing) = true := fun h ↦
        hprefix ((Casing.tag_prefix_iff (.inr htag)).mp (List.isPrefixOf_iff_prefix.mp h))
      rw [if_neg hprefix, if_neg hlower]
      rfl
  rw [valueOf, tagged, List.head?_filterMap, List.map_findSome?]
  by_cases hkey : key.isEmpty
  · obtain rfl := List.isEmpty_iff.mp hkey
    have hempty : ∀ p ∈ parts [], (p.untag tag).map (Part.inPlace casing) = none := by
      intro p hp
      obtain rfl : p = ⟨[], [], []⟩ := by simpa [parts, partsFrom, behind] using hp
      obtain ⟨name, mark, heq, _⟩ := htag.mark
      simp [Part.untag, dropTag, heq]
    rw [if_pos hkey]
    exact (List.findSome?_eq_none_iff.mpr hempty).symm
  · rw [if_neg hkey, lower_splitOn, List.findSome?_map]
    exact congrArg (fun read ↦ (parts key).findSome? read) (funext hread)

end Parts

/-! ## Agreement -/

def decision (choice : Option Choice) : Option (List ℤ × List ℤ) :=
  choice.map fun c ↦ (c.enabled, c.disabled)

section Agreement

variable (casing : Casing) (target : Target)

/-- Both programs choose the same rows, and each does with its own matches what it
should. -/
structure Agrees (now : ℤ) (db : Database) : Prop where
  same : ∀ table, db.credentials = some table →
    decision (pinOmpAnthropic casing.lower target table.oauth) =
      decision (pinLabel casing.lower target table.oauth)
  soundTs : ∀ table, db.credentials = some table →
    Sound (matchesTs casing.lower target) db table (run (pinOmpAnthropic casing.lower target) now db)
  soundPy : ∀ table, db.credentials = some table →
    Sound (matchesPy casing.lower target) db table (run (pinLabel casing.lower target) now db)
  missing : db.credentials = none →
    run (pinOmpAnthropic casing.lower target) now db = ⟨db, false⟩ ∧
      run (pinLabel casing.lower target) now db = ⟨db, false⟩

/-- A key that has the account behind its first tags with a value, up to white space
around it. -/
structure NamedTs (key : List Char) : Prop where
  asks : wantTs casing.lower target ≠ []
  email : ∃ p, Filled "email:" key p ∧ p.trimmed casing = wantTs casing.lower target
  org : ∀ org, wantOrgTs casing.lower target = some org →
    ∃ p, Filled "org:" key p ∧ p.trimmed casing = org

/-- A key that has the account right behind its first tags. -/
structure NamedPy (key : List Char) : Prop where
  asks : wantPy casing.lower target ≠ []
  email : ∃ p, First "email:" key p ∧ p.inPlace casing = wantPy casing.lower target
  org : wantOrgPy casing.lower target ≠ [] →
    ∃ p, First "org:" key p ∧ p.inPlace casing = wantOrgPy casing.lower target

/-- The first value behind the tag is not the wanted one as it stands. -/
inductive Hidden (tag : String) (want key : List Char) : Prop where
  | untagged (h : tagged tag key = [])
  | emptyTag (p : Part) (h : First tag key p) (hempty : p.value = [])
  /-- There is white space around it, or a letter that is written otherwise here. -/
  | respelled (p : Part) (h : First tag key p) (hfilled : p.value ≠ [])
      (hspelling : p.inPlace casing ≠ want)

/-- The first value behind the tag that is not empty is not the wanted one when it is
trimmed. -/
inductive Lost (tag : String) (want key : List Char) : Prop where
  | unfilled (h : ∀ p ∈ tagged tag key, p.value = [])
  | trimmed (p : Part) (h : Filled tag key p) (hspelling : p.trimmed casing ≠ want)

/-- Of a key that names the account in one way, what keeps it from naming it in the
other. -/
inductive Misread (key : List Char) : Prop where
  /-- Only the Python program drops all of the address. -/
  | unaskedPy (h : NamedTs casing target key) (hwant : wantPy casing.lower target = [])
  | hiddenEmail (h : NamedTs casing target key)
      (hidden : Hidden casing "email:" (wantPy casing.lower target) key)
  | hiddenOrg (h : NamedTs casing target key) (hasked : wantOrgPy casing.lower target ≠ [])
      (hidden : Hidden casing "org:" (wantOrgPy casing.lower target) key)
  | unaskedTs (h : NamedPy casing target key) (hwant : wantTs casing.lower target = [])
  | lostEmail (h : NamedPy casing target key)
      (lost : Lost casing "email:" (wantTs casing.lower target) key)
  | lostOrg (h : NamedPy casing target key) (org : List Char)
      (hasked : wantOrgTs casing.lower target = some org) (lost : Lost casing "org:" org key)

/-- No key is misread; or the account is named in one way nowhere, and in the other way
in the rows that are enabled already. -/
def ReadAlike (rows : List Row) : Prop :=
  (∀ r ∈ rows, ∀ key ∈ r.identityKey, ¬Misread casing target key) ∨
    ((∀ r ∈ rows, ∀ key ∈ r.identityKey, ¬NamedTs casing target key) ∧
      ∀ r ∈ rows, r.disabledCause = none ↔ ∃ key ∈ r.identityKey, NamedPy casing target key) ∨
    ((∀ r ∈ rows, ∀ key ∈ r.identityKey, ¬NamedPy casing target key) ∧
      ∀ r ∈ rows, r.disabledCause = none ↔ ∃ key ∈ r.identityKey, NamedTs casing target key)

variable {casing target} {key : List Char}

/-! ### Names and matches -/

theorem hidden_iff {tag : String} {want : List Char} (hwant : want ≠ []) :
    Hidden casing tag want key ↔ ¬∃ p, First tag key p ∧ p.inPlace casing = want := by
  constructor
  · rintro (hnil | ⟨p, hfirst, hempty⟩ | ⟨p, hfirst, _, hspelling⟩) ⟨q, hq, hwanted⟩
    · rw [First, hnil] at hq
      cases hq
    · obtain rfl := Option.some.inj (hfirst.symm.trans hq)
      rw [Part.inPlace, hempty] at hwanted
      exact hwant hwanted.symm
    · obtain rfl := Option.some.inj (hfirst.symm.trans hq)
      exact hspelling hwanted
  · intro hnone
    cases htagged : (tagged tag key).head? with
    | none => exact .untagged (List.head?_eq_none_iff.mp htagged)
    | some p =>
        by_cases hempty : p.value = []
        · exact .emptyTag p htagged hempty
        · exact .respelled p htagged hempty fun hwanted ↦ hnone ⟨p, htagged, hwanted⟩

theorem lost_iff {tag : String} {want : List Char} :
    Lost casing tag want key ↔ ¬∃ p, Filled tag key p ∧ p.trimmed casing = want := by
  constructor
  · rintro (hnone | ⟨p, hfilled, hspelling⟩) ⟨q, hq, hwanted⟩
    · have hvalue := List.find?_some hq
      rw [hnone q (List.mem_of_find?_eq_some hq)] at hvalue
      cases hvalue
    · obtain rfl := Option.some.inj (hfilled.symm.trans hq)
      exact hspelling hwanted
  · intro hnone
    cases htagged : (tagged tag key).find? fun p ↦ !p.value.isEmpty with
    | none =>
        refine .unfilled fun p hp ↦ ?_
        simpa using List.find?_eq_none.mp htagged p hp
    | some p => exact .trimmed p htagged fun hwanted ↦ hnone ⟨p, htagged, hwanted⟩

theorem misread_iff :
    Misread casing target key ↔ ¬(NamedTs casing target key ↔ NamedPy casing target key) := by
  constructor
  · rintro (⟨h, hwant⟩ | ⟨h, hidden⟩ | ⟨h, hasked, hidden⟩ | ⟨h, hwant⟩ | ⟨h, lost⟩ |
      ⟨h, org, hasked, lost⟩) hsame
    · exact (hsame.mp h).asks hwant
    · exact (hidden_iff (hsame.mp h).asks).mp hidden (hsame.mp h).email
    · exact (hidden_iff hasked).mp hidden ((hsame.mp h).org hasked)
    · exact (hsame.mpr h).asks hwant
    · exact lost_iff.mp lost (hsame.mpr h).email
    · exact lost_iff.mp lost ((hsame.mpr h).org org hasked)
  · intro hdiffer
    by_contra hread
    refine hdiffer ⟨fun h ↦ ?_, fun h ↦ ?_⟩
    · have hwant : wantPy casing.lower target ≠ [] := fun hnil ↦ hread (.unaskedPy h hnil)
      refine ⟨hwant, ?_, fun hasked ↦ ?_⟩
      · by_contra hnone
        exact hread (.hiddenEmail h ((hidden_iff hwant).mpr hnone))
      · by_contra hnone
        exact hread (.hiddenOrg h hasked ((hidden_iff hasked).mpr hnone))
    · refine ⟨fun hnil ↦ hread (.unaskedTs h hnil), ?_, fun org hasked ↦ ?_⟩
      · by_contra hnone
        exact hread (.lostEmail h (lost_iff.mpr hnone))
      · by_contra hnone
        exact hread (.lostOrg h org hasked (lost_iff.mpr hnone))

theorem valueFromKey_eq_some {tag : String} {value : List Char} (hvalue : value ≠ []) :
    valueFromKey casing.lower tag (some key) = some value ↔
      ∃ p, Filled tag key p ∧ p.trimmed casing = value := by
  rw [valueFromKey_some, Option.filter_eq_some_iff, Option.map_eq_some_iff]
  refine and_iff_left ?_
  simpa using hvalue

theorem valueOf_eq_some {tag : String} {value : List Char} (htag : tag = "email:" ∨ tag = "org:") :
    valueOf casing.lower tag (some key) = some value ↔
      ∃ p, First tag key p ∧ p.inPlace casing = value := by
  rw [valueOf_some (tag_isTag htag), Option.map_eq_some_iff]
  rfl

theorem wantOrgTs_ne_nil {org : List Char} (h : wantOrgTs casing.lower target = some org) :
    org ≠ [] := by
  have hfilled := (Option.filter_eq_some_iff.mp h).2
  simpa using hfilled

theorem matchesTs_iff {r : Row} :
    matchesTs casing.lower target r = true ↔ ∃ key ∈ r.identityKey, NamedTs casing target key := by
  cases hkey : r.identityKey with
  | none => simp [matchesTs, hkey, emailFromIdentityKey, valueFromKey]
  | some key =>
      simp only [Option.mem_some_iff, exists_eq_left']
      constructor
      · intro h
        simp only [matchesTs, hkey, Bool.and_eq_true, Bool.not_eq_true', List.isEmpty_eq_false_iff,
          beq_iff_eq] at h
        obtain ⟨⟨hasks, hemail⟩, horg⟩ := h
        refine ⟨hasks, (valueFromKey_eq_some hasks).mp hemail, fun org hasked ↦ ?_⟩
        rw [hasked] at horg
        exact (valueFromKey_eq_some (wantOrgTs_ne_nil hasked)).mp (beq_iff_eq.mp horg)
      · intro h
        simp only [matchesTs, hkey, Bool.and_eq_true, Bool.not_eq_true', List.isEmpty_eq_false_iff,
          beq_iff_eq]
        refine ⟨⟨h.asks, (valueFromKey_eq_some h.asks).mpr h.email⟩, ?_⟩
        cases hasked : wantOrgTs casing.lower target with
        | none => rfl
        | some org =>
            exact beq_iff_eq.mpr
              ((valueFromKey_eq_some (wantOrgTs_ne_nil hasked)).mpr (h.org org hasked))

theorem matchesPy_iff {r : Row} :
    matchesPy casing.lower target r = true ↔ ∃ key ∈ r.identityKey, NamedPy casing target key := by
  cases hkey : r.identityKey with
  | none => simp [matchesPy, hkey, emailOf, valueOf]
  | some key =>
      simp only [Option.mem_some_iff, exists_eq_left']
      simp only [matchesPy, hkey, Bool.and_eq_true, Bool.not_eq_true', List.isEmpty_eq_false_iff,
        beq_iff_eq, Bool.or_eq_true, List.isEmpty_iff]
      constructor
      · rintro ⟨⟨hasks, hemail⟩, horg⟩
        exact ⟨hasks, (valueOf_eq_some (.inl rfl)).mp hemail, fun hasked ↦
          (valueOf_eq_some (.inr rfl)).mp (horg.resolve_left hasked)⟩
      · intro h
        refine ⟨⟨h.asks, (valueOf_eq_some (.inl rfl)).mpr h.email⟩, ?_⟩
        by_cases hasked : wantOrgPy casing.lower target = []
        · exact .inl hasked
        · exact .inr ((valueOf_eq_some (.inr rfl)).mpr (h.org hasked))

theorem matches_eq_iff {r : Row} :
    matchesTs casing.lower target r = matchesPy casing.lower target r ↔
      ∀ key ∈ r.identityKey, ¬Misread casing target key := by
  rw [Bool.eq_iff_iff, matchesTs_iff, matchesPy_iff]
  cases r.identityKey with
  | none => simp
  | some key => simp [misread_iff]

/-- The rows that are enabled are those with a match. -/
def Pinned (isMatch : Row → Bool) (rows : List Row) : Prop :=
  ∀ r ∈ rows, r.disabledCause = none ↔ isMatch r = true

theorem chosen_eq_none {want : List Char} {isMatch : Row → Bool} {table : Table} :
    chosen want isMatch table.oauth = none ↔
      (∀ r ∈ table.oauth, isMatch r = false) ∨ Pinned isMatch table.oauth := by
  by_cases hany : ∃ r ∈ table.oauth, isMatch r = true
  · rcases chosen_cases want hany with ⟨hnone, hexact⟩ | ⟨choice, hsome, _, _, _, hdue⟩
    · exact iff_of_true hnone (.inr hexact)
    · rw [hsome]
      refine iff_of_false (Option.some_ne_none _) (not_or.mpr ⟨fun hno ↦ ?_, hdue⟩)
      obtain ⟨r, hr, hmatch⟩ := hany
      rw [hno r hr] at hmatch
      cases hmatch
  · have hno : ∀ r ∈ table.oauth, isMatch r = false := fun r hr ↦
      Bool.eq_false_iff.mpr fun hmatch ↦ hany ⟨r, hr, hmatch⟩
    exact iff_of_true (chosen_of_none want hno) (.inl hno)

theorem chosen_eq_some {want : List Char} {isMatch : Row → Bool} {table : Table} {choice : Choice}
    (h : chosen want isMatch table.oauth = some choice) :
    ∀ r ∈ table.oauth, r.id ∈ choice.enabled ↔ isMatch r = true := by
  have hany : ∃ r ∈ table.oauth, isMatch r = true := by
    by_contra hnone
    have hno := chosen_of_none want fun r hr ↦ Bool.eq_false_iff.mpr fun hmatch ↦ hnone ⟨r, hr, hmatch⟩
    rw [hno] at h
    cases h
  rcases chosen_cases want hany with ⟨hnone, _⟩ | ⟨choice', hsome, hon, _⟩
  · rw [hnone] at h
    cases h
  · rw [hsome] at h
    rwa [Option.some.inj h] at hon

/-- The cause that is written does not bear on the choice. -/
theorem decision_want (a b : List Char) (isMatch : Row → Bool) (rows : List Row) :
    decision (chosen a isMatch rows) = decision (chosen b isMatch rows) := by
  unfold chosen update
  split
  · rfl
  · dsimp only
    split <;> rfl

theorem decision_eq_iff {a b : List Char} {isMatch isMatch' : Row → Bool} {table : Table} :
    decision (chosen a isMatch table.oauth) = decision (chosen b isMatch' table.oauth) ↔
      (∀ r ∈ table.oauth, isMatch r = isMatch' r) ∨
        ((∀ r ∈ table.oauth, isMatch r = false) ∧ Pinned isMatch' table.oauth) ∨
        ((∀ r ∈ table.oauth, isMatch' r = false) ∧ Pinned isMatch table.oauth) := by
  constructor
  · intro h
    cases hleft : chosen a isMatch table.oauth with
    | none =>
        cases hright : chosen b isMatch' table.oauth with
        | none =>
            rcases chosen_eq_none.mp hleft with hno | hpinned
            · rcases chosen_eq_none.mp hright with hno' | hpinned'
              · exact .inl fun r hr ↦ (hno r hr).trans (hno' r hr).symm
              · exact .inr (.inl ⟨hno, hpinned'⟩)
            · rcases chosen_eq_none.mp hright with hno' | hpinned'
              · exact .inr (.inr ⟨hno', hpinned⟩)
              · exact .inl fun r hr ↦
                  Bool.eq_iff_iff.mpr ((hpinned r hr).symm.trans (hpinned' r hr))
        | some choice =>
            rw [hleft, hright] at h
            cases h
    | some choice =>
        cases hright : chosen b isMatch' table.oauth with
        | none =>
            rw [hleft, hright] at h
            cases h
        | some choice' =>
            rw [hleft, hright] at h
            have henabled : choice.enabled = choice'.enabled :=
              (Prod.mk.inj (Option.some.inj h)).1
            refine .inl fun r hr ↦ Bool.eq_iff_iff.mpr ?_
            rw [← chosen_eq_some hleft r hr, ← chosen_eq_some hright r hr, henabled]
  · rintro (hsame | ⟨hno, hpinned⟩ | ⟨hno, hpinned⟩)
    · have hfilter : chosen a isMatch table.oauth = chosen a isMatch' table.oauth := by
        rw [chosen, chosen, List.filter_congr hsame]
      rw [hfilter]
      exact decision_want a b isMatch' table.oauth
    · rw [chosen_of_none _ hno, chosen_eq_none.mpr (.inr hpinned)]
    · rw [chosen_of_none _ hno, chosen_eq_none.mpr (.inr hpinned)]

theorem readAlike_iff {rows : List Row} : ReadAlike casing target rows ↔
    (∀ r ∈ rows, matchesTs casing.lower target r = matchesPy casing.lower target r) ∨
      ((∀ r ∈ rows, matchesTs casing.lower target r = false) ∧
        Pinned (matchesPy casing.lower target) rows) ∨
      ((∀ r ∈ rows, matchesPy casing.lower target r = false) ∧
        Pinned (matchesTs casing.lower target) rows) := by
  simp only [ReadAlike, Pinned, matches_eq_iff, matchesTs_iff, matchesPy_iff,
    Bool.eq_false_iff, ne_eq, not_exists, not_and]

/-- A value that is filled, of ASCII, and without white space around it. -/
structure Part.Plain (p : Part) : Prop where
  filled : p.value ≠ []
  ascii : ∀ c ∈ p.value, c.toNat < 128
  trimmed : Js.Text.trimChars p.value = p.value

/-- Keys without oddities are read alike. -/
theorem not_misread_of_plain (hemail : Js.Text.trimChars target.email = Py.stripped target.email)
    (horg : ∀ org ∈ target.org, Js.Text.trimChars org = Py.stripped org)
    (hplain : ∀ tag p, p ∈ tagged tag key → p.Plain) : ¬Misread casing target key := by
  have hwant : wantTs casing.lower target = wantPy casing.lower target := by
    rw [wantTs, wantPy, hemail]
  have hwantOrg : ∀ org, wantOrgTs casing.lower target = some org ↔
      wantOrgPy casing.lower target = org ∧ org ≠ [] := by
    intro org
    rw [wantOrgTs, wantOrgPy, Option.filter_eq_some_iff]
    cases hstated : target.org with
    | none =>
        simp only [Option.map_none, reduceCtorEq, false_and, Option.getD_none, false_iff, not_and]
        rintro rfl
        exact fun hne ↦ hne rfl
    | some stated => simp [horg stated hstated]
  have hvalues : ∀ tag p, (Filled tag key p ↔ First tag key p) ∧
      (First tag key p → p.trimmed casing = p.inPlace casing) := by
    intro tag p
    have hfilled : ∀ q ∈ tagged tag key, (!q.value.isEmpty) = true := fun q hq ↦ by
      simpa using (hplain tag q hq).filled
    constructor
    · rw [Filled, First]
      cases htagged : tagged tag key with
      | nil => rfl
      | cons q qs =>
          have hq := hfilled q (by rw [htagged]; exact List.mem_cons_self)
          rw [List.find?_cons, hq, List.head?_cons]
    · intro hfirst
      have hp := hplain tag p (List.mem_of_mem_head? hfirst)
      rw [Part.trimmed, Part.inPlace, hp.trimmed, Casing.lower_ascii hp.ascii,
        Casing.lowerIn_ascii hp.ascii]
  have hread : ∀ tag want, (∃ p, Filled tag key p ∧ p.trimmed casing = want) ↔
      ∃ p, First tag key p ∧ p.inPlace casing = want := by
    intro tag want
    refine exists_congr fun p ↦ ?_
    rw [(hvalues tag p).1]
    exact and_congr_right fun hfirst ↦ by rw [(hvalues tag p).2 hfirst]
  rw [misread_iff, not_not]
  constructor
  · rintro ⟨hasks, hnamed, hnamedOrg⟩
    refine ⟨hwant ▸ hasks, hwant ▸ (hread _ _).mp hnamed, fun hasked ↦ ?_⟩
    exact (hread _ _).mp (hnamedOrg _ ((hwantOrg _).mpr ⟨rfl, hasked⟩))
  · rintro ⟨hasks, hnamed, hnamedOrg⟩
    refine ⟨hwant ▸ hasks, (hread _ _).mpr (hwant ▸ hnamed), fun org hstated ↦ ?_⟩
    obtain ⟨rfl, hasked⟩ := (hwantOrg org).mp hstated
    exact (hread _ _).mpr (hnamedOrg hasked)

/-- Of every database and every account, whatever lower case is. -/
theorem pins_agree_iff (casing : Casing) (target : Target) (now : ℤ) (db : Database) :
    Agrees casing target now db ↔
      ∀ table, db.credentials = some table → ReadAlike casing target table.oauth := by
  have hts : pinOmpAnthropic casing.lower target =
      chosen (wantTs casing.lower target) (matchesTs casing.lower target) :=
    funext (pinOmpAnthropic_eq casing.lower target)
  have hpy : pinLabel casing.lower target =
      chosen (wantPy casing.lower target) (matchesPy casing.lower target) :=
    funext (pinLabel_eq casing.lower target)
  have hsame : ∀ table : Table, decision (pinOmpAnthropic casing.lower target table.oauth) =
      decision (pinLabel casing.lower target table.oauth) ↔ ReadAlike casing target table.oauth := by
    intro table
    rw [hts, hpy, readAlike_iff]
    exact decision_eq_iff
  constructor
  · exact fun h table htable ↦ (hsame table).mp (h.same table htable)
  · intro h
    refine ⟨fun table htable ↦ (hsame table).mpr (h table htable), fun table htable ↦ ?_,
      fun table htable ↦ ?_, fun hmissing ↦ ?_⟩
    · rw [hts]
      exact sound_of_chosen _ _ now htable
    · rw [hpy]
      exact sound_of_chosen _ _ now htable
    · simp only [run, hmissing, and_self]

/-- Lower case of ASCII. -/
def asciiCasing : Casing where
  lowerAt _ c _ := [c.toLower]
  ascii _ _ _ _ := rfl
  other _ c _ h := .inr ⟨c.toLower, List.mem_singleton_self _, by rwa [toLower_of_le h]⟩
  letters _ c _ h d hd hascii := by
    rw [List.mem_singleton.mp hd, toLower_of_le h] at hascii
    omega

/-- A row of the account with a blank behind the colon, and one of another account. -/
def blankBehindColon : Database where
  credentials := some
    ⟨[⟨1, "anthropic", "oauth", some "email: ada@dev.io".toList, some "away".toList, [], 0⟩,
      ⟨2, "anthropic", "oauth", some "email:bob@dev.io".toList, none, [], 0⟩], by decide⟩
  revision := none

theorem blank_not_agreed :
    ¬Agrees asciiCasing ⟨"ada@dev.io".toList, none⟩ 0 blankBehindColon := by
  intro h
  exact absurd (h.same _ rfl) (by decide)

end Agreement

end RemoteDevbox.Account.OmpPin
