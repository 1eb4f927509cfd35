import RemoteDevbox.Lib.Py.Value

namespace RemoteDevbox.Account.State

open Py

/-!
# The account in the state document

`identity-extract` takes the keys of the account out of Claude's state document,
`identity-apply` sets or deletes them there. A document is what `json.load`
reads and `json.dump` writes back.
-/

def KEYS : List Str :=
  ["userID", "oauthAccount", "modelAccessCache", "orgModelDefaultCache", "passesEligibilityCache",
    "s1mAccessCache", "cachedStatsigGates"].map Py.str

abbrev Fields := List (Str × Value)

/-! ## The operations -/

/-- `{k: data[k] for k in KEYS if k in data}` -/
def accountKeys (data : Fields) : Fields := KEYS.filterMap fun k ↦ (data.lookup k).map (k, ·)

/-- `info` reads the account, which has to be a mapping, and its fields. -/
def info (identity : Fields) : Py Fields := do
  let account ← match identity.lookup (str "oauthAccount") with
    | some (.dict account) => pure account
    | some v => if v.truthy then .error .attributeError else pure []
    | none => pure []
  let field (k : String) := (account.lookup (str k)).getD ""
  return [(str "email", field "emailAddress"), (str "org", field "organizationName"),
    (str "orgUuid", field "organizationUuid"), (str "orgType", field "organizationType"),
    (str "accountUuid", field "accountUuid"),
    (str "userID", (identity.lookup (str "userID")).getD "")]

/-- `sys.exit` with a message, or an exception. -/
inductive Failure where
  | nothingLoggedIn
  | raised (e : Raised)

/-- What is saved, with what is printed. -/
def identityExtract (data : Fields) : Except Failure (Fields × Fields) := do
  let identity := accountKeys data
  if !((identity.lookup (str "oauthAccount")).any Value.truthy) then throw .nothingLoggedIn
  else match info identity with
    | .ok shown => return (identity, shown)
    | .error e => throw (.raised e)

example : ∃ shown, identityExtract
    [(str "theme", "dark"), (str "oauthAccount", .dict [(str "emailAddress", "a@b.dev")])] =
      .ok ([(str "oauthAccount", .dict [(str "emailAddress", "a@b.dev")])], shown) := ⟨_, rfl⟩

/-- `data.pop(k, None)` -/
def pop (data : Fields) (k : Str) : Fields := data.filter (·.1 != k)

def applyKey (identity data : Fields) (k : Str) : Fields :=
  match identity.lookup k with
  | some v => assign data k v
  | none => pop data k

/-- The document that is saved. -/
def identityApply (identity data : Fields) : Fields := KEYS.foldl (applyKey identity) data

/-! ## Documents and identities -/

/-- An object of JSON; its keys differ. -/
structure Document where
  fields : Fields
  nodup : (fields.map Prod.fst).Nodup

/-- An identity in the vault: what `identity-extract` printed the account of. -/
structure Parked where
  fields : Fields
  extracted : ∃ data : Document, ∃ shown, identityExtract data.fields = .ok (fields, shown)

/-- Equality of dictionaries. -/
def SameFields (a b : Fields) : Prop := ∀ k, a.lookup k = b.lookup k

section Lookup

variable {identity data : Fields} {k j : Str}

theorem lookup_pop : (pop data k).lookup j = if j = k then none else data.lookup j := by
  induction data with
  | nil => simp [pop]
  | cons p data ih =>
      obtain ⟨i, v⟩ := p
      by_cases hi : i = k
      · subst hi
        have hstep : pop ((i, v) :: data) i = pop data i := List.filter_cons_of_neg (by simp)
        rw [hstep, ih, List.lookup_cons]
        by_cases hj : j = i
        · rw [if_pos hj, if_pos hj]
        · rw [if_neg hj, if_neg hj, beq_false_of_ne hj]
      · have hstep : pop ((i, v) :: data) k = (i, v) :: pop data k :=
          List.filter_cons_of_pos (by simpa using hi)
        rw [hstep, List.lookup_cons, List.lookup_cons, ih]
        by_cases hj : j = i
        · subst hj
          simp [hi]
        · rw [beq_false_of_ne hj]

/-- One key is made equal, the others are left. -/
theorem lookup_applyKey : (applyKey identity data k).lookup j =
    if j = k then identity.lookup j else data.lookup j := by
  unfold applyKey
  split
  · rename_i v hv
    rw [lookup_assign]
    split
    · rename_i heq
      rw [heq, hv]
    · rfl
  · rename_i hnone
    rw [lookup_pop]
    split
    · rename_i heq
      rw [heq, hnone]
    · rfl

theorem lookup_foldl_applyKey (ks : List Str) :
    (ks.foldl (applyKey identity) data).lookup j =
      if j ∈ ks then identity.lookup j else data.lookup j := by
  induction ks generalizing data with
  | nil => simp
  | cons k ks ih =>
      rw [List.foldl_cons, ih, lookup_applyKey]
      by_cases hks : j ∈ ks
      · simp [hks]
      · by_cases hk : j = k <;> simp [hks, hk]

theorem lookup_identityApply : (identityApply identity data).lookup j =
    if j ∈ KEYS then identity.lookup j else data.lookup j := lookup_foldl_applyKey KEYS

theorem accountKeys_congr (h : ∀ k ∈ KEYS, identity.lookup k = data.lookup k) :
    accountKeys identity = accountKeys data := by
  refine List.filterMap_congr fun k hk ↦ ?_
  rw [h k hk]

theorem lookup_accountKeys : (accountKeys data).lookup j =
    if j ∈ KEYS then data.lookup j else none := by
  have hgeneral : ∀ ks : List Str, (ks.filterMap fun k ↦ (data.lookup k).map (k, ·)).lookup j =
      if j ∈ ks then data.lookup j else none := by
    intro ks
    induction ks with
    | nil => rfl
    | cons k ks ih =>
        rw [List.filterMap_cons]
        by_cases hj : j = k
        · subst hj
          cases hv : data.lookup j with
          | none =>
              rw [hv] at ih
              simpa using ih
          | some v => simp
        · have hne : (j == k) = false := by simpa using hj
          cases hv : data.lookup k with
          | none => simpa [hj] using ih
          | some v => simpa [List.lookup_cons, hne, hj] using ih
  exact hgeneral KEYS

end Lookup

/-! ## What is left alone -/

/-- The entries that are no key of the account. -/
def rest (data : Fields) : Fields := data.filter fun p ↦ !KEYS.contains p.1

section Rest

variable {identity data : Fields} {k : Str}

theorem rest_assign (hk : k ∈ KEYS) (v : Value) : rest (assign data k v) = rest data := by
  have hout : ∀ w : Value, ∀ d : Fields, rest ((k, w) :: d) = rest d := by
    intro w d
    exact List.filter_cons_of_neg (by simpa using hk)
  induction data with
  | nil => exact hout v []
  | cons p data ih =>
      obtain ⟨j, w⟩ := p
      by_cases hj : j = k
      · subst hj
        rw [assign, if_pos rfl, hout, hout]
      · rw [assign, if_neg hj]
        by_cases hkeys : j ∈ KEYS
        · rw [rest, List.filter_cons_of_neg (by simpa using hkeys), rest,
            List.filter_cons_of_neg (by simpa using hkeys)]
          exact ih
        · rw [rest, List.filter_cons_of_pos (by simpa using hkeys), rest,
            List.filter_cons_of_pos (by simpa using hkeys)]
          exact congrArg ((j, w) :: ·) ih

theorem rest_pop (hk : k ∈ KEYS) : rest (pop data k) = rest data := by
  rw [rest, pop, List.filter_filter, rest]
  refine List.filter_congr fun p _ ↦ ?_
  by_cases hp : p.1 ∈ KEYS
  · simp [hp]
  · have hne : p.1 ≠ k := fun heq ↦ hp (heq ▸ hk)
    simp [hp, hne]

theorem rest_identityApply : rest (identityApply identity data) = rest data := by
  have hgeneral : ∀ ks ⊆ KEYS, rest (ks.foldl (applyKey identity) data) = rest data := by
    intro ks
    induction ks generalizing data with
    | nil => exact fun _ ↦ rfl
    | cons k ks ih =>
        intro hks
        obtain ⟨hk, hks⟩ := List.cons_subset.mp hks
        rw [List.foldl_cons, ih hks, applyKey]
        split
        · exact rest_assign hk _
        · exact rest_pop hk
  exact hgeneral KEYS (List.Subset.refl KEYS)

end Rest

/-! ## Applied to a document -/

theorem nodup_applyKey {identity data : Fields} (h : (data.map Prod.fst).Nodup) (k : Str) :
    ((applyKey identity data k).map Prod.fst).Nodup := by
  unfold applyKey
  split
  · exact nodup_assign h k _
  · exact h.sublist ((List.filter_sublist).map Prod.fst)

/-- The keys of the document that is saved differ again. -/
def Document.apply (data : Document) (identity : Parked) : Document where
  fields := identityApply identity.fields data.fields
  nodup := by
    have hgeneral : ∀ (ks : List Str) (fields : Fields), (fields.map Prod.fst).Nodup →
        ((ks.foldl (applyKey identity.fields) fields).map Prod.fst).Nodup := by
      intro ks
      induction ks with
      | nil => exact fun _ h ↦ h
      | cons k ks ih => exact fun fields h ↦ ih _ (nodup_applyKey h k)
    exact hgeneral KEYS data.fields data.nodup

theorem identityExtract_eq_ok {data identity shown : Fields} :
    identityExtract data = .ok (identity, shown) ↔ identity = accountKeys data ∧
      (identity.lookup (str "oauthAccount")).any Value.truthy = true ∧
      info identity = .ok shown := by
  unfold identityExtract
  dsimp only
  split
  · rename_i hnone
    constructor
    · intro h
      cases h
    · rintro ⟨rfl, hany, _⟩
      rw [hany] at hnone
      cases hnone
  · rename_i hany
    rw [Bool.not_eq_true', Bool.not_eq_false] at hany
    split
    · rename_i shown' hshown
      constructor
      · intro h
        obtain ⟨rfl, rfl⟩ := Prod.mk.inj (Except.ok.inj h)
        exact ⟨rfl, hany, hshown⟩
      · rintro ⟨rfl, _, hinfo⟩
        rw [hinfo] at hshown
        rw [Except.ok.inj hshown]
        rfl
    · rename_i e he
      constructor
      · intro h
        cases h
      · rintro ⟨rfl, _, hinfo⟩
        rw [hinfo] at he
        cases he

/-- What was taken out comes back out of any document it is applied to. -/
theorem accountKeys_apply (identity : Parked) (data : Document) :
    accountKeys (data.apply identity).fields = identity.fields := by
  obtain ⟨source, shown, hextracted⟩ := identity.extracted
  obtain ⟨hidentity, _⟩ := identityExtract_eq_ok.mp hextracted
  have hsame : ∀ k ∈ KEYS,
      (data.apply identity).fields.lookup k = source.fields.lookup k := by
    intro k hk
    have happlied : (data.apply identity).fields.lookup k = identity.fields.lookup k :=
      lookup_identityApply.trans (if_pos hk)
    rw [happlied, hidentity, lookup_accountKeys, if_pos hk]
  rw [accountKeys_congr hsame, hidentity]

/-- Of every document and every two parked identities. -/
theorem identity_swap_exact (data : Document) (a b : Parked) :
    (∃ shown, identityExtract (data.apply b).fields = .ok (b.fields, shown)) ∧
      (∀ k ∈ KEYS, (data.apply b).fields.lookup k = b.fields.lookup k) ∧
      rest (data.apply b).fields = rest data.fields ∧
      SameFields ((data.apply a).apply b).fields (data.apply b).fields := by
  have hlookup : ∀ (d : Document) (k : Str), (d.apply b).fields.lookup k =
      if k ∈ KEYS then b.fields.lookup k else d.fields.lookup k := fun _ _ ↦ lookup_identityApply
  refine ⟨?_, fun k hk ↦ (hlookup data k).trans (if_pos hk), rest_identityApply, ?_⟩
  · obtain ⟨source, shown, hextracted⟩ := b.extracted
    obtain ⟨_, hlogged, hshown⟩ := identityExtract_eq_ok.mp hextracted
    exact ⟨shown, identityExtract_eq_ok.mpr ⟨(accountKeys_apply b data).symm, hlogged, hshown⟩⟩
  · intro k
    rw [hlookup, hlookup]
    split
    · rfl
    · rename_i hk
      exact lookup_identityApply.trans (if_neg hk)

end RemoteDevbox.Account.State
