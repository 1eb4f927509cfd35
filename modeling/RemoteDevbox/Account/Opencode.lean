import RemoteDevbox.Lib.Runs
import Mathlib.Data.List.Sort
import Mathlib.Data.String.Basic
import Mathlib.Logic.Function.Basic
import Mathlib.Tactic.Common

namespace RemoteDevbox.Account.Opencode

/-!
# Swapping the OpenCode account

The keys stand in rows of a table, one for each provider. `use` parks the rows of the active
label and writes those of another over them, provider by provider.
-/

/-- A row of `auth_credentials`. -/
structure Entry where
  id : ℕ
  provider : String
  credentialType : String
  data : String
  deriving DecidableEq

/-- A row as it is read and parked. -/
structure Row where
  /-- That of the table it was read of; a row made of a key has none. -/
  id : Option ℕ
  provider : String
  data : String
  deriving DecidableEq

def Entry.row (e : Entry) : Row := ⟨some e.id, e.provider, e.data⟩

/-- What a row brings over: the provider and the data. -/
abbrev Key := String × String

def Row.key (row : Row) : Key := (row.provider, row.data)

/-- `provider LIKE 'opencode-%'`, which does not tell case. -/
def like (provider : String) : Bool :=
  "opencode-".toList.isPrefixOf (provider.toList.map Char.toLower)

def Entry.isKey (e : Entry) : Bool := like e.provider && e.credentialType == "api_key"

/-- The order of `ORDER BY provider`. -/
def before (a b : Row) : Bool := a.provider ≤ b.provider

def readOpencodeRows (table : List Entry) : List Row :=
  ((table.filter Entry.isKey).map Entry.row).mergeSort before

/-- The entry that the query of `apply_rows` finds. -/
def Row.finds (row : Row) (e : Entry) : Prop :=
  e.provider = row.provider ∧ e.credentialType = "api_key"

instance (row : Row) (e : Entry) : Decidable (row.finds e) := inferInstanceAs (Decidable (_ ∧ _))

/-- `UPDATE` where an entry is found, `INSERT` otherwise. -/
def applyRow (row : Row) (id : ℕ) : List Entry → List Entry
  | [] => [⟨id, row.provider, "api_key", row.data⟩]
  | e :: table =>
      if row.finds e then { e with data := row.data } :: table else e :: applyRow row id table

-- The id that the database gives a row that is inserted.
variable (fresh : List Entry → ℕ)

def applyRows (table : List Entry) (rows : List Row) : List Entry :=
  rows.foldl (fun table row ↦ applyRow row (fresh table) table) table

/-! ## What applying rows comes to -/

/-- No two keys of one provider. -/
def Distinct (table : List Entry) : Prop :=
  table.Pairwise fun e e' ↦
    e.credentialType = "api_key" → e'.credentialType = "api_key" → e.provider ≠ e'.provider

def keysOf (rows : List Row) : List Key := rows.map Row.key

/-- The keys that are read of a table. -/
def keys (table : List Entry) : List Key := keysOf (readOpencodeRows table)

def Sorted (ks : List Key) : Prop := ks.Pairwise fun a b ↦ a.1 < b.1

def providers (ks : List Key) : List String := ks.map Prod.fst

def Entry.holds (e : Entry) (key : Key) : Prop :=
  e.credentialType = "api_key" ∧ e.provider = key.1 ∧ e.data = key.2

variable {fresh} {table : List Entry} {rows : List Row} {key : Key}

theorem Row.key_eq {row : Row} : key = row.key ↔ row.provider = key.1 ∧ row.data = key.2 := by
  rw [Row.key, Prod.ext_iff]
  exact and_congr eq_comm eq_comm

theorem Distinct.not_finds {row : Row} {e : Entry} (h : Distinct (e :: table)) (hfinds : row.finds e)
    {e' : Entry} (hmem : e' ∈ table) : ¬row.finds e' :=
  fun hfinds' ↦ (List.pairwise_cons.mp h).1 e' hmem hfinds.2 hfinds'.2
    (hfinds.1.trans hfinds'.1.symm)

theorem mem_applyRow {row : Row} {id : ℕ} {e : Entry} (h : e ∈ applyRow row id table) :
    e.credentialType = "api_key" ∧ e.provider = row.provider ∨ e ∈ table := by
  induction table with
  | nil => exact .inl (List.mem_singleton.mp h ▸ ⟨rfl, rfl⟩)
  | cons first table ih =>
      rw [applyRow] at h
      split at h
      next hfinds =>
        rcases List.mem_cons.mp h with rfl | hmem
        · exact .inl ⟨hfinds.2, hfinds.1⟩
        · exact .inr (List.mem_cons_of_mem _ hmem)
      next =>
        rcases List.mem_cons.mp h with rfl | hmem
        · exact .inr List.mem_cons_self
        · exact (ih hmem).imp_right (List.mem_cons_of_mem _)

/-- Applying a row puts its key in the place of the one its provider had. -/
theorem held_applyRow (h : Distinct table) (row : Row) (id : ℕ) :
    (∃ e ∈ applyRow row id table, e.holds key) ↔
      key = row.key ∨ (∃ e ∈ table, e.holds key) ∧ key.1 ≠ row.provider := by
  induction table with
  | nil =>
      rw [applyRow]
      simp [Entry.holds, Row.key_eq]
  | cons first table ih =>
      rw [applyRow, List.exists_mem_cons_iff]
      split
      next hfinds =>
        obtain ⟨hprovider, htype⟩ := hfinds
        have hnew : Entry.holds { first with data := row.data } key ↔ key = row.key := by
          rw [Row.key_eq, ← hprovider]
          exact and_iff_right htype
        have hold (hholds : ∃ e ∈ table, e.holds key) : key.1 ≠ row.provider := by
          obtain ⟨e, hmem, htype', hprovider', -⟩ := hholds
          exact fun hsame ↦ h.not_finds ⟨hprovider, htype⟩ hmem ⟨hprovider'.trans hsame, htype'⟩
        rw [List.exists_mem_cons_iff, hnew]
        refine or_congr_right ⟨fun hholds ↦ ⟨.inr hholds, hold hholds⟩, ?_⟩
        rintro ⟨⟨-, hprovider', -⟩ | hholds, hne⟩
        · exact absurd (hprovider'.symm.trans hprovider) hne
        · exact hholds
      next hfinds =>
        rw [List.exists_mem_cons_iff, ih (List.pairwise_cons.mp h).2]
        constructor
        · rintro (hfirst | hkey | ⟨hholds, hne⟩)
          · refine .inr ⟨.inl hfirst, fun hsame ↦ hfinds ⟨hfirst.2.1.trans hsame, hfirst.1⟩⟩
          · exact .inl hkey
          · exact .inr ⟨.inr hholds, hne⟩
        · rintro (hkey | ⟨hfirst | hholds, hne⟩)
          · exact .inr (.inl hkey)
          · exact .inl hfirst
          · exact .inr (.inr ⟨hholds, hne⟩)

theorem Distinct.applyRow (h : Distinct table) (row : Row) (id : ℕ) :
    Distinct (applyRow row id table) := by
  induction table with
  | nil => exact List.pairwise_singleton _ _
  | cons first table ih =>
      obtain ⟨hfirst, htable⟩ := List.pairwise_cons.mp h
      rw [Opencode.applyRow]
      split
      next => exact List.pairwise_cons.mpr ⟨hfirst, htable⟩
      next hfinds =>
        refine List.pairwise_cons.mpr ⟨fun e hmem htype htype' ↦ ?_, ih htable⟩
        rcases mem_applyRow hmem with ⟨-, hprovider⟩ | hmem
        · exact fun hsame ↦ hfinds ⟨hsame.trans hprovider, htype⟩
        · exact hfirst e hmem htype htype'

theorem held_applyRows (h : Distinct table) (hrows : Sorted (keysOf rows)) :
    (∃ e ∈ applyRows fresh table rows, e.holds key) ↔
      key ∈ keysOf rows ∨ (∃ e ∈ table, e.holds key) ∧ key.1 ∉ providers (keysOf rows) := by
  induction rows generalizing table with
  | nil =>
      rw [applyRows, List.foldl_nil]
      simp [keysOf, providers]
  | cons row rows ih =>
      obtain ⟨hless, hrest⟩ := List.pairwise_cons.mp hrows
      have hfold : applyRows fresh table (row :: rows) =
          applyRows fresh (applyRow row (fresh table) table) rows := rfl
      have hkeys : keysOf (row :: rows) = row.key :: keysOf rows := rfl
      have hproviders : providers (row.key :: keysOf rows) =
          row.provider :: providers (keysOf rows) := rfl
      rw [hfold, ih (h.applyRow row _) hrest, held_applyRow h, hkeys, hproviders, List.mem_cons,
        List.mem_cons, not_or]
      constructor
      · rintro (hlater | ⟨hkey | ⟨hholds, hne⟩, hlater⟩)
        · exact .inl (.inr hlater)
        · exact .inl (.inl hkey)
        · exact .inr ⟨hholds, hne, hlater⟩
      · rintro ((hkey | hlater) | ⟨hholds, hne, hlater⟩)
        · refine .inr ⟨.inl hkey, fun hmem ↦ ?_⟩
          obtain ⟨later, hlater, hsame⟩ := List.mem_map.mp hmem
          exact (hless later hlater).ne (hkey ▸ hsame.symm)
        · exact .inl hlater
        · exact .inr ⟨.inr ⟨hholds, hne⟩, hlater⟩

theorem Distinct.applyRows (h : Distinct table) (rows : List Row) :
    Distinct (applyRows fresh table rows) := by
  induction rows generalizing table with
  | nil => exact h
  | cons row rows ih => exact ih (h.applyRow row _)

theorem mem_keys : key ∈ keys table ↔ (∃ e ∈ table, e.holds key) ∧ like key.1 = true := by
  rw [keys, keysOf, List.mem_map]
  constructor
  · rintro ⟨row, hrow, rfl⟩
    rw [readOpencodeRows, List.mem_mergeSort, List.mem_map] at hrow
    obtain ⟨e, hmem, rfl⟩ := hrow
    obtain ⟨hmem, hkey⟩ := List.mem_filter.mp hmem
    obtain ⟨hlike, htype⟩ := (Bool.and_eq_true _ _).mp hkey
    exact ⟨⟨e, hmem, eq_of_beq htype, rfl, rfl⟩, hlike⟩
  · rintro ⟨⟨e, hmem, htype, hprovider, hdata⟩, hlike⟩
    have hkey : e.isKey = true := by simp [Entry.isKey, htype, hprovider, hlike]
    refine ⟨e.row, ?_, Prod.ext hprovider hdata⟩
    rw [readOpencodeRows, List.mem_mergeSort]
    exact List.mem_map.mpr ⟨e, List.mem_filter.mpr ⟨hmem, hkey⟩, rfl⟩

/-- What is read of a table in which no provider has two keys. -/
theorem sorted_keys (h : Distinct table) : Sorted (keys table) := by
  have hdiffer : ((table.filter Entry.isKey).map Entry.row).Pairwise
      fun a b ↦ a.provider ≠ b.provider := by
    refine List.pairwise_map.mpr ((h.filter Entry.isKey).imp_of_mem fun {e e'} hmem hmem' hne ↦ ?_)
    have htype : ∀ {e : Entry}, e ∈ table.filter Entry.isKey → e.credentialType = "api_key" :=
      fun hmem ↦ eq_of_beq ((Bool.and_eq_true _ _).mp (List.mem_filter.mp hmem).2).2
    exact hne (htype hmem) (htype hmem')
  have hordered : (readOpencodeRows table).Pairwise fun a b ↦ before a b = true :=
    List.pairwise_mergeSort
      (fun a b c hab hbc ↦ decide_eq_true ((of_decide_eq_true hab).trans (of_decide_eq_true hbc)))
      (fun a b ↦ by
        rw [Bool.or_eq_true]
        exact (le_total a.provider b.provider).imp decide_eq_true decide_eq_true) _
  have hread : (readOpencodeRows table).Pairwise fun a b ↦ a.provider ≠ b.provider :=
    (List.mergeSort_perm _ _).symm.pairwise hdiffer fun hab ↦ hab.symm
  exact List.pairwise_map.mpr
    (hordered.imp₂ (fun a b hle hne ↦ lt_of_le_of_ne (of_decide_eq_true hle) hne) hread)

theorem Sorted.nodup {ks : List Key} (h : Sorted ks) : ks.Nodup :=
  h.imp fun hlt hsame ↦ (congrArg Prod.fst hsame ▸ hlt).false

theorem Sorted.ext {ks ks' : List Key} (h : Sorted ks) (h' : Sorted ks')
    (hmem : ∀ key, key ∈ ks ↔ key ∈ ks') : ks = ks' :=
  ((List.perm_ext_iff_of_nodup h.nodup h'.nodup).mpr hmem).eq_of_pairwise
    (fun _ _ _ _ hab hba ↦ absurd hba hab.asymm) h h'

theorem mem_keys_applyRows (h : Distinct table) (hrows : Sorted (keysOf rows))
    (hlike : ∀ key ∈ keysOf rows, like key.1 = true) :
    key ∈ keys (applyRows fresh table rows) ↔
      key ∈ keysOf rows ∨ key ∈ keys table ∧ key.1 ∉ providers (keysOf rows) := by
  rw [mem_keys, held_applyRows h hrows, mem_keys]
  constructor
  · rintro ⟨hrow | ⟨hholds, hprovider⟩, hlike'⟩
    · exact .inl hrow
    · exact .inr ⟨⟨hholds, hlike'⟩, hprovider⟩
  · rintro (hrow | ⟨⟨hholds, hlike'⟩, hprovider⟩)
    · exact ⟨.inl hrow, hlike key hrow⟩
    · exact ⟨.inr ⟨hholds, hprovider⟩, hlike'⟩

theorem apply_keeps_iff (h : Distinct table) (hrows : Sorted (keysOf rows))
    (hlike : ∀ key ∈ keysOf rows, like key.1 = true) :
    keys (applyRows fresh table rows) = keysOf rows ↔
      ∀ key ∈ keys table, key.1 ∈ providers (keysOf rows) := by
  constructor
  · intro hsame key hkey
    by_contra hprovider
    have hkept : key ∈ keys (applyRows fresh table rows) :=
      (mem_keys_applyRows h hrows hlike).mpr (.inr ⟨hkey, hprovider⟩)
    rw [hsame] at hkept
    exact hprovider (List.mem_map.mpr ⟨key, hkept, rfl⟩)
  · intro hcovered
    refine (sorted_keys (h.applyRows rows)).ext hrows fun key ↦ ?_
    rw [mem_keys_applyRows h hrows hlike]
    exact or_iff_left fun hkept ↦ hkept.2 (hcovered key hkept.1)

/-- The keys come back as they were parked exactly where every provider that has one is
among them; the others keep the key of the account before, beside them. -/
theorem apply_exact (h : Distinct table) (hrows : Sorted (keysOf rows))
    (hlike : ∀ key ∈ keysOf rows, like key.1 = true) :
    (keys (applyRows fresh table rows) = keysOf rows ↔
      ∀ key ∈ keys table, key.1 ∈ providers (keysOf rows)) ∧
    ∀ key, key ∈ keys (applyRows fresh table rows) ↔
      key ∈ keysOf rows ∨ key ∈ keys table ∧ key.1 ∉ providers (keysOf rows) :=
  ⟨apply_keeps_iff h hrows hlike, fun _ ↦ mem_keys_applyRows h hrows hlike⟩

/-- The account before has a key for a provider that the parked one has none for. -/
theorem zenKey_stays : ("opencode-zen", "before") ∈ keys (applyRows (fun table ↦ table.length + 1)
    [⟨1, "opencode-go", "api_key", "before"⟩, ⟨2, "opencode-zen", "api_key", "before"⟩]
    [⟨some 7, "opencode-go", "after"⟩]) := by
  have hzen : like "opencode-zen" = true := by decide +kernel
  have hgo : like "opencode-go" = true := by decide +kernel
  have hdistinct : Distinct [⟨1, "opencode-go", "api_key", "before"⟩,
      ⟨2, "opencode-zen", "api_key", "before"⟩] := by
    rw [Distinct, List.pairwise_pair]
    exact fun _ _ ↦ by decide
  have hrows : Sorted (keysOf [⟨some 7, "opencode-go", "after"⟩]) := List.pairwise_singleton _ _
  refine ((apply_exact hdistinct hrows fun key hkey ↦ ?_).2 _).mpr
    (.inr ⟨mem_keys.mpr ⟨⟨_, List.mem_cons_of_mem _ List.mem_cons_self, rfl, rfl, rfl⟩, hzen⟩, ?_⟩)
  · rw [List.mem_singleton.mp hkey]
    exact hgo
  · exact fun hmem ↦ absurd (List.mem_singleton.mp hmem) (by decide)

/-! ## The commands -/

structure State where
  /-- The table, if there is one. -/
  db : Option (List Entry)
  /-- `credentials.json` of the labels; `meta.json` is always written with it. -/
  parked : String → Option (List Row)
  active : Option String
  /-- The labels of the registry. -/
  registered : String → Bool
  /-- Another command holds `.lock`, or one that was killed left it. -/
  locked : Bool

section Commands

-- How the key in the data is shown; empty where there is none.
variable (keyHint : String → String)

def rowsHaveKey (rows : List Row) : Bool := rows.any fun row ↦ keyHint row.data ≠ ""

/-- The hint in `meta_from_rows`. -/
def hintFromRows (rows : List Row) : String :=
  match rows.find? (·.provider == "opencode-go") with
  | some row => if keyHint row.data ≠ "" then keyHint row.data else first
  | none => first
where
  first : String := ((rows.map fun row ↦ keyHint row.data).find? (· ≠ "")).getD ""

def State.live (s : State) : List Row := (s.db.map readOpencodeRows).getD []

def dbHas (s : State) : Bool := rowsHaveKey keyHint s.live

def State.park (label : String) (rows : List Row) (s : State) : State :=
  { s with parked := Function.update s.parked label (some rows) }

/-- `reg-upsert`. -/
def State.adopt (label : String) (s : State) : State :=
  { s with active := some label, registered := Function.update s.registered label true }

variable (fresh)

/-- `add`; with `--key`, of the data that the key becomes. -/
def cmdAdd (label : String) (key : Option String) (s : State) : State :=
  if s.locked then s
  else
    match key with
    | some data =>
        let rows := [⟨none, "opencode-go", data⟩]
        match s.db with
        | some table =>
            ({ s with db := some (applyRows fresh table rows) }.park label rows).adopt label
        | none => s.park label rows
    | none => if dbHas keyHint s then (s.park label s.live).adopt label else s

/-- `apply` and `reg-activate`. -/
def State.applyParked (label : String) (s : State) : State :=
  match s.parked label, s.db with
  | some (row :: rows), some table =>
      { s with
        db := some (applyRows fresh table (row :: rows))
        active := if s.registered label then some label else s.active }
  | _, _ => s

/-- `use`; with `--force`, and while `omp` runs. -/
def cmdUse (label : String) (force running : Bool) (s : State) : State :=
  match s.parked label with
  | none => s
  | some rows =>
      if (s.active = some label ∧ dbHas keyHint s) ∧ hintFromRows keyHint rows ≠ "" ∧
          hintFromRows keyHint rows = hintFromRows keyHint s.live then s
      else if running && !force || s.locked then s
      else if dbHas keyHint s then
        match s.active with
        | some active => (s.park active s.live).applyParked fresh label
        | none => s
      else s.applyParked fresh label

def cmdRm (label : String) (s : State) : State :=
  if (s.active = some label ∨ s.parked label = none) ∨ s.locked then s
  else
    { s with
      parked := Function.update s.parked label none
      registered := Function.update s.registered label false }

/-! ## Runs -/

/-- With the keys that each label was adopted with. -/
structure World where
  state : State
  adopted : String → Option (List Key)

def State.keysParked (s : State) (label : String) : Option (List Key) :=
  (s.parked label).map keysOf

inductive Event where
  | add (label : String) (key : Option String)
  | use (label : String) (force running : Bool)
  | rm (label : String)
  /-- What happens to the table outside of the tool. -/
  | login (table : List Entry)
  /-- The lock is there, or is not. -/
  | lock (locked : Bool)

def Next (w : World) : Event → World → Prop
  | .add label key, w' => w' = ⟨cmdAdd fresh keyHint label key w.state,
      Function.update w.adopted label ((cmdAdd fresh keyHint label key w.state).keysParked label)⟩
  | .use label force running, w' =>
      w' = ⟨cmdUse fresh keyHint label force running w.state, w.adopted⟩
  | .rm label, w' => w' = ⟨cmdRm label w.state,
      Function.update w.adopted label ((cmdRm label w.state).keysParked label)⟩
  | .login table, w' => w' = ⟨{ w.state with db := some table }, w.adopted⟩
  | .lock locked, w' => w' = ⟨{ w.state with locked }, w.adopted⟩

/-- Keys of these providers and no others, one of each. -/
def Covered (ps : List String) (table : List Entry) : Prop :=
  Distinct table ∧ ∀ key ∈ keys table, key.1 ∈ ps

def swaps (ps : List String) : System World Event where
  start w := (∀ table, w.state.db = some table → Covered ps table) ∧
    ∀ label, w.state.parked label = none ∧ w.adopted label = none
  next := Next fresh keyHint

/-- Every account is adopted with a key for each of the providers, and the live keys are those
of the active label when another is taken. -/
def Keeps (ps : List String) (w : World) : Event → Prop
  | .add _ (some _) => w.state.db ≠ none ∧ ps = ["opencode-go"]
  | .add _ none => dbHas keyHint w.state → providers (keysOf w.state.live) = ps
  | .use _ _ _ => dbHas keyHint w.state →
      ∀ label, w.state.active = some label → w.adopted label = some (keysOf w.state.live)
  | .rm _ => True
  | .login table => Covered ps table
  | .lock _ => True

structure Complete (ps : List String) (ks : List Key) : Prop where
  sorted : Sorted ks
  providers : providers ks = ps
  like : ∀ key ∈ ks, like key.1 = true
  ne : ks ≠ []

structure Inv (ps : List String) (w : World) : Prop where
  db : ∀ table, w.state.db = some table → Covered ps table
  parked : ∀ label, w.state.keysParked label = w.adopted label
  complete : ∀ label ks, w.adopted label = some ks → Complete ps ks
  registered : ∀ label ks, w.adopted label = some ks → w.state.registered label = true

variable {fresh keyHint} {ps : List String} {w : World} {label : String} {ks : List Key}

theorem covered_apply (h : Covered ps table) (hrows : Complete ps (keysOf rows)) :
    Covered ps (applyRows fresh table rows) := by
  refine ⟨h.1.applyRows rows, fun key hkey ↦ ?_⟩
  rcases (mem_keys_applyRows h.1 hrows.sorted hrows.like).mp hkey with hmem | ⟨hmem, -⟩
  · exact hrows.providers ▸ List.mem_map.mpr ⟨key, hmem, rfl⟩
  · exact h.2 key hmem

theorem complete_live (h : Inv ps w) (hhas : dbHas keyHint w.state = true)
    (hproviders : providers (keysOf w.state.live) = ps) : Complete ps (keysOf w.state.live) := by
  have hne : w.state.live ≠ [] := by
    intro hempty
    rw [dbHas, hempty] at hhas
    cases hhas
  cases hdb : w.state.db with
  | none =>
      rw [State.live, hdb] at hne
      exact absurd rfl hne
  | some table =>
      have hlive : w.state.live = readOpencodeRows table := by
        rw [State.live, hdb]
        rfl
      rw [hlive] at hproviders hne ⊢
      exact ⟨sorted_keys (h.db table hdb).1, hproviders, fun key hkey ↦ (mem_keys.mp hkey).2,
        fun hnil ↦ hne (List.map_eq_nil_iff.mp hnil)⟩

theorem Inv.start (h : (swaps fresh keyHint ps).start w) : Inv ps w := by
  have hnone : ∀ label ks, w.adopted label ≠ some ks :=
    fun label ks hsome ↦ nomatch (h.2 label).2.symm.trans hsome
  exact {
    db := h.1
    parked := fun label ↦ by rw [State.keysParked, (h.2 label).1, (h.2 label).2]; rfl
    complete := fun label ks hsome ↦ absurd hsome (hnone label ks)
    registered := fun label ks hsome ↦ absurd hsome (hnone label ks) }

theorem keysParked_self {s : State} (hparked : s.parked label = some rows) :
    s.keysParked label = some (keysOf rows) := by
  rw [State.keysParked, hparked]
  rfl

/-- A label is adopted, or its rows are the ones that it had. -/
theorem Inv.adopt (h : Inv ps w) {s : State} (hrows : Complete ps (keysOf rows))
    (hdb : ∀ table, s.db = some table → Covered ps table)
    (hparked : s.parked = Function.update w.state.parked label (some rows))
    (hregistered : s.registered = Function.update w.state.registered label true) :
    Inv ps ⟨s, Function.update w.adopted label (s.keysParked label)⟩ := by
  have hself : s.keysParked label = some (keysOf rows) :=
    keysParked_self (hparked ▸ Function.update_self ..)
  rw [hself]
  refine ⟨hdb, fun label' ↦ ?_, fun label' ks' h' ↦ ?_, fun label' ks' h' ↦ ?_⟩
  · dsimp only
    by_cases hsame : label' = label
    · subst hsame
      rw [hself, Function.update_self]
    · rw [State.keysParked, hparked, Function.update_of_ne hsame, Function.update_of_ne hsame]
      exact h.parked label'
  · dsimp only at h'
    by_cases hsame : label' = label
    · subst hsame
      rw [Function.update_self] at h'
      exact Option.some.inj h' ▸ hrows
    · rw [Function.update_of_ne hsame] at h'
      exact h.complete label' ks' h'
  · dsimp only at h' ⊢
    by_cases hsame : label' = label
    · subst hsame
      rw [hregistered, Function.update_self]
    · rw [Function.update_of_ne hsame] at h'
      rw [hregistered, Function.update_of_ne hsame]
      exact h.registered label' ks' h'

theorem Inv.same (h : Inv ps w) :
    Inv ps ⟨w.state, Function.update w.adopted label (w.state.keysParked label)⟩ := by
  rw [h.parked label, Function.update_eq_self]
  exact h

theorem go_complete (id : Option ℕ) (data : String) :
    Complete ["opencode-go"] (keysOf [⟨id, "opencode-go", data⟩]) := by
  have hgo : like "opencode-go" = true := by decide +kernel
  refine ⟨List.pairwise_singleton _ _, rfl, fun key hkey ↦ ?_, List.cons_ne_nil _ _⟩
  rw [List.mem_singleton.mp hkey]
  exact hgo

theorem Inv.add (h : Inv ps w) {key : Option String}
    (hkeeps : Keeps keyHint ps w (.add label key)) :
    Inv ps ⟨cmdAdd fresh keyHint label key w.state,
      Function.update w.adopted label
        ((cmdAdd fresh keyHint label key w.state).keysParked label)⟩ := by
  cases hlocked : w.state.locked with
  | true =>
      have hadd : cmdAdd fresh keyHint label key w.state = w.state := if_pos hlocked
      rw [hadd]
      exact h.same
  | false =>
      have hopen : ¬w.state.locked = true := by rw [hlocked]; exact Bool.false_ne_true
      cases key with
      | some data =>
          obtain ⟨hdb, rfl⟩ := hkeeps
          obtain ⟨table, htable⟩ := Option.ne_none_iff_exists'.mp hdb
          have hadd : cmdAdd fresh keyHint label (some data) w.state =
              ({ w.state with db := some (applyRows fresh table [⟨none, "opencode-go", data⟩]) }.park
                label [⟨none, "opencode-go", data⟩]).adopt label := by
            rw [cmdAdd.eq_def, if_neg hopen]
            simp only [htable]
          rw [hadd]
          refine h.adopt (go_complete none data) (fun table' htable' ↦ ?_) rfl rfl
          obtain rfl := Option.some.inj htable'
          exact covered_apply (h.db table htable) (go_complete none data)
      | none =>
          by_cases hhas : dbHas keyHint w.state = true
          · have hadd : cmdAdd fresh keyHint label none w.state =
                (w.state.park label w.state.live).adopt label :=
              (if_neg hopen).trans (if_pos hhas)
            rw [hadd]
            exact h.adopt (complete_live h hhas (hkeeps hhas)) h.db rfl rfl
          · have hadd : cmdAdd fresh keyHint label none w.state = w.state := by
              rw [cmdAdd, if_neg hopen]
              exact if_neg hhas
            rw [hadd]
            exact h.same

theorem Inv.rm (h : Inv ps w) :
    Inv ps ⟨cmdRm label w.state,
      Function.update w.adopted label ((cmdRm label w.state).keysParked label)⟩ := by
  by_cases hrefused :
      (w.state.active = some label ∨ w.state.parked label = none) ∨ w.state.locked = true
  · have hrm : cmdRm label w.state = w.state := by
      rw [cmdRm, if_pos hrefused]
    rw [hrm]
    exact h.same
  · have hself : (cmdRm label w.state).keysParked label = none := by
      rw [State.keysParked, cmdRm, if_neg hrefused]
      dsimp only
      rw [Function.update_self]
      rfl
    have hother : ∀ label' ks, Function.update w.adopted label none label' = some ks →
        label' ≠ label ∧ w.adopted label' = some ks := by
      intro label' ks h'
      by_cases hsame : label' = label
      · subst hsame
        cases (Function.update_self ..).symm.trans h'
      · exact ⟨hsame, (Function.update_of_ne hsame ..).symm.trans h'⟩
    rw [hself, cmdRm, if_neg hrefused]
    refine ⟨h.db, fun label' ↦ ?_, fun label' ks h' ↦ ?_, fun label' ks h' ↦ ?_⟩
    · dsimp only
      by_cases hsame : label' = label
      · subst hsame
        rw [State.keysParked]
        dsimp only
        rw [Function.update_self, Function.update_self]
        rfl
      · rw [State.keysParked]
        dsimp only
        rw [Function.update_of_ne hsame, Function.update_of_ne hsame]
        exact h.parked label'
    · exact h.complete label' ks (hother label' ks h').2
    · obtain ⟨hne, hadopted⟩ := hother label' ks h'
      exact (Function.update_of_ne hne ..).trans (h.registered label' ks hadopted)

/-- The keys of the active label are parked as they were. -/
theorem Inv.park (h : Inv ps w) {active : String}
    (hlive : w.adopted active = some (keysOf w.state.live)) :
    Inv ps ⟨w.state.park active w.state.live, w.adopted⟩ := by
  refine ⟨h.db, fun label' ↦ ?_, h.complete, h.registered⟩
  by_cases hsame : label' = active
  · subst hsame
    exact (keysParked_self (Function.update_self ..)).trans hlive.symm
  · rw [State.keysParked, State.park]
    dsimp only
    rw [Function.update_of_ne hsame]
    exact h.parked label'

theorem Inv.applyParked (h : Inv ps w) : Inv ps ⟨w.state.applyParked fresh label, w.adopted⟩ := by
  rw [State.applyParked]
  split
  next row rows table hparked hdb =>
    have hcomplete : Complete ps (keysOf (row :: rows)) :=
      h.complete label _ ((h.parked label).symm.trans (keysParked_self hparked))
    refine ⟨fun table' htable' ↦ ?_, h.parked, h.complete, h.registered⟩
    obtain rfl := Option.some.inj htable'
    exact covered_apply (h.db table hdb) hcomplete
  next => exact h

theorem Inv.use (h : Inv ps w) {force running : Bool}
    (hkeeps : Keeps keyHint ps w (.use label force running)) :
    Inv ps ⟨cmdUse fresh keyHint label force running w.state, w.adopted⟩ := by
  rw [cmdUse]
  split
  next => exact h
  next =>
    split
    next => exact h
    next =>
      split
      next => exact h
      next =>
        split
        next hhas =>
          split
          next active hactive => exact (h.park (hkeeps hhas active hactive)).applyParked
          next => exact h
        next => exact h.applyParked

theorem Inv.next (h : Inv ps w) {e : Event} {w' : World} (hkeeps : Keeps keyHint ps w e)
    (hnext : Next fresh keyHint w e w') : Inv ps w' := by
  cases e with
  | add label key => exact hnext ▸ h.add hkeeps
  | use label force running => exact hnext ▸ h.use hkeeps
  | rm label => exact hnext ▸ h.rm
  | login table =>
      refine hnext ▸ ⟨fun table' htable' ↦ ?_, h.parked, h.complete, h.registered⟩
      obtain rfl := Option.some.inj htable'
      exact hkeeps
  | lock locked => exact hnext ▸ ⟨h.db, h.parked, h.complete, h.registered⟩

end Commands

def unused : World := ⟨⟨none, fun _ ↦ none, none, fun _ ↦ false, false⟩, fun _ ↦ none⟩

end RemoteDevbox.Account.Opencode
